import HeaderAtlas.Text.Basic
/-!
# Shortest decimal of a floating point number

A finite number is written with the fewest digits that read back as the same number, and of those
with the nearest. All arithmetic is exact: the number is `m * 2 ^ q`, and the reals that round to it
form an interval around it whose ends belong to it if `m` is even.
-/

set_option autoImplicit false

namespace HeaderAtlas

namespace Number

structure Ratio where
  num : Nat
  den : Nat

namespace Ratio

def scale2 (n : Nat) (e : Int) : Ratio :=
  if e < 0 then ⟨n, Nat.pow 2 (-e).toNat⟩ else ⟨n * Nat.pow 2 e.toNat, 1⟩

def scale10 (n : Nat) (e : Int) : Ratio :=
  if e < 0 then ⟨n, Nat.pow 10 (-e).toNat⟩ else ⟨n * Nat.pow 10 e.toNat, 1⟩

def lt (a b : Ratio) : Bool := a.num * b.den < b.num * a.den

def eqv (a b : Ratio) : Bool := a.num * b.den == b.num * a.den

def floorDiv10 (a : Ratio) (e : Int) : Nat :=
  if e < 0 then a.num * Nat.pow 10 (-e).toNat / a.den else a.num / (a.den * Nat.pow 10 e.toNat)

/-- The `e` for which a positive quotient is at least `10 ^ (e - 1)` and below `10 ^ e`. The numbers of digits give it
but for one, and one comparison settles that. -/
def magnitude (a : Ratio) : Int :=
  let e : Int := (Nat.toDigits 10 a.num).length - (Nat.toDigits 10 a.den).length
  if a.lt (scale10 1 e) then e else e + 1

def distance (a b : Ratio) : Ratio :=
  let x := a.num * b.den
  let y := b.num * a.den
  ⟨if x < y then y - x else x - y, a.den * b.den⟩

end Ratio

/-- The reals that round to one floating point number. They reach half way to its neighbours, and the ends belong to
it if its last binary digit is even, since a real in the middle rounds to the even neighbour. -/
structure Rounding where
  value : Ratio
  low : Ratio
  high : Ratio
  closed : Bool

def Rounding.holds (r : Rounding) (a : Ratio) : Bool :=
  (r.low.lt a || (r.closed && r.low.eqv a)) && (a.lt r.high || (r.closed && r.high.eqv a))

/-- The rounding interval of the number with the given exponent and fraction fields. -/
def Rounding.ofFields (exponent fraction : Nat) : Rounding :=
  let m := if exponent = 0 then fraction else Nat.pow 2 52 + fraction
  let q : Int := (if exponent = 0 then 1 else exponent) - 1075
  let low :=
    -- below a power of two the numbers lie twice as close
    if fraction = 0 ∧ 1 < exponent then Ratio.scale2 (4 * m - 1) (q - 2)
    else Ratio.scale2 (2 * m - 1) (q - 1)
  ⟨Ratio.scale2 m q, low, Ratio.scale2 (2 * m + 1) (q - 1), m % 2 = 0⟩

/-- Digits and decimal point position: `0.d₁d₂… * 10 ^ point`. -/
structure Decimal where
  digits : Nat
  point : Int

/-- The neighbour on the grid of `n` digits that rounds to the number and is nearest to it. Only the two grid points
around the number can be, since the interval holds the number itself. -/
def Rounding.onGrid? (r : Rounding) (n : Nat) : Option Decimal :=
  let top := r.value.magnitude
  let e := top - n
  let below := r.value.floorDiv10 e
  let down := Ratio.scale10 below e
  let up := Ratio.scale10 (below + 1) e
  let decimal (d : Nat) : Decimal := ⟨d, (Nat.toDigits 10 d).length + e⟩
  match r.holds down && below != 0, r.holds up with
  | false, false => none
  | true, false => some (decimal below)
  | false, true => some (decimal (below + 1))
  | true, true =>
    let a := r.value.distance down
    let b := r.value.distance up
    if a.lt b || (a.eqv b && below % 2 == 0) then some (decimal below)
    else some (decimal (below + 1))

/-- The fewest digits that read back; seventeen always do, so the search never comes away empty. -/
def Rounding.shortest (r : Rounding) : Decimal :=
  ((List.range 17).findSome? fun n => r.onGrid? (n + 1)).getD ⟨0, 0⟩

/-- Writes digits plainly from `10 ^ -4` up to below `10 ^ 16`, and with an exponent of at least two digits beyond. A
point is never left out, so that the text reads back as a number of this kind. -/
def Decimal.text (d : Decimal) : Text :=
  let digits := Text.dropRightWhile (· == CodePoint.ofChar '0') (Text.ofNat d.digits)
  let zeros (n : Nat) : Text := List.replicate n (CodePoint.ofChar '0')
  if -4 < d.point ∧ d.point ≤ 16 then
    if d.point ≤ 0 then "0." ++ zeros (-d.point).toNat ++ digits
    else
      let whole := d.point.toNat
      if digits.length ≤ whole then digits ++ zeros (whole - digits.length) ++ ".0"
      else digits.take whole ++ "." ++ digits.drop whole
  else
    let e := d.point - 1
    let mantissa := match digits with
      | [] => []
      | [c] => [c]
      | c :: rest => c :: CodePoint.ofChar '.' :: rest
    let size := Text.ofNat e.natAbs
    mantissa ++ (if e < 0 then "e-" else "e+") ++ zeros (2 - size.length) ++ size

/-- The text of a floating point number; `nan` and `infinity` are the words for what is not
finite. -/
def floatText (nan infinity : Text) (x : Float) : Text :=
  let bits := x.toBits.toNat
  let exponent := bits / Nat.pow 2 52 % 2048
  let fraction := bits % Nat.pow 2 52
  let sign : Text := if bits / Nat.pow 2 63 = 1 then "-" else []
  if exponent = 2047 then if fraction = 0 then sign ++ infinity else nan
  else if exponent = 0 ∧ fraction = 0 then sign ++ "0.0"
  else sign ++ (Rounding.ofFields exponent fraction).shortest.text

/-- The number nearest to `digits * 10 ^ exponent`. Exponents far outside the range of a `Float` are settled without
computing the power, which could be of any size. -/
def floatOfDecimal (negative : Bool) (digits : Nat) (exponent : Int) : Float :=
  let point := (Nat.toDigits 10 digits).length + exponent
  let size : Float :=
    if digits = 0 ∨ point < -400 then 0.0
    else if 400 < point then 1.0 / 0.0
    else Float.ofScientific digits (exponent < 0) exponent.natAbs
  if negative then -size else size

end Number

end HeaderAtlas
