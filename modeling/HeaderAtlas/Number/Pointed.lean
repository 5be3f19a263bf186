import HeaderAtlas.Text.Basic
/-!
# Numbers with a decimal point

How a whole number is written where a number with a fraction is expected: with a number of decimal
places, with an exponent, or in the shorter of both ways. The number is first brought to the 53 binary
digits that a floating point number has. What is cut off is rounded to the nearest, and from the middle
to the even neighbour.
-/

set_option autoImplicit false

namespace HeaderAtlas

namespace Number

def roundDiv (n d : Nat) : Nat :=
  let q := n / d
  let r := n % d
  if 2 * r < d ∨ (2 * r = d ∧ q % 2 = 0) then q else q + 1

/-- The floating point number nearest to a whole number; `none` if there is none that great. It is a whole number
itself, so the texts below can be worked out digit by digit. -/
def toDouble (n : Nat) : Option Nat :=
  let unit := Nat.pow 2 (n.log2 - 52)
  let rounded := roundDiv n unit * unit
  if rounded < Nat.pow 2 1024 then some rounded else none

structure Pointed where
  /-- The number of decimal places, or of digits. -/
  precision : Nat
  /-- Whether the point and zeros at the end stay where they could be left out. -/
  keep : Bool
  /-- The letter before an exponent. -/
  mark : CodePoint

namespace Pointed

def zeros (n : Nat) : Text := List.replicate n (CodePoint.ofChar '0')

/-- Decimal places, with the point before them if there are any or if it is to stay. -/
def places (p : Pointed) (digits : Text) : Text :=
  if digits.isEmpty && !p.keep then [] else CodePoint.ofChar '.' :: digits

def fixed (p : Pointed) (n : Nat) : Text := Text.ofNat n ++ p.places (zeros p.precision)

/-- The first `count` digits of a number, rounded, and the exponent of the first of them. -/
def leading (count n : Nat) : Text × Nat :=
  let digits := Text.ofNat n
  if digits.length ≤ count then (digits ++ zeros (count - digits.length), digits.length - 1)
  else
    let rounded := Text.ofNat (roundDiv n (Nat.pow 10 (digits.length - count)))
    -- Nines may have been rounded up to one digit more.
    (rounded.take count, digits.length - 1 + (rounded.length - count))

/-- An exponent of at least two digits. Whole numbers have no negative ones. -/
def exponentText (p : Pointed) (e : Nat) : Text :=
  let digits := Text.ofNat e
  p.mark :: CodePoint.ofChar '+' :: zeros (2 - digits.length) ++ digits

def scientific (p : Pointed) (n : Nat) : Text :=
  let (digits, e) := leading (p.precision + 1) n
  digits.take 1 ++ p.places (digits.drop 1) ++ p.exponentText e

/-- A number with an exponent if it has more digits than are wanted, and without one otherwise. Zeros at
the end are left out unless they are to stay. -/
def general (p : Pointed) (n : Nat) : Text :=
  let count := max p.precision 1
  let (digits, e) := leading count n
  let trim (t : Text) : Text :=
    if p.keep then t else Text.dropRightWhile (· == CodePoint.ofChar '0') t
  if e < count then digits.take (e + 1) ++ p.places (trim (digits.drop (e + 1)))
  else digits.take 1 ++ p.places (trim (digits.drop 1)) ++ p.exponentText e

end Pointed

example : Pointed.scientific ⟨0, false, 'e'⟩ 25 = Text.ofString "2e+01" := by decide

example : Pointed.general ⟨2, false, 'e'⟩ 995 = Text.ofString "1e+03" := by decide

end Number

end HeaderAtlas
