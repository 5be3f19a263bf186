import HeaderAtlas.Json.Basic
import HeaderAtlas.Text.Basic
import HeaderAtlas.Text.Digit
import HeaderAtlas.Text.Printable
/-!
# Whole numbers

Where a whole number is wanted, other values may stand for one. A number with a fraction loses it, and
a text is read: digits of any script, with a sign before them, single underscores between them and
white space around them. A text of too many digits is refused before the rest of it is looked at.
-/

set_option autoImplicit false

namespace HeaderAtlas

inductive NotWhole where
  /-- The text is no number. -/
  | text (given : Text)
  /-- The number has too many digits. -/
  | long (digits : Nat)
  /-- Values of this kind stand for no number. -/
  | kind (name : String)
  | infinite
  | notNumber
  deriving DecidableEq, Repr

namespace Number

/-- The most digits that are read as one whole number. A text of more is refused without being worked out. -/
def maxDigits : Nat := 4300

def longMessage (digits : Nat) : Text :=
  "Exceeds the limit (" ++ Text.ofNat maxDigits ++
    " digits) for integer string conversion: value has " ++ Text.ofNat digits ++
    " digits; use sys.set_int_max_str_digits() to increase the limit"

end Number

/-- The message about what stands for no whole number. It shows the first 200 characters of a text in quotes, so the
closing quote may be missing. -/
def NotWhole.message : NotWhole → Text
  | .text given => "invalid literal for int() with base 10: " ++ given.quoted.take 200
  | .long digits => Number.longMessage digits
  | .kind name =>
    "int() argument must be a string, a bytes-like object or a real number, not '" ++ name ++ "'"
  | .infinite => "cannot convert float infinity to integer"
  | .notNumber => "cannot convert float NaN to integer"

namespace Number

/-- White space around a number. Of the first 128 characters six are white space here: the four separators of the
control block, which are stripped from values that were typed, are not. -/
def isMargin (c : CodePoint) : Bool :=
  (0x9 ≤ c.val && c.val ≤ 0xD) || c.val == 0x20 || (0x80 ≤ c.val && c.isBlank)

/-- The digits that a text begins with, without the underscores between them, and what follows them.
There is no number where underscores begin, end or follow one another. -/
def groupedDigits (afterDigit : Bool) : Text → Option (Text × Text)
  | [] => if afterDigit then some ([], []) else none
  | c :: rest =>
    if c.decimalValue?.isSome then (groupedDigits true rest).map fun (digits, after) => (c :: digits, after)
    else if c = '_' then if afterDigit then groupedDigits false rest else none
    else if afterDigit then some ([], c :: rest)
    else none

def signed : Text → Bool × Text
  | [] => (false, [])
  | c :: rest => if c = '-' then (true, rest) else if c = '+' then (false, rest) else (false, c :: rest)

/-- The whole number that a text stands for. That it has too many digits is found before it is known to be a number at
all. -/
def wholeOfText (given : Text) : Except NotWhole Int :=
  let (negative, unsigned) := signed (given.dropWhile isMargin)
  match groupedDigits false unsigned with
  | none => .error (.text given)
  | some (digits, after) =>
    if maxDigits < digits.length then .error (.long digits.length)
    else
      match Text.decimalNumber? digits, after.all isMargin with
      | some n, true => .ok (if negative then -(n : Int) else n)
      | _, _ => .error (.text given)

/-- A number without its fraction, worked out exactly from its bits. -/
def wholeOfFloat (x : Float) : Except NotWhole Int :=
  let bits := x.toBits.toNat
  let exponent := bits / Nat.pow 2 52 % 2048
  let fraction := bits % Nat.pow 2 52
  if exponent = 2047 then .error (if fraction = 0 then .infinite else .notNumber)
  else
    let mantissa := if exponent = 0 then fraction else Nat.pow 2 52 + fraction
    let size : Nat :=
      if exponent < 1075 then mantissa / Nat.pow 2 (1075 - exponent)
      else mantissa * Nat.pow 2 (exponent - 1075)
    .ok (if bits / Nat.pow 2 63 = 1 then -(size : Int) else size)

end Number

/-- The whole number that a value stands for. A yes or no stands for one or zero. -/
def Json.toWhole : Json → Except NotWhole Int
  | .int n => .ok n
  | .bool b => .ok b.toNat
  | .float x => Number.wholeOfFloat x
  | .str t => Number.wholeOfText t
  | other => .error (.kind other.kindName)

example : (Number.wholeOfText " -1_000 ").toOption = some (-1000) := by decide

example : (Number.wholeOfText "1__0").toOption = none := by decide

end HeaderAtlas
