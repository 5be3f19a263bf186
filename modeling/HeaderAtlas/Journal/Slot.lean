import HeaderAtlas.Journal.Field
import HeaderAtlas.Number.Pointed
import HeaderAtlas.Text.Capital
/-!
# Slots

A slot says which field of a record stands in its place and how it is written: after a percent sign, the field in
parentheses, signs, a width, a precision after a point, and a letter. A slot without a field stands for the whole
record.

Whether a slot can be written at all depends on the record as well as on the slot: a number has no room for more
digits than a machine word counts, and a text is no number. So reading a slot and writing one are two steps that fail
each on its own, and a line is lost only when its record comes to be written.
-/

set_option autoImplicit false

namespace HeaderAtlas

namespace Journal

/-- How the value of a field is written. Letters that ask for the same are one conversion. -/
inductive Conversion where
  | text
  | quoted
  | quotedAscii
  | character
  | decimal
  | octal
  | hexadecimal (capital : Bool)
  /-- With decimal places. -/
  | fixed
  /-- With an exponent. -/
  | scientific (capital : Bool)
  /-- With an exponent if there are many digits. -/
  | general (capital : Bool)
  deriving DecidableEq, Repr

def Conversion.ofLetter? (c : CodePoint) : Option Conversion :=
  match Char.ofNat c.val with
  | 's' => some .text
  | 'r' => some .quoted
  | 'a' => some .quotedAscii
  | 'c' => some .character
  | 'd' => some .decimal
  | 'i' => some .decimal
  | 'u' => some .decimal
  | 'o' => some .octal
  | 'x' => some (.hexadecimal false)
  | 'X' => some (.hexadecimal true)
  | 'f' => some .fixed
  | 'F' => some .fixed
  | 'e' => some (.scientific false)
  | 'E' => some (.scientific true)
  | 'g' => some (.general false)
  | 'G' => some (.general true)
  | _ => none

/-- The signs that may stand before the width of a field. -/
def isFlag (c : CodePoint) : Bool := (Text.ofString "#0+ -").contains c

/-- A place for a field. The signs are kept as they stand, in any order and number, and are only ever asked for one by
one. -/
structure Slot where
  /-- The name of the field. -/
  field : Option Text
  flags : Text
  width : Nat
  precision : Option Nat
  conversion : Conversion
  deriving DecidableEq, Repr

namespace Slot

/-! ## Writing -/

def has (s : Slot) (flag : Char) : Bool := s.flags.contains (CodePoint.ofChar flag)

/-- Fills a text up to the width, on the left unless the sign `-` is set. -/
def pad (s : Slot) (t : Text) : Text :=
  let fill := List.replicate (s.width - t.length) (CodePoint.ofChar ' ')
  if s.has '-' then t ++ fill else fill ++ t

/-- Cuts a text to the precision and fills it up to the width. The signs about numbers mean nothing here. -/
def textField (s : Slot) (t : Text) : Text :=
  s.pad (match s.precision with
    | none => t
    | some n => t.take n)

/-- The sign before a number. A plus takes precedence over a space. -/
def signText (s : Slot) (negative : Bool) : Text :=
  if negative then "-" else if s.has '+' then "+" else if s.has ' ' then " " else []

/-- Writes a number, given by what stands before its digits and by its digits. It is filled up with zeros
between the two if that is asked for. -/
def numberField (s : Slot) (front digits : Text) : Text :=
  let zeros := if s.has '0' && !s.has '-' then s.width - front.length - digits.length else 0
  s.pad (front ++ Number.Pointed.zeros zeros ++ digits)

/-- Writes a whole number in a base, with at least as many digits as the precision says. The mark of the base counts
as a part of the sign, so zeros that fill up come after it. -/
def wholeField (s : Slot) (base : Nat) (mark : Text) (n : Int) : Text :=
  let digits := (Nat.toDigits base n.natAbs).map CodePoint.ofChar
  let front := s.signText (n < 0) ++ if s.has '#' then mark else []
  s.numberField front (Number.Pointed.zeros (s.precision.getD 0 - digits.length) ++ digits)

/-- Writes a number with a point, six places behind it unless a precision is given. There is none for a number that is
too great for a fraction. -/
def pointedField (s : Slot) (write : Number.Pointed → Nat → Text) (mark : Char) (n : Int) :
    Option Text :=
  (Number.toDouble n.natAbs).map fun size =>
    s.numberField (s.signText (n < 0)) (write ⟨s.precision.getD 6, s.has '#', mark⟩ size)

/-- Whether a number can have as many digits as the precision says. The three more leave room for a sign and the mark
of a base. -/
def hasRoom (s : Slot) : Bool := s.precision.getD 0 + 3 < Nat.pow 2 31

/-- Writes a whole number in one of the ways for whole numbers, and nothing in any other way. -/
def renderWhole (s : Slot) (n : Int) : Option Text :=
  match s.conversion with
  | .decimal => some (s.wholeField 10 [] n)
  | .octal => some (s.wholeField 8 "0o" n)
  | .hexadecimal false => some (s.wholeField 16 "0x" n)
  | .hexadecimal true => some (s.wholeField 16 "0x" n).capital
  | .character =>
    if 0 ≤ n ∧ n < 0x110000 then some (s.pad [CodePoint.ofNat n.toNat]) else none
  | _ => none

/-- Writes a number in one of the ways with a point, and nothing in any other way. -/
def renderReal (s : Slot) (n : Int) : Option Text :=
  match s.conversion with
  | .fixed => s.pointedField Number.Pointed.fixed 'e' n
  | .scientific false => s.pointedField Number.Pointed.scientific 'e' n
  | .scientific true => s.pointedField Number.Pointed.scientific 'E' n
  | .general false => s.pointedField Number.Pointed.general 'e' n
  | .general true => s.pointedField Number.Pointed.general 'E' n
  | _ => none

/-- Writes a value. Only numbers are written as numbers, and only a number or a single character as a
character. -/
def render (s : Slot) (value : Field) : Option Text :=
  match s.conversion with
  | .text => some (s.textField value.shown)
  | .quoted => some (s.textField value.quoted)
  | .quotedAscii => some (s.textField value.quotedAscii)
  | _ =>
    match value with
    | .whole n =>
      if s.hasRoom || s.conversion = .character then (s.renderWhole n).or (s.renderReal n) else none
    | .real n =>
      if !s.hasRoom then none
      else if s.conversion = .decimal then s.renderWhole n
      else s.renderReal n
    | .text [c] => if s.conversion = .character then some (s.pad [c]) else none
    | _ => none

/-! ## Reading -/

def maxWidth : Nat := Nat.pow 2 31 - 1

def maxPrecision : Nat := Nat.pow 2 31 - 1

/-- The number that a text begins with, and what follows it. No digits at all are a zero. -/
def number (t : Text) : Nat × Text :=
  let digits := t.takeWhile CodePoint.isAsciiDigit
  (digits.foldl (fun n c => n * 10 + c.asciiDigitValue) 0, t.drop digits.length)

/-- The field in parentheses at the start of a text, and what follows it. A parenthesis that is never closed makes the
whole slot no slot. -/
def fieldName : Text → Option (Option Text × Text)
  | [] => none
  | c :: rest =>
    if c = '(' then (Text.cut (CodePoint.ofChar ')') rest).map fun (name, after) => (some name, after)
    else some (none, c :: rest)

/-- The precision at the start of a text, and what follows it. A point alone is a precision of zero. -/
def readPrecision : Text → Option Nat × Text
  | [] => (none, [])
  | c :: rest =>
    if c = '.' then
      let (n, after) := number rest
      (some n, after)
    else (none, c :: rest)

/-- Drops one letter that tells the size of a number, which has no meaning here. -/
def skipSize : Text → Text
  | [] => []
  | c :: rest => if c = 'h' ∨ c = 'l' ∨ c = 'L' then rest else c :: rest

/-- The slot after a percent sign, and what follows it. There is none where the text ends before the letter, where the
letter is not known, or where a number is beyond its bound. -/
def read (t : Text) : Option (Slot × Text) :=
  match fieldName t with
  | none => none
  | some (field, rest) =>
    let flags := rest.takeWhile isFlag
    let (width, afterWidth) := number (rest.drop flags.length)
    let (precision, afterPrecision) := readPrecision afterWidth
    match skipSize afterPrecision with
    | [] => none
    | c :: after =>
      if maxWidth < width ∨ maxPrecision < precision.getD 0 then none
      else
        (Conversion.ofLetter? c).map fun conversion =>
          (⟨field, flags, width, precision, conversion⟩, after)

end Slot

end Journal

end HeaderAtlas
