/-!
# Texts

Names, paths and messages are lists of Unicode code points. A code point may be a surrogate that
stands alone: names of files are byte strings, and a byte that is no UTF-8 is held as one surrogate
(`HeaderAtlas.Text.Utf8`). That is why a text is not a `String`, whose characters are scalar values
only.
-/

set_option autoImplicit false

namespace HeaderAtlas

/-- A byte string: a file name as the file system has it, or the contents of a file. -/
abbrev Bytes := List UInt8

/-- Splits a list at every occurrence of `sep`. The parts may be empty and there is at least one, so the parts and the
separators between them give the list back. It is shared by texts and byte strings. -/
def splitList {α : Type} [DecidableEq α] (sep : α) : List α → List (List α)
  | [] => [[]]
  | c :: rest =>
    if c = sep then [] :: splitList sep rest
    else
      match splitList sep rest with
      | [] => [[c]]
      | part :: parts => (c :: part) :: parts

/-- A Unicode code point, surrogates included. -/
abbrev CodePoint := Fin 0x110000

namespace CodePoint

def ofChar (c : Char) : CodePoint :=
  ⟨c.toNat, by
    have h := c.valid
    simp only [UInt32.isValidChar, Nat.isValidChar] at h
    have : c.toNat = c.val.toNat := rfl
    omega⟩

instance : Coe Char CodePoint := ⟨ofChar⟩

/-- The code point with number `n`, for `n` below `0x110000`. Greater numbers are cut off; no caller has one. -/
def ofNat (n : Nat) : CodePoint := Fin.ofNat 0x110000 n

/-- The code points `U+D800` to `U+DFFF`, which are no characters. -/
def isSurrogate (c : CodePoint) : Bool := 0xD800 ≤ c.val && c.val ≤ 0xDFFF

def isAsciiDigit (c : CodePoint) : Bool := 0x30 ≤ c.val && c.val ≤ 0x39

def asciiDigitValue (c : CodePoint) : Nat := c.val - 0x30

/-- Capital `A` to `Z` become small, everything else stays. Options and levels are compared this way, so that no rule
of any language has a say in it. -/
def lowerAscii (c : CodePoint) : CodePoint :=
  if 0x41 ≤ c.val ∧ c.val ≤ 0x5A then ofNat (c.val + 0x20) else c

def isWord (c : CodePoint) : Bool :=
  c.isAsciiDigit || (0x41 ≤ c.val && c.val ≤ 0x5A) || (0x61 ≤ c.val && c.val ≤ 0x7A) || c.val == 0x5F

end CodePoint

abbrev Text := List CodePoint

namespace Text

def ofString (s : String) : Text := s.toList.map CodePoint.ofChar

instance : Coe String Text := ⟨ofString⟩

def join (sep : Text) : List Text → Text
  | [] => []
  | [t] => t
  | t :: rest => t ++ sep ++ join sep rest

def splitOn (sep : CodePoint) (t : Text) : List Text := splitList sep t

def dropRightWhile (p : CodePoint → Bool) (t : Text) : Text := (t.reverse.dropWhile p).reverse

/-- The first occurrence of `c`, as what stands before it and what follows it. There is none in a text without `c`,
which is told apart from a text that begins or ends with it. -/
def cut (c : CodePoint) : Text → Option (Text × Text)
  | [] => none
  | d :: rest => if d = c then some ([], rest) else (cut c rest).map fun (a, b) => (d :: a, b)

/-- Whether `needle` occurs in a text as it stands. -/
def occursIn (needle : Text) : Text → Bool
  | [] => needle.isEmpty
  | c :: rest => needle.isPrefixOf (c :: rest) || occursIn needle rest

/-- Whether a text comes before another or is the same, by the numbers of code points. File names are not ordered by
this but by their bytes, which differs where surrogates stand for bytes. -/
def isLe : Text → Text → Bool
  | [], _ => true
  | _ :: _, [] => false
  | c :: rest, d :: other => c.val < d.val || (c.val == d.val && isLe rest other)

def ofNat (n : Nat) : Text := (Nat.toDigits 10 n).map CodePoint.ofChar

def ofInt : Int → Text
  | .ofNat n => ofNat n
  | .negSucc n => CodePoint.ofChar '-' :: ofNat (n + 1)

/-- The number in hexadecimal with small letters, filled up with zeros to `width` digits. -/
def ofHex (width n : Nat) : Text :=
  let digits := (Nat.toDigits 16 n).map CodePoint.ofChar
  List.replicate (width - digits.length) (CodePoint.ofChar '0') ++ digits

def lowerAscii (t : Text) : Text := t.map CodePoint.lowerAscii

end Text

/-! ## White space

What is cut from both ends of a value that a user typed: every white space character of Unicode and
the four separators of the control block. -/

namespace Text

/-- The runs of white space characters, in increasing order. -/
def blankRanges : List (Nat × Nat) :=
  [ (0x9, 0xD), (0x1C, 0x20), (0x85, 0x85), (0xA0, 0xA0), (0x1680, 0x1680), (0x2000, 0x200A),
    (0x2028, 0x2029), (0x202F, 0x202F), (0x205F, 0x205F), (0x3000, 0x3000) ]

end Text

def CodePoint.isBlank (c : CodePoint) : Bool :=
  Text.blankRanges.any fun (low, high) => low ≤ c.val && c.val ≤ high

def Text.strip (t : Text) : Text :=
  Text.dropRightWhile CodePoint.isBlank (t.dropWhile CodePoint.isBlank)

end HeaderAtlas
