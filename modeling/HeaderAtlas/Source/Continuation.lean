import HeaderAtlas.Text.Basic
/-!
# Physical and logical lines

Source files are read as bytes. A backslash, any number of spaces and tabs, an optional carriage
return and a line feed form a *continuation*: it glues two physical lines into one logical line.
There are two ways to meet one. `continuation?` looks forward from a backslash; `isContinued` looks back
from a line feed.
-/

set_option autoImplicit false

namespace HeaderAtlas.Source

/-! ## The bytes that matter -/

def lf : UInt8 := 0x0A
def cr : UInt8 := 0x0D
def backslash : UInt8 := 0x5C

/-- What may stand between a backslash and the line end of a continuation. -/
def isBlank (b : UInt8) : Bool := b == 0x20 || b == 0x09

/-- What separates tokens inside a line: blanks, carriage returns, vertical tabs and form feeds. A line feed is not
among them, since it may begin a directive line. -/
def isSpace (b : UInt8) : Bool := isBlank b || b == cr || b == 0x0B || b == 0x0C

/-! ## Continuations -/

def afterLf? : Bytes → Option Bytes
  | [] => none
  | b :: rest => if b = lf then some rest else none

/-- What follows a line end, with or without a carriage return, at the beginning of a byte string. A carriage return
alone ends no line. -/
def afterLineEnd? : Bytes → Option Bytes
  | [] => none
  | b :: rest => if b = cr then afterLf? rest else afterLf? (b :: rest)

/-- What follows a continuation, given what follows its backslash; there is none if something else stands before the
line end. -/
def continuation? (rest : Bytes) : Option Bytes := afterLineEnd? (rest.dropWhile isBlank)

/-- Backwards from a line feed, the carriage return of the line end comes first if there is one. -/
def dropCr : Bytes → Bytes
  | [] => []
  | b :: rest => if b = cr then rest else b :: rest

/-- Whether a line feed belongs to a continuation that begins on its line; `back` is what stands before it on that
line, read backwards. Looking back needs no more than the line, so a comment need not be read with continuations in
mind. -/
def isContinued (back : Bytes) : Bool := ((dropCr back).dropWhile isBlank).head? == some backslash

theorem length_afterLf?_lt {t rest : Bytes} (h : afterLf? t = some rest) :
    rest.length < t.length := by
  cases t with
  | nil => simp [afterLf?] at h
  | cons b t =>
    simp only [afterLf?] at h
    split at h
    · simp only [Option.some.injEq] at h
      simp [h]
    · simp at h

theorem length_afterLineEnd?_lt {t rest : Bytes} (h : afterLineEnd? t = some rest) :
    rest.length < t.length := by
  cases t with
  | nil => simp [afterLineEnd?] at h
  | cons b t =>
    simp only [afterLineEnd?] at h
    split at h
    · have := length_afterLf?_lt h
      simp only [List.length_cons]
      omega
    · exact length_afterLf?_lt h

/-- A continuation takes at least its line feed. -/
theorem length_continuation?_lt {t rest : Bytes} (h : continuation? t = some rest) :
    rest.length < t.length :=
  Nat.lt_of_lt_of_le (length_afterLineEnd?_lt h) (List.dropWhile_sublist isBlank).length_le

example : continuation? [0x20, 0x0D, 0x0A, 0x61] = some [0x61] := by decide
example : continuation? [0x0D, 0x20, 0x0A] = none := by decide
example : isContinued [0x0D, 0x20, 0x5C, 0x61] = true := by decide

end HeaderAtlas.Source
