import HeaderAtlas.Json.Basic
import HeaderAtlas.Number.Shortest
import HeaderAtlas.Number.Whole
/-!
# Reading JSON

A reader that says where a text stops being JSON. Each part of it takes the text that is left and
gives a value with what remains, or a problem with the text at whose beginning it lies; the position
of a problem is the length of what was read before it. Three words beyond the standard are numbers:
`NaN`, `Infinity` and `-Infinity`. Of two members with one name the later value counts, in the place
of the earlier.
-/

set_option autoImplicit false

namespace HeaderAtlas

namespace Json

/-! ## Problems -/

/-- What is wrong with a text that is not JSON. -/
inductive Problem where
  | value
  | memberName
  | colon
  | comma
  | extraData
  | unterminated
  | control
  | escape
  | unicodeEscape
  | byteOrderMark
  deriving DecidableEq, Repr

def Problem.message : Problem → String
  | .value => "Expecting value"
  | .memberName => "Expecting property name enclosed in double quotes"
  | .colon => "Expecting ':' delimiter"
  | .comma => "Expecting ',' delimiter"
  | .extraData => "Extra data"
  | .unterminated => "Unterminated string starting at"
  | .control => "Invalid control character at"
  | .escape => "Invalid \\escape"
  | .unicodeEscape => "Invalid \\uXXXX escape"
  | .byteOrderMark => "Unexpected UTF-8 BOM (decode using utf-8-sig)"

/-- Where the reader stopped: a problem at the beginning of `rest`, or a whole number too long to be read. The parts
of the reader know what is left and not where they are, so positions are worked out once, at the end. -/
inductive Stop where
  | problem (what : Problem) (rest : Text)
  | longNumber (digits : Nat)
  deriving DecidableEq, Repr

/-- Why a text was not read: a problem with its line and column, counted from one, and its offset,
counted from zero; or a whole number too long. -/
inductive ReadError where
  | malformed (what : Problem) (line column offset : Nat)
  | longNumber (digits : Nat)
  deriving DecidableEq, Repr

def ReadError.message : ReadError → Text
  | .malformed what line column offset =>
    what.message ++ ": line " ++ Text.ofNat line ++ " column " ++ Text.ofNat column ++ " (char " ++
      Text.ofNat offset ++ ")"
  | .longNumber digits => Number.longMessage digits

/-- The line and column of an offset. Only a line feed ends a line here. -/
def lineColumn (doc : Text) (offset : Nat) : Nat × Nat :=
  let before := doc.take offset
  (before.count (CodePoint.ofChar '\n') + 1,
    (before.reverse.takeWhile (· != CodePoint.ofChar '\n')).length + 1)

def Stop.inDocument (doc : Text) : Stop → ReadError
  | .problem what rest =>
    let offset := doc.length - rest.length
    let (line, column) := lineColumn doc offset
    .malformed what line column offset
  | .longNumber digits => .longNumber digits

/-! ## Parts -/

/-- The white space of JSON, which is less than that of other texts. -/
def isSpace (c : CodePoint) : Bool := c = ' ' || c = '\t' || c = '\n' || c = '\r'

def skipSpace (t : Text) : Text := t.dropWhile isSpace

def hexValue? (c : CodePoint) : Option Nat :=
  if c.isAsciiDigit then some c.asciiDigitValue
  else if 0x61 ≤ c.val ∧ c.val ≤ 0x66 then some (c.val - 0x57)
  else if 0x41 ≤ c.val ∧ c.val ≤ 0x46 then some (c.val - 0x37)
  else none

def hexNumber? (a b c d : CodePoint) : Option Nat := do
  let a ← hexValue? a
  let b ← hexValue? b
  let c ← hexValue? c
  let d ← hexValue? d
  return ((a * 16 + b) * 16 + c) * 16 + d

def shortEscape? (c : CodePoint) : Option CodePoint :=
  if c = '"' ∨ c = '\\' ∨ c = '/' then some c
  else if c = 'b' then some (CodePoint.ofNat 0x08)
  else if c = 'f' then some (CodePoint.ofNat 0x0C)
  else if c = 'n' then some '\n'
  else if c = 'r' then some '\r'
  else if c = 't' then some '\t'
  else none

/-- The unit that a numeric escape at the very beginning of a text stands for, if more follows it: a
string that goes on has at least its closing quote after the escape. The reader is past the backslash
and the letter, which `place` still holds. -/
def unit (place : Text) : Text → Except Stop (Nat × Text)
  | a :: b :: c :: d :: e :: rest =>
    match hexNumber? a b c d with
    | some n => .ok (n, e :: rest)
    | none => .error (.problem .unicodeEscape place)
  | _ => .error (.problem .unicodeEscape place)

/-- The character of a numeric escape whose first unit is `high` and which is followed by `t`: two
escapes that are the halves of a surrogate pair are one character, any other unit stands alone. -/
def paired (high : Nat) (t : Text) : Except Stop (CodePoint × Text) :=
  match t with
  | a :: b :: rest =>
    if 0xD800 ≤ high ∧ high ≤ 0xDBFF ∧ a = '\\' ∧ b = 'u' ∧ 5 ≤ rest.length then
      match unit (b :: rest) rest with
      | .error stop => .error stop
      | .ok (low, after) =>
        if 0xDC00 ≤ low ∧ low ≤ 0xDFFF then
          .ok (CodePoint.ofNat (0x10000 + (high - 0xD800) * 0x400 + (low - 0xDC00)), after)
        else .ok (CodePoint.ofNat high, t)
    else .ok (CodePoint.ofNat high, t)
  | _ => .ok (CodePoint.ofNat high, t)

/-- The character of the escape that follows a backslash; `place` is the text from the backslash on,
and `opening` that from the string's opening quote on. -/
def escaped (opening place : Text) : Text → Except Stop (CodePoint × Text)
  | [] => .error (.problem .unterminated opening)
  | c :: rest =>
    if c = 'u' then
      match unit (c :: rest) rest with
      | .error stop => .error stop
      | .ok (high, after) => paired high after
    else
      match shortEscape? c with
      | some d => .ok (d, rest)
      | none => .error (.problem .escape place)

/-- The characters of a string up to its closing quote. Each round takes at least one character, so
`fuel` need not exceed the length of the text. -/
def stringBody (opening : Text) : Nat → Text → Except Stop (Text × Text)
  | 0, _ => .error (.problem .unterminated opening)
  | _ + 1, [] => .error (.problem .unterminated opening)
  | fuel + 1, c :: rest =>
    if c = '"' then .ok ([], rest)
    else if c = '\\' then
      match escaped opening (c :: rest) rest with
      | .error stop => .error stop
      | .ok (d, after) =>
        match stringBody opening fuel after with
        | .error stop => .error stop
        | .ok (body, after) => .ok (d :: body, after)
    else if c.val < 0x20 then .error (.problem .control (c :: rest))
    else
      match stringBody opening fuel rest with
      | .error stop => .error stop
      | .ok (body, after) => .ok (c :: body, after)

def string (opening rest : Text) : Except Stop (Text × Text) :=
  stringBody opening (rest.length + 1) rest

def digitsValue (digits : Text) : Nat :=
  digits.foldl (fun n c => n * 10 + c.asciiDigitValue) 0

/-- The digits after a decimal point, if at least one follows it. A point without digits is not part of the number,
and is found fault with by whoever reads on. -/
def fraction? (t : Text) : Option (Text × Text) :=
  match t with
  | c :: rest =>
    let (digits, after) := rest.span CodePoint.isAsciiDigit
    if c = '.' ∧ digits ≠ [] then some (digits, after) else none
  | [] => none

/-- The exponent of a number, if it has at least one digit. The letter alone is not part of the number either. -/
def exponent? (t : Text) : Option (Int × Text) :=
  match t with
  | c :: rest =>
    if c = 'e' ∨ c = 'E' then
      let (negative, unsigned) : Bool × Text := match rest with
        | s :: tail => if s = '-' then (true, tail) else if s = '+' then (false, tail) else (false, rest)
        | [] => (false, rest)
      let (digits, after) := unsigned.span CodePoint.isAsciiDigit
      if digits = [] then none
      else
        let size : Int := digitsValue digits
        some (if negative then -size else size, after)
    else none
  | [] => none

/-- The whole part of a number: a zero alone, or digits that do not begin with one. -/
def wholeDigits? (t : Text) : Option (Text × Text) :=
  match t with
  | c :: rest =>
    if c = '0' then some ([c], rest)
    else if c.isAsciiDigit then some (t.span CodePoint.isAsciiDigit)
    else none
  | [] => none

/-- A number. With neither fraction nor exponent it is whole. -/
def number (t : Text) : Except Stop (Json × Text) :=
  let (negative, unsigned) : Bool × Text := match t with
    | c :: rest => if c = '-' then (true, rest) else (false, t)
    | [] => (false, t)
  match wholeDigits? unsigned with
  | none => .error (.problem .value t)
  | some (whole, rest) =>
    let (part, rest') := (fraction? rest).getD ([], rest)
    -- an exponent alone makes a `Float` of it, even one that leaves the value whole
    match exponent? rest' with
    | some (e, after) =>
      .ok (.float (Number.floatOfDecimal negative (digitsValue (whole ++ part)) (e - part.length)),
        after)
    | none =>
      if part = [] then
        if Number.maxDigits < whole.length then .error (.longNumber whole.length)
        else
          let size : Int := digitsValue whole
          .ok (.int (if negative then -size else size), rest')
      else
        .ok (.float (Number.floatOfDecimal negative (digitsValue (whole ++ part)) (-part.length)),
          rest')

/-- The words that are values. No number begins as one of them does but for the minus sign of the last, which no digit
follows. -/
def words : List (Text × Json) :=
  [("null", .null), ("true", .bool true), ("false", .bool false), ("NaN", .float (0.0 / 0.0)),
    ("Infinity", .float (1.0 / 0.0)), ("-Infinity", .float (-1.0 / 0.0))]

def word? (t : Text) : Option (Json × Text) :=
  (words.find? fun entry => entry.1.isPrefixOf t).map fun entry => (entry.2, t.drop entry.1.length)

/-! ## Values -/

mutual

/-- The value at the beginning of a text. An opening bracket uses up one unit of fuel besides the one
for the value, so twice the length of the text is enough. -/
def value : Nat → Text → Except Stop (Json × Text)
  | 0, t => .error (.problem .value t)
  | _ + 1, [] => .error (.problem .value [])
  | fuel + 1, c :: rest =>
    if c = '"' then
      match string (c :: rest) rest with
      | .error stop => .error stop
      | .ok (t, after) => .ok (.str t, after)
    else if c.val = 0x7B then
      match skipSpace rest with
      | [] => .error (.problem .memberName [])
      | d :: after =>
        if d.val = 0x7D then .ok (.obj [], after)
        else
          match members fuel [] (d :: after) with
          | .error stop => .error stop
          | .ok (found, after) => .ok (.obj found, after)
    else if c = '[' then
      match skipSpace rest with
      | [] => .error (.problem .value [])
      | d :: after =>
        if d = ']' then .ok (.arr [], after)
        else
          match elements fuel (d :: after) with
          | .error stop => .error stop
          | .ok (items, after) => .ok (.arr items, after)
    else
      match word? (c :: rest) with
      | some found => .ok found
      | none => number (c :: rest)

/-- The members of an object from the name of one on, added to those before it. A name that comes again takes the
place of the earlier one, so `before` is a finished list and not a list of pieces. -/
def members : Nat → Members → Text → Except Stop (Members × Text)
  | 0, _, t => .error (.problem .memberName t)
  | _ + 1, _, [] => .error (.problem .memberName [])
  | fuel + 1, before, c :: rest =>
    if c = '"' then
      match string (c :: rest) rest with
      | .error stop => .error stop
      | .ok (name, afterName) =>
        match skipSpace afterName with
        | [] => .error (.problem .colon [])
        | d :: afterColon =>
          if d = ':' then
            match value fuel (skipSpace afterColon) with
            | .error stop => .error stop
            | .ok (found, afterValue) =>
              let sofar := before.set name found
              match skipSpace afterValue with
              | [] => .error (.problem .comma [])
              | e :: after =>
                if e.val = 0x7D then .ok (sofar, after)
                else if e = ',' then members fuel sofar (skipSpace after)
                else .error (.problem .comma (e :: after))
          else .error (.problem .colon (d :: afterColon))
    else .error (.problem .memberName (c :: rest))

/-- The items of an array from the beginning of one on. A comma must be followed by an item. -/
def elements : Nat → Text → Except Stop (List Json × Text)
  | 0, t => .error (.problem .value t)
  | fuel + 1, t =>
    match value fuel t with
    | .error stop => .error stop
    | .ok (item, afterItem) =>
      match skipSpace afterItem with
      | [] => .error (.problem .comma [])
      | d :: after =>
        if d = ']' then .ok ([item], after)
        else if d = ',' then
          match elements fuel (skipSpace after) with
          | .error stop => .error stop
          | .ok (items, after) => .ok (item :: items, after)
        else .error (.problem .comma (d :: after))

end

/-- A value with nothing but white space around it. A byte order mark is refused by name, since it cannot be seen
where it stands. -/
def whole (t : Text) : Except Stop Json :=
  if [CodePoint.ofNat 0xFEFF].isPrefixOf t then .error (.problem .byteOrderMark t)
  else
    match value (2 * t.length + 2) (skipSpace t) with
    | .error stop => .error stop
    | .ok (found, rest) =>
      match skipSpace rest with
      | [] => .ok found
      | c :: after => .error (.problem .extraData (c :: after))

def parse (t : Text) : Except ReadError Json := (whole t).mapError (Stop.inDocument t)

end Json

end HeaderAtlas
