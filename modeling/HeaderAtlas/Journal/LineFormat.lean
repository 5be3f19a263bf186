import HeaderAtlas.Journal.DateFormat
import HeaderAtlas.Journal.Slot
import HeaderAtlas.Json.Basic
import HeaderAtlas.Text.Alphanumeric
import HeaderAtlas.Text.Digit
/-!
# Line formats

How a record becomes a line of a log. A format is a text with slots such as `%(message)s`. Two percent signs stand for
one. A format must have a slot, or at least something that looks like one.

What looks like a slot is settled by a rule of its own, looser than the one by which slots are read: it knows letters
of either case and numbers of any script. So a format can be accepted and still fail on every record. The journal then
reports each record as lost, and goes on.
-/

set_option autoImplicit false

namespace HeaderAtlas

namespace Journal

/-! ## Which formats there are -/

/-- What follows a number or an asterisk at the start of a text. The digits may be of any script. -/
def skipNumber : Text → Text
  | [] => []
  | c :: rest => if c = '*' then rest else (c :: rest).dropWhile fun d => d.decimalValue?.isSome

/-- What follows a point and a number or an asterisk at the start of a text. A point without either is left
standing. -/
def skipPrecision : Text → Text
  | [] => []
  | c :: rest =>
    if c = '.' ∧ (skipNumber rest).length < rest.length then skipNumber rest else c :: rest

/-- A letter in lower case, where that is one that says how a field is written. The capital `I` with a
dot and the small one without count as `i`, and the long `s` as `s`. -/
def foldedLetter (c : CodePoint) : CodePoint :=
  if c.val = 0x130 ∨ c.val = 0x131 then CodePoint.ofChar 'i'
  else if c.val = 0x17F then CodePoint.ofChar 's'
  else c.lowerAscii

def startsWithConversion : Text → Bool
  | [] => false
  | c :: _ => (Text.ofString "diouxefgcrsa%").contains (foldedLetter c)

/-- Whether a text begins with what looks like a slot, but for the percent sign. -/
def startsWithSlot : Text → Bool
  | [] => false
  | c :: rest =>
    let name := rest.takeWhile CodePoint.isNameLike
    c = '(' && !name.isEmpty &&
      match rest.drop name.length with
      | [] => false
      | d :: after =>
        d = ')' && startsWithConversion (skipPrecision (skipNumber (after.dropWhile isFlag)))

def hasSlot : Text → Bool
  | [] => false
  | c :: rest => (c = '%' && startsWithSlot rest) || hasSlot rest

/-- Why something is no format. What is no text at all is refused before anything is looked for in it. -/
inductive BadFormat where
  /-- There is no slot in the text. -/
  | noSlot (text : Text)
  /-- It is no text. -/
  | kind (name : String)
  deriving DecidableEq, Repr

def BadFormat.message : BadFormat → Text
  | .noSlot text => "Invalid format '" ++ text ++ "' for '%' style"
  | .kind name => "expected string or bytes-like object, got '" ++ name ++ "'"

/-- A format for lines, with the format for the time. The two come from different settings and are put together once,
when the journal is set up. -/
structure LineFormat where
  text : Text
  /-- How the time is written. No time can be written if there is no text for it. -/
  time : Option Text
  deriving DecidableEq, Repr

/-! ## Formats at work -/

namespace LineFormat

/-- How the time is written unless something else is asked for. Records carry whole seconds, so the milliseconds that
follow are zero. -/
def defaultTime : Text := "%Y-%m-%d %H:%M:%S,000"

/-- The format for the time that a value is. What is empty stands for the usual one. -/
def timeOf (value : Json) : Option Text :=
  match value with
  | .str (c :: rest) => some (c :: rest)
  | other => if other.truthy then none else some defaultTime

/-- The format that a value is. What is empty stands for the message alone. -/
def ofValue (value time : Json) : Except BadFormat LineFormat :=
  match value with
  | .str (c :: rest) =>
    if hasSlot (c :: rest) then .ok ⟨c :: rest, timeOf time⟩ else .error (.noSlot (c :: rest))
  | other =>
    if other.truthy then .error (.kind other.kindName) else .ok ⟨"%(message)s", timeOf time⟩

/-- Writes fields into what is left of a format. Every step uses up some of it, so its length is enough
fuel. All fields together can be written only where no slot comes before; `first` says whether that is
so. -/
def fill (fields : Fields) (first : Bool) : Nat → Text → Option Text
  | _, [] => some []
  | 0, _ :: _ => none
  | fuel + 1, c :: rest =>
    if c = '%' then
      if rest.head? = some (CodePoint.ofChar '%') then
        (fill fields first fuel (rest.drop 1)).map (c :: ·)
      else
        match Slot.read rest with
        | none => none
        | some (slot, after) =>
          let value : Option Field := match slot.field with
            | some name => fields.get? name
            | none => if first then some (.fixed fields.text) else none
          match value.bind slot.render, fill fields false fuel after with
          | some t, some more => some (t ++ more)
          | _, _ => none
    else (fill fields first fuel rest).map (c :: ·)

/-- Whether a format shows the time. Its name is looked for anywhere in the text, in a slot or not; the time is made
only where it is found, and a time that cannot be made costs the line. -/
def showsTime (f : LineFormat) : Bool := Text.occursIn "%(asctime)" f.text

/-- The line of a record, made at a moment, without the end of the line. A format may ask for something
that no record has, and then there is no line. -/
def render (f : LineFormat) (m : Moment) (r : Record) : Option Text :=
  if f.showsTime then
    match f.time.bind m.render with
    | none => none
    | some stamp => fill (r.fields m (some stamp)) true f.text.length f.text
  else fill (r.fields m none) true f.text.length f.text

end LineFormat

end Journal

end HeaderAtlas
