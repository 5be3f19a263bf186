import HeaderAtlas.Journal.Moment
import HeaderAtlas.Journal.Record
import HeaderAtlas.Number.Shortest
import HeaderAtlas.Text.Printable
/-!
# Fields of a record

What a line of a log can show of a record. Beside the name, the level and the message there are fields
about the time and about the place in the program at which the record was made. No places are kept, so
those fields are empty or zero; the work is done by one thread of one process.
-/

set_option autoImplicit false

namespace HeaderAtlas

namespace Journal

/-- The value of a field. How a field may be written depends on which of these it is, and not on what it says. -/
inductive Field where
  | text (t : Text)
  | whole (n : Int)
  /-- A number that counts as one with a fraction. -/
  | real (n : Nat)
  /-- Something that is shown in one way only. -/
  | fixed (t : Text)
  deriving DecidableEq, Repr

namespace Field

/-- The field of which nothing is known. It is there, so a format that asks for it is no error. -/
def nothing : Field := .fixed "None"

/-- A number with a fraction, in the fewest digits that tell it from its neighbours. -/
def realText (n : Nat) : Text := Number.floatText "nan" "inf" (Float.ofNat n)

def shown : Field → Text
  | .text t => t
  | .whole n => Text.ofInt n
  | .real n => realText n
  | .fixed t => t

/-- The field with quotes around it if it is a text. -/
def quoted : Field → Text
  | .text t => t.quoted
  | other => other.shown

/-- The same, with escapes for all that is not ASCII. -/
def quotedAscii (f : Field) : Text := f.quoted.escapedToAscii

end Field

/-- Fields with their names. They are kept in order, for a line may show all of them at once. -/
abbrev Fields := List (Text × Field)

namespace Fields

def get? (name : Text) (fields : Fields) : Option Field :=
  (fields.find? fun field => field.1 == name).map (·.2)

/-- All fields in one line, as a slot without a name asks for. -/
def text (fields : Fields) : Text :=
  let member (field : Text × Field) : Text := field.1.quoted ++ ": " ++ field.2.quoted
  "\x7b" ++ Text.join ", " (fields.map member) ++ "\x7d"

end Fields

/-- The fields of a record that was made at a moment. The time is among them only where a line shows it,
written as `stamp`. -/
def Record.fields (r : Record) (m : Moment) (stamp : Option Text) : Fields :=
  let always : Fields := [
    ("name", .text r.logger),
    ("msg", .text r.message),
    ("args", .nothing),
    ("levelname", .text (Level.name r.level)),
    ("levelno", .whole r.level),
    ("pathname", .text []),
    ("filename", .text []),
    ("module", .text []),
    ("exc_info", .nothing),
    ("exc_text", .nothing),
    ("stack_info", .nothing),
    ("lineno", .whole 0),
    ("funcName", .text []),
    ("created", .real m.seconds),
    ("msecs", .real 0),
    ("relativeCreated", .real 0),
    ("thread", .whole 0),
    ("threadName", .text "MainThread"),
    ("processName", .text "MainProcess"),
    ("process", .whole 0),
    ("message", .text r.message) ]
  let time : Fields := match stamp with
    | none => []
    | some t => [("asctime", .text t)]
  always ++ time

end Journal

end HeaderAtlas
