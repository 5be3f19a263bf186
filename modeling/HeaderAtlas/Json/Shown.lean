import HeaderAtlas.Json.Basic
import HeaderAtlas.Number.Shortest
import HeaderAtlas.Text.Printable
/-!
# Values in messages

How messages show a value, and what they say about a value of a kind that cannot be used. The words are not those of
JSON: a value is shown as the rest of the program would write it, with a text in quotes inside a list but bare when it
stands alone.
-/

set_option autoImplicit false

namespace HeaderAtlas

def Text.ofBool (b : Bool) : Text := if b then "True" else "False"

namespace Json

mutual

/-- A value as messages show it. Texts are quoted here even at the top, which `asText` alone undoes. -/
def shown : Json → Text
  | .null => "None"
  | .bool b => Text.ofBool b
  | .int n => Text.ofInt n
  | .float x => Number.floatText "nan" "inf" x
  | .str t => t.quoted
  | .arr [] => "[]"
  | .arr (item :: items) => "[" ++ shown item ++ shownItems items ++ "]"
  | .obj [] => "\x7b\x7d"
  | .obj ((name, value) :: members) =>
    "\x7b" ++ name.quoted ++ ": " ++ shown value ++ shownMembers members ++ "\x7d"

def shownItems : List Json → Text
  | [] => []
  | item :: items => ", " ++ shown item ++ shownItems items

def shownMembers : List (Text × Json) → Text
  | [] => []
  | (name, value) :: members =>
    ", " ++ name.quoted ++ ": " ++ shown value ++ shownMembers members

end

/-- A value as a text. A text is itself, without quotes. -/
def asText : Json → Text
  | .str t => t
  | other => other.shown

/-- Why a value cannot be used. All but the last say what kind of value it is. -/
inductive Misfit where
  /-- A path is wanted. -/
  | path (kind : String)
  /-- Something that can be a member of a set is wanted. -/
  | member (kind : String)
  /-- Something that has a length is wanted. -/
  | length (kind : String)
  /-- A text is wanted. -/
  | text (kind : String)
  /-- Something that has a first item is wanted, and an object has none. -/
  | first
  deriving DecidableEq, Repr

def Misfit.message : Misfit → Text
  | .path kind => "expected str, bytes or os.PathLike object, not " ++ kind
  | .member kind => "unhashable type: '" ++ kind ++ "'"
  | .length kind => "object of type '" ++ kind ++ "' has no len()"
  | .text kind => "must be str, not " ++ kind
  | .first => "0"

end Json

end HeaderAtlas
