import HeaderAtlas.Json.Basic
import HeaderAtlas.Number.Shortest
/-!
# Writing JSON

One printer for all layouts. Without an indentation everything stands on one line and there is no
white space; with one, even an empty one, each entry of a non-empty array or object stands on a line
of its own. Texts are written as they are but for quotes, backslashes and control characters, so a
surrogate that stands for an undecodable byte goes through unchanged.
-/

set_option autoImplicit false

namespace HeaderAtlas

/-- A code point inside a JSON string. What is not ASCII is not escaped: documents are written as UTF-8, and a file
name should be readable in them. -/
def CodePoint.jsonEscaped (c : CodePoint) : Text :=
  if c = '"' then "\\\""
  else if c = '\\' then "\\\\"
  else if c = '\n' then "\\n"
  else if c = '\r' then "\\r"
  else if c = '\t' then "\\t"
  else if c.val = 0x0C then "\\f"
  else if c.val = 0x08 then "\\b"
  else if c.val < 0x20 then "\\u" ++ Text.ofHex 4 c.val
  else [c]

namespace Json

def quotedString (t : Text) : Text :=
  CodePoint.ofChar '"' :: (t.flatMap CodePoint.jsonEscaped ++ [CodePoint.ofChar '"'])

/-- How a document is laid out: on one line, or with a unit of indentation. -/
inductive Layout where
  | compact
  | lines (indent : Text)
  deriving DecidableEq, Repr

namespace Layout

/-- What stands before an entry at the given depth. A closing bracket has one too, at the depth of its value. -/
def lineBreak : Layout → Nat → Text
  | .compact, _ => []
  | .lines indent, depth => CodePoint.ofChar '\n' :: (List.replicate depth indent).flatten

def colon : Layout → Text
  | .compact => ":"
  | .lines _ => ": "

end Layout

mutual

/-- Writes a value that stands at the given depth. An empty array or object is written without a break, whatever the
layout. -/
def renderAt (layout : Layout) (depth : Nat) : Json → Text
  | .null => "null"
  | .bool true => "true"
  | .bool false => "false"
  | .int n => Text.ofInt n
  | .float x => Number.floatText "NaN" "Infinity" x
  | .str t => quotedString t
  | .arr [] => "[]"
  | .arr (item :: items) =>
    "[" ++ layout.lineBreak (depth + 1) ++ renderAt layout (depth + 1) item ++
      renderItems layout (depth + 1) items ++ layout.lineBreak depth ++ "]"
  | .obj [] => "\x7b\x7d"
  | .obj ((name, value) :: members) =>
    "\x7b" ++ layout.lineBreak (depth + 1) ++ quotedString name ++ layout.colon ++
      renderAt layout (depth + 1) value ++ renderMembers layout (depth + 1) members ++
      layout.lineBreak depth ++ "\x7d"

def renderItems (layout : Layout) (depth : Nat) : List Json → Text
  | [] => []
  | item :: items =>
    "," ++ layout.lineBreak depth ++ renderAt layout depth item ++ renderItems layout depth items

def renderMembers (layout : Layout) (depth : Nat) : List (Text × Json) → Text
  | [] => []
  | (name, value) :: members =>
    "," ++ layout.lineBreak depth ++ quotedString name ++ layout.colon ++
      renderAt layout depth value ++ renderMembers layout depth members

end

def render (layout : Layout) (value : Json) : Text := renderAt layout 0 value

end Json

end HeaderAtlas
