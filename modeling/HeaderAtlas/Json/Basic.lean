import HeaderAtlas.Text.Basic
/-!
# JSON values

The values of configuration files and of dependency documents. Integers are exact and of any size; a number written
with a fraction or an exponent is a `Float`, also if its value is whole. The members of an object are kept in order
and have different names: the reader sees to that, and whatever is written keeps it.
-/

set_option autoImplicit false

namespace HeaderAtlas

inductive Json where
  | null
  | bool (b : Bool)
  | int (n : Int)
  | float (x : Float)
  | str (t : Text)
  | arr (items : List Json)
  | obj (members : List (Text × Json))
  deriving Inhabited

namespace Json

abbrev Members := List (Text × Json)

namespace Members

def get? (name : Text) (members : Members) : Option Json :=
  (members.find? fun member => member.1 == name).map (·.2)

/-- Gives a member its value: in its place if it is there, and at the end if it is new. -/
def set (name : Text) (value : Json) : Members → Members
  | [] => [(name, value)]
  | member :: rest =>
    if member.1 == name then (name, value) :: rest else member :: set name value rest

end Members

/-- The name of a value's kind, as messages give it. -/
def kindName : Json → String
  | .null => "NoneType"
  | .bool _ => "bool"
  | .int _ => "int"
  | .float _ => "float"
  | .str _ => "str"
  | .arr _ => "list"
  | .obj _ => "dict"

/-- Whether a value counts as true where a yes or no is wanted: null, zeros and what is empty do not. A text counts
whatever it says, `false` included. -/
def truthy : Json → Bool
  | .null => false
  | .bool b => b
  | .int n => n != 0
  | .float x => x != 0
  | .str t => !t.isEmpty
  | .arr items => !items.isEmpty
  | .obj members => !members.isEmpty

end Json

end HeaderAtlas
