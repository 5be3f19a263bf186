import HeaderAtlas.Atlas.Basic
import HeaderAtlas.Json.Writer
/-!
# The document of an atlas

An atlas is written as nested JSON objects: a node is an object whose members are its children, in the order of their
names. A node with edges has a last member `$meta` with the paths of its dependencies and dependents, ordered by their
bytes. A child whose name is `$meta` itself, or that with more dollar signs, is written with one dollar sign more, so
that nothing is confused.

Nothing in a document depends on the numbers of nodes. Two atlases with the same nodes and edges have the same
document, whichever was made in which order, and documents can be compared by their text.
-/

set_option autoImplicit false

namespace HeaderAtlas

namespace Document

def dollar : CodePoint := CodePoint.ofChar '$'

/-- The name of the member that holds a node's edges. Every other member stands for a child. -/
def metaKey : Text := "$meta"

def depsKey : Text := "deps"

def rdepsKey : Text := "rdeps"

/-- Whether a name is `meta` after one or more dollar signs. Escaping must be undone by taking one dollar sign away,
so all these names are escaped and not just `$meta`. -/
def isReserved (t : Text) : Bool :=
  t.head? == some dollar && t.dropWhile (· == dollar) == Text.ofString "meta"

/-- The member name of a child. -/
def escapeKey (name : Text) : Text := if isReserved name then dollar :: name else name

/-- The name of the child that a member stands for. A member `$meta` never comes here, and a name that was not escaped
is left alone even if it begins with dollar signs. -/
def unescapeKey (key : Text) : Text :=
  match key with
  | a :: b :: rest => if a = dollar ∧ b = dollar ∧ isReserved key then b :: rest else key
  | _ => key

def sortPaths (paths : List Text) : List Text := paths.mergeSort fun a b => a.key ≤ b.key

/-- A list of paths as a member. An empty list is left out, so a node without edges does not show that it could have
some. -/
def edgeMember (key : Text) (paths : List Text) : List (Text × Json) :=
  if paths.isEmpty then [] else [(key, .arr ((sortPaths paths).map .str))]

end Document

namespace Atlas

open Document

def documentPath (a : Atlas) (i : Nat) : Text := a.fullName i [CodePoint.ofChar '/']

/-- The members that hold a node's edges; dependents are left out unless `reverse` is set. -/
def metaMembers (a : Atlas) (reverse : Bool) (i : Nat) : List (Text × Json) :=
  edgeMember depsKey ((a.dependencies i).map a.documentPath) ++
    if reverse then edgeMember rdepsKey ((a.dependents i).map a.documentPath) else []

/-- The object of a node. A child has a greater number than its parent; the test for it makes the descent end, and
never fails in an atlas that operations have made. -/
def documentAt (a : Atlas) (reverse : Bool) (i : Nat) : Json :=
  let below := (a.children i).filterMap fun c =>
    if _h : i < c ∧ c < a.size then
      some (escapeKey (((a.node? c).map (·.name)).getD []), a.documentAt reverse c)
    else none
  let edges := a.metaMembers reverse i
  .obj (below ++ if edges.isEmpty then [] else [(metaKey, .obj edges)])
termination_by a.size - i

def document (a : Atlas) (reverse : Bool) : Json := a.documentAt reverse root

structure Style where
  reverse : Bool
  layout : Json.Layout
  deriving DecidableEq, Repr

/-- The text of an atlas. One that is laid out in lines ends with a line feed, as text files do; a compact one is one
line without. -/
def dump (a : Atlas) (style : Style) : Text :=
  let text := Json.render style.layout (a.document style.reverse)
  match style.layout with
  | .compact => text
  | .lines _ => text ++ [CodePoint.ofChar '\n']

end Atlas

end HeaderAtlas
