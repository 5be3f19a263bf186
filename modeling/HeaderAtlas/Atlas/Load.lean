import HeaderAtlas.Atlas.Document
import HeaderAtlas.Atlas.Reference
import HeaderAtlas.Json.Reader
/-!
# Reading a document into an atlas

The nodes and edges that a document describes are added to those that are there. A node that an edge names is made if
it is not there yet, so edges may point forward. What was added before a fault was met stays: whoever needs all or
nothing reads into a new atlas.

The reader checks what a document is made of, and leaves names and paths to the atlas, which has its own words for
those that it refuses.
-/

set_option autoImplicit false

namespace HeaderAtlas

/-- Why a document could not be added: a part of it has the wrong shape, or the atlas refused. A place is given by
member names as they stand, before they are unescaped, so that it can be found in the text. -/
inductive LoadFault where
  | notObject (place : Text)
  | metaNotObject (place : Text)
  | edgeList (place : Text)
  | refused (e : AtlasFault)
  deriving DecidableEq, Repr

namespace LoadFault

/-- How a message shows a place. That of the whole document is empty, and is shown as the root. -/
def placeText (place : Text) : Text := "'" ++ (if place.isEmpty then Path.root else place) ++ "'"

def message : LoadFault → Text
  | .notObject place =>
    "Malformed dependency document at " ++ placeText place ++ ": expected an object"
  | .metaNotObject place =>
    "Malformed '$meta' at " ++ placeText place ++ ": expected an object"
  | .edgeList place =>
    "Malformed edge list at " ++ placeText place ++ ": expected non-empty strings"
  | .refused e => e.message

end LoadFault

namespace Document

/-- The strings of a list, all of which must be there and not empty. -/
def strings? : List Json → Option (List Text)
  | [] => some []
  | .str t :: rest => if t.isEmpty then none else (strings? rest).map (t :: ·)
  | _ :: _ => none

/-- The paths of an edge list; one that is absent or null has none. -/
def edgePaths (place : Text) : Option Json → Except LoadFault (List Text)
  | none => .ok []
  | some .null => .ok []
  | some (.arr items) =>
    match strings? items with
    | some paths => .ok paths
    | none => .error (.edgeList place)
  | some _ => .error (.edgeList place)

/-- Adds edges of one kind from node `i`, path by path. Paths are taken from the root of the atlas, wherever in the
document their list stands. -/
def addEdges (kind : EdgeKind) (i : Nat) (a : Atlas) : List Text → Atlas × Except LoadFault Unit
  | [] => (a, .ok ())
  | path :: rest =>
    match a.addEdgePath kind i path Path.root with
    | (b, .error e) => (b, .error (.refused e))
    | (b, .ok _) => addEdges kind i b rest

/-- Adds the edges that the member `$meta` of node `i` lists. Each list is checked before any of its edges is added,
but the first list is added before the second is checked. -/
def loadMeta (a : Atlas) (i : Nat) (place : Text) (value : Option Json) :
    Atlas × Except LoadFault Unit :=
  match value with
  | none => (a, .ok ())
  | some .null => (a, .ok ())
  | some (.obj edges) =>
    match edgePaths place (Json.Members.get? depsKey edges) with
    | .error e => (a, .error e)
    | .ok deps =>
      match addEdges .dependency i a deps with
      | (b, .error e) => (b, .error e)
      | (b, .ok ()) =>
        match edgePaths place (Json.Members.get? rdepsKey edges) with
        | .error e => (b, .error e)
        | .ok rdeps => addEdges .dependent i b rdeps
  | some _ => (a, .error (.metaNotObject place))

mutual

/-- Adds the object of node `i`: its children with all below them, then its edges. -/
def loadAt (a : Atlas) (i : Nat) (place : Text) : Json → Atlas × Except LoadFault Unit
  | .obj members =>
    match loadMembers a i place members with
    | (b, .error e) => (b, .error e)
    | (b, .ok ()) => loadMeta b i place (Json.Members.get? metaKey members)
  | _ => (a, .error (.notObject place))

/-- Adds the children of node `i`, in the order in which they stand. The member for edges is passed over, as its turn
comes after all children. -/
def loadMembers (a : Atlas) (i : Nat) (place : Text) :
    List (Text × Json) → Atlas × Except LoadFault Unit
  | [] => (a, .ok ())
  | (key, value) :: rest =>
    if key = metaKey then loadMembers a i place rest
    else
      match a.addChild i (unescapeKey key) with
      | .error e => (a, .error (.refused e))
      | .ok (b, c) =>
        match loadAt b c (place ++ Path.slash :: key) value with
        | (d, .error e) => (d, .error e)
        | (d, .ok ()) => loadMembers d i place rest

end

end Document

namespace Atlas

def load (a : Atlas) (document : Json) : Atlas × Except LoadFault Unit :=
  Document.loadAt a root [] document

end Atlas

end HeaderAtlas
