import HeaderAtlas.Atlas.Basic
/-!
# Requests

An atlas is filled by requests that name nodes by their names from the root: for a node to be there, or for an edge
between two nodes. A request makes the nodes it names. Asking again for what is there changes nothing, so that
requests may come from files in any order and as often as they like.
-/

set_option autoImplicit false

namespace HeaderAtlas

/-- Something that an atlas should hold: a node, or an edge from one node to another. -/
inductive Request where
  | node (names : List Text)
  | edge (kind : EdgeKind) (node other : List Text)
  deriving DecidableEq, Repr

namespace Request

@[match_pattern] abbrev dependency (source target : List Text) : Request := .edge .dependency source target

@[match_pattern] abbrev dependent (node source : List Text) : Request := .edge .dependent node source

end Request

namespace Atlas

/-- Makes two nodes, the first one first. If the second is refused then the first has been made nevertheless. -/
def addBoth (a : Atlas) (first second : List Text) : Atlas × Except AtlasFault (Nat × Nat) :=
  match a.addNames root first with
  | (b, .error e) => (b, .error e)
  | (b, .ok i) =>
    match b.addNames root second with
    | (c, .error e) => (c, .error e)
    | (c, .ok j) => (c, .ok (i, j))

def perform (a : Atlas) : Request → Atlas × Except AtlasFault Unit
  | .node names =>
    match a.addNames root names with
    | (b, .error e) => (b, .error e)
    | (b, .ok _) => (b, .ok ())
  | .edge kind node other =>
    match a.addBoth node other with
    | (b, .error e) => (b, .error e)
    | (b, .ok (i, j)) => ((b.addEdge kind i j).1, .ok ())

/-- Does what requests ask for, one after the other, up to the first that is refused. What was done before
stays done. -/
def performAll (a : Atlas) : List Request → Atlas × Except AtlasFault Unit
  | [] => (a, .ok ())
  | request :: rest =>
    match a.perform request with
    | (b, .error e) => (b, .error e)
    | (b, .ok ()) => b.performAll rest

end Atlas

end HeaderAtlas
