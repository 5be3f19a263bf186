import HeaderAtlas.Atlas.Basic
/-!
# Operations on referenced nodes

A caller that works with several atlases may hand a node of one to another. Every operation here
checks that the nodes it is given are its own. An operation that fails changes nothing, except that
path segments made before an unencodable name stay.
-/

set_option autoImplicit false

namespace HeaderAtlas

/-- A node as a caller gives it: one of this atlas, or one of another, of which only number and name
are known. -/
inductive NodeRef where
  | own (index : Nat)
  | foreign (index : Nat) (name : Text)
  deriving DecidableEq, Repr

def NodeRef.index : NodeRef → Except AtlasFault Nat
  | .own i => .ok i
  | .foreign i name => .error (.foreign i name)

namespace Atlas

/-- The child with the given name, made if it is not there. -/
def addChildOf (a : Atlas) (node : NodeRef) (name : Text) : Atlas × Except AtlasFault Nat :=
  -- the name comes before the node: an empty one is reported even for a node of another atlas
  if name.isEmpty then (a, .error .emptyName)
  else
    match node.index with
    | .error e => (a, .error e)
    | .ok i =>
      match a.addChild i name with
      | .error e => (a, .error e)
      | .ok (b, c) => (b, .ok c)

def findChildOf (a : Atlas) (node : NodeRef) (name : Text) : Except AtlasFault (Option Nat) :=
  match node.index with
  | .error e => .error e
  | .ok i => a.findChild i name

/-- The node at which a path starts, and the names in the path. The path is checked first, so a path without names is
reported even if it is to start at a node of another atlas. -/
def wayFrom (start : NodeRef) (path sep : Text) : Except AtlasFault (Nat × List Text) :=
  match pathNames path sep with
  | .error e => .error e
  | .ok names =>
    match start.index with
    | .error e => .error e
    | .ok i => .ok (i, names)

/-- Follows a path down from `start` as far as it is there. -/
def navigate (a : Atlas) (start : NodeRef) (path sep : Text) : Except AtlasFault (Option Nat) :=
  match wayFrom start path sep with
  | .error e => .error e
  | .ok (i, names) => a.findNames i names

/-- Follows a path down from `start` and makes what is missing. -/
def addPathFrom (a : Atlas) (start : NodeRef) (path sep : Text) : Atlas × Except AtlasFault Nat :=
  match wayFrom start path sep with
  | .error e => (a, .error e)
  | .ok (i, names) => a.addNames i names

/-- Two nodes of this atlas. If neither is, the first is the one reported. -/
def bothOwn (node other : NodeRef) : Except AtlasFault (Nat × Nat) :=
  match node.index with
  | .error e => .error e
  | .ok i =>
    match other.index with
    | .error e => .error e
    | .ok j => .ok (i, j)

/-- Records an edge from `node` to `other`, and says whether it is new. -/
def addEdgeOf (a : Atlas) (kind : EdgeKind) (node other : NodeRef) : Atlas × Except AtlasFault Bool :=
  match bothOwn node other with
  | .error e => (a, .error e)
  | .ok (i, j) =>
    let (b, isNew) := a.addEdge kind i j
    (b, .ok isNew)

abbrev addDependencyOf (a : Atlas) (node target : NodeRef) : Atlas × Except AtlasFault Bool :=
  a.addEdgeOf .dependency node target

abbrev addDependentOf (a : Atlas) (node source : NodeRef) : Atlas × Except AtlasFault Bool :=
  a.addEdgeOf .dependent node source

/-- Makes the node with the given path from the root, and the edge from node `i` to it. The root is that of the tree
which node `i` stands in, wherever in it that is. -/
def addEdgePath (a : Atlas) (kind : EdgeKind) (i : Nat) (path sep : Text) : Atlas × Except AtlasFault Nat :=
  match a.addPath (a.rootOf i) path sep with
  | (b, .error e) => (b, .error e)
  | (b, .ok j) => ((b.addEdge kind i j).1, .ok j)

/-- The same for a node as a caller gives it; the node is checked first. -/
def addEdgePathOf (a : Atlas) (kind : EdgeKind) (node : NodeRef) (path sep : Text) :
    Atlas × Except AtlasFault Nat :=
  match node.index with
  | .error e => (a, .error e)
  | .ok i => a.addEdgePath kind i path sep

abbrev addDependencyPathOf (a : Atlas) (node : NodeRef) (path sep : Text) : Atlas × Except AtlasFault Nat :=
  a.addEdgePathOf .dependency node path sep

abbrev addDependentPathOf (a : Atlas) (node : NodeRef) (path sep : Text) : Atlas × Except AtlasFault Nat :=
  a.addEdgePathOf .dependent node path sep

end Atlas

end HeaderAtlas
