import HeaderAtlas.Path.Basic
import HeaderAtlas.Text.Utf8
/-!
# Atlases

An atlas holds every directory, file and header of a source tree as a node with a name below another node, and, over
the same nodes, which file includes which. Nodes are numbered in the order in which they were made, from the root with
number zero on; parents, children and edges are kept as numbers. A number is never given twice and no node is ever
removed, so a number that was handed out once stays good.

Two names are the same if they have the same bytes. Children are looked up and ordered by the bytes of their names and
not by the names themselves, as two texts may have the same bytes. The two lists of edges of a node are ordered by
number and have no repetitions. Numbers depend on the order in which nodes were made, so no document shows them.

The operations here take numbers on trust: asked about a node that is not there they answer as if it had no children
and no edges. Callers' nodes are checked one level up, in `HeaderAtlas.Atlas.Reference`.
-/

set_option autoImplicit false

namespace HeaderAtlas

/-- The two kinds of edges: those to what a node includes, and those to what includes it. An edge that is recorded
with one of its nodes is not thereby recorded with the other one. The two kinds are asked for apart, and a caller who
has dependencies only can have the dependents made from them (`Atlas.reconstruct`). -/
inductive EdgeKind where
  | dependency
  | dependent
  deriving DecidableEq, Repr

/-- A node of an atlas. The root alone has no parent and an empty name. A child is listed with the bytes of its name,
so that looking for one and keeping the order need not encode the names of the others again. -/
structure Node where
  name : Text
  parent : Option Nat
  children : List (Bytes × Nat)
  dependencies : List Nat
  dependents : List Nat
  deriving DecidableEq, Repr

namespace Node

def leaf (name : Text) (parent : Option Nat) : Node := ⟨name, parent, [], [], []⟩

def isRoot (n : Node) : Bool := n.parent.isNone

def edges (n : Node) : EdgeKind → List Nat
  | .dependency => n.dependencies
  | .dependent => n.dependents

def setEdges (n : Node) (kind : EdgeKind) (edges : List Nat) : Node :=
  match kind with
  | .dependency => { n with dependencies := edges }
  | .dependent => { n with dependents := edges }

/-- Whether an edge is recorded with the node. Edges that lead to it and are recorded elsewhere do not count. -/
def hasEdges (n : Node) : Bool := !n.dependencies.isEmpty || !n.dependents.isEmpty

def child? (n : Node) (key : Bytes) : Option Nat :=
  (n.children.find? fun entry => entry.1 == key).map (·.2)

end Node

/-- The nodes of a source tree. It is an array, since numbers are given out one after the other. -/
structure Atlas where
  nodes : Array Node
  deriving DecidableEq, Repr

/-- Why an atlas refuses an operation. Only an encoding fault can come up when a part of a path was already made; all
others are found before anything is changed. -/
inductive AtlasFault where
  /-- A node other than the root needs a name. -/
  | emptyName
  /-- A path needs at least one segment. -/
  | emptyPath
  /-- The node belongs to another atlas. -/
  | foreign (index : Nat) (name : Text)
  | separator (e : Segments.BadSeparator)
  | encoding (e : EncodeError)
  deriving DecidableEq, Repr

namespace AtlasFault

/-- How messages show a node. The number is that of the atlas which the node is from, and that is not the one which
complains about it. -/
def nodeText (index : Nat) (name : Text) : Text :=
  "DepNode(index=" ++ Text.ofNat index ++ ", name=" ++ name.quoted ++ ")"

def message : AtlasFault → Text
  | .emptyName => "Node name must not be empty"
  | .emptyPath => "Node path must not be empty"
  | .foreign index name => nodeText index name ++ " does not belong to this tree"
  | .separator e => e.message
  | .encoding e => e.message

end AtlasFault

namespace Atlas

def empty : Atlas := ⟨#[Node.leaf [] none]⟩

instance : Inhabited Atlas := ⟨empty⟩

def root : Nat := 0

def size (a : Atlas) : Nat := a.nodes.size

def node? (a : Atlas) (i : Nat) : Option Node := a.nodes[i]?

def children (a : Atlas) (i : Nat) : List Nat :=
  ((a.node? i).map fun n => n.children.map (·.2)).getD []

/-- The nodes that the edges of one kind lead to from a node. -/
def edges (a : Atlas) (kind : EdgeKind) (i : Nat) : List Nat := ((a.node? i).map (·.edges kind)).getD []

/-- The nodes that a node includes. -/
abbrev dependencies (a : Atlas) (i : Nat) : List Nat := a.edges .dependency i

/-- The nodes that include a node. -/
abbrev dependents (a : Atlas) (i : Nat) : List Nat := a.edges .dependent i

def parent? (a : Atlas) (i : Nat) : Option Nat := (a.node? i).bind (·.parent)

/-- The number of dependencies. Dependents are not counted: each of them is the other end of a dependency, or was
recorded by itself and says nothing about a file that was read. -/
def edgeCount (a : Atlas) : Nat := (a.nodes.toList.flatMap (·.dependencies)).length

/-! ## The way to a node -/

/-- The node at the end of the chain of parents. That a parent has a smaller number than its children is tested at
every step, which is what makes the climb end for any array of nodes whatever. -/
def rootOf (a : Atlas) (i : Nat) : Nat :=
  match a.parent? i with
  | none => i
  | some p => if p < i then a.rootOf p else i
termination_by i

/-- The names from the root, which has none, down to a node. It climbs as `rootOf` does. -/
def namesTo (a : Atlas) (i : Nat) : List Text :=
  match a.node? i with
  | none => []
  | some n =>
    match n.parent with
    | none => []
    | some p => if p < i then a.namesTo p ++ [n.name] else []
termination_by i

def fullName (a : Atlas) (i : Nat) (sep : Text) : Text := Text.join sep (a.namesTo i)

/-! ## Making nodes -/

/-- Puts a child in its place among the others. Bytes that are there already would be put in twice, so it is asked for
new ones only. -/
def insertChild (key : Bytes) (i : Nat) : List (Bytes × Nat) → List (Bytes × Nat)
  | [] => [(key, i)]
  | entry :: rest => if key < entry.1 then (key, i) :: entry :: rest else entry :: insertChild key i rest

/-- Adds a new child with the given name and its bytes. The new node takes the next free number. -/
def append (a : Atlas) (i : Nat) (name : Text) (key : Bytes) : Atlas :=
  ⟨(a.nodes.push (Node.leaf name (some i))).modify i fun n =>
    { n with children := insertChild key a.size n.children }⟩

/-- The child with the given name, made if it is not there. What is there keeps the name it was made with, even if
that is another way to spell the same bytes. -/
def addChild (a : Atlas) (i : Nat) (name : Text) : Except AtlasFault (Atlas × Nat) :=
  if name.isEmpty then .error .emptyName
  else
    -- the name is encoded before it is looked for: a bad one is a fault whatever is there
    match name.encode with
    | .error e => .error (.encoding e)
    | .ok key =>
      match (a.node? i).bind (·.child? key) with
      | some c => .ok (a, c)
      | none => .ok (a.append i name key, a.size)

/-- Follows names down from a node and makes what is missing. A name that cannot be encoded is noticed when its turn
comes, and what was made before it stays. -/
def addNames (a : Atlas) (i : Nat) : List Text → Atlas × Except AtlasFault Nat
  | [] => (a, .ok i)
  | name :: rest =>
    match a.addChild i name with
    | .error e => (a, .error e)
    | .ok (b, c) => b.addNames c rest

/-- The child with the given name, if there is one. An empty name is no fault here, since no child has one. -/
def findChild (a : Atlas) (i : Nat) (name : Text) : Except AtlasFault (Option Nat) :=
  match name.encode with
  | .error e => .error (.encoding e)
  | .ok key => .ok ((a.node? i).bind (·.child? key))

/-- Follows names down from a node as far as they are there. A name that cannot be encoded is a fault only if all
names before it are there. -/
def findNames (a : Atlas) (i : Nat) : List Text → Except AtlasFault (Option Nat)
  | [] => .ok (some i)
  | name :: rest =>
    match a.findChild i name with
    | .error e => .error e
    | .ok none => .ok none
    | .ok (some c) => a.findNames c rest

/-- The names in a path. A path of nothing but separators has none and is refused, as it would lead back to where it
starts. -/
def pathNames (path sep : Text) : Except AtlasFault (List Text) :=
  match Segments.ofPath path sep with
  | .error e => .error (.separator e)
  | .ok [] => .error .emptyPath
  | .ok names => .ok names

def addPath (a : Atlas) (i : Nat) (path sep : Text) : Atlas × Except AtlasFault Nat :=
  match pathNames path sep with
  | .error e => (a, .error e)
  | .ok names => a.addNames i names

/-! ## Edges -/

/-- Puts a number in its place in an increasing list, once. -/
def insertNumber (i : Nat) : List Nat → List Nat
  | [] => [i]
  | j :: rest =>
    if i < j then i :: j :: rest
    else if i = j then j :: rest
    else j :: insertNumber i rest

def withEdge (kind : EdgeKind) (j : Nat) (n : Node) : Node := n.setEdges kind (insertNumber j (n.edges kind))

/-- Records an edge from node `i` to node `j`, and says whether it is new. Nothing is recorded with node `j`. -/
def addEdge (a : Atlas) (kind : EdgeKind) (i j : Nat) : Atlas × Bool :=
  (⟨a.nodes.modify i (withEdge kind j)⟩, !(a.edges kind i).contains j)

abbrev addDependency (a : Atlas) (i j : Nat) : Atlas × Bool := a.addEdge .dependency i j

abbrev addDependent (a : Atlas) (i j : Nat) : Atlas × Bool := a.addEdge .dependent i j

/-- Records node `i` as a dependent of each of the given nodes, and counts where that is new. -/
def addReverseOf (a : Atlas) (i : Nat) : List Nat → Atlas × Nat
  | [] => (a, 0)
  | j :: rest =>
    let (b, isNew) := a.addDependent j i
    let (c, count) := b.addReverseOf i rest
    (c, count + isNew.toNat)

/-- The same for the dependencies of several nodes, one node after the other. A pass writes dependents and reads
dependencies, so it does not matter that it changes the atlas as it goes. -/
def addReverseOfAll (a : Atlas) : List Nat → Atlas × Nat
  | [] => (a, 0)
  | i :: rest =>
    let (b, count) := a.addReverseOf i (a.dependencies i)
    let (c, more) := b.addReverseOfAll rest
    (c, count + more)

/-- Makes the dependents from the dependencies, and counts those that were missing. Dependents that have no dependency
as their other end stay. -/
def reconstruct (a : Atlas) : Atlas × Nat := a.addReverseOfAll (List.range a.size)

end Atlas

end HeaderAtlas
