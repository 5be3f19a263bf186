import HeaderAtlas.Proofs.Atlas.Branch
import HeaderAtlas.Proofs.Atlas.Shape
/-!
# Families of atlases

A caller may work with several atlases at a time, and hand a node of one of them to another. Here the calls
are written out step by step for all atlases at once (`Family`): a step looks at nodes, changes one, or
raises a fault, and whatever the steps before a fault have changed stays changed (`Act`). Nothing but the
checks among the steps keeps a call from changing an atlas that is not its own, or from leaving a change
half done.

The steps come to what the operations on one atlas do (`Family.run_eq`). So a call that is refused leaves
every atlas of the family as it was (`Family.run_refused_unchanged`), as long as the texts it is given have
bytes.
-/

set_option autoImplicit false

namespace HeaderAtlas

/-- Several atlases, by number. -/
abbrev Family := List Atlas

/-- A node of one of several atlases. -/
structure Handle where
  tree : Nat
  index : Nat
  deriving DecidableEq, Repr

namespace Family

/-- One of the atlases. -/
def tree (f : Family) (t : Nat) : Atlas := f.getD t Atlas.empty

/-- A node of one of the atlases. -/
def node (f : Family) (h : Handle) : Node := ((f.tree h.tree).node? h.index).getD (Node.leaf [] none)

/-- The node is there. -/
def Has (f : Family) (h : Handle) : Prop := h.tree < f.length ∧ h.index < (f.tree h.tree).size

instance (f : Family) (h : Handle) : Decidable (f.Has h) := inferInstanceAs (Decidable (_ ∧ _))

/-- What a node is to one of the atlases. -/
def seen (f : Family) (t : Nat) (h : Handle) : NodeRef :=
  if h.tree = t then .own h.index else .foreign h.index (f.node h).name

/-- Puts a new node at the end of an atlas. -/
def push (f : Family) (t : Nat) (n : Node) : Family := f.modify t fun a => ⟨a.nodes.push n⟩

/-- Changes a node, whichever atlas it is in. -/
def edit (f : Family) (h : Handle) (change : Node → Node) : Family :=
  f.modify h.tree fun a => ⟨a.nodes.modify h.index change⟩

end Family

/-! ## Steps -/

/-- Steps that look at a family and change it, up to a fault if there is one. -/
structure Act (α : Type) where
  /-- What comes of the steps, and the family after them. -/
  run : Family → Except AtlasFault α × Family

instance : Monad Act where
  pure a := ⟨fun f => (.ok a, f)⟩
  bind x k := ⟨fun f =>
    match x.run f with
    | (.ok a, g) => (k a).run g
    | (.error e, g) => (.error e, g)⟩

namespace Act

variable {α β : Type}

/-- Looks at the family. -/
def look (view : Family → α) : Act α := ⟨fun f => (.ok (view f), f)⟩

/-- Changes the family. -/
def change (step : Family → Family) : Act Unit := ⟨fun f => (.ok (), step f)⟩

/-- Raises a fault unless something holds. -/
def ensure (holds : Family → Bool) (fault : Family → AtlasFault) : Act Unit :=
  ⟨fun f => if holds f then (.ok (), f) else (.error (fault f), f)⟩

/-- Raises a fault that has come up already. -/
def lift (x : Except AtlasFault α) : Act α := ⟨fun f => (x, f)⟩

theorem run_bind_ok {x : Act α} {k : α → Act β} {f g : Family} {a : α} (h : x.run f = (.ok a, g)) :
    (x >>= k).run f = (k a).run g := by
  simp only [bind, h]

theorem run_bind_error {x : Act α} {k : α → Act β} {f g : Family} {e : AtlasFault}
    (h : x.run f = (.error e, g)) : (x >>= k).run f = (.error e, g) := by
  simp only [bind, h]

theorem map_map {γ : Type} (k : α → β) (l : β → γ) (x : Except AtlasFault α) :
    (x.map k).map l = x.map fun a => l (k a) := by
  cases x with
  | error e => rfl
  | ok a => rfl

theorem run_map (k : α → β) (x : Act α) (f : Family) : (k <$> x).run f = ((x.run f).1.map k, (x.run f).2) := by
  rcases hx : x.run f with ⟨e | a, g⟩
  · exact run_bind_error hx
  · exact run_bind_ok hx

theorem run_ensure {holds : Family → Bool} {f : Family} (h : holds f = true) (fault : Family → AtlasFault) :
    (ensure holds fault).run f = (.ok (), f) := if_pos h

theorem run_ensure_not {holds : Family → Bool} {f : Family} (h : holds f = false)
    (fault : Family → AtlasFault) : (ensure holds fault).run f = (.error (fault f), f) := by
  simp only [ensure, h, Bool.false_eq_true, if_false]

end Act

/-! ## Calls, step by step -/

namespace Family

open Act

/-- Raises a fault if a node does not belong to an atlas. -/
def checkOwned (t : Nat) (h : Handle) : Act Unit :=
  ensure (fun f => decide (h.tree = t) && decide (h.index < (f.tree t).size)) fun f =>
    .foreign h.index (f.node h).name

/-- The bytes of a name. -/
def nameKey (name : Text) : Act Bytes := lift (name.encode.mapError .encoding)

/-- The child with the given name, made if it is not there. The node is changed last, wherever it is. -/
def getOrCreateChild (t : Nat) (h : Handle) (name : Text) : Act Handle := do
  ensure (fun _ => !name.isEmpty) fun _ => .emptyName
  checkOwned t h
  let key ← nameKey name
  match ← look fun f => (f.node h).child? key with
  | some c => return ⟨t, c⟩
  | none =>
    let new ← look fun f => (f.tree t).size
    change (·.push t (Node.leaf name (some h.index)))
    change (·.edit h fun n => { n with children := Atlas.insertChild key new n.children })
    return ⟨t, new⟩

/-- The child with the given name, if there is one. -/
def findChild (t : Nat) (h : Handle) (name : Text) : Act (Option Handle) := do
  checkOwned t h
  let key ← nameKey name
  let found ← look fun f => (f.node h).child? key
  return found.map (⟨t, ·⟩)

/-- The names in a path, of which there may be none. -/
def segments (path sep : Text) : Act (List Text) := lift ((Segments.ofPath path sep).mapError .separator)

/-- Follows names down from a node as far as they are there. -/
def follow (t : Nat) (h : Handle) : List Text → Act (Option Handle)
  | [] => return some h
  | name :: rest => do
    match ← findChild t h name with
    | none => return none
    | some c => follow t c rest

/-- Follows a path down from a node as far as it is there. That the path has names is found out last. -/
def navigate (t : Nat) (start : Handle) (path sep : Text) : Act (Option Handle) := do
  let names ← segments path sep
  match ← follow t start names with
  | none => return none
  | some last =>
    ensure (fun _ => !names.isEmpty) fun _ => .emptyPath
    return some last

/-- Follows a path down from a node and makes what is missing. That the path has names is found out last. -/
def addNestedChild (t : Nat) (start : Handle) (path sep : Text) : Act Handle := do
  let names ← segments path sep
  let last ← names.foldlM (getOrCreateChild t) start
  ensure (fun _ => !names.isEmpty) fun _ => .emptyPath
  return last

/-- Records an edge, and says whether it is new. -/
def addEdge (kind : EdgeKind) (t : Nat) (h other : Handle) : Act Bool := do
  checkOwned t h
  checkOwned t other
  let isNew ← look fun f => !((f.node h).edges kind).contains other.index
  change (·.edit h (Atlas.withEdge kind other.index))
  return isNew

/-- The node at the end of the chain of parents. -/
def rootOf (t : Nat) (h : Handle) : Act Handle := do
  checkOwned t h
  look fun f => ⟨t, (f.tree t).rootOf h.index⟩

/-- Makes the node at a path from the root, and the edge to it. -/
def addEdgePath (kind : EdgeKind) (t : Nat) (h : Handle) (path sep : Text) : Act Handle := do
  let top ← rootOf t h
  let other ← addNestedChild t top path sep
  let _ ← addEdge kind t h other
  return other

end Family

/-- What a caller may ask of one atlas among several. A path starts at the root unless a node is given. -/
inductive FamilyCall where
  | getOrCreateChild (node : Handle) (name : Text)
  | findChild (node : Handle) (name : Text)
  | navigate (start : Option Handle) (path sep : Text)
  | addNestedChild (start : Option Handle) (path sep : Text)
  | addEdge (kind : EdgeKind) (node other : Handle)
  | addEdgePath (kind : EdgeKind) (node : Handle) (path sep : Text)

/-- What a call is answered: a node, if there is one, or whether an edge is new. -/
inductive FamilyAnswer where
  | node (h : Option Handle)
  | isNew (b : Bool)
  deriving DecidableEq, Repr

namespace FamilyCall

/-- The nodes that a call is given. -/
def handles : FamilyCall → List Handle
  | .getOrCreateChild node _ => [node]
  | .findChild node _ => [node]
  | .navigate start _ _ => start.toList
  | .addNestedChild start _ _ => start.toList
  | .addEdge _ node other => [node, other]
  | .addEdgePath _ node _ _ => [node]

/-- The name or the path that a call is given. -/
def texts : FamilyCall → List Text
  | .getOrCreateChild _ name => [name]
  | .findChild _ name => [name]
  | .navigate _ path _ => [path]
  | .addNestedChild _ path _ => [path]
  | .addEdge _ _ _ => []
  | .addEdgePath _ _ path _ => [path]

/-- A call of the atlas with the number `t`, step by step. -/
def run (t : Nat) : FamilyCall → Act FamilyAnswer
  | .getOrCreateChild node name => (fun h => .node (some h)) <$> Family.getOrCreateChild t node name
  | .findChild node name => .node <$> Family.findChild t node name
  | .navigate start path sep => .node <$> Family.navigate t (start.getD ⟨t, Atlas.root⟩) path sep
  | .addNestedChild start path sep =>
    (fun h => .node (some h)) <$> Family.addNestedChild t (start.getD ⟨t, Atlas.root⟩) path sep
  | .addEdge kind node other => .isNew <$> Family.addEdge kind t node other
  | .addEdgePath kind node path sep => (fun h => .node (some h)) <$> Family.addEdgePath kind t node path sep

/-- The answer that a number of a node is. -/
def nodeAnswer (t : Nat) (i : Nat) : FamilyAnswer := .node (some ⟨t, i⟩)

/-- The same call as an operation on that atlas alone; `seen` says what the nodes are to it. -/
def perform (t : Nat) (a : Atlas) (seen : Handle → NodeRef) : FamilyCall → Atlas × Except AtlasFault FamilyAnswer
  | .getOrCreateChild node name => (a.addChildOf (seen node) name).map id (·.map (nodeAnswer t))
  | .findChild node name => (a, (a.findChildOf (seen node) name).map fun c => .node (c.map (⟨t, ·⟩)))
  | .navigate start path sep =>
    (a, (a.navigate (seen (start.getD ⟨t, Atlas.root⟩)) path sep).map fun c => .node (c.map (⟨t, ·⟩)))
  | .addNestedChild start path sep =>
    (a.addPathFrom (seen (start.getD ⟨t, Atlas.root⟩)) path sep).map id (·.map (nodeAnswer t))
  | .addEdge kind node other => (a.addEdgeOf kind (seen node) (seen other)).map id (·.map .isNew)
  | .addEdgePath kind node path sep => (a.addEdgePathOf kind (seen node) path sep).map id (·.map (nodeAnswer t))

/-- What a call of the atlas with the number `t` is refused for: a name or a path without any, a separator that
is not one character, a node of another atlas. -/
def Refused (t : Nat) : FamilyCall → Prop
  | .getOrCreateChild node name => name = [] ∨ node.tree ≠ t
  | .findChild node _ => node.tree ≠ t
  | .navigate start path sep => NoPath path sep ∨ ∃ h ∈ start, h.tree ≠ t
  | .addNestedChild start path sep => NoPath path sep ∨ ∃ h ∈ start, h.tree ≠ t
  | .addEdge _ node other => node.tree ≠ t ∨ other.tree ≠ t
  | .addEdgePath _ node path sep => NoPath path sep ∨ node.tree ≠ t
where
  /-- There is no name between separators, or no separator. -/
  NoPath (path sep : Text) : Prop := ∀ c, sep = [c] → ∀ x ∈ path, x = c

end FamilyCall

/-! ## Paths without names -/

theorem Segments.of_ofPath {path sep : Text} {names : List Text} (h : Segments.ofPath path sep = .ok names) :
    ∃ c, sep = [c] ∧ names = Segments.split c path := by
  unfold Segments.ofPath Segments.separator? at h
  split at h
  · exact ⟨_, rfl, (Except.ok.inj h).symm⟩
  · simp [Except.map] at h

/-- A path has no names if it is made of separators. -/
theorem Segments.split_eq_nil_iff {c : CodePoint} {path : Text} :
    Segments.split c path = [] ↔ ∀ x ∈ path, x = c := by
  induction path with
  | nil => simp
  | cons x path ih =>
    by_cases hx : x = c
    · rw [hx, Segments.split_cons_self, ih]
      simp
    · obtain ⟨part, parts, -, hparts⟩ := splitList_cons_of_ne hx path
      simp [Segments.split, Text.splitOn, hparts, hx]

/-- There are names in a path, or there are none and that is a fault. -/
theorem Atlas.pathNames_cases (path sep : Text) :
    (FamilyCall.Refused.NoPath path sep ∧ ∃ e, Atlas.pathNames path sep = .error e) ∨
      (¬ FamilyCall.Refused.NoPath path sep ∧ ∃ names, Atlas.pathNames path sep = .ok names ∧
        ∀ name ∈ names, name ≠ [] ∧ name ⊆ path) := by
  rw [Atlas.pathNames]
  cases hsegments : Segments.ofPath path sep with
  | error e =>
    refine .inl ⟨?_, .separator e, rfl⟩
    rintro c rfl
    simp [Segments.ofPath, Segments.separator?, Except.map] at hsegments
  | ok names =>
    obtain ⟨c, rfl, rfl⟩ := Segments.of_ofPath hsegments
    by_cases hnil : Segments.split c path = []
    · refine .inl ⟨?_, .emptyPath, by rw [hnil]⟩
      intro d hd
      rw [← List.head_eq_of_cons_eq hd]
      exact Segments.split_eq_nil_iff.1 hnil
    · refine .inr ⟨fun hnone => hnil (Segments.split_eq_nil_iff.2 (hnone c rfl)), Segments.split c path, ?_, ?_⟩
      · obtain ⟨name, rest, hcons⟩ := List.exists_cons_of_ne_nil hnil
        rw [hcons]
      · intro name hname
        exact ⟨(Segments.mem_split hname).1, subset_of_mem_splitList (List.mem_filter.1 hname).1⟩

/-! ## The steps and the operations -/

namespace Atlas

variable (a : Atlas) (kind : EdgeKind) (i j : Nat) (path sep : Text)

theorem addPathFrom_own : a.addPathFrom (.own i) path sep = a.addPath i path sep := by
  rw [addPathFrom, wayFrom, addPath]
  cases pathNames path sep with
  | error e => rfl
  | ok names => rfl

theorem addEdgeOf_own : a.addEdgeOf kind (.own i) (.own j) = ((a.addEdge kind i j).1, .ok (a.addEdge kind i j).2) :=
  rfl

theorem addEdgePathOf_own : a.addEdgePathOf kind (.own i) path sep = a.addEdgePath kind i path sep := rfl

end Atlas

namespace Family

open Act

variable {f : Family} {t i j : Nat} {h : Handle} {name path sep : Text}

theorem tree_eq_getElem (ht : t < f.length) : f.tree t = f[t] := by
  simp [tree, ht]

theorem tree_mem (ht : t < f.length) : f.tree t ∈ f := by
  rw [tree_eq_getElem ht]
  exact List.getElem_mem ht

theorem tree_set (ht : t < f.length) (a : Atlas) : tree (f.set t a) t = a := by
  simp [tree, ht]

theorem set_tree (ht : t < f.length) : f.set t (f.tree t) = f := by
  rw [tree_eq_getElem ht, List.set_getElem_self]

theorem modify_eq_set (ht : t < f.length) (change : Atlas → Atlas) :
    f.modify t change = f.set t (change (f.tree t)) := by
  rw [tree_eq_getElem ht, List.modify_eq_set_getElem?]
  simp [ht]

theorem node_own {n : Node} (hn : (f.tree t).node? i = some n) : f.node ⟨t, i⟩ = n := by
  simp only [node, hn, Option.getD_some]

theorem checkOwned_own (hi : i < (f.tree t).size) : (checkOwned t ⟨t, i⟩).run f = (.ok (), f) :=
  run_ensure (by simp [hi]) _

theorem checkOwned_foreign (hne : h.tree ≠ t) :
    (checkOwned t h).run f = (.error (.foreign h.index (f.node h).name), f) :=
  run_ensure_not (by simp [hne]) _

theorem run_nameKey {key : Bytes} (hkey : name.encode = .ok key) : (nameKey name).run f = (.ok key, f) := by
  rw [nameKey, hkey]
  rfl

theorem run_nameKey_error {e : EncodeError} (hkey : name.encode = .error e) :
    (nameKey name).run f = (.error (.encoding e), f) := by
  rw [nameKey, hkey]
  rfl

theorem run_segments {names : List Text} (hnames : Segments.ofPath path sep = .ok names) :
    (segments path sep).run f = (.ok names, f) := by
  rw [segments, hnames]
  rfl

theorem run_segments_error {e : Segments.BadSeparator} (hfault : Segments.ofPath path sep = .error e) :
    (segments path sep).run f = (.error (.separator e), f) := by
  rw [segments, hfault]
  rfl

theorem run_child {n : Node} (hn : (f.tree t).node? i = some n) (key : Bytes) :
    (look fun f => (f.node ⟨t, i⟩).child? key).run f = (.ok (n.child? key), f) := by
  simp only [look, node_own hn]

/-- A node is made in two steps, which come to one. -/
theorem getOrCreateChild_own (ht : t < f.length) (hi : i < (f.tree t).size) :
    (getOrCreateChild t ⟨t, i⟩ name).run f =
      match (f.tree t).addChild i name with
      | .error e => (.error e, f)
      | .ok (b, c) => (.ok ⟨t, c⟩, f.set t b) := by
  rw [getOrCreateChild, Atlas.addChild]
  by_cases hname : name.isEmpty = true
  · rw [run_bind_error (run_ensure_not (by simp [hname]) _), if_pos hname]
  · rw [run_bind_ok (run_ensure (by simp [hname]) _), run_bind_ok (checkOwned_own hi), if_neg hname]
    cases hkey : name.encode with
    | error e => rw [run_bind_error (run_nameKey_error hkey)]
    | ok key =>
      obtain ⟨n, hn⟩ := Atlas.exists_node? hi
      rw [run_bind_ok (run_nameKey hkey), run_bind_ok (run_child hn key), hn]
      simp only [Option.bind_some]
      cases n.child? key with
      | some c =>
        simp only [set_tree ht]
        rfl
      | none =>
        -- First the new node is put at the end, then it is listed with its parent.
        have hmade : edit (push f t (Node.leaf name (some i))) ⟨t, i⟩
            (fun n => { n with children := Atlas.insertChild key (f.tree t).size n.children }) =
            f.set t ((f.tree t).append i name key) := by
          have hpush : push f t (Node.leaf name (some i)) =
              f.set t ⟨(f.tree t).nodes.push (Node.leaf name (some i))⟩ := modify_eq_set ht _
          rw [hpush, edit, modify_eq_set (by simpa using ht), tree_set ht, List.set_set]
          rfl
        exact congrArg (fun g => (Except.ok (Handle.mk t (f.tree t).size), g)) hmade

theorem getOrCreateChild_foreign (hname : name ≠ []) (hne : h.tree ≠ t) :
    (getOrCreateChild t h name).run f = (.error (.foreign h.index (f.node h).name), f) := by
  rw [getOrCreateChild, run_bind_ok (run_ensure (by simpa using hname) _), run_bind_error (checkOwned_foreign hne)]

/-- A child is looked for where it is listed. -/
theorem findChild_own (hi : i < (f.tree t).size) :
    (findChild t ⟨t, i⟩ name).run f = (((f.tree t).findChild i name).map (Option.map (⟨t, ·⟩)), f) := by
  rw [findChild, Atlas.findChild, run_bind_ok (checkOwned_own hi)]
  cases hkey : name.encode with
  | error e =>
    rw [run_bind_error (run_nameKey_error hkey)]
    rfl
  | ok key =>
    obtain ⟨n, hn⟩ := Atlas.exists_node? hi
    rw [run_bind_ok (run_nameKey hkey), run_bind_ok (run_child hn key), hn]
    rfl

theorem findChild_foreign (hne : h.tree ≠ t) :
    (findChild t h name).run f = (.error (.foreign h.index (f.node h).name), f) := by
  rw [findChild, run_bind_error (checkOwned_foreign hne)]

/-- Names are followed from node to node, all of the same atlas. -/
theorem follow_own (ha : (f.tree t).WellFormed) (names : List Text) : ∀ {i : Nat}, i < (f.tree t).size →
    (follow t ⟨t, i⟩ names).run f = (((f.tree t).findNames i names).map (Option.map (⟨t, ·⟩)), f) := by
  induction names with
  | nil =>
    intro i _
    rfl
  | cons name rest ih =>
    intro i hi
    have hstep : (findChild t ⟨t, i⟩ name).run f = _ := findChild_own hi
    rw [follow, Atlas.findNames]
    cases hfound : (f.tree t).findChild i name with
    | error e =>
      rw [hfound] at hstep
      exact run_bind_error hstep
    | ok found =>
      rw [hfound] at hstep
      rw [run_bind_ok hstep]
      cases found with
      | none => rfl
      | some c =>
        -- what is found is listed, and so it is a node
        obtain ⟨-, m, hm, hc⟩ := (Atlas.findChild_eq_some_iff ha).1 hfound
        obtain ⟨n, hn, -⟩ := ha.child hm hc
        exact ih (Atlas.node?_lt hn)

/-- Names are made one after the other, all in the same atlas. -/
theorem foldlM_getOrCreateChild (names : List Text) : ∀ {f : Family} {i : Nat}, t < f.length →
    (f.tree t).WellFormed → i < (f.tree t).size →
    (names.foldlM (getOrCreateChild t) ⟨t, i⟩).run f =
      (((f.tree t).addNames i names).2.map (⟨t, ·⟩), f.set t ((f.tree t).addNames i names).1) := by
  induction names with
  | nil =>
    intro f i ht _ _
    rw [Atlas.addNames, set_tree ht]
    rfl
  | cons name rest ih =>
    intro f i ht ha hi
    have hstep : (getOrCreateChild t ⟨t, i⟩ name).run f = _ := getOrCreateChild_own ht hi
    rw [List.foldlM_cons, Atlas.addNames]
    cases hchild : (f.tree t).addChild i name with
    | error e =>
      rw [hchild] at hstep
      rw [run_bind_error hstep, set_tree ht]
      rfl
    | ok made =>
      obtain ⟨b, c⟩ := made
      obtain ⟨hb, -, hc⟩ := Atlas.wellFormed_addChild ha hi hchild
      rw [hchild] at hstep
      have htree := tree_set ht b
      rw [run_bind_ok hstep, ih (by simpa using ht) (by rwa [htree]) (by rwa [htree]), htree, List.set_set]

/-- A node is one of the atlas that is asked, or it is foreign to it. -/
theorem Has.seen_cases (hh : f.Has h) (t : Nat) :
    (∃ i, h = ⟨t, i⟩ ∧ i < (f.tree t).size ∧ f.seen t h = .own i) ∨
      (h.tree ≠ t ∧ f.seen t h = .foreign h.index (f.node h).name) := by
  by_cases ht : h.tree = t
  · subst ht
    exact .inl ⟨h.index, rfl, hh.2, if_pos rfl⟩
  · exact .inr ⟨ht, if_neg ht⟩

/-- Where a path starts is there. -/
theorem has_start (ht : t < f.length) (ha : (f.tree t).WellFormed) {start : Option Handle}
    (hstart : ∀ h ∈ start.toList, f.Has h) : f.Has (start.getD ⟨t, Atlas.root⟩) := by
  cases start with
  | none => exact ⟨ht, ha.root_lt⟩
  | some h => exact hstart h (by simp)

theorem run_getOrCreateChild (ht : t < f.length) (hh : f.Has h) (name : Text) :
    (getOrCreateChild t h name).run f =
      (((f.tree t).addChildOf (f.seen t h) name).2.map (⟨t, ·⟩),
        f.set t ((f.tree t).addChildOf (f.seen t h) name).1) := by
  rw [Atlas.addChildOf]
  by_cases hname : name.isEmpty = true
  · -- without a name nothing else is looked at
    rw [if_pos hname, set_tree ht, getOrCreateChild, run_bind_error (run_ensure_not (by simp [hname]) _)]
    rfl
  · obtain ⟨i, rfl, hi, hseen⟩ | ⟨hne, hseen⟩ := hh.seen_cases t
    · rw [if_neg hname, hseen, getOrCreateChild_own ht hi]
      simp only [NodeRef.index]
      cases (f.tree t).addChild i name with
      | error e =>
        simp only [set_tree ht]
        rfl
      | ok made => rfl
    · rw [if_neg hname, hseen, getOrCreateChild_foreign (by simpa using hname) hne]
      simp only [NodeRef.index, set_tree ht]
      rfl

theorem run_findChild (hh : f.Has h) (name : Text) :
    (findChild t h name).run f = (((f.tree t).findChildOf (f.seen t h) name).map (Option.map (⟨t, ·⟩)), f) := by
  obtain ⟨i, rfl, hi, hseen⟩ | ⟨hne, hseen⟩ := hh.seen_cases t
  · rw [hseen, findChild_own hi]
    rfl
  · rw [hseen, findChild_foreign hne]
    rfl

/-- The steps find out that a path has no names after they have followed all of them, the operation before. -/
theorem run_navigate (ha : (f.tree t).WellFormed) (hh : f.Has h) (path sep : Text) :
    (navigate t h path sep).run f =
      (((f.tree t).navigate (f.seen t h) path sep).map (Option.map (⟨t, ·⟩)), f) := by
  rw [navigate, Atlas.navigate, Atlas.wayFrom, Atlas.pathNames]
  cases hsegments : Segments.ofPath path sep with
  | error e =>
    rw [run_bind_error (run_segments_error hsegments)]
    rfl
  | ok names =>
    rw [run_bind_ok (run_segments hsegments)]
    cases names with
    | nil => rfl
    | cons name rest =>
      obtain ⟨i, rfl, hi, hseen⟩ | ⟨hne, hseen⟩ := hh.seen_cases t
      · have hfollow := follow_own ha (name :: rest) hi
        simp only [hseen, NodeRef.index]
        cases hfound : (f.tree t).findNames i (name :: rest) with
        | error e =>
          rw [hfound] at hfollow
          exact run_bind_error hfollow
        | ok found =>
          rw [hfound] at hfollow
          rw [run_bind_ok hfollow]
          cases found with
          | none => rfl
          | some c => rfl
      · have hfollow : (follow t h (name :: rest)).run f = (.error (.foreign h.index (f.node h).name), f) :=
          run_bind_error (findChild_foreign hne)
        rw [hseen, run_bind_error hfollow]
        rfl

/-- The same for a path that is made. Nothing is made from a foreign node, since the first name asks for it. -/
theorem run_addNestedChild (ht : t < f.length) (ha : (f.tree t).WellFormed) (hh : f.Has h) (path sep : Text) :
    (addNestedChild t h path sep).run f =
      (((f.tree t).addPathFrom (f.seen t h) path sep).2.map (⟨t, ·⟩),
        f.set t ((f.tree t).addPathFrom (f.seen t h) path sep).1) := by
  rw [addNestedChild, Atlas.addPathFrom, Atlas.wayFrom, Atlas.pathNames]
  cases hsegments : Segments.ofPath path sep with
  | error e =>
    simp only [run_bind_error (run_segments_error hsegments), set_tree ht]
    rfl
  | ok names =>
    rw [run_bind_ok (run_segments hsegments)]
    cases names with
    | nil =>
      simp only [set_tree ht]
      rfl
    | cons name rest =>
      obtain ⟨i, rfl, hi, hseen⟩ | ⟨hne, hseen⟩ := hh.seen_cases t
      · have hmake := foldlM_getOrCreateChild (name :: rest) ht ha hi
        simp only [hseen, NodeRef.index]
        cases hmade : ((f.tree t).addNames i (name :: rest)).2 with
        | error e =>
          rw [hmade] at hmake
          exact run_bind_error hmake
        | ok c =>
          rw [hmade] at hmake
          rw [run_bind_ok hmake]
          rfl
      · -- The first name is not empty, so it is the foreign node that is complained about.
        have hname : name ≠ [] := by
          obtain ⟨c, -, hsplit⟩ := Segments.of_ofPath hsegments
          exact (Segments.mem_split (hsplit ▸ List.mem_cons_self)).1
        have hmake : ((name :: rest).foldlM (getOrCreateChild t) h).run f =
            (.error (.foreign h.index (f.node h).name), f) := by
          rw [List.foldlM_cons, run_bind_error (getOrCreateChild_foreign hname hne)]
        simp only [hseen, run_bind_error hmake, NodeRef.index, set_tree ht]
        rfl

theorem run_addEdge (kind : EdgeKind) (ht : t < f.length) (hh : f.Has h) {other : Handle} (ho : f.Has other) :
    (addEdge kind t h other).run f =
      (((f.tree t).addEdgeOf kind (f.seen t h) (f.seen t other)).2,
        f.set t ((f.tree t).addEdgeOf kind (f.seen t h) (f.seen t other)).1) := by
  rw [addEdge]
  obtain ⟨i, rfl, hi, hseen⟩ | ⟨hne, hseen⟩ := hh.seen_cases t
  · rw [hseen, run_bind_ok (checkOwned_own hi)]
    obtain ⟨j, rfl, hj, hseen⟩ | ⟨hne, hseen⟩ := ho.seen_cases t
    · rw [hseen, run_bind_ok (checkOwned_own hj)]
      obtain ⟨n, hn⟩ := Atlas.exists_node? hi
      have hlook : (look fun f => !((f.node ⟨t, i⟩).edges kind).contains j).run f =
          (.ok ((f.tree t).addEdge kind i j).2, f) := by
        simp only [look, node_own hn, Atlas.addEdge, Atlas.edges_eq hn]
      have hedit : edit f ⟨t, i⟩ (Atlas.withEdge kind j) = f.set t ((f.tree t).addEdge kind i j).1 := by
        rw [edit, modify_eq_set ht]
        rfl
      rw [run_bind_ok hlook, Atlas.addEdgeOf_own, ← hedit]
      rfl
    · rw [hseen, run_bind_error (checkOwned_foreign hne)]
      exact congrArg (Prod.mk _) (set_tree ht).symm
  · rw [hseen, run_bind_error (checkOwned_foreign hne)]
    exact congrArg (Prod.mk _) (set_tree ht).symm

/-- The edge is drawn between nodes of the atlas, the second of which may have been made just before. -/
theorem run_addEdgePath (kind : EdgeKind) (ht : t < f.length) (ha : (f.tree t).WellFormed) (hh : f.Has h)
    (path sep : Text) :
    (addEdgePath kind t h path sep).run f =
      (((f.tree t).addEdgePathOf kind (f.seen t h) path sep).2.map (⟨t, ·⟩),
        f.set t ((f.tree t).addEdgePathOf kind (f.seen t h) path sep).1) := by
  rw [addEdgePath]
  obtain ⟨i, rfl, hi, hseen⟩ | ⟨hne, hseen⟩ := hh.seen_cases t
  · have htop : (f.tree t).rootOf i = Atlas.root := Atlas.rootOf_eq ha hi
    have hclimb : (rootOf t ⟨t, i⟩).run f = (.ok ⟨t, Atlas.root⟩, f) := by
      rw [rootOf, run_bind_ok (checkOwned_own hi)]
      simp only [look, htop]
    have hown : f.seen t ⟨t, Atlas.root⟩ = .own Atlas.root := if_pos rfl
    have hnested := run_addNestedChild ht ha (show f.Has ⟨t, Atlas.root⟩ from ⟨ht, ha.root_lt⟩) path sep
    rw [hown, Atlas.addPathFrom_own] at hnested
    obtain ⟨hgrows, hlt⟩ := Atlas.grows_addPath path sep ha ha.root_lt
    rw [hseen, Atlas.addEdgePathOf_own, Atlas.addEdgePath, htop, run_bind_ok hclimb]
    rcases hmade : (f.tree t).addPath Atlas.root path sep with ⟨b, e | j⟩
    · rw [hmade] at hnested
      exact run_bind_error hnested
    · rw [hmade] at hnested hgrows hlt
      rw [run_bind_ok hnested]
      -- both ends of the edge are nodes of the atlas as it is now
      have htree : tree (f.set t b) t = b := tree_set ht b
      have hset : t < (f.set t b).length := by simpa using ht
      have hthere : ∀ {k : Nat}, k < b.size → Has (f.set t b) ⟨t, k⟩ := by
        intro k hk
        refine ⟨hset, ?_⟩
        rwa [htree]
      have hnode : Has (f.set t b) ⟨t, i⟩ := hthere (hgrows.keeps.lt_size hi)
      have hother : Has (f.set t b) ⟨t, j⟩ := hthere (hlt j rfl)
      have hedge := run_addEdge kind hset hnode hother
      rw [show seen (f.set t b) t ⟨t, i⟩ = .own i from if_pos rfl,
        show seen (f.set t b) t ⟨t, j⟩ = .own j from if_pos rfl, htree, Atlas.addEdgeOf_own, List.set_set] at hedge
      rw [run_bind_ok hedge]
      rfl
  · have hfault : (rootOf t h).run f = (.error (.foreign h.index (f.node h).name), f) :=
      run_bind_error (checkOwned_foreign hne)
    rw [hseen, run_bind_error hfault]
    exact congrArg (Prod.mk _) (set_tree ht).symm

/-- **The steps of a call come to an operation** on the atlas that is asked, and no other atlas is touched. -/
theorem run_eq {c : FamilyCall} (ht : t < f.length) (ha : (f.tree t).WellFormed) (hc : ∀ h ∈ c.handles, f.Has h) :
    (c.run t).run f =
      ((c.perform t (f.tree t) (f.seen t)).2, f.set t (c.perform t (f.tree t) (f.seen t)).1) := by
  cases c with
  | getOrCreateChild node name =>
    rw [FamilyCall.run, run_map, run_getOrCreateChild ht (hc node List.mem_cons_self)]
    simp only [FamilyCall.perform, Prod.map_fst, Prod.map_snd, id, map_map]
    rfl
  | findChild node name =>
    rw [FamilyCall.run, run_map, run_findChild (hc node List.mem_cons_self)]
    simp only [FamilyCall.perform, set_tree ht, map_map]
  | navigate start path sep =>
    rw [FamilyCall.run, run_map, run_navigate ha (has_start ht ha hc)]
    simp only [FamilyCall.perform, set_tree ht, map_map]
  | addNestedChild start path sep =>
    rw [FamilyCall.run, run_map, run_addNestedChild ht ha (has_start ht ha hc)]
    simp only [FamilyCall.perform, Prod.map_fst, Prod.map_snd, id, map_map]
    rfl
  | addEdge kind node other =>
    rw [FamilyCall.run, run_map,
      run_addEdge kind ht (hc node List.mem_cons_self) (hc other (List.mem_cons_of_mem node List.mem_cons_self))]
    simp only [FamilyCall.perform, Prod.map_fst, Prod.map_snd, id]
  | addEdgePath kind node path sep =>
    rw [FamilyCall.run, run_map, run_addEdgePath kind ht ha (hc node List.mem_cons_self)]
    simp only [FamilyCall.perform, Prod.map_fst, Prod.map_snd, id, map_map]
    rfl

end Family

/-! ## All or nothing -/

/-- What was done is refused exactly if something is the case, and then nothing was done. -/
def AllOrNothing {α : Type} (a : Atlas) (done : Atlas × Except AtlasFault α) (refused : Prop) : Prop :=
  ((∃ e, done.2 = .error e) ↔ refused) ∧ (refused → done.1 = a)

namespace AllOrNothing

variable {α β : Type} {a : Atlas} {refused : Prop}

theorem refuse (h : refused) (e : AtlasFault) : @AllOrNothing α a (a, .error e) refused :=
  ⟨iff_of_true ⟨e, rfl⟩ h, fun _ => rfl⟩

theorem accept (h : ¬ refused) (b : Atlas) (answer : α) : AllOrNothing a (b, .ok answer) refused :=
  ⟨iff_of_false (by simp) h, fun hr => absurd hr h⟩

theorem map {done : Atlas × Except AtlasFault α} (h : AllOrNothing a done refused) (k : α → β) :
    AllOrNothing a (done.map id (·.map k)) refused := by
  refine ⟨?_, h.2⟩
  rw [← h.1]
  obtain ⟨b, e | answer⟩ := done
  · exact iff_of_true ⟨e, rfl⟩ ⟨e, rfl⟩
  · exact iff_of_false (by simp [Except.map]) (by simp)

end AllOrNothing

namespace Atlas

variable {a : Atlas} {i : Nat}

/-- Names that have bytes can be made. -/
theorem exists_addNames_ok {names : List Text} (hnames : ∀ name ∈ names, name ≠ [] ∧ name.HasBytes) :
    ∃ b k, a.addNames i names = (b, .ok k) := by
  rcases hmade : a.addNames i names with ⟨b, e | k⟩
  · obtain ⟨name, hname, err, hencode, -⟩ :=
      Document.of_addNames_eq_error (fun name hname => (hnames name hname).1) hmade
    rw [(hnames name hname).2.encode_eq] at hencode
    simp at hencode
  · exact ⟨b, k, rfl⟩

/-- Names that have bytes can be looked for. -/
theorem exists_findNames_ok {names : List Text} (hnames : ∀ name ∈ names, name.HasBytes) :
    ∃ found, a.findNames i names = .ok found := by
  induction names generalizing i with
  | nil => exact ⟨_, rfl⟩
  | cons name rest ih =>
    have hencode := (hnames name List.mem_cons_self).encode_eq
    rw [findNames, findChild, hencode]
    simp only
    cases (a.node? i).bind (·.child? name.key) with
    | none => exact ⟨_, rfl⟩
    | some c => exact ih fun name hname => hnames name (List.mem_cons_of_mem _ hname)

end Atlas

namespace Family

variable {f : Family} {t : Nat} {h : Handle}

theorem allOrNothing_addChildOf (hh : f.Has h) {name : Text} (hname : name.HasBytes) :
    AllOrNothing (f.tree t) ((f.tree t).addChildOf (f.seen t h) name) (name = [] ∨ h.tree ≠ t) := by
  rw [Atlas.addChildOf]
  by_cases hnil : name.isEmpty = true
  · rw [if_pos hnil]
    exact .refuse (.inl (List.isEmpty_iff.1 hnil)) _
  · rw [if_neg hnil]
    obtain ⟨i, rfl, -, hseen⟩ | ⟨hne, hseen⟩ := hh.seen_cases t
    · have hok : ¬ (name = [] ∨ t ≠ t) := by simpa using hnil
      simp only [hseen, NodeRef.index]
      cases hchild : (f.tree t).addChild i name with
      | error e =>
        obtain ⟨rfl, -⟩ | ⟨err, hencode, -⟩ := Document.of_addChild_eq_error hchild
        · exact absurd rfl hnil
        · rw [hname.encode_eq] at hencode
          simp at hencode
      | ok made => exact .accept hok _ _
    · simp only [hseen, NodeRef.index]
      exact .refuse (.inr hne) _

theorem allOrNothing_findChildOf (hh : f.Has h) {name : Text} (hname : name.HasBytes) :
    AllOrNothing (f.tree t) (f.tree t, (f.tree t).findChildOf (f.seen t h) name) (h.tree ≠ t) := by
  obtain ⟨i, rfl, -, hseen⟩ | ⟨hne, hseen⟩ := hh.seen_cases t
  · rw [hseen, Atlas.findChildOf, NodeRef.index]
    simp only [Atlas.findChild, hname.encode_eq]
    exact .accept (by simp) _ _
  · rw [hseen, Atlas.findChildOf, NodeRef.index]
    exact .refuse hne _

/-- A path is refused for want of names or because it starts at a foreign node. Otherwise all its names have bytes. -/
theorem wayFrom_cases (hh : f.Has h) {path : Text} (hpath : path.HasBytes) (sep : Text) :
    ((FamilyCall.Refused.NoPath path sep ∨ h.tree ≠ t) ∧ ∃ e, Atlas.wayFrom (f.seen t h) path sep = .error e) ∨
      (¬ (FamilyCall.Refused.NoPath path sep ∨ h.tree ≠ t) ∧
        ∃ i names, Atlas.wayFrom (f.seen t h) path sep = .ok (i, names) ∧
          ∀ name ∈ names, name ≠ [] ∧ name.HasBytes) := by
  rw [Atlas.wayFrom]
  obtain ⟨hnone, e, he⟩ | ⟨hsome, names, hnames, hall⟩ := Atlas.pathNames_cases path sep
  · rw [he]
    exact .inl ⟨.inl hnone, e, rfl⟩
  · rw [hnames]
    obtain ⟨i, rfl, -, hseen⟩ | ⟨hne, hseen⟩ := hh.seen_cases t
    · rw [hseen]
      refine .inr ⟨by simpa using hsome, i, names, rfl, fun name hname => ?_⟩
      exact ⟨(hall name hname).1, hpath.of_subset (hall name hname).2⟩
    · rw [hseen]
      exact .inl ⟨.inr hne, _, rfl⟩

theorem allOrNothing_navigate (hh : f.Has h) {path : Text} (hpath : path.HasBytes) (sep : Text) :
    AllOrNothing (f.tree t) (f.tree t, (f.tree t).navigate (f.seen t h) path sep)
      (FamilyCall.Refused.NoPath path sep ∨ h.tree ≠ t) := by
  rw [Atlas.navigate]
  obtain ⟨hrefused, e, he⟩ | ⟨hok, i, names, hway, hnames⟩ := wayFrom_cases hh hpath sep
  · rw [he]
    exact .refuse hrefused e
  · obtain ⟨found, hfound⟩ := @Atlas.exists_findNames_ok (f.tree t) i names fun name hname => (hnames name hname).2
    simp only [hway, hfound]
    exact .accept hok _ _

theorem allOrNothing_addPathFrom (hh : f.Has h) {path : Text} (hpath : path.HasBytes) (sep : Text) :
    AllOrNothing (f.tree t) ((f.tree t).addPathFrom (f.seen t h) path sep)
      (FamilyCall.Refused.NoPath path sep ∨ h.tree ≠ t) := by
  rw [Atlas.addPathFrom]
  obtain ⟨hrefused, e, he⟩ | ⟨hok, i, names, hway, hnames⟩ := wayFrom_cases hh hpath sep
  · rw [he]
    exact .refuse hrefused e
  · obtain ⟨b, k, hmade⟩ := @Atlas.exists_addNames_ok (f.tree t) i names hnames
    simp only [hway, hmade]
    exact .accept hok _ _

theorem allOrNothing_addEdgeOf (kind : EdgeKind) (hh : f.Has h) {other : Handle} (ho : f.Has other) :
    AllOrNothing (f.tree t) ((f.tree t).addEdgeOf kind (f.seen t h) (f.seen t other))
      (h.tree ≠ t ∨ other.tree ≠ t) := by
  obtain ⟨i, rfl, -, hseen⟩ | ⟨hne, hseen⟩ := hh.seen_cases t
  · rw [hseen]
    obtain ⟨j, rfl, -, hseen⟩ | ⟨hne, hseen⟩ := ho.seen_cases t
    · rw [hseen, Atlas.addEdgeOf_own]
      exact .accept (by simp) _ _
    · rw [hseen]
      exact .refuse (.inr hne) _
  · rw [hseen]
    exact .refuse (.inl hne) _

/-- The path to the other end of an edge starts at the root of the tree that the node is in. So all or nothing is done
there, and the edge is drawn only if the path was made. -/
theorem allOrNothing_addEdgePathOf (kind : EdgeKind) (ht : t < f.length) (ha : (f.tree t).WellFormed) (hh : f.Has h)
    {path : Text} (hpath : path.HasBytes) (sep : Text) :
    AllOrNothing (f.tree t) ((f.tree t).addEdgePathOf kind (f.seen t h) path sep)
      (FamilyCall.Refused.NoPath path sep ∨ h.tree ≠ t) := by
  obtain ⟨i, rfl, hi, hseen⟩ | ⟨hne, hseen⟩ := hh.seen_cases t
  · have hpath := allOrNothing_addPathFrom (t := t) (show f.Has ⟨t, Atlas.root⟩ from ⟨ht, ha.root_lt⟩) hpath sep
    rw [show f.seen t ⟨t, Atlas.root⟩ = .own Atlas.root from if_pos rfl, Atlas.addPathFrom_own] at hpath
    rw [hseen, Atlas.addEdgePathOf_own, Atlas.addEdgePath, Atlas.rootOf_eq ha hi]
    rcases hmade : (f.tree t).addPath Atlas.root path sep with ⟨b, e | j⟩
    · rwa [hmade] at hpath
    · rw [hmade] at hpath
      exact .accept (fun hrefused => by simpa using hpath.1.2 hrefused) _ _
  · rw [hseen]
    exact .refuse (.inr hne) _

/-- **An operation is refused for what the call is given**, and then it has done nothing. -/
theorem allOrNothing_perform (ht : t < f.length) (ha : (f.tree t).WellFormed) {c : FamilyCall}
    (hc : ∀ h ∈ c.handles, f.Has h) (htexts : ∀ text ∈ c.texts, text.HasBytes) :
    AllOrNothing (f.tree t) (c.perform t (f.tree t) (f.seen t)) (c.Refused t) := by
  -- Where no node is given the root is meant, which is not foreign.
  have hforeign : ∀ start : Option Handle, (start.getD ⟨t, Atlas.root⟩).tree ≠ t ↔ ∃ h ∈ start, h.tree ≠ t := by
    intro start
    cases start with
    | none => simp
    | some h => simp
  cases c with
  | getOrCreateChild node name =>
    exact (allOrNothing_addChildOf (hc node List.mem_cons_self) (htexts name List.mem_cons_self)).map _
  | findChild node name =>
    exact (allOrNothing_findChildOf (hc node List.mem_cons_self) (htexts name List.mem_cons_self)).map _
  | navigate start path sep =>
    have hdone := (allOrNothing_navigate (has_start ht ha hc) (htexts path List.mem_cons_self) sep (t := t)).map
      fun c => FamilyAnswer.node (c.map (⟨t, ·⟩))
    rwa [hforeign] at hdone
  | addNestedChild start path sep =>
    have hdone := (allOrNothing_addPathFrom (has_start ht ha hc) (htexts path List.mem_cons_self) sep (t := t)).map
      (FamilyCall.nodeAnswer t)
    rwa [hforeign] at hdone
  | addEdge kind node other =>
    exact (allOrNothing_addEdgeOf kind (hc node List.mem_cons_self)
      (hc other (List.mem_cons_of_mem node List.mem_cons_self))).map _
  | addEdgePath kind node path sep =>
    exact (allOrNothing_addEdgePathOf kind ht ha (hc node List.mem_cons_self) (htexts path List.mem_cons_self)
      sep).map _

/-! ## Families with a history -/

/-- The families that a caller may come to have: atlases are started, calls are made of them with nodes of any of
them, and whole atlases are changed at once. Calls may be refused. -/
inductive Built : Family → Prop where
  | none : Built []
  | start {f : Family} (hf : Built f) : Built (f ++ [Atlas.empty])
  | call {f : Family} {t : Nat} {c : FamilyCall} (hf : Built f) (ht : t < f.length)
      (hc : ∀ h ∈ c.handles, f.Has h) : Built ((c.run t).run f).2
  | operation {f : Family} {t : Nat} {op : Operation} (hf : Built f) (ht : t < f.length)
      (hop : op.Valid (f.tree t)) : Built (f.set t (op.apply (f.tree t)))

theorem wellFormed_perform (ht : t < f.length) (ha : (f.tree t).WellFormed) {c : FamilyCall}
    (hc : ∀ h ∈ c.handles, f.Has h) : (c.perform t (f.tree t) (f.seen t)).1.WellFormed := by
  have hin : ∀ {h : Handle}, f.Has h → (f.seen t h).In (f.tree t) := by
    intro h hh
    obtain ⟨i, rfl, hi, hseen⟩ | ⟨-, hseen⟩ := hh.seen_cases t
    · rw [hseen]
      exact hi
    · rw [hseen]
      exact trivial
  -- Every call that changes an atlas is one of the operations on it.
  have hgrows : ∀ op : Operation, (∀ node ∈ op.nodes, node.In (f.tree t)) → (op.apply (f.tree t)).WellFormed :=
    fun op hop => (Operation.grows ha hop).wellFormed
  cases c with
  | getOrCreateChild node name =>
    exact hgrows (.addChild (f.seen t node) name) (by simpa [Operation.nodes] using hin (hc node List.mem_cons_self))
  | findChild node name => exact ha
  | navigate start path sep => exact ha
  | addNestedChild start path sep =>
    refine hgrows (.addPath (f.seen t (start.getD ⟨t, Atlas.root⟩)) path sep) ?_
    simpa [Operation.nodes] using hin (has_start ht ha hc)
  | addEdge kind node other =>
    have hnode := hin (hc node List.mem_cons_self)
    have hother := hin (hc other (List.mem_cons_of_mem node List.mem_cons_self))
    exact hgrows (.addEdge kind (f.seen t node) (f.seen t other)) (by simp [Operation.nodes, hnode, hother])
  | addEdgePath kind node path sep =>
    have hnode := hin (hc node List.mem_cons_self)
    exact hgrows (.addEdgePath kind (f.seen t node) path sep) (by simp [Operation.nodes, hnode])

/-- **Every atlas of such a family is well-formed.** -/
theorem Built.wellFormed (hf : Built f) : ∀ a ∈ f, a.WellFormed := by
  induction hf with
  | none =>
    intro a ha
    exact absurd ha List.not_mem_nil
  | start hf ih =>
    intro a ha
    obtain ha | ha := List.mem_append.1 ha
    · exact ih a ha
    · rw [List.mem_singleton.1 ha]
      exact Atlas.wellFormed_empty
  | @call f t c hf ht hc ih =>
    intro a ha
    have htree : (f.tree t).WellFormed := ih _ (tree_mem ht)
    rw [run_eq ht htree hc] at ha
    obtain ha | rfl := List.mem_or_eq_of_mem_set ha
    · exact ih a ha
    · exact wellFormed_perform ht htree hc
  | @operation f t op hf ht hop ih =>
    intro a ha
    obtain ha | rfl := List.mem_or_eq_of_mem_set ha
    · exact ih a ha
    · exact (Operation.grows (ih _ (tree_mem ht)) hop).wellFormed

/-- **A call that is refused changes nothing.** It is refused exactly if the name or the path it is given has no
name in it, if the separator is not one character, or if a node belongs to another atlas; and then every atlas of
the family is as it was before. -/
theorem run_refused_unchanged {c : FamilyCall} (hf : Built f) (ht : t < f.length) (hc : ∀ h ∈ c.handles, f.Has h)
    (htexts : ∀ text ∈ c.texts, text.HasBytes) :
    (c.run t).run f = ((c.perform t (f.tree t) (f.seen t)).2, f.set t (c.perform t (f.tree t) (f.seen t)).1) ∧
    ((∃ e, ((c.run t).run f).1 = .error e) ↔ c.Refused t) ∧
    ∀ e, ((c.run t).run f).1 = .error e → ((c.run t).run f).2 = f := by
  have ha : (f.tree t).WellFormed := hf.wellFormed _ (tree_mem ht)
  have hrun := run_eq ht ha hc
  obtain ⟨hrefused, hnothing⟩ := allOrNothing_perform ht ha hc htexts
  refine ⟨hrun, ?_, ?_⟩
  · rw [hrun]
    exact hrefused
  · intro e he
    rw [hrun] at he ⊢
    rw [hnothing (hrefused.1 ⟨e, he⟩), set_tree ht]

/-- Two atlases, the first of which has nodes. -/
def neighbours : Family := [(Atlas.empty.addPath Atlas.root "a/b" "/").1, Atlas.empty]

/-- A node of the second atlas is given to the first, which has some of the nodes of the path. -/
theorem run_refused_unchanged_foreign :
    Built neighbours ∧ (FamilyCall.addNestedChild (some ⟨1, 0⟩) "a/c" "/").Refused 0 ∧
      (((FamilyCall.addNestedChild (some ⟨1, 0⟩) "a/c" "/").run 0).run neighbours).2 = neighbours := by
  have hbuilt : Built neighbours :=
    .call (f := [Atlas.empty, Atlas.empty]) (t := 0) (c := .addNestedChild none "a/b" "/")
      (.start (.start .none)) (by decide) (by simp [FamilyCall.handles])
  have hc : ∀ h ∈ (FamilyCall.addNestedChild (some ⟨1, 0⟩) "a/c" "/").handles, neighbours.Has h := by
    intro h hh
    rw [List.mem_singleton.1 hh]
    decide
  have htexts : ∀ text ∈ (FamilyCall.addNestedChild (some ⟨1, 0⟩) "a/c" "/").texts, text.HasBytes := by
    intro text htext
    rw [List.mem_singleton.1 htext]
    exact (Text.Surrogateless.decoded (by decide)).hasBytes
  have hrefused : (FamilyCall.addNestedChild (some ⟨1, 0⟩) "a/c" "/").Refused 0 := .inr ⟨⟨1, 0⟩, rfl, by decide⟩
  obtain ⟨-, hiff, hnothing⟩ := run_refused_unchanged (t := 0) hbuilt (by decide) hc htexts
  obtain ⟨e, he⟩ := hiff.2 hrefused
  exact ⟨hbuilt, hrefused, hnothing e he⟩

end Family

end HeaderAtlas
