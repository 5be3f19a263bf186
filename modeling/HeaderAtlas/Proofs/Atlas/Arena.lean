import HeaderAtlas.Atlas.Basic
/-!
# The arena of an atlas

What every atlas that operations can build looks like: the root is the only node without a parent, a
parent has a smaller number than its children, a node is listed once among the children of its parent
and nowhere else, children are in strictly increasing order of their bytes, and the two lists of edges
are strictly increasing lists of numbers of nodes. The invariant is `Atlas.WellFormed`; this file shows
that making a child and drawing an edge keep it, and that nothing that was there is lost or changed
(`Atlas.Extends`).

No name needs to be decoded here: two names that share their bytes share a node, and the invariant does
not mind.
-/

set_option autoImplicit false

namespace HeaderAtlas

namespace Atlas

/-! ## Lists in order -/

@[simp] theorem mem_insertChild {key : Bytes} {i : Nat} {x : Bytes × Nat} {l : List (Bytes × Nat)} :
    x ∈ insertChild key i l ↔ x = (key, i) ∨ x ∈ l := by
  induction l with
  | nil => simp [insertChild]
  | cons y rest ih =>
    unfold insertChild
    split
    · simp
    · rw [List.mem_cons, ih, List.mem_cons, or_left_comm]

/-- Children stay in strict order as long as the bytes of the new one are not among them. It is inserted by its bytes,
so no other child has to move. -/
theorem pairwise_insertChild {key : Bytes} {i : Nat} {l : List (Bytes × Nat)}
    (h : l.Pairwise (·.1 < ·.1)) (hnew : ∀ x ∈ l, x.1 ≠ key) :
    (insertChild key i l).Pairwise (·.1 < ·.1) := by
  induction l with
  | nil => simp [insertChild]
  | cons y rest ih =>
    rw [List.pairwise_cons] at h
    unfold insertChild
    split
    · rename_i hlt
      refine List.pairwise_cons.2 ⟨?_, List.pairwise_cons.2 h⟩
      intro x hx
      rcases List.mem_cons.1 hx with rfl | hx
      · exact hlt
      · exact List.lt_trans hlt (h.1 x hx)
    · rename_i hge
      -- Not before `y` is not yet after it: that the bytes are new rules out the tie.
      have hlt : y.1 < key := by
        rcases Std.lt_trichotomy y.1 key with hlt | heq | hgt
        · exact hlt
        · exact absurd heq (hnew y List.mem_cons_self)
        · exact absurd hgt hge
      refine List.pairwise_cons.2 ⟨?_, ih h.2 fun x hx => hnew x (List.mem_cons_of_mem _ hx)⟩
      intro x hx
      rcases mem_insertChild.1 hx with rfl | hx
      · exact hlt
      · exact h.1 x hx

@[simp] theorem mem_insertNumber {i j : Nat} {l : List Nat} :
    j ∈ insertNumber i l ↔ j = i ∨ j ∈ l := by
  induction l with
  | nil => simp [insertNumber]
  | cons k rest ih =>
    unfold insertNumber
    split
    · simp
    · split
      · rename_i heq
        simp [heq]
      · rw [List.mem_cons, ih, List.mem_cons, or_left_comm]

/-- Edges stay in strict order in any case: a number that is there already is not inserted twice. -/
theorem pairwise_insertNumber {i : Nat} {l : List Nat} (h : l.Pairwise (· < ·)) :
    (insertNumber i l).Pairwise (· < ·) := by
  induction l with
  | nil => simp [insertNumber]
  | cons k rest ih =>
    rw [List.pairwise_cons] at h
    unfold insertNumber
    split
    · rename_i hlt
      refine List.pairwise_cons.2 ⟨?_, List.pairwise_cons.2 h⟩
      intro x hx
      rcases List.mem_cons.1 hx with rfl | hx
      · exact hlt
      · exact Nat.lt_trans hlt (h.1 x hx)
    · split
      · exact List.pairwise_cons.2 h
      · refine List.pairwise_cons.2 ⟨?_, ih h.2⟩
        intro x hx
        rcases mem_insertNumber.1 hx with rfl | hx
        · omega
        · exact h.1 x hx

end Atlas

/-- Among children in strict order, the child with the given bytes is the one that is listed with them. In any other
list a second one could hide behind the first. -/
theorem Node.child?_eq_some_iff {n : Node} (h : n.children.Pairwise (·.1 < ·.1)) {key : Bytes}
    {c : Nat} : n.child? key = some c ↔ (key, c) ∈ n.children := by
  unfold child?
  -- The node is only its list of children from here on, so that the induction can drop one of them.
  generalize n.children = l at h
  induction l with
  | nil => simp
  | cons y rest ih =>
    rw [List.pairwise_cons] at h
    by_cases hy : y.1 = key
    · have hrest : (key, c) ∉ rest := by
        intro hmem
        have hlt := h.1 _ hmem
        rw [hy] at hlt
        exact List.lt_irrefl key hlt
      rw [List.find?_cons_of_pos (by simp [hy]), List.mem_cons]
      constructor
      · intro hc
        have hc : y.2 = c := by simpa using hc
        exact .inl (by rw [← hy, ← hc])
      · rintro (rfl | hmem)
        · rfl
        · exact absurd hmem hrest
    · rw [List.find?_cons_of_neg (by simp [hy]), ih h.2, List.mem_cons]
      constructor
      · exact .inr
      · rintro (rfl | hmem)
        · exact absurd rfl hy
        · exact hmem

/-! ## The edges of a node -/

/-- What holds of some kind of edges holds of dependencies or of dependents. Nearly all that is said about edges is
said for a kind that is left open; here it is settled. -/
theorem EdgeKind.exists {P : EdgeKind → Prop} : (∃ kind, P kind) ↔ P .dependency ∨ P .dependent := by
  constructor
  · rintro ⟨kind, h⟩
    cases kind with
    | dependency => exact .inl h
    | dependent => exact .inr h
  · rintro (h | h)
    · exact ⟨_, h⟩
    · exact ⟨_, h⟩

namespace Node

variable {n : Node} {kind other : EdgeKind} {l : List Nat}

@[simp] theorem edges_leaf (name : Text) (parent : Option Nat) (kind : EdgeKind) :
    (leaf name parent).edges kind = [] := by
  cases kind <;> rfl

@[simp] theorem edges_setEdges_self : (n.setEdges kind l).edges kind = l := by cases kind <;> rfl

/-- The two lists of a node do not touch each other. -/
theorem edges_setEdges_of_ne (h : other ≠ kind) : (n.setEdges kind l).edges other = n.edges other := by
  cases kind <;> cases other <;> first | rfl | exact absurd rfl h

/-- A node with the edges that it has is itself. -/
@[simp] theorem setEdges_edges : n.setEdges kind (n.edges kind) = n := by cases kind <;> rfl

@[simp] theorem name_setEdges : (n.setEdges kind l).name = n.name := by cases kind <;> rfl

@[simp] theorem parent_setEdges : (n.setEdges kind l).parent = n.parent := by cases kind <;> rfl

@[simp] theorem children_setEdges : (n.setEdges kind l).children = n.children := by cases kind <;> rfl

end Node

namespace Atlas

variable {a b c : Atlas} {i j k : Nat} {name : Text} {key : Bytes} {n m : Node} {kind other : EdgeKind}

/-- One more edge is one more number in its list, and no other list is touched. -/
theorem edges_withEdge (kind other : EdgeKind) (j : Nat) (n : Node) :
    (withEdge kind j n).edges other = if other = kind then insertNumber j (n.edges other) else n.edges other := by
  split
  · next h => rw [h, withEdge, Node.edges_setEdges_self]
  · next h => rw [withEdge, Node.edges_setEdges_of_ne h]

/-- A name that has bytes has those of its key. -/
theorem key_eq_of_encode (h : name.encode = .ok key) : name.key = key := by
  rw [Text.encode, Text.encodeWith] at h
  split at h
  · simp at h
  · exact Except.ok.inj h

/-! ## Nodes after one change -/

theorem node?_lt (h : a.node? i = some n) : i < a.size := (Array.getElem?_eq_some_iff.1 h).1

theorem exists_node? (h : i < a.size) : ∃ n, a.node? i = some n :=
  ⟨a.nodes[i], Array.getElem?_eq_getElem h⟩

theorem node?_eq_none (h : a.size ≤ i) : a.node? i = none := Array.getElem?_eq_none h

@[simp] theorem size_append : (a.append i name key).size = a.size + 1 := by
  simp [append, size]

/-- The new child is a leaf, its parent lists it, and all other nodes are as they were. -/
theorem node?_append (hi : i < a.size) (j : Nat) :
    (a.append i name key).node? j =
      if j = a.size then some (Node.leaf name (some i))
      else if j = i then (a.node? i).map fun n => { n with children := insertChild key a.size n.children }
      else a.node? j := by
  have hsize : a.nodes.size = a.size := rfl
  unfold append node?
  rw [Array.getElem?_modify, Array.getElem?_push, hsize]
  by_cases hj : j = a.size
  · rw [if_pos hj, if_pos hj, if_neg (by omega)]
  · rw [if_neg hj, if_neg hj]
    by_cases hij : j = i
    · rw [if_pos hij.symm, if_pos hij, hij]
    · rw [if_neg (Ne.symm hij), if_neg hij]

/-- The children of node `j` after the child `c` with the bytes `key` was given to node `i`. Stated for every `j`, so
that the invariant can be checked for all nodes at once. -/
def childrenWith (i : Nat) (key : Bytes) (c j : Nat) (children : List (Bytes × Nat)) :
    List (Bytes × Nat) := if j = i then insertChild key c children else children

theorem node?_append_old (hi : i < a.size) (h : a.node? j = some m) :
    (a.append i name key).node? j =
      some { m with children := childrenWith i key a.size j m.children } := by
  have hj := node?_lt h
  rw [node?_append hi, if_neg (by omega), childrenWith]
  by_cases hij : j = i
  · rw [if_pos hij, if_pos hij, ← hij, h]
    rfl
  · rw [if_neg hij, if_neg hij, h]

theorem node?_append_new (hi : i < a.size) :
    (a.append i name key).node? a.size = some (Node.leaf name (some i)) := by
  rw [node?_append hi, if_pos rfl]

/-- A node after a child was made is the new leaf or one that was there before. The proofs about a new child go by
these two cases. -/
theorem node?_append_cases (hi : i < a.size) (h : (a.append i name key).node? j = some n) :
    (j = a.size ∧ n = Node.leaf name (some i)) ∨
      ∃ m, a.node? j = some m ∧ n = { m with children := childrenWith i key a.size j m.children } := by
  by_cases hj : j = a.size
  · rw [hj, node?_append_new hi] at h
    exact .inl ⟨hj, (Option.some.inj h).symm⟩
  · have hlt := node?_lt h
    rw [size_append] at hlt
    obtain ⟨m, hm⟩ := exists_node? (show j < a.size by omega)
    rw [node?_append_old hi hm] at h
    exact .inr ⟨m, hm, (Option.some.inj h).symm⟩

theorem mem_childrenWith {c : Nat} {x : Bytes × Nat} {children : List (Bytes × Nat)} :
    x ∈ childrenWith i key c j children ↔ x ∈ children ∨ (j = i ∧ x = (key, c)) := by
  unfold childrenWith
  split
  · rename_i h
    rw [mem_insertChild, or_comm]
    simp [h]
  · rename_i h
    simp [h]

@[simp] theorem size_addEdge : (a.addEdge kind i j).1.size = a.size := Array.size_modify

theorem node?_addEdge (kind : EdgeKind) (i j k : Nat) :
    (a.addEdge kind i j).1.node? k = if i = k then (a.node? k).map (withEdge kind j) else a.node? k :=
  Array.getElem?_modify

/-- A node after an edge was drawn is the one that was there, and the edge is among its own if it begins there. -/
theorem node?_addEdge_of_some (h : a.node? k = some m) :
    (a.addEdge kind i j).1.node? k = some (if i = k then withEdge kind j m else m) := by
  rw [node?_addEdge, h]
  split
  · rfl
  · rfl

theorem node?_addEdge_of_none (h : a.node? k = none) : (a.addEdge kind i j).1.node? k = none := by
  rw [node?_addEdge, h]
  exact ite_self none

/-! ## Edges after one change -/

theorem edges_eq (h : a.node? i = some n) (kind : EdgeKind) : a.edges kind i = n.edges kind := by
  rw [edges, h]
  rfl

/-- A number that no node has begins no edge. -/
theorem edges_eq_nil (h : a.node? i = none) (kind : EdgeKind) : a.edges kind i = [] := by
  rw [edges, h]
  rfl

/-- Making a node draws no edge. -/
@[simp] theorem edges_append (hi : i < a.size) (kind : EdgeKind) (j : Nat) :
    (a.append i name key).edges kind j = a.edges kind j := by
  unfold edges
  rw [node?_append hi]
  split
  · rename_i hj
    rw [hj, node?_eq_none (Nat.le_refl _)]
    exact Node.edges_leaf name (some i) kind
  · split
    · rename_i hj
      rw [hj, Option.map_map]
      cases kind <;> rfl
    · rfl

/-- Drawing an edge of one kind leaves those of the other as they are. -/
theorem edges_addEdge_of_ne (h : other ≠ kind) (k : Nat) :
    (a.addEdge kind i j).1.edges other k = a.edges other k := by
  cases hk : a.node? k with
  | none => rw [edges_eq_nil hk, edges_eq_nil (node?_addEdge_of_none hk)]
  | some m =>
    rw [edges_eq hk, edges_eq (node?_addEdge_of_some hk)]
    split
    · rw [edges_withEdge, if_neg h]
    · rfl

/-- **An edge is added to the list of its node** and to no other list. -/
theorem edges_addEdge_self (hi : i < a.size) (k : Nat) :
    (a.addEdge kind i j).1.edges kind k = if k = i then insertNumber j (a.edges kind k) else a.edges kind k := by
  by_cases hki : k = i
  · obtain ⟨m, hm⟩ := exists_node? hi
    rw [hki, edges_eq hm, edges_eq (node?_addEdge_of_some hm), if_pos rfl, if_pos rfl, edges_withEdge, if_pos rfl]
  · rw [if_neg hki, edges, node?_addEdge, if_neg (Ne.symm hki), edges]

/-- `edges_addEdge_self` by members, which is how a graph is compared. -/
theorem mem_edges_addEdge (hi : i < a.size) {k l : Nat} :
    l ∈ (a.addEdge kind i j).1.edges kind k ↔ l ∈ a.edges kind k ∨ (k = i ∧ l = j) := by
  rw [edges_addEdge_self hi]
  by_cases hk : k = i
  · simp [hk, or_comm]
  · simp [hk]

/-! ## The invariant -/

/-- What all atlases that operations build have in common. The parents give the tree its shape and the children
repeat it in order, so the fields come in pairs: what a child says of its parent, and what the parent says of its
children. -/
structure WellFormed (a : Atlas) : Prop where
  /-- The root is there, and has neither name nor parent. -/
  root : ∃ n, a.node? root = some n ∧ n.name = [] ∧ n.parent = none
  /-- Every other node comes after its parent. -/
  parent : ∀ {i n}, a.node? i = some n → i ≠ Atlas.root → ∃ p, n.parent = some p ∧ p < i
  /-- Every other node has a name, and the name has bytes. -/
  named : ∀ {i n}, a.node? i = some n → i ≠ Atlas.root →
    n.name ≠ [] ∧ n.name.encode = .ok n.name.key
  /-- A node is listed by its parent, with the bytes of its name. -/
  listed : ∀ {i n p}, a.node? i = some n → n.parent = some p →
    ∃ m, a.node? p = some m ∧ (n.name.key, i) ∈ m.children
  /-- What a node lists as a child has the node as its parent, and these bytes. -/
  child : ∀ {p m key c}, a.node? p = some m → (key, c) ∈ m.children →
    ∃ n, a.node? c = some n ∧ n.parent = some p ∧ n.name.key = key
  /-- Children are in strict order of their bytes. -/
  sorted : ∀ {p m}, a.node? p = some m → m.children.Pairwise (·.1 < ·.1)
  /-- Edges of either kind are numbers of nodes, in strict order. -/
  edges : ∀ {i n}, a.node? i = some n → ∀ kind,
    (n.edges kind).Pairwise (· < ·) ∧ ∀ j ∈ n.edges kind, j < a.size

theorem node?_empty (h : empty.node? i = some n) : i = root ∧ n = Node.leaf [] none := by
  have hi : i < 1 := node?_lt h
  have hi : i = 0 := by omega
  subst hi
  exact ⟨rfl, (Option.some.inj h).symm⟩

@[simp] theorem edges_empty (kind : EdgeKind) (i : Nat) : empty.edges kind i = [] := by
  cases h : empty.node? i with
  | none => exact edges_eq_nil h kind
  | some n => rw [edges_eq h, (node?_empty h).2, Node.edges_leaf]

/-- The empty atlas has its root, and of any other node there is nothing to show. -/
theorem wellFormed_empty : empty.WellFormed where
  root := ⟨Node.leaf [] none, rfl, rfl, rfl⟩
  parent h hi := absurd (node?_empty h).1 hi
  named h hi := absurd (node?_empty h).1 hi
  listed h hp := by rw [(node?_empty h).2] at hp; simp [Node.leaf] at hp
  child h hc := by rw [(node?_empty h).2] at hc; simp [Node.leaf] at hc
  sorted h := by rw [(node?_empty h).2]; simp [Node.leaf]
  edges h kind := by rw [(node?_empty h).2]; simp

namespace WellFormed

theorem root_lt (ha : a.WellFormed) : Atlas.root < a.size := by
  obtain ⟨n, hn, _⟩ := ha.root
  exact node?_lt hn

/-- What has no parent is the root. -/
theorem eq_root (ha : a.WellFormed) (h : a.node? i = some n) (hp : n.parent = none) :
    i = Atlas.root := by
  by_cases hi : i = Atlas.root
  · exact hi
  · obtain ⟨p, hp', _⟩ := ha.parent h hi
    rw [hp] at hp'
    exact absurd hp' (by simp)

theorem parent_lt {p : Nat} (ha : a.WellFormed) (h : a.node? i = some n) (hp : n.parent = some p) :
    p < i := by
  have hi : i ≠ Atlas.root := by
    rintro rfl
    obtain ⟨n', hn', _, hp'⟩ := ha.root
    rw [h] at hn'
    obtain rfl := Option.some.inj hn'
    rw [hp] at hp'
    simp at hp'
  obtain ⟨p', hp', hlt⟩ := ha.parent h hi
  rw [hp] at hp'
  obtain rfl := Option.some.inj hp'
  exact hlt

/-- The children that a node lists are the nodes whose parent it is. -/
theorem mem_children (ha : a.WellFormed) {c : Nat} :
    c ∈ a.children i ↔ ∃ n, a.node? c = some n ∧ n.parent = some i := by
  unfold Atlas.children
  constructor
  · intro hc
    cases hm : a.node? i with
    | none => simp [hm] at hc
    | some m =>
      simp only [hm, Option.map_some, Option.getD_some, List.mem_map] at hc
      obtain ⟨⟨key, c⟩, hmem, rfl⟩ := hc
      obtain ⟨n, hn, hp, _⟩ := ha.child hm hmem
      exact ⟨n, hn, hp⟩
  · rintro ⟨n, hn, hp⟩
    obtain ⟨m, hm, hmem⟩ := ha.listed hn hp
    simp only [hm, Option.map_some, Option.getD_some, List.mem_map]
    exact ⟨_, hmem, rfl⟩

/-- The two nodes of an edge are there. -/
theorem lt_size_of_mem_edges (ha : a.WellFormed) (h : j ∈ a.edges kind i) : i < a.size ∧ j < a.size := by
  cases hn : a.node? i with
  | none => simp [edges_eq_nil hn] at h
  | some n =>
    rw [edges_eq hn] at h
    exact ⟨node?_lt hn, (ha.edges hn kind).2 j h⟩

/-- The numbers that edges of one kind lead to are in strict order. -/
theorem pairwise_edges (ha : a.WellFormed) (kind : EdgeKind) (i : Nat) : (a.edges kind i).Pairwise (· < ·) := by
  cases hn : a.node? i with
  | none => simp [edges_eq_nil hn]
  | some n =>
    rw [edges_eq hn]
    exact (ha.edges hn kind).1

/-! ## Making a child -/

/-- **A new child keeps the invariant**, if its name is one and its bytes are not taken. -/
theorem append (ha : a.WellFormed) (hi : i < a.size) (hname : name ≠ [])
    (hkey : name.encode = .ok key)
    (hnew : ∀ m, a.node? i = some m → ∀ x ∈ m.children, x.1 ≠ key) :
    (a.append i name key).WellFormed := by
  have hkey' := key_eq_of_encode hkey
  -- The parts in the order of the structure. In each of them a node is the new leaf or an old node,
  -- and an old node differs from what it was only where the new child is listed.
  refine ⟨?_, ?_, ?_, ?_, ?_, ?_, ?_⟩
  · obtain ⟨n, hn, hn1, hn2⟩ := ha.root
    exact ⟨_, node?_append_old hi hn, hn1, hn2⟩
  · intro j n h hj
    rcases node?_append_cases hi h with ⟨rfl, rfl⟩ | ⟨m, hm, rfl⟩
    · exact ⟨i, rfl, hi⟩
    · obtain ⟨p, hp, hlt⟩ := ha.parent hm hj
      exact ⟨p, hp, hlt⟩
  · intro j n h hj
    rcases node?_append_cases hi h with ⟨rfl, rfl⟩ | ⟨m, hm, rfl⟩
    · exact ⟨hname, by rw [Node.leaf, hkey, hkey']⟩
    · obtain ⟨hne, hbytes⟩ := ha.named hm hj
      exact ⟨hne, hbytes⟩
  · intro j n p h hp
    rcases node?_append_cases hi h with ⟨rfl, rfl⟩ | ⟨m, hm, rfl⟩
    · obtain rfl : i = p := Option.some.inj hp
      obtain ⟨m, hm⟩ := exists_node? hi
      refine ⟨_, node?_append_old hi hm, ?_⟩
      exact mem_childrenWith.2 (.inr ⟨rfl, by rw [Node.leaf, hkey']⟩)
    · obtain ⟨m', hm', hmem⟩ := ha.listed hm hp
      exact ⟨_, node?_append_old hi hm', mem_childrenWith.2 (.inl hmem)⟩
  · intro p m k c h hc
    rcases node?_append_cases hi h with ⟨rfl, rfl⟩ | ⟨m', hm', rfl⟩
    · simp [Node.leaf] at hc
    · rcases mem_childrenWith.1 hc with hc | ⟨rfl, heq⟩
      · obtain ⟨n, hn, hparent, hk⟩ := ha.child hm' hc
        exact ⟨_, node?_append_old hi hn, hparent, hk⟩
      · obtain ⟨rfl, rfl⟩ := Prod.mk.inj heq
        exact ⟨_, node?_append_new hi, rfl, hkey'⟩
  · intro p m h
    rcases node?_append_cases hi h with ⟨rfl, rfl⟩ | ⟨m', hm', rfl⟩
    · simp [Node.leaf]
    · simp only [childrenWith]
      split
      · rename_i hp
        exact pairwise_insertChild (ha.sorted hm') (hnew m' (hp ▸ hm'))
      · exact ha.sorted hm'
  · intro j n h kind
    rw [size_append]
    rcases node?_append_cases hi h with ⟨rfl, rfl⟩ | ⟨m, hm, rfl⟩
    · simp
    · obtain ⟨hsorted, hlt⟩ := ha.edges hm kind
      cases kind with
      | _ => exact ⟨hsorted, fun k hk => Nat.lt_succ_of_lt (hlt k hk)⟩

end WellFormed

/-! ## Drawing an edge -/

/-- The atlases have the same nodes with the same names, parents and children. Drawing edges changes an atlas only up
to this, so what is shown of the tree need not be shown again. -/
structure SameTree (a b : Atlas) : Prop where
  size : b.size = a.size
  node : ∀ {i m}, a.node? i = some m →
    ∃ n, b.node? i = some n ∧ n.name = m.name ∧ n.parent = m.parent ∧ n.children = m.children

namespace SameTree

theorem symm (h : SameTree a b) : SameTree b a where
  size := h.size.symm
  node {i m} hm := by
    obtain ⟨n, hn⟩ := exists_node? (h.size ▸ node?_lt hm : i < a.size)
    obtain ⟨m', hm', h1, h2, h3⟩ := h.node hn
    rw [hm] at hm'
    obtain rfl := Option.some.inj hm'
    exact ⟨n, hn, h1.symm, h2.symm, h3.symm⟩

theorem addEdge (a : Atlas) (kind : EdgeKind) (i j : Nat) : SameTree a (a.addEdge kind i j).1 where
  size := size_addEdge
  node h := by
    refine ⟨_, node?_addEdge_of_some h, ?_⟩
    split
    · exact ⟨Node.name_setEdges, Node.parent_setEdges, Node.children_setEdges⟩
    · exact ⟨rfl, rfl, rfl⟩

/-- An atlas with the nodes of a well-formed one is well formed if its edges are. -/
theorem wellFormed (h : SameTree a b) (ha : a.WellFormed)
    (hedges : ∀ {i n}, b.node? i = some n → ∀ kind,
      (n.edges kind).Pairwise (· < ·) ∧ ∀ j ∈ n.edges kind, j < b.size) : b.WellFormed := by
  -- A node of `b` is looked up in `a`, where the part holds, and what that gives is carried back.
  refine ⟨?_, ?_, ?_, ?_, ?_, ?_, hedges⟩
  · obtain ⟨m, hm, h1, h2⟩ := ha.root
    obtain ⟨n, hn, h1', h2', _⟩ := h.node hm
    exact ⟨n, hn, by rw [h1', h1], by rw [h2', h2]⟩
  · intro i n hn hi
    obtain ⟨m, hm, _, h2, _⟩ := h.symm.node hn
    rw [← h2]
    exact ha.parent hm hi
  · intro i n hn hi
    obtain ⟨m, hm, h1, _, _⟩ := h.symm.node hn
    rw [← h1]
    exact ha.named hm hi
  · intro i n p hn hp
    obtain ⟨m, hm, h1, h2, _⟩ := h.symm.node hn
    rw [← h2] at hp
    obtain ⟨m', hm', hmem⟩ := ha.listed hm hp
    obtain ⟨n', hn', _, _, h3⟩ := h.node hm'
    exact ⟨n', hn', by rw [← h1, h3]; exact hmem⟩
  · intro p n key c hn hc
    obtain ⟨m, hm, _, _, h3⟩ := h.symm.node hn
    rw [← h3] at hc
    obtain ⟨m', hm', hp, hkey⟩ := ha.child hm hc
    obtain ⟨n', hn', h1, h2, _⟩ := h.node hm'
    exact ⟨n', hn', by rw [h2, hp], by rw [h1, hkey]⟩
  · intro p n hn
    obtain ⟨m, hm, _, _, h3⟩ := h.symm.node hn
    rw [← h3]
    exact ha.sorted hm

end SameTree

namespace WellFormed

/-- **A new edge keeps the invariant**, if it leads to a node. -/
theorem addEdge (ha : a.WellFormed) (hj : j < a.size) : (a.addEdge kind i j).1.WellFormed := by
  apply (SameTree.addEdge a kind i j).wellFormed ha
  intro k n h other
  rw [size_addEdge]
  obtain ⟨m, hm⟩ := exists_node? (size_addEdge (a := a) ▸ node?_lt h : k < a.size)
  obtain ⟨hsorted, hlt⟩ := ha.edges hm other
  rw [node?_addEdge_of_some hm] at h
  obtain rfl := Option.some.inj h
  split
  · rw [edges_withEdge]
    split
    · refine ⟨pairwise_insertNumber hsorted, fun l hl => ?_⟩
      rcases mem_insertNumber.1 hl with rfl | hl
      · exact hj
      · exact hlt l hl
    · exact ⟨hsorted, hlt⟩
  · exact ⟨hsorted, hlt⟩

end WellFormed

/-! ## Nothing is lost -/

/-- Every node of `a` is a node of `b` with the same number, name and parent, and with at least the same children and
edges. Numbers are what callers hold on to, so they must go on meaning the same node. -/
def Extends (a b : Atlas) : Prop :=
  ∀ ⦃i m⦄, a.node? i = some m → ∃ n, b.node? i = some n ∧ n.name = m.name ∧ n.parent = m.parent ∧
    (∀ x ∈ m.children, x ∈ n.children) ∧ ∀ kind, ∀ j ∈ m.edges kind, j ∈ n.edges kind

namespace Extends

theorem refl (a : Atlas) : Extends a a :=
  fun _ _ h => ⟨_, h, rfl, rfl, fun _ => id, fun _ _ => id⟩

theorem trans (hab : Extends a b) (hbc : Extends b c) : Extends a c := by
  intro i m h
  obtain ⟨n, hn, h1, h2, h3, h4⟩ := hab h
  obtain ⟨n', hn', h1', h2', h3', h4'⟩ := hbc hn
  exact ⟨n', hn', by rw [h1', h1], by rw [h2', h2], fun x hx => h3' x (h3 x hx),
    fun kind j hj => h4' kind j (h4 kind j hj)⟩

theorem lt_size (h : Extends a b) (hi : i < a.size) : i < b.size := by
  obtain ⟨m, hm⟩ := exists_node? hi
  obtain ⟨n, hn, _⟩ := h hm
  exact node?_lt hn

theorem append (hi : i < a.size) : Extends a (a.append i name key) := by
  intro j m h
  refine ⟨_, node?_append_old hi h, rfl, rfl, fun x hx => mem_childrenWith.2 (.inl hx), fun kind => ?_⟩
  cases kind with
  | _ => exact fun _ => id

theorem addEdge (a : Atlas) (kind : EdgeKind) (i j : Nat) : Extends a (a.addEdge kind i j).1 := by
  intro k m h
  obtain ⟨n, hn, hname, hparent, hchildren⟩ := (SameTree.addEdge a kind i j).node h
  refine ⟨n, hn, hname, hparent, fun x hx => hchildren ▸ hx, fun other l hl => ?_⟩
  rw [node?_addEdge_of_some h] at hn
  obtain rfl := Option.some.inj hn
  split
  · rw [edges_withEdge]
    split
    · exact mem_insertNumber.2 (.inr hl)
    · exact hl
  · exact hl

end Extends

/-! ## Making nodes by name -/

/-- **What asking for a child can do.** Either a child with these bytes is there and nothing changes, or there is none
and the child is new. All invariants below are derived from these two cases. -/
theorem addChild_cases (ha : a.WellFormed) (h : a.addChild i name = .ok (b, k)) :
    name ≠ [] ∧ name.encode = .ok name.key ∧
      ((b = a ∧ ∃ m, a.node? i = some m ∧ (name.key, k) ∈ m.children) ∨
        (b = a.append i name name.key ∧ k = a.size ∧
          ∀ m, a.node? i = some m → ∀ x ∈ m.children, x.1 ≠ name.key)) := by
  unfold addChild at h
  split at h
  · simp at h
  · rename_i hne
    have hne : name ≠ [] := by simpa using hne
    split at h
    · simp at h
    · rename_i key hkey
      obtain rfl := key_eq_of_encode hkey
      refine ⟨hne, hkey, ?_⟩
      split at h
      · rename_i found hfound
        obtain ⟨rfl, rfl⟩ := Prod.mk.inj (Except.ok.inj h)
        obtain ⟨m, hm, hc⟩ := Option.bind_eq_some_iff.1 hfound
        exact .inl ⟨rfl, m, hm, (Node.child?_eq_some_iff (ha.sorted hm)).1 hc⟩
      · rename_i hnone
        obtain ⟨rfl, rfl⟩ := Prod.mk.inj (Except.ok.inj h)
        refine .inr ⟨rfl, rfl, ?_⟩
        -- A child listed with these bytes would have been found.
        intro m hm x hx heq
        rw [hm, Option.bind_some] at hnone
        have hx : (x.1, x.2) ∈ m.children := hx
        have hsome := (Node.child?_eq_some_iff (ha.sorted hm)).2 hx
        rw [heq, hnone] at hsome
        simp at hsome

/-- Asking for a child keeps the invariant and what is there, and gives a node. -/
theorem wellFormed_addChild (ha : a.WellFormed) (hi : i < a.size)
    (h : a.addChild i name = .ok (b, k)) : b.WellFormed ∧ a.Extends b ∧ k < b.size := by
  obtain ⟨hne, hkey, ⟨rfl, m, hm, hmem⟩ | ⟨rfl, rfl, hnew⟩⟩ := addChild_cases ha h
  · obtain ⟨n, hn, _⟩ := ha.child hm hmem
    exact ⟨ha, Extends.refl b, node?_lt hn⟩
  · exact ⟨ha.append hi hne hkey hnew, Extends.append hi, by rw [size_append]; omega⟩

/-- The child that was asked for is listed with the bytes of its name. -/
theorem listed_addChild (ha : a.WellFormed) (hi : i < a.size) (h : a.addChild i name = .ok (b, k)) :
    ∃ m, b.node? i = some m ∧ (name.key, k) ∈ m.children := by
  obtain ⟨_, _, ⟨rfl, m, hm, hmem⟩ | ⟨rfl, rfl, _⟩⟩ := addChild_cases ha h
  · exact ⟨m, hm, hmem⟩
  · obtain ⟨m, hm⟩ := exists_node? hi
    exact ⟨_, node?_append_old hi hm, mem_childrenWith.2 (.inr ⟨rfl, rfl⟩)⟩

/-- The same for a path of names, also where it is refused halfway. What was made before the refusal stays, and is
well formed. -/
theorem wellFormed_addNames (names : List Text) (ha : a.WellFormed) (hi : i < a.size) :
    (a.addNames i names).1.WellFormed ∧ a.Extends (a.addNames i names).1 ∧
      ∀ k, (a.addNames i names).2 = .ok k → k < (a.addNames i names).1.size := by
  induction names generalizing a i with
  | nil =>
    refine ⟨ha, Extends.refl a, fun k hk => ?_⟩
    obtain rfl := Except.ok.inj hk
    exact hi
  | cons name rest ih =>
    unfold addNames
    cases h : a.addChild i name with
    | error e => exact ⟨ha, Extends.refl a, fun k hk => by simp at hk⟩
    | ok made =>
      obtain ⟨b, c⟩ := made
      obtain ⟨hb, hab, hc⟩ := wellFormed_addChild ha hi h
      obtain ⟨h1, h2, h3⟩ := ih hb hc
      exact ⟨h1, hab.trans h2, h3⟩

/-- Making nodes draws no edge, not even where it is refused halfway. -/
theorem edges_addNames (names : List Text) (ha : a.WellFormed) (hi : i < a.size) (kind : EdgeKind) (j : Nat) :
    (a.addNames i names).1.edges kind j = a.edges kind j := by
  induction names generalizing a i with
  | nil => rfl
  | cons name rest ih =>
    unfold addNames
    cases h : a.addChild i name with
    | error e => rfl
    | ok made =>
      obtain ⟨b, c⟩ := made
      obtain ⟨hb, _, hc⟩ := wellFormed_addChild ha hi h
      obtain ⟨_, _, ⟨rfl, _⟩ | ⟨rfl, _, _⟩⟩ := addChild_cases ha h
      · exact ih hb hc
      · exact (ih hb hc).trans (edges_append hi kind j)

theorem edges_addPath (path sep : Text) (ha : a.WellFormed) (hi : i < a.size) (kind : EdgeKind) (j : Nat) :
    (a.addPath i path sep).1.edges kind j = a.edges kind j := by
  unfold addPath
  split
  · rfl
  · exact edges_addNames _ ha hi kind j

end Atlas

end HeaderAtlas
