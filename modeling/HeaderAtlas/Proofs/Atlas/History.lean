import HeaderAtlas.Atlas.Load
import HeaderAtlas.Proofs.Atlas.Arena
/-!
# Atlases with a history

Every atlas that callers meet was made from the empty one by operations: nodes are made by name or by
path, edges are drawn, dependents are made from dependencies, documents are read in. Some operations
are refused, and a few of these leave behind what they made before the fault. All the same the arena
stays well-formed and nothing is lost (`Operation.grows`), so every atlas with a history is well-formed
(`Built.wellFormed`).
-/

set_option autoImplicit false

namespace HeaderAtlas

namespace Atlas

variable {a b c : Atlas} {i j k : Nat}

/-- The second atlas came from the first: it is well-formed, and nothing of the first is lost. Every operation is
shown to do this, and then a history is nothing but a chain of such steps. -/
structure Grows (a b : Atlas) : Prop where
  wellFormed : b.WellFormed
  keeps : a.Extends b

namespace Grows

theorem refl (ha : a.WellFormed) : Grows a a := ⟨ha, Extends.refl a⟩

theorem trans (hab : Grows a b) (hbc : Grows b c) : Grows a c :=
  ⟨hbc.wellFormed, hab.keeps.trans hbc.keeps⟩

end Grows

/-! ## Nodes by path -/

/-- The chain of parents ends at the root, from whatever node it is begun. -/
theorem rootOf_eq (ha : a.WellFormed) (hi : i < a.size) : a.rootOf i = root := by
  -- A parent has a smaller number than its child, which is also what lets `rootOf` go on.
  induction i using Nat.strongRecOn with
  | ind i ih =>
    obtain ⟨n, hn⟩ := exists_node? hi
    rw [rootOf]
    cases hp : n.parent with
    | none =>
      simp only [parent?, hn, Option.bind_some, hp]
      exact ha.eq_root hn hp
    | some p =>
      have hlt := ha.parent_lt hn hp
      simp only [parent?, hn, Option.bind_some, hp, if_pos hlt]
      exact ih p hlt (by omega)

/-- Nodes are made along a path. A refusal halfway leaves those before it, and they are nodes like any others. -/
theorem grows_addNames (names : List Text) (ha : a.WellFormed) (hi : i < a.size) :
    Grows a (a.addNames i names).1 ∧
      ∀ k, (a.addNames i names).2 = .ok k → k < (a.addNames i names).1.size := by
  obtain ⟨h1, h2, h3⟩ := wellFormed_addNames names ha hi
  exact ⟨⟨h1, h2⟩, h3⟩

/-- A path that has no names makes nothing. -/
theorem grows_addPath (path sep : Text) (ha : a.WellFormed) (hi : i < a.size) :
    Grows a (a.addPath i path sep).1 ∧
      ∀ k, (a.addPath i path sep).2 = .ok k → k < (a.addPath i path sep).1.size := by
  unfold addPath
  cases pathNames path sep with
  | error e => exact ⟨Grows.refl ha, fun k hk => by simp at hk⟩
  | ok names => exact grows_addNames names ha hi

/-! ## Edges -/

theorem grows_addEdge (kind : EdgeKind) (ha : a.WellFormed) (hj : j < a.size) : Grows a (a.addEdge kind i j).1 :=
  ⟨ha.addEdge hj, Extends.addEdge a kind i j⟩

/-- The node at the end of the path comes first, then the edge to it; where the node is refused, no edge is drawn. -/
theorem grows_addEdgePath (kind : EdgeKind) (path sep : Text) (ha : a.WellFormed) (hi : i < a.size) :
    Grows a (a.addEdgePath kind i path sep).1 := by
  -- The path starts at the top of the tree that the node is in, wherever the node stands.
  obtain ⟨hgrows, hlt⟩ := grows_addPath path sep ha (rootOf_eq ha hi ▸ ha.root_lt)
  unfold addEdgePath
  rcases h : a.addPath (a.rootOf i) path sep with ⟨b, e | j⟩
  · rw [h] at hgrows
    exact hgrows
  · rw [h] at hgrows hlt
    exact hgrows.trans (grows_addEdge kind hgrows.wellFormed (hlt j rfl))

/-- The targets of a node's dependencies are nodes, so an edge from each of them can be drawn back. -/
theorem grows_addReverseOf (targets : List Nat) (ha : a.WellFormed) (hi : i < a.size) :
    Grows a (a.addReverseOf i targets).1 := by
  induction targets generalizing a with
  | nil => exact Grows.refl ha
  | cons j rest ih =>
    have hstep : Grows a (a.addDependent j i).1 := grows_addEdge .dependent ha hi
    exact hstep.trans (ih hstep.wellFormed (hstep.keeps.lt_size hi))

/-- The pass that makes dependents goes over the nodes that were there when it began. It makes none, so they are all
there are. -/
theorem grows_addReverseOfAll (nodes : List Nat) (ha : a.WellFormed) (hnodes : ∀ i ∈ nodes, i < a.size) :
    Grows a (a.addReverseOfAll nodes).1 := by
  induction nodes generalizing a with
  | nil => exact Grows.refl ha
  | cons i rest ih =>
    have hstep := grows_addReverseOf (a.dependencies i) ha (hnodes i List.mem_cons_self)
    exact hstep.trans (ih hstep.wellFormed fun j hj =>
      hstep.keeps.lt_size (hnodes j (List.mem_cons_of_mem _ hj)))

theorem grows_reconstruct (ha : a.WellFormed) : Grows a a.reconstruct.1 :=
  grows_addReverseOfAll _ ha fun _ hi => List.mem_range.1 hi

end Atlas

/-! ## Documents -/

namespace Document

open Atlas

variable {a : Atlas} {i : Nat}

/-- Drawing edges one by one, up to the first that is refused. -/
theorem grows_addEdges (kind : EdgeKind) (paths : List Text) (ha : a.WellFormed) (hi : i < a.size) :
    Grows a (addEdges kind i a paths).1 := by
  induction paths generalizing a with
  | nil => exact Grows.refl ha
  | cons path rest ih =>
    have hstep := grows_addEdgePath kind path Path.root ha hi
    rw [addEdges]
    rcases h : a.addEdgePath kind i path Path.root with ⟨b, e | k⟩
    · rw [h] at hstep
      exact hstep
    · rw [h] at hstep
      exact hstep.trans (ih hstep.wellFormed (hstep.keeps.lt_size hi))

/-- The two lists of a node, in order. A list that cannot be read leaves the atlas as the one before it has
made it. -/
theorem grows_loadMeta (place : Text) (value : Option Json) (ha : a.WellFormed) (hi : i < a.size) :
    Grows a (loadMeta a i place value).1 := by
  unfold loadMeta
  split
  · exact Grows.refl ha
  · exact Grows.refl ha
  · split
    · exact Grows.refl ha
    · next deps _ =>
      have hdeps := grows_addEdges .dependency deps ha hi
      split
      · next b e h =>
        rw [h] at hdeps
        exact hdeps
      · next b h =>
        rw [h] at hdeps
        split
        · exact hdeps
        · exact hdeps.trans (grows_addEdges .dependent _ hdeps.wellFormed (hdeps.keeps.lt_size hi))
  · exact Grows.refl ha

mutual

/-- A document, read as far as it goes. The recursion is that of the reader; a member is read into the node that its
name has just made. -/
theorem grows_loadAt {a : Atlas} {i : Nat} (place : Text) (d : Json) (ha : a.WellFormed)
    (hi : i < a.size) : Grows a (loadAt a i place d).1 := by
  cases d with
  | obj members =>
    have hmembers := grows_loadMembers place members ha hi
    rw [loadAt]
    rcases h : loadMembers a i place members with ⟨b, e | _⟩
    · rw [h] at hmembers
      exact hmembers
    · rw [h] at hmembers
      exact hmembers.trans (grows_loadMeta place _ hmembers.wellFormed (hmembers.keeps.lt_size hi))
  | _ => exact Grows.refl ha

theorem grows_loadMembers {a : Atlas} {i : Nat} (place : Text) (members : List (Text × Json))
    (ha : a.WellFormed) (hi : i < a.size) : Grows a (loadMembers a i place members).1 := by
  cases members with
  | nil => exact Grows.refl ha
  | cons m rest =>
    obtain ⟨key, value⟩ := m
    rw [loadMembers]
    split
    · exact grows_loadMembers place rest ha hi
    · rcases h : a.addChild i (unescapeKey key) with e | ⟨b, c⟩
      · exact Grows.refl ha
      · -- The new child, what is below it, and then the other members: three stages of one growth.
        obtain ⟨hb, hab, hc⟩ := wellFormed_addChild ha hi h
        have hchild := grows_loadAt (place ++ Path.slash :: key) value hb hc
        have hab : Grows a b := ⟨hb, hab⟩
        dsimp only
        rcases h' : loadAt b c (place ++ Path.slash :: key) value with ⟨d, e | _⟩
        · rw [h'] at hchild
          exact hab.trans hchild
        · rw [h'] at hchild
          have had := hab.trans hchild
          exact had.trans (grows_loadMembers place rest had.wellFormed (had.keeps.lt_size hi))

end

end Document

/-! ## Operations -/

/-- A node that is given as one of the atlas itself is there. One of another atlas is nobody's concern here:
operations refuse it. -/
def NodeRef.In (a : Atlas) : NodeRef → Prop
  | .own i => i < a.size
  | .foreign _ _ => True

instance (a : Atlas) (node : NodeRef) : Decidable (node.In a) :=
  match node with
  | .own i => inferInstanceAs (Decidable (i < a.size))
  | .foreign _ _ => inferInstanceAs (Decidable True)

/-- An operation that may change an atlas. Those that only ask have no effect and are not among them. -/
inductive Operation where
  | addChild (node : NodeRef) (name : Text)
  | addPath (start : NodeRef) (path sep : Text)
  | addEdge (kind : EdgeKind) (node other : NodeRef)
  | addEdgePath (kind : EdgeKind) (node : NodeRef) (path sep : Text)
  | reconstruct
  | load (document : Json)

namespace Operation

@[match_pattern] abbrev addDependency (node target : NodeRef) : Operation := .addEdge .dependency node target

@[match_pattern] abbrev addDependent (node source : NodeRef) : Operation := .addEdge .dependent node source

@[match_pattern] abbrev addDependencyPath (node : NodeRef) (path sep : Text) : Operation :=
  .addEdgePath .dependency node path sep

@[match_pattern] abbrev addDependentPath (node : NodeRef) (path sep : Text) : Operation :=
  .addEdgePath .dependent node path sep

/-- The nodes that an operation is given. -/
def nodes : Operation → List NodeRef
  | .addChild node _ => [node]
  | .addPath start _ _ => [start]
  | .addEdge _ node other => [node, other]
  | .addEdgePath _ node _ _ => [node]
  | .reconstruct => []
  | .load _ => []

/-- The atlas after an operation, whether that was refused or not. -/
def apply (a : Atlas) : Operation → Atlas
  | .addChild node name => (a.addChildOf node name).1
  | .addPath start path sep => (a.addPathFrom start path sep).1
  | .addEdge kind node other => (a.addEdgeOf kind node other).1
  | .addEdgePath kind node path sep => (a.addEdgePathOf kind node path sep).1
  | .reconstruct => a.reconstruct.1
  | .load document => (a.load document).1

/-- Every node that is given as one of the atlas itself is there. -/
def Valid (a : Atlas) (op : Operation) : Prop := ∀ node ∈ op.nodes, node.In a

instance (a : Atlas) (op : Operation) : Decidable (op.Valid a) :=
  inferInstanceAs (Decidable (∀ node ∈ op.nodes, node.In a))

/-- Each of the operations is valid when its turn comes. That depends on the ones before it, which may have made the
nodes it is given. -/
def AllValid : Atlas → List Operation → Prop
  | _, [] => True
  | a, op :: rest => op.Valid a ∧ AllValid (op.apply a) rest

instance decidableAllValid : (a : Atlas) → (ops : List Operation) → Decidable (AllValid a ops)
  | _, [] => inferInstanceAs (Decidable True)
  | a, op :: rest =>
    have := decidableAllValid (op.apply a) rest
    inferInstanceAs (Decidable (op.Valid a ∧ AllValid (op.apply a) rest))

variable {a : Atlas} {op : Operation}

open Atlas

/-- **One operation** keeps the arena well-formed and loses nothing, even if it is refused midway. There is one case
for each operation, and in each the lemma about it from above. -/
theorem grows (ha : a.WellFormed) (hop : op.Valid a) : Grows a (op.apply a) := by
  -- A node of another atlas is refused before anything is made, so its case leaves `a` as it is.
  cases op with
  | addChild node name =>
    rw [apply, addChildOf]
    split
    · exact Grows.refl ha
    · cases node with
      | foreign i name => exact Grows.refl ha
      | own i =>
        rcases h : a.addChild i name with e | ⟨b, c⟩
        · simp only [NodeRef.index, h]
          exact Grows.refl ha
        · obtain ⟨hb, hab, _⟩ := wellFormed_addChild ha (hop _ List.mem_cons_self) h
          simp only [NodeRef.index, h]
          exact ⟨hb, hab⟩
  | addPath start path sep =>
    rw [apply, addPathFrom, wayFrom]
    cases pathNames path sep with
    | error e => exact Grows.refl ha
    | ok names =>
      cases start with
      | foreign i name => exact Grows.refl ha
      | own i => exact (grows_addNames names ha (hop _ List.mem_cons_self)).1
  | addEdge kind node other =>
    rw [apply, addEdgeOf]
    rcases node with i | ⟨i, name⟩
    · rcases other with j | ⟨j, name⟩
      · exact grows_addEdge kind ha (hop _ (by simp [nodes] : NodeRef.own j ∈ _))
      · exact Grows.refl ha
    · exact Grows.refl ha
  | addEdgePath kind node path sep =>
    cases node with
    | foreign i name => exact Grows.refl ha
    | own i => exact grows_addEdgePath kind path sep ha (hop _ List.mem_cons_self)
  | reconstruct => exact grows_reconstruct ha
  | load document => exact Document.grows_loadAt [] document ha ha.root_lt

end Operation

/-- The atlases that operations make from the empty one. A caller has no other way to come by one, so what holds of
these holds of all that are ever met. -/
inductive Built : Atlas → Prop where
  | empty : Built Atlas.empty
  | step {a : Atlas} (op : Operation) (h : Built a) (hop : op.Valid a) : Built (op.apply a)

/-- **Every atlas with a history is well-formed.** By induction on the history, from the empty atlas. -/
theorem Built.wellFormed {a : Atlas} (h : Built a) : a.WellFormed := by
  induction h with
  | empty => exact Atlas.wellFormed_empty
  | step op _ hop ih => exact (Operation.grows ih hop).wellFormed

theorem Built.applyAll {a : Atlas} {ops : List Operation} (h : Built a) (hops : Operation.AllValid a ops) :
    Built (ops.foldl Operation.apply a) := by
  induction ops generalizing a with
  | nil => exact h
  | cons op rest ih => exact ih (h.step op hops.1) hops.2

end HeaderAtlas
