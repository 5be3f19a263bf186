import HeaderAtlas.Atlas.Request
import HeaderAtlas.Proofs.Atlas.History
import Mathlib.Data.List.Sort
/-!
# Edges recorded at both ends

An edge has two ends. Its source lists it among the dependencies, and its target may list it among the
dependents. An atlas is mirrored if every edge is listed at both ends (`Atlas.Mirrored`).

Dependents come about in two ways: each is requested right after its dependency, or all are made from
the dependencies in one pass at the end. `Atlas.forwardOnly` drops the dependents. The operations that
fill an atlas do not look at dependents, so they commute with it, and a mirrored atlas is what the one
pass makes of its `forwardOnly` (`Atlas.reconstruct_forwardOnly`). The first way keeps an atlas mirrored
at every step, also where a request is refused (`Atlas.performAll_paired`).
-/

set_option autoImplicit false

namespace HeaderAtlas

/-- The node with its dependents left out. -/
def Node.forwardOnly (n : Node) : Node := { n with dependents := [] }

namespace Atlas

variable {a b c : Atlas} {i j k l : Nat} {name : Text} {key : Bytes} {n m : Node}

/-- Every edge is listed at both of its ends. It is an equivalence: a dependent without its dependency is a breach
as well. -/
def Mirrored (a : Atlas) : Prop := ∀ i j, j ∈ a.dependencies i ↔ i ∈ a.dependents j

theorem mirrored_empty : empty.Mirrored := by
  intro i j
  simp only [edges_empty, List.not_mem_nil]

/-- Making nodes draws no edge. -/
theorem Mirrored.addNames (hm : a.Mirrored) (names : List Text) (ha : a.WellFormed) (hi : i < a.size) :
    (a.addNames i names).1.Mirrored := by
  intro k l
  rw [dependencies, dependents, edges_addNames names ha hi, edges_addNames names ha hi]
  exact hm k l

/-- An edge that is drawn at both ends. In between the atlas is not mirrored, so the two are one step here. -/
theorem Mirrored.addEdge (hm : a.Mirrored) (hi : i < a.size) (hj : j < a.size) :
    ((a.addDependency i j).1.addDependent j i).1.Mirrored := by
  intro k l
  rw [dependencies, dependents, edges_addEdge_of_ne (by decide), mem_edges_addEdge hi,
    mem_edges_addEdge (by rw [size_addEdge]; exact hj), edges_addEdge_of_ne (by decide), hm k l, and_comm]

/-! ## The atlas without its dependents -/

/-- The atlas with the dependents of every node left out. A scan without dependents makes such an atlas. -/
def forwardOnly (a : Atlas) : Atlas := ⟨a.nodes.map Node.forwardOnly⟩

/-- What a node is without its dependents can be seen node by node, so the equations below are shown by looking
at one. -/
theorem node?_forwardOnly (a : Atlas) (i : Nat) :
    a.forwardOnly.node? i = (a.node? i).map Node.forwardOnly := Array.getElem?_map

@[simp] theorem size_forwardOnly (a : Atlas) : a.forwardOnly.size = a.size := Array.size_map

@[simp] theorem dependencies_forwardOnly (a : Atlas) (i : Nat) :
    a.forwardOnly.dependencies i = a.dependencies i := by
  rw [dependencies, edges, node?_forwardOnly, Option.map_map]
  rfl

@[simp] theorem dependents_forwardOnly (a : Atlas) (i : Nat) : a.forwardOnly.dependents i = [] := by
  rw [dependents, edges, node?_forwardOnly]
  cases a.node? i with
  | none => rfl
  | some n => rfl

theorem WellFormed.forwardOnly (ha : a.WellFormed) : a.forwardOnly.WellFormed := by
  have hsame : SameTree a a.forwardOnly :=
    ⟨size_forwardOnly a, fun {i m} h => ⟨m.forwardOnly, by rw [node?_forwardOnly, h]; rfl, rfl, rfl, rfl⟩⟩
  apply hsame.wellFormed ha
  intro i n h kind
  rw [node?_forwardOnly] at h
  obtain ⟨m, hm, rfl⟩ := Option.map_eq_some_iff.1 h
  rw [size_forwardOnly]
  cases kind with
  | dependency => exact ha.edges hm .dependency
  | dependent => simp [Node.edges, Node.forwardOnly]

/-- Atlases are equal if they have the same nodes at the same numbers. -/
theorem ext_node? (h : ∀ i, a.node? i = b.node? i) : a = b := by
  obtain ⟨nodes⟩ := a
  obtain ⟨nodes'⟩ := b
  exact congrArg Atlas.mk (Array.ext_getElem? h)

theorem forwardOnly_empty : empty.forwardOnly = empty := by
  simp [forwardOnly, empty, Node.forwardOnly, Node.leaf]

theorem forwardOnly_append (a : Atlas) (i : Nat) (name : Text) (key : Bytes) :
    (a.append i name key).forwardOnly = a.forwardOnly.append i name key := by
  apply ext_node?
  intro k
  have hsize : (a.nodes.map Node.forwardOnly).size = a.nodes.size := Array.size_map
  simp only [forwardOnly, append, node?, size, Array.getElem?_map, Array.getElem?_modify,
    Array.getElem?_push, hsize]
  by_cases hk : k = a.nodes.size
  · simp only [if_pos hk]
    split
    · rfl
    · rfl
  · simp only [if_neg hk]
    split
    · rw [Option.map_map, Option.map_map]
      rfl
    · rfl

theorem forwardOnly_addDependency (a : Atlas) (i j : Nat) :
    (a.addDependency i j).1.forwardOnly = (a.forwardOnly.addDependency i j).1 := by
  apply ext_node?
  intro k
  rw [node?_forwardOnly, node?_addEdge, node?_addEdge, node?_forwardOnly]
  split
  · rw [Option.map_map, Option.map_map]
    rfl
  · rfl

theorem forwardOnly_addDependent (a : Atlas) (i j : Nat) :
    (a.addDependent i j).1.forwardOnly = a.forwardOnly := by
  apply ext_node?
  intro k
  rw [node?_forwardOnly, node?_addEdge, node?_forwardOnly]
  split
  · rw [Option.map_map]
    rfl
  · rfl

/-! ## Making nodes does not look at dependents -/

/-- Operations do not look at dependents. This and the next lemmas say so of each, with the same result or the same
refusal. -/
theorem addChild_forwardOnly (a : Atlas) (i : Nat) (name : Text) :
    a.forwardOnly.addChild i name =
      (a.addChild i name).map fun made => (made.1.forwardOnly, made.2) := by
  have hchild (key : Bytes) :
      (a.forwardOnly.node? i).bind (·.child? key) = (a.node? i).bind (·.child? key) := by
    rw [node?_forwardOnly, Option.bind_map]
    rfl
  unfold addChild
  split
  · rfl
  · split
    · rfl
    · next key _ =>
      rw [hchild key]
      split
      · rfl
      · rw [size_forwardOnly, ← forwardOnly_append]
        rfl

theorem addNames_forwardOnly (a : Atlas) (i : Nat) (names : List Text) :
    a.forwardOnly.addNames i names = ((a.addNames i names).1.forwardOnly, (a.addNames i names).2) := by
  induction names generalizing a i with
  | nil => rfl
  | cons name rest ih =>
    unfold addNames
    rw [addChild_forwardOnly]
    cases a.addChild i name with
    | error e => rfl
    | ok made => exact ih made.1 made.2

theorem addBoth_forwardOnly (a : Atlas) (first second : List Text) :
    a.forwardOnly.addBoth first second =
      ((a.addBoth first second).1.forwardOnly, (a.addBoth first second).2) := by
  unfold addBoth
  rw [addNames_forwardOnly]
  rcases a.addNames root first with ⟨b, e | i⟩
  · rfl
  · dsimp only
    rw [addNames_forwardOnly]
    rcases b.addNames root second with ⟨c, e | j⟩
    · rfl
    · rfl

/-! ## Asking again -/

/-- A child that is listed is found. -/
theorem addChild_of_listed (ha : a.WellFormed) (hname : name ≠ []) (hkey : name.encode = .ok name.key)
    (hm : a.node? i = some m) (hmem : (name.key, k) ∈ m.children) : a.addChild i name = .ok (a, k) := by
  have hchild : (a.node? i).bind (·.child? name.key) = some k := by
    rw [hm, Option.bind_some]
    exact (Node.child?_eq_some_iff (ha.sorted hm)).2 hmem
  unfold addChild
  rw [if_neg (by simpa using hname), hkey]
  dsimp only
  rw [hchild]

/-- **Asking again changes nothing.** Names that led to a node lead to it from then on, however the atlas has
grown. -/
theorem addNames_again {names : List Text} (ha : a.WellFormed) (hi : i < a.size)
    (h : a.addNames i names = (b, .ok k)) (hbc : Grows b c) : c.addNames i names = (c, .ok k) := by
  induction names generalizing a i with
  | nil =>
    obtain ⟨rfl, hk⟩ := Prod.mk.inj h
    rw [addNames, Except.ok.inj hk]
  | cons name rest ih =>
    rw [addNames] at h
    cases hchild : a.addChild i name with
    | error e => simp [hchild] at h
    | ok made =>
      obtain ⟨d, l⟩ := made
      rw [hchild] at h
      dsimp only at h
      obtain ⟨hd, _, hl⟩ := wellFormed_addChild ha hi hchild
      -- The child is listed in the atlas right after it was asked for, and later atlases keep it.
      obtain ⟨hname, hkey, _⟩ := addChild_cases ha hchild
      obtain ⟨m, hm, hmem⟩ := listed_addChild ha hi hchild
      have hdb : Grows d b := by
        have hgrows := (grows_addNames rest hd hl).1
        rw [h] at hgrows
        exact hgrows
      obtain ⟨n, hn, _, _, hchildren, _⟩ := (hdb.trans hbc).keeps hm
      rw [addNames, addChild_of_listed hbc.wellFormed hname hkey hn (hchildren _ hmem)]
      exact ih hd hl h

/-! ## Requests in pairs -/

/-- Two lists of requests for the same nodes and dependencies. The first has after each dependency the request for its
other end, the second has no requests for dependents. -/
inductive Paired : List Request → List Request → Prop
  | nil : Paired [] []
  | node {both forward : List Request} (names : List Text) (rest : Paired both forward) :
      Paired (.node names :: both) (.node names :: forward)
  | edge {both forward : List Request} (source target : List Text) (rest : Paired both forward) :
      Paired (.dependency source target :: .dependent target source :: both)
        (.dependency source target :: forward)

theorem Paired.append {xs ys xs' ys' : List Request} (h : Paired xs ys) (h' : Paired xs' ys') :
    Paired (xs ++ xs') (ys ++ ys') := by
  induction h with
  | nil => exact h'
  | node names _ ih => exact .node names ih
  | edge source target _ ih => exact .edge source target ih

theorem Paired.flatMap {α : Type} {f g : α → List Request} (l : List α)
    (h : ∀ x ∈ l, Paired (f x) (g x)) : Paired (l.flatMap f) (l.flatMap g) := by
  induction l with
  | nil => exact .nil
  | cons x rest ih =>
    rw [List.flatMap_cons, List.flatMap_cons]
    exact (h x List.mem_cons_self).append (ih fun y hy => h y (List.mem_cons_of_mem _ hy))

/-- **What making two nodes does.** Nothing is lost, an atlas that was mirrored still is, and if it gives two nodes
then asking for them later on, in the other order, finds them. -/
theorem addBoth_spec (first second : List Text) (ha : a.WellFormed) :
    Grows a (a.addBoth first second).1 ∧
      (a.Mirrored → (a.addBoth first second).1.Mirrored) ∧
      ∀ i j, (a.addBoth first second).2 = .ok (i, j) →
        i < (a.addBoth first second).1.size ∧ j < (a.addBoth first second).1.size ∧
          ∀ c, Grows (a.addBoth first second).1 c → c.addBoth second first = (c, .ok (j, i)) := by
  have hroot := ha.root_lt
  unfold addBoth
  obtain ⟨hgrows, hlt⟩ := grows_addNames first ha hroot
  have hmirrored := fun hm : a.Mirrored => hm.addNames first ha hroot
  rcases hfirst : a.addNames root first with ⟨b, e | i⟩
  · rw [hfirst] at hgrows hmirrored
    exact ⟨hgrows, hmirrored, fun i j h => by simp at h⟩
  · rw [hfirst] at hgrows hmirrored hlt
    have hb := hgrows.wellFormed
    obtain ⟨hgrows', hlt'⟩ := grows_addNames second hb hb.root_lt
    have hmirrored' := fun hm : a.Mirrored => (hmirrored hm).addNames second hb hb.root_lt
    dsimp only
    rcases hsecond : b.addNames root second with ⟨d, e | j⟩
    · rw [hsecond] at hgrows' hmirrored'
      exact ⟨hgrows.trans hgrows', hmirrored', fun i j h => by simp at h⟩
    · rw [hsecond] at hgrows' hmirrored' hlt'
      refine ⟨hgrows.trans hgrows', hmirrored', fun i' j' h => ?_⟩
      obtain ⟨rfl, rfl⟩ := Prod.mk.inj (Except.ok.inj h)
      refine ⟨hgrows'.keeps.lt_size (hlt i rfl), hlt' j rfl, fun c hc => ?_⟩
      -- Both nodes are there already, so asking for them the other way round changes nothing.
      rw [addNames_again hb hb.root_lt hsecond hc]
      dsimp only
      rw [addNames_again ha hroot hfirst (hgrows'.trans hc)]

/-- What requests in pairs make of `a`, next to what the requests without dependents make of `a` without
its dependents. -/
structure Mirrors (a : Atlas) (both forward : Atlas × Except AtlasFault Unit) : Prop where
  grows : Grows a both.1
  mirrored : both.1.Mirrored
  forward_eq : forward = (both.1.forwardOnly, both.2)

/-- A request for a node. -/
theorem mirrors_node (names : List Text) (ha : a.WellFormed) (hm : a.Mirrored) :
    Mirrors a (a.perform (.node names)) (a.forwardOnly.perform (.node names)) := by
  have hgrows := (grows_addNames names ha ha.root_lt).1
  have hmirrored := hm.addNames names ha ha.root_lt
  rw [perform, perform, addNames_forwardOnly]
  rcases h : a.addNames root names with ⟨b, e | i⟩
  · rw [h] at hgrows hmirrored
    exact ⟨hgrows, hmirrored, rfl⟩
  · rw [h] at hgrows hmirrored
    exact ⟨hgrows, hmirrored, rfl⟩

/-- The requests for both ends of an edge. The second of them finds its two nodes, so it is not refused
and makes none. -/
theorem mirrors_edge (source target : List Text) (ha : a.WellFormed) (hm : a.Mirrored) :
    Mirrors a (a.performAll [.dependency source target, .dependent target source])
      (a.forwardOnly.perform (.dependency source target)) := by
  obtain ⟨hgrows, hmirrored, hnodes⟩ := addBoth_spec source target ha
  have hmirrored := hmirrored hm
  rw [performAll, perform, perform, addBoth_forwardOnly]
  rcases h : a.addBoth source target with ⟨b, e | ⟨i, j⟩⟩
  · rw [h] at hgrows hmirrored
    exact ⟨hgrows, hmirrored, rfl⟩
  · rw [h] at hgrows hmirrored hnodes
    obtain ⟨hi, hj, hagain⟩ := hnodes i j rfl
    have hdraw := grows_addEdge .dependency (i := i) hgrows.wellFormed hj
    have hdraw' := grows_addEdge .dependent (i := j) hdraw.wellFormed (hdraw.keeps.lt_size hi)
    dsimp only
    rw [performAll, perform, hagain _ hdraw]
    refine ⟨hgrows.trans (hdraw.trans hdraw'), hmirrored.addEdge hi hj, ?_⟩
    simp only [performAll, forwardOnly_addDependent, forwardOnly_addDependency]

/-- What comes after requests that were carried out. A refusal stays. -/
def andThen (done : Atlas × Except AtlasFault Unit) (next : Atlas → Atlas × Except AtlasFault Unit) :
    Atlas × Except AtlasFault Unit :=
  match done with
  | (b, .error e) => (b, .error e)
  | (b, .ok ()) => next b

theorem performAll_cons (a : Atlas) (r : Request) (rest : List Request) :
    a.performAll (r :: rest) = andThen (a.perform r) (·.performAll rest) := rfl

/-- Requests in two runs are carried out one run after the other, unless the first is refused. -/
theorem performAll_append (a : Atlas) (xs ys : List Request) :
    a.performAll (xs ++ ys) = andThen (a.performAll xs) (·.performAll ys) := by
  induction xs generalizing a with
  | nil => rfl
  | cons x rest ih =>
    rw [List.cons_append, performAll_cons, performAll_cons]
    rcases a.perform x with ⟨b, e | _⟩
    · rfl
    · exact ih b

/-- Two steps that match, one after the other. -/
theorem Mirrors.andThen {both forward : Atlas × Except AtlasFault Unit}
    {next next' : Atlas → Atlas × Except AtlasFault Unit} (h : Mirrors a both forward)
    (hnext : ∀ b, b.WellFormed → b.Mirrored → Mirrors b (next b) (next' b.forwardOnly)) :
    Mirrors a (andThen both next) (andThen forward next') := by
  obtain ⟨hgrows, hmirrored, rfl⟩ := h
  obtain ⟨b, e | _⟩ := both
  · exact ⟨hgrows, hmirrored, rfl⟩
  · obtain ⟨hgrows', hmirrored', hforward'⟩ := hnext b hgrows.wellFormed hmirrored
    exact ⟨hgrows.trans hgrows', hmirrored', hforward'⟩

/-- **Requests in pairs keep an atlas mirrored**, and without its dependents the atlas is what the requests without
dependents make. Both lists are refused together. By induction on the pairing, one node or one edge at a time. -/
theorem performAll_paired {both forward : List Request} (h : Paired both forward) (ha : a.WellFormed)
    (hm : a.Mirrored) : Mirrors a (a.performAll both) (a.forwardOnly.performAll forward) := by
  induction h generalizing a with
  | nil => exact ⟨Grows.refl ha, hm, rfl⟩
  | node names _ ih => exact (mirrors_node names ha hm).andThen fun b => ih
  | @edge both _ source target _ ih =>
    have hsplit := performAll_append a [.dependency source target, .dependent target source] both
    rw [List.cons_append, List.cons_append, List.nil_append] at hsplit
    rw [hsplit]
    exact (mirrors_edge source target ha hm).andThen fun b => ih

/-! ## Making dependents from dependencies -/

theorem insertNumber_of_mem {l : List Nat} (hl : l.Pairwise (· < ·)) (hi : i ∈ l) :
    insertNumber i l = l := by
  induction l with
  | nil => simp at hi
  | cons k rest ih =>
    rw [List.pairwise_cons] at hl
    unfold insertNumber
    rcases List.mem_cons.1 hi with rfl | hi
    · rw [if_neg (Nat.lt_irrefl i), if_pos rfl]
    · have hlt := hl.1 i hi
      rw [if_neg (by omega), if_neg (by omega), ih hl.2 hi]

/-- An edge that is listed is not new. -/
theorem addEdge_of_mem {kind : EdgeKind} (ha : a.WellFormed) (h : j ∈ a.edges kind i) :
    a.addEdge kind i j = (a, false) := by
  have hatlas : (a.addEdge kind i j).1 = a := by
    apply ext_node?
    intro k
    cases hn : a.node? k with
    | none => exact node?_addEdge_of_none hn
    | some n =>
      rw [node?_addEdge_of_some hn]
      split
      · next hik =>
        subst hik
        rw [edges_eq hn] at h
        rw [withEdge, insertNumber_of_mem (ha.edges hn kind).1 h, Node.setEdges_edges]
      · rfl
  have hnew : (a.addEdge kind i j).2 = false := by simp [addEdge, h]
  exact Prod.ext hatlas hnew

theorem addReverseOf_of_mem (ha : a.WellFormed) {targets : List Nat}
    (h : ∀ j ∈ targets, i ∈ a.dependents j) : a.addReverseOf i targets = (a, 0) := by
  induction targets with
  | nil => rfl
  | cons j rest ih =>
    have hrest := ih fun k hk => h k (List.mem_cons_of_mem _ hk)
    rw [addReverseOf, addDependent, addEdge_of_mem ha (h j List.mem_cons_self)]
    dsimp only
    rw [hrest]
    rfl

/-- **Where every dependency has its other end nothing is made.** There may be other dependents. -/
theorem reconstruct_of_mem (ha : a.WellFormed) (h : ∀ i j, j ∈ a.dependencies i → i ∈ a.dependents j) :
    a.reconstruct = (a, 0) := by
  have hall (nodes : List Nat) : a.addReverseOfAll nodes = (a, 0) := by
    induction nodes with
    | nil => rfl
    | cons i rest ih =>
      rw [addReverseOfAll, addReverseOf_of_mem ha fun j hj => h i j hj]
      dsimp only
      rw [ih]
      rfl
  exact hall (List.range a.size)

/-- **A mirrored atlas lacks no dependents.** -/
theorem Mirrored.reconstruct (hm : a.Mirrored) (ha : a.WellFormed) : a.reconstruct = (a, 0) :=
  reconstruct_of_mem ha fun i j => (hm i j).1

/-- Making the dependents of the dependencies of one node. -/
theorem mem_dependents_addReverseOf {targets : List Nat} (h : ∀ j ∈ targets, j < a.size) :
    l ∈ (a.addReverseOf i targets).1.dependents k ↔ l ∈ a.dependents k ∨ (l = i ∧ k ∈ targets) := by
  induction targets generalizing a with
  | nil => simp [addReverseOf]
  | cons j rest ih =>
    have hj : j < a.size := h j List.mem_cons_self
    have hrest := ih (a := (a.addDependent j i).1) fun k hk => by
      rw [size_addEdge]
      exact h k (List.mem_cons_of_mem _ hk)
    rw [addReverseOf]
    dsimp only
    rw [hrest, mem_edges_addEdge hj, List.mem_cons, or_assoc]
    apply or_congr_right
    tauto

/-- Dependents are all that is new. -/
theorem forwardOnly_addReverseOf (a : Atlas) (i : Nat) (targets : List Nat) :
    (a.addReverseOf i targets).1.forwardOnly = a.forwardOnly := by
  induction targets generalizing a with
  | nil => rfl
  | cons j rest ih => exact (ih _).trans (forwardOnly_addDependent a j i)

theorem forwardOnly_addReverseOfAll (a : Atlas) (nodes : List Nat) :
    (a.addReverseOfAll nodes).1.forwardOnly = a.forwardOnly := by
  induction nodes generalizing a with
  | nil => rfl
  | cons i rest ih => exact (ih _).trans (forwardOnly_addReverseOf a i _)

theorem forwardOnly_reconstruct (a : Atlas) : a.reconstruct.1.forwardOnly = a.forwardOnly :=
  forwardOnly_addReverseOfAll a _

/-- The pass goes from node to node. It draws no dependencies, so those of later nodes are what they were when it
began. -/
theorem mem_dependents_addReverseOfAll {nodes : List Nat} (ha : a.WellFormed)
    (hnodes : ∀ i ∈ nodes, i < a.size) :
    l ∈ (a.addReverseOfAll nodes).1.dependents k ↔
      l ∈ a.dependents k ∨ (l ∈ nodes ∧ k ∈ a.dependencies l) := by
  induction nodes generalizing a with
  | nil => simp [addReverseOfAll]
  | cons i rest ih =>
    have hstep := grows_addReverseOf (a.dependencies i) ha (hnodes i List.mem_cons_self)
    -- The pass reads dependencies and writes dependents, so what it reads later on is still the same.
    have hdeps : (a.addReverseOf i (a.dependencies i)).1.dependencies l = a.dependencies l := by
      rw [← dependencies_forwardOnly, forwardOnly_addReverseOf, dependencies_forwardOnly]
    have hrest := ih hstep.wellFormed fun j hj => hstep.keeps.lt_size (hnodes j (List.mem_cons_of_mem _ hj))
    rw [addReverseOfAll]
    dsimp only
    rw [hrest, hdeps,
      mem_dependents_addReverseOf fun j hj => (ha.lt_size_of_mem_edges hj).2, List.mem_cons,
      or_assoc]
    apply or_congr_right
    constructor
    · rintro (⟨rfl, hk⟩ | ⟨hl, hk⟩)
      · exact ⟨.inl rfl, hk⟩
      · exact ⟨.inr hl, hk⟩
    · rintro ⟨rfl | hl, hk⟩
      · exact .inl ⟨rfl, hk⟩
      · exact .inr ⟨hl, hk⟩

/-- **The dependents that a pass makes** are those that were there and the other ends of all
dependencies. -/
theorem mem_dependents_reconstruct (ha : a.WellFormed) :
    l ∈ a.reconstruct.1.dependents k ↔ l ∈ a.dependents k ∨ k ∈ a.dependencies l := by
  rw [reconstruct, mem_dependents_addReverseOfAll ha fun i hi => List.mem_range.1 hi, List.mem_range]
  apply or_congr_right
  constructor
  · exact And.right
  · intro hk
    exact ⟨(ha.lt_size_of_mem_edges hk).1, hk⟩

/-- Well-formed atlases are equal if they are so without their dependents, and nodes have the same dependents. Edges
are in strict order, so a list of them is determined by its members. -/
theorem eq_of_forwardOnly_eq (ha : a.WellFormed) (hb : b.WellFormed) (h : a.forwardOnly = b.forwardOnly)
    (hmem : ∀ k l, l ∈ a.dependents k ↔ l ∈ b.dependents k) : a = b := by
  apply ext_node?
  intro k
  have hk : (a.node? k).map Node.forwardOnly = (b.node? k).map Node.forwardOnly := by
    rw [← node?_forwardOnly, h, node?_forwardOnly]
  have hmem := hmem k
  cases hn : a.node? k with
  | none =>
    rw [hn] at hk
    exact (Option.map_eq_none_iff.1 hk.symm).symm
  | some n =>
    rw [hn] at hk
    obtain ⟨m, hm, hnode⟩ := Option.map_eq_some_iff.1 hk.symm
    rw [dependents, dependents, edges_eq hn, edges_eq hm] at hmem
    -- Both lists are in strict order, so their members say all about them.
    have hdependents : n.dependents = m.dependents :=
      (ha.edges hn .dependent).1.eq_of_mem_iff (hb.edges hm .dependent).1 hmem
    rw [hm]
    cases n
    cases m
    simp only [Node.forwardOnly, Node.mk.injEq] at hnode hdependents ⊢
    simp [hnode, hdependents]

/-- **The two ways agree**: a mirrored atlas is what the pass makes of it without its dependents. -/
theorem reconstruct_forwardOnly (ha : a.WellFormed) (hm : a.Mirrored) :
    a.forwardOnly.reconstruct.1 = a := by
  apply eq_of_forwardOnly_eq (grows_reconstruct ha.forwardOnly).wellFormed ha
  · rw [forwardOnly_reconstruct, forwardOnly, forwardOnly, Array.map_map]
    rfl
  · intro k l
    rw [mem_dependents_reconstruct ha.forwardOnly, dependents_forwardOnly, dependencies_forwardOnly, hm l k]
    simp

end Atlas

end HeaderAtlas
