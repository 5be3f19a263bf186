import HeaderAtlas.Proofs.Atlas.Document
import HeaderAtlas.Proofs.Atlas.Mirror
import Mathlib.Algebra.BigOperators.Group.Finset.Piecewise
/-!
# Making dependents from dependencies

The pass over all nodes writes into the lists of nodes that it has been at and of nodes that it will come to, and some
of what it would write may be there. It reads dependencies only, and it writes dependents only; so what it makes of an
atlas is the other ends of all dependencies, next to the dependents that were there (`reconstruct_transpose`).

Which dependents there are afterwards is known from `mem_dependents_reconstruct`. Here they are counted: every dependent
that one step calls new makes one list longer by one (`dependentCount_addDependent`), and the pass adds these up.
-/

set_option autoImplicit false

namespace HeaderAtlas

namespace Atlas

variable {a : Atlas} {i j k : Nat}

/-! ## Counting dependents -/

/-- How many dependents all nodes have together. -/
def dependentCount (a : Atlas) : Nat := ∑ i ∈ Finset.range a.size, (a.dependents i).length

theorem length_insertNumber {l : List Nat} (hl : l.Pairwise (· < ·)) :
    (insertNumber i l).length = l.length + (!l.contains i).toNat := by
  by_cases hi : i ∈ l
  · rw [insertNumber_of_mem hl hi]
    simp [hi]
  · have hlength : (insertNumber i l).length = l.length + 1 := by
      clear hl
      induction l with
      | nil => rfl
      | cons j rest ih =>
        rw [List.mem_cons, not_or] at hi
        rw [insertNumber, if_neg hi.1]
        split
        · rfl
        · rw [List.length_cons, ih hi.2, List.length_cons]
    rw [hlength]
    simp [hi]

/-- **One step** adds one dependent if it is new, and none otherwise. -/
theorem dependentCount_addEdge (ha : a.WellFormed) (hi : i < a.size) :
    (a.addEdge .dependent i j).1.dependentCount = a.dependentCount + (a.addEdge .dependent i j).2.toNat := by
  have hlength : ∀ k, ((a.addEdge .dependent i j).1.dependents k).length =
      (a.dependents k).length + if k = i then (a.addEdge .dependent i j).2.toNat else 0 := by
    intro k
    rw [dependents, edges_addEdge_self hi]
    split
    · next hk => rw [length_insertNumber (ha.pairwise_edges .dependent k), hk]; rfl
    · rfl
  unfold dependentCount
  rw [size_addEdge, Finset.sum_congr rfl fun k _ => hlength k, Finset.sum_add_distrib, Finset.sum_ite_eq',
    if_pos (Finset.mem_range.2 hi)]

/-- The dependencies of one node. -/
theorem dependentCount_addReverseOf (ha : a.WellFormed) (hi : i < a.size) {targets : List Nat}
    (h : ∀ j ∈ targets, j < a.size) :
    (a.addReverseOf i targets).1.dependentCount = a.dependentCount + (a.addReverseOf i targets).2 := by
  induction targets generalizing a with
  | nil => rfl
  | cons j rest ih =>
    have hstep := grows_addEdge .dependent (i := j) ha hi
    have hrest := ih hstep.wellFormed (hstep.keeps.lt_size hi)
      fun k hk => hstep.keeps.lt_size (h k (List.mem_cons_of_mem _ hk))
    rw [addReverseOf, addDependent]
    dsimp only
    rw [hrest, dependentCount_addEdge ha (h j List.mem_cons_self)]
    omega

/-- Those of several nodes, one after the other. -/
theorem dependentCount_addReverseOfAll (ha : a.WellFormed) {nodes : List Nat} (h : ∀ i ∈ nodes, i < a.size) :
    (a.addReverseOfAll nodes).1.dependentCount = a.dependentCount + (a.addReverseOfAll nodes).2 := by
  induction nodes generalizing a with
  | nil => rfl
  | cons i rest ih =>
    have hi := h i List.mem_cons_self
    have hstep := grows_addReverseOf (a.dependencies i) ha hi
    have hrest := ih hstep.wellFormed fun j hj => hstep.keeps.lt_size (h j (List.mem_cons_of_mem _ hj))
    rw [addReverseOfAll]
    dsimp only
    rw [hrest, dependentCount_addReverseOf ha hi fun j hj => (ha.lt_size_of_mem_edges hj).2, Nat.add_assoc]

theorem dependentCount_reconstruct (ha : a.WellFormed) :
    a.reconstruct.1.dependentCount = a.dependentCount + a.reconstruct.2 :=
  dependentCount_addReverseOfAll ha fun _ hi => List.mem_range.1 hi

/-! ## What else there is -/

/-- Every node is as it was, but for its dependents. -/
theorem node?_reconstruct (a : Atlas) (i : Nat) :
    a.reconstruct.1.node? i = (a.node? i).map fun n => { n with dependents := a.reconstruct.1.dependents i } := by
  have hforward : (a.reconstruct.1.node? i).map Node.forwardOnly = (a.node? i).map Node.forwardOnly := by
    rw [← node?_forwardOnly, forwardOnly_reconstruct, node?_forwardOnly]
  unfold dependents edges
  cases hn : a.reconstruct.1.node? i with
  | none =>
    rw [hn] at hforward
    rw [Option.map_eq_none_iff.1 hforward.symm]
    rfl
  | some n =>
    rw [hn] at hforward
    obtain ⟨m, hm, hnode⟩ := Option.map_eq_some_iff.1 hforward.symm
    rw [hm]
    cases m
    cases n
    simp only [Node.forwardOnly, Node.mk.injEq] at hnode
    simp [hnode, Node.edges]

/-- **The dependents that are made are the other ends of the dependencies.** In every atlas with a history the pass
gives each node the dependents it had and the nodes that have it as a dependency, in strict order and no others. The
number it returns is that by which the dependents have become more. Nodes keep their names, parents, children and
dependencies. A second pass returns zero and changes nothing. -/
theorem reconstruct_transpose (h : Built a) :
    (∀ k, (a.reconstruct.1.dependents k).Pairwise (· < ·) ∧
      ∀ l, l ∈ a.reconstruct.1.dependents k ↔ l ∈ a.dependents k ∨ k ∈ a.dependencies l) ∧
    a.reconstruct.1.dependentCount = a.dependentCount + a.reconstruct.2 ∧
    (∀ i, a.reconstruct.1.node? i =
      (a.node? i).map fun n => { n with dependents := a.reconstruct.1.dependents i }) ∧
    a.reconstruct.1.reconstruct = (a.reconstruct.1, 0) := by
  have ha := h.wellFormed
  have hwf := (grows_reconstruct ha).wellFormed
  refine ⟨fun k => ⟨hwf.pairwise_edges .dependent k, fun l => mem_dependents_reconstruct ha⟩,
    dependentCount_reconstruct ha, node?_reconstruct a, reconstruct_of_mem hwf fun i j hj => ?_⟩
  rw [← dependencies_forwardOnly, forwardOnly_reconstruct, dependencies_forwardOnly] at hj
  exact (mem_dependents_reconstruct ha).2 (.inr hj)

/-- An atlas of three files: the first includes itself and the second, and the second the first and the third. Of these
four edges one is recorded at its other end. The third is recorded as included by the first, which does not include
it. -/
def halfMirrored : Atlas :=
  [Operation.addChild (.own root) "a", .addChild (.own root) "b", .addChild (.own root) "c",
    .addDependency (.own 1) (.own 2), .addDependency (.own 1) (.own 1), .addDependency (.own 2) (.own 1),
    .addDependency (.own 2) (.own 3), .addDependent (.own 2) (.own 1), .addDependent (.own 3) (.own 1)].foldl
      Operation.apply empty

theorem reconstruct_transpose_cycle :
    halfMirrored.reconstruct.2 = 3 ∧ halfMirrored.reconstruct.1.dependents 3 = [1, 2] ∧
    halfMirrored.reconstruct.1.dependentCount = halfMirrored.dependentCount + 3 ∧
    halfMirrored.reconstruct.1.reconstruct = (halfMirrored.reconstruct.1, 0) := by
  have hbuilt : Built halfMirrored := Built.empty.applyAll (by decide +kernel)
  obtain ⟨_, hcount, _, hagain⟩ := reconstruct_transpose hbuilt
  have hadded : halfMirrored.reconstruct.2 = 3 := by decide +kernel
  exact ⟨hadded, by decide +kernel, by rw [hcount, hadded], hagain⟩

end Atlas

end HeaderAtlas
