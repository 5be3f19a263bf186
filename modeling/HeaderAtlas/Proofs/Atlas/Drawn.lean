import HeaderAtlas.Proofs.Atlas.Branch
import HeaderAtlas.Proofs.Atlas.Document
import HeaderAtlas.Proofs.Atlas.Facts
import Mathlib.Algebra.Order.BigOperators.Group.Finset
import Mathlib.Data.Finset.Card
/-!
# The edges that requests draw

After a run of requests that was not refused every list of names in it finds a node. The edges that were drawn
lie between the nodes which the two sides of a request find in the end (`Atlas.draws_performAll`). Names need not be
decoded for that: two lists of names with the same bytes find one node, and the edges to it are one edge.

That is why edges are fewer than requests. Where each source has a node of its own, the edges are counted source by
source (`Atlas.edgeCount_eq_sum_card`).
-/

set_option autoImplicit false

namespace HeaderAtlas

namespace Atlas

variable {a b c : Atlas} {i j k : Nat} {names first second : List Text} {xs ys : List Request} {q : Request}

/-! ## Runs of requests -/

/-- What requests that were not refused make of an atlas: the nodes they name can be found, and there are the
edges that were there and those between nodes that the requests name. -/
structure Draws (a b : Atlas) (requests : List Request) : Prop where
  grows : Grows a b
  found : ∀ q ∈ requests, ∀ names ∈ q.paths, ∃ i, b.findNames root names = .ok (some i)
  edges : ∀ kind i j, j ∈ b.edges kind i ↔ j ∈ a.edges kind i ∨ ∃ first second,
    Request.edge kind first second ∈ requests ∧
      b.findNames root first = .ok (some i) ∧ b.findNames root second = .ok (some j)

/-- What is found once is all that is ever found. -/
theorem Grows.findNames_iff (h : Grows a b) (ha : a.WellFormed) (hfound : ∃ k, a.findNames i names = .ok (some k)) :
    b.findNames i names = .ok (some j) ↔ a.findNames i names = .ok (some j) := by
  obtain ⟨k, hk⟩ := hfound
  rw [h.findNames_eq ha hk, hk]

namespace Draws

theorem nil (ha : a.WellFormed) : Draws a a [] := ⟨Grows.refl ha, by simp, by simp⟩

/-- **One run after the other.** The second does not change what the names in the first find. -/
theorem append (h : Draws a b xs) (h' : Draws b c ys) : Draws a c (xs ++ ys) := by
  have hb := h.grows.wellFormed
  refine ⟨h.grows.trans h'.grows, fun q hq names hnames => ?_, fun kind i j => ?_⟩
  · rcases List.mem_append.1 hq with hq | hq
    · obtain ⟨i, hi⟩ := h.found q hq names hnames
      exact ⟨i, h'.grows.findNames_eq hb hi⟩
    · exact h'.found q hq names hnames
  · have hlater : ∀ {first second}, Request.edge kind first second ∈ xs →
        ((c.findNames root first = .ok (some i) ∧ c.findNames root second = .ok (some j)) ↔
          b.findNames root first = .ok (some i) ∧ b.findNames root second = .ok (some j)) := by
      intro first second hq
      rw [h'.grows.findNames_iff hb (h.found _ hq first (by simp [Request.paths])),
        h'.grows.findNames_iff hb (h.found _ hq second (by simp [Request.paths]))]
    rw [h'.edges, h.edges, or_assoc]
    refine or_congr_right ?_
    constructor
    · rintro (⟨first, second, hq, hends⟩ | ⟨first, second, hq, hends⟩)
      · exact ⟨first, second, List.mem_append_left _ hq, (hlater hq).2 hends⟩
      · exact ⟨first, second, List.mem_append_right _ hq, hends⟩
    · rintro ⟨first, second, hq, hends⟩
      rcases List.mem_append.1 hq with hq | hq
      · exact .inl ⟨first, second, hq, (hlater hq).1 hends⟩
      · exact .inr ⟨first, second, hq, hends⟩

end Draws

/-- Making two nodes: both can be found, and no edge is drawn. -/
theorem of_addBoth (ha : a.WellFormed) (h : a.addBoth first second = (b, .ok (i, j))) :
    Grows a b ∧ b.findNames root first = .ok (some i) ∧ b.findNames root second = .ok (some j) ∧
      ∀ kind k, b.edges kind k = a.edges kind k := by
  unfold addBoth at h
  split at h
  · simp at h
  · next d l hfirst =>
    split at h
    · simp at h
    · next hsecond =>
      obtain ⟨rfl, hij⟩ := Prod.mk.inj h
      obtain ⟨rfl, rfl⟩ := Prod.mk.inj (Except.ok.inj hij)
      obtain ⟨hgrows, _⟩ := grows_addNames first ha ha.root_lt
      have hedges := edges_addNames first ha ha.root_lt
      rw [hfirst] at hgrows
      simp only [hfirst] at hedges
      have hd := hgrows.wellFormed
      obtain ⟨hgrows', _⟩ := grows_addNames second hd hd.root_lt
      have hedges' := edges_addNames second hd hd.root_lt
      rw [hsecond] at hgrows'
      simp only [hsecond] at hedges'
      exact ⟨hgrows.trans hgrows', hgrows'.findNames_eq hd (findNames_of_addNames ha ha.root_lt hfirst),
        findNames_of_addNames hd hd.root_lt hsecond, fun kind k => by rw [hedges', hedges]⟩

/-- **One request.** -/
theorem draws_perform (ha : a.WellFormed) (h : a.perform q = (b, .ok ())) : Draws a b [q] := by
  cases q with
  | node names =>
    rw [perform] at h
    split at h
    · simp at h
    · next hmade =>
      obtain ⟨rfl, _⟩ := Prod.mk.inj h
      obtain ⟨hgrows, _⟩ := grows_addNames names ha ha.root_lt
      have hedges := edges_addNames names ha ha.root_lt
      rw [hmade] at hgrows
      simp only [hmade] at hedges
      exact ⟨hgrows, by simpa [Request.paths] using ⟨_, findNames_of_addNames ha ha.root_lt hmade⟩, by simp [hedges]⟩
  | edge kind first second =>
    rw [perform] at h
    split at h
    · simp at h
    · next d s t hboth =>
      obtain ⟨rfl, _⟩ := Prod.mk.inj h
      obtain ⟨hgrows, hs, ht, hedges⟩ := of_addBoth ha hboth
      have hd := hgrows.wellFormed
      have hslt := (keys_of_findNames hd hd.root_lt hs).1
      have hdraw := grows_addEdge kind (i := s) hd (keys_of_findNames hd hd.root_lt ht).1
      -- The edge is drawn when both ends are there, and drawing it makes no node.
      have hs' := hdraw.findNames_eq hd hs
      have ht' := hdraw.findNames_eq hd ht
      refine ⟨hgrows.trans hdraw, by simp [Request.paths, hs', ht'], fun other i j => ?_⟩
      by_cases hkind : other = kind
      · subst hkind
        rw [mem_edges_addEdge hslt, hedges]
        refine or_congr_right ?_
        simp only [List.mem_singleton, Request.edge.injEq, true_and]
        constructor
        · rintro ⟨rfl, rfl⟩
          exact ⟨first, second, ⟨rfl, rfl⟩, hs', ht'⟩
        · rintro ⟨_, _, ⟨rfl, rfl⟩, hi, hj⟩
          rw [hs'] at hi
          rw [ht'] at hj
          exact ⟨(Option.some.inj (Except.ok.inj hi)).symm, (Option.some.inj (Except.ok.inj hj)).symm⟩
      · rw [edges_addEdge_of_ne hkind, hedges]
        simp [hkind]

/-- **A run of requests** that is not refused. -/
theorem draws_performAll {requests : List Request} (ha : a.WellFormed) (h : a.performAll requests = (b, .ok ())) :
    Draws a b requests := by
  induction requests generalizing a with
  | nil =>
    obtain ⟨rfl, _⟩ := Prod.mk.inj h
    exact .nil ha
  | cons q rest ih =>
    rw [performAll] at h
    split at h
    · simp at h
    · next hperform =>
      have hfirst := draws_perform ha hperform
      exact hfirst.append (ih hfirst.grows.wellFormed h)

/-- The number of the node that names find, or that of the root if they find none. -/
def numberOf (a : Atlas) (names : List Text) : Nat :=
  match a.findNames root names with
  | .ok (some i) => i
  | _ => root

theorem numberOf_eq (h : a.findNames root names = .ok (some i)) : a.numberOf names = i := by
  rw [numberOf, h]

/-! ## Counting edges -/

theorem edgeCount_eq_sum (a : Atlas) : a.edgeCount = ∑ i ∈ Finset.range a.size, (a.dependencies i).length := by
  have hlists : a.nodes.toList.map (·.dependencies) = (List.range a.size).map a.dependencies := by
    refine List.ext_getElem (by simp [size]) fun i hi _ => ?_
    have hlt : i < a.nodes.size := by simpa using hi
    simp [edges, Node.edges, node?, Array.getElem?_eq_getElem hlt]
  rw [edgeCount, List.flatMap_def, hlists, List.length_flatten, List.map_map]
  rfl

/-- **Edges, source by source.** If each source has a node of its own, and the dependencies of that node are its
targets, the edges are the targets of all sources, each counted once for its source. -/
theorem edgeCount_eq_sum_card {σ : Type} {sources : Finset σ} {node : σ → Nat} {targets : σ → List Nat}
    (ha : a.WellFormed) (hnode : Set.InjOn node sources) (hlt : ∀ x ∈ sources, node x < a.size)
    (hedges : ∀ i j, j ∈ a.dependencies i ↔ ∃ x ∈ sources, node x = i ∧ j ∈ targets x) :
    a.edgeCount = ∑ x ∈ sources, (targets x).toFinset.card := by
  have hcard : ∀ x ∈ sources, (a.dependencies (node x)).length = (targets x).toFinset.card := by
    intro x hx
    rw [← List.toFinset_card_of_nodup ((ha.pairwise_edges .dependency (node x)).imp Nat.ne_of_lt)]
    congr 1
    ext j
    rw [List.mem_toFinset, List.mem_toFinset, hedges]
    constructor
    · rintro ⟨y, hy, hxy, hj⟩
      rwa [hnode hx hy hxy.symm]
    · exact fun hj => ⟨x, hx, rfl, hj⟩
  have hsubset : sources.image node ⊆ Finset.range a.size := by
    intro i hi
    obtain ⟨x, hx, rfl⟩ := Finset.mem_image.1 hi
    exact Finset.mem_range.2 (hlt x hx)
  calc a.edgeCount
      = ∑ i ∈ Finset.range a.size, (a.dependencies i).length := edgeCount_eq_sum a
    _ = ∑ i ∈ sources.image node, (a.dependencies i).length := by
        refine (Finset.sum_subset hsubset fun i _ hi => ?_).symm
        -- A node that is no source has no dependencies.
        refine List.length_eq_zero_iff.2 (List.eq_nil_iff_forall_not_mem.2 fun j hj => hi ?_)
        obtain ⟨x, hx, rfl, _⟩ := (hedges i j).1 hj
        exact Finset.mem_image_of_mem node hx
    _ = ∑ x ∈ sources, (a.dependencies (node x)).length := Finset.sum_image hnode
    _ = ∑ x ∈ sources, (targets x).toFinset.card := Finset.sum_congr rfl hcard

/-- Repetitions in the lists of targets make the difference between their lengths and the number of edges. -/
theorem sum_card_toFinset {σ : Type} (sources : Finset σ) (targets : σ → List Nat) :
    ∑ x ∈ sources, (targets x).toFinset.card ≤ ∑ x ∈ sources, (targets x).length ∧
      (∑ x ∈ sources, (targets x).toFinset.card = ∑ x ∈ sources, (targets x).length ↔
        ∀ x ∈ sources, (targets x).Nodup) := by
  have hle : ∀ x ∈ sources, (targets x).toFinset.card ≤ (targets x).length := fun x _ => (targets x).toFinset_card_le
  refine ⟨Finset.sum_le_sum hle, ?_⟩
  rw [Finset.sum_eq_sum_iff_of_le hle]
  exact forall₂_congr fun x _ => Multiset.toFinset_card_eq_card_iff_nodup

end Atlas

end HeaderAtlas
