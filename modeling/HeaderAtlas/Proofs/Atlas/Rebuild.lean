import HeaderAtlas.Proofs.Atlas.Mirror
import HeaderAtlas.Proofs.Atlas.Reload
/-!
# Reading an atlas without its dependents

A document that is written without dependents is the document of an atlas that has none
(`Atlas.document_forwardOnly`). It says all there is to say about a mirrored atlas: when it has been read, the
pass that makes dependents from dependencies adds just what was left out (`Atlas.reconstruct_adds`).

An edge of the document may begin at the root, but none may end there, as the path of the root is empty. In the
atlas the root may well be a dependent, since those are not written.
-/

set_option autoImplicit false

namespace HeaderAtlas

namespace Atlas

open Document

variable {a b : Atlas} {i j : Nat} {names : List Text}

/-! ## The document without dependents -/

/-- Leaving out dependents takes edges away and nothing else, so the atlas extends what is left of it. -/
theorem forwardOnly_extends (a : Atlas) : a.forwardOnly.Extends a := by
  intro i m hm
  rw [node?_forwardOnly] at hm
  obtain ⟨n, hn, rfl⟩ := Option.map_eq_some_iff.1 hm
  refine ⟨n, hn, rfl, rfl, fun _ => id, fun kind => ?_⟩
  cases kind with
  | dependency => exact fun _ => id
  | dependent => simp [Node.edges, Node.forwardOnly]

/-- Every node is where it was. -/
theorem at_forwardOnly (ha : a.WellFormed) : a.forwardOnly.At i names ↔ a.At i names :=
  ((forwardOnly_extends a).at_iff ha.forwardOnly (size_forwardOnly a).symm).symm

@[simp] theorem children_forwardOnly (a : Atlas) (i : Nat) : a.forwardOnly.children i = a.children i := by
  rw [children, node?_forwardOnly, Option.map_map]
  rfl

@[simp] theorem nameOf_forwardOnly (a : Atlas) (i : Nat) : a.forwardOnly.nameOf i = a.nameOf i := by
  rw [nameOf, node?_forwardOnly, Option.map_map]
  rfl

/-- What a document without dependents shows of a node does not depend on them. Dependencies are shown by their paths,
which are the same in both atlases. -/
theorem metaMembers_forwardOnly (ha : a.WellFormed) (i : Nat) :
    a.forwardOnly.metaMembers false i = a.metaMembers false i := by
  have hpaths : (a.dependencies i).map a.forwardOnly.documentPath = (a.dependencies i).map a.documentPath := by
    refine List.map_congr_left fun j hj => ?_
    have hj' := (ha.lt_size_of_mem_edges hj).2
    rw [documentPath, fullName, ((at_forwardOnly ha).2 (At.self hj')).2]
    rfl
  rw [metaMembers, metaMembers, dependencies_forwardOnly, hpaths]
  rfl

/-- By the recursion of the document: the children of a node are the same, and so is what each of them shows. -/
theorem documentAt_forwardOnly (ha : a.WellFormed) (i : Nat) :
    a.forwardOnly.documentAt false i = a.documentAt false i := by
  induction hn : a.size - i using Nat.strongRecOn generalizing i with
  | ind size ih =>
    rw [documentAt_eq ha, documentAt_eq ha.forwardOnly, metaMembers_forwardOnly ha, children_forwardOnly]
    congr 2
    refine List.map_congr_left fun c hc => ?_
    obtain ⟨n, hnode, hparent⟩ := ha.mem_children.1 hc
    have hlt := ha.parent_lt hnode hparent
    have hsize := node?_lt hnode
    rw [nameOf_forwardOnly, ih (a.size - c) (by omega) c rfl]

/-- **A document without dependents** is that of an atlas which has none. So whatever has been shown of reading
documents can be applied to it. -/
theorem document_forwardOnly (ha : a.WellFormed) : a.forwardOnly.document false = a.document false :=
  documentAt_forwardOnly ha root

/-- No edge ends at the root once the dependents are gone, if no dependency does. -/
theorem Decoded.portable_forwardOnly (hd : a.Decoded)
    (hslash : ∀ ⦃i n⦄, a.node? i = some n → Path.slash ∉ n.name) (hroot : ∀ i, root ∉ a.dependencies i) :
    a.forwardOnly.Portable := by
  have hnode : ∀ ⦃i n⦄, a.forwardOnly.node? i = some n → ∃ m, a.node? i = some m ∧ n = m.forwardOnly := by
    intro i n hn
    rw [node?_forwardOnly] at hn
    obtain ⟨m, hm, rfl⟩ := Option.map_eq_some_iff.1 hn
    exact ⟨m, hm, rfl⟩
  refine ⟨fun i n hn => ?_, fun i n hn => ?_, fun i n hn => ?_⟩
  · obtain ⟨m, hm, rfl⟩ := hnode hn
    exact (hd hm : m.name.Decoded)
  · obtain ⟨m, hm, rfl⟩ := hnode hn
    exact (hslash hm : Path.slash ∉ m.name)
  · obtain ⟨m, hm, rfl⟩ := hnode hn
    have hdeps := hroot i
    rw [dependencies, edges_eq hm] at hdeps
    exact ⟨hdeps, List.not_mem_nil⟩

/-! ## What the pass makes hold -/

@[simp] theorem dependencies_reconstruct (a : Atlas) (i : Nat) :
    a.reconstruct.1.dependencies i = a.dependencies i := by
  rw [← dependencies_forwardOnly, forwardOnly_reconstruct, dependencies_forwardOnly]

@[simp] theorem size_reconstruct (a : Atlas) : a.reconstruct.1.size = a.size := by
  rw [← size_forwardOnly, forwardOnly_reconstruct, size_forwardOnly]

/-- **The pass adds the other end of every dependency**, and nothing else. -/
theorem reconstruct_adds (ha : a.WellFormed) (hd : a.Decoded) : Adds a a.reconstruct.1 fun f =>
    ∃ source target, f = .dependent target source ∧ a.Holds (.dependency source target) := by
  obtain ⟨hwf, hext⟩ := grows_reconstruct ha
  have hat : ∀ {i names}, a.reconstruct.1.At i names ↔ a.At i names := hext.at_iff ha (size_reconstruct a)
  refine ⟨hwf, fun i n hn => ?_, hext, fun f => ?_⟩
  · obtain ⟨m, hm⟩ := exists_node? (size_reconstruct a ▸ node?_lt hn)
    obtain ⟨n', hn', hname, _⟩ := hext hm
    obtain rfl := Option.some.inj (hn.symm.trans hn')
    rw [hname]
    exact hd hm
  · cases f with
    | node names => simp [Holds, hat]
    | edge kind first second =>
      cases kind with
      | dependency => simp [Holds, hat]
      | dependent =>
        simp only [Holds, hat, mem_dependents_reconstruct ha, Request.edge.injEq, true_and]
        constructor
        · rintro ⟨i, j, hi, hj, hmem | hmem⟩
          · exact .inl ⟨i, j, hi, hj, hmem⟩
          · exact .inr ⟨second, first, ⟨rfl, rfl⟩, j, i, hj, hi, hmem⟩
        · rintro (⟨i, j, hi, hj, hmem⟩ | ⟨_, _, ⟨rfl, rfl⟩, j, i, hj, hi, hmem⟩)
          · exact ⟨i, j, hi, hj, .inl hmem⟩
          · exact ⟨i, j, hi, hj, .inr hmem⟩

/-- In a mirrored atlas a dependent is a dependency seen from its other end. -/
theorem Mirrored.holds_iff (hm : a.Mirrored) (source target : List Text) :
    a.Holds (.dependent target source) ↔ a.Holds (.dependency source target) := by
  constructor
  · rintro ⟨i, j, hi, hj, hmem⟩
    exact ⟨j, i, hj, hi, (hm j i).2 hmem⟩
  · rintro ⟨j, i, hj, hi, hmem⟩
    exact ⟨i, j, hi, hj, (hm j i).1 hmem⟩

/-- An atlas is mirrored if, and only if, it is what the pass makes of it without its dependents. So the pass gives
back mirrored atlases and no others. -/
theorem mirrored_iff (ha : a.WellFormed) : a.Mirrored ↔ a.forwardOnly.reconstruct.1 = a := by
  refine ⟨reconstruct_forwardOnly ha, fun h i j => ?_⟩
  nth_rewrite 2 [← h]
  rw [mem_dependents_reconstruct ha.forwardOnly, dependents_forwardOnly, dependencies_forwardOnly]
  simp

/-- Leaving out the dependents takes nothing from a document that does not show them. -/
theorem holds_forwardOnly (ha : a.WellFormed) (f : Request) :
    a.forwardOnly.Holds f ∧ Written false f ↔ a.Holds f ∧ Written false f := by
  cases f with
  | node names => simp [Holds, at_forwardOnly ha]
  | edge kind first second =>
    cases kind with
    | dependency => simp [Holds, at_forwardOnly ha]
    | dependent => simp [Written, writes]

/-- Where the document without dependents has been read in, the pass makes hold what held in the mirrored atlas that
it was written from. -/
theorem Mirrored.sameFacts_reconstruct (hm : a.Mirrored) (ha : a.WellFormed) (hb : b.WellFormed) (hd : b.Decoded)
    (hholds : ∀ f, b.Holds f ↔ f = .node [] ∨ (a.Holds f ∧ Written false f)) :
    SameFacts b.reconstruct.1 a := by
  intro f
  rw [(reconstruct_adds hb hd).holds, hholds]
  cases f with
  | node names =>
    by_cases hnil : names = []
    · have hroot : a.Holds (.node []) := ⟨root, At.root ha⟩
      simp [hnil, hroot]
    · simp [Written, hnil]
  | edge kind first second =>
    cases kind with
    | dependency => simp [Written, writes]
    | dependent => simp [Written, writes, hholds, hm.holds_iff]

/-- **An atlas comes back from its document without dependents.** Let a well-formed atlas be mirrored, have decoded
names without slashes, and no dependency on the root. Its text without dependents is read without a fault, and when
dependents have been made from the dependencies that were read, every text of the atlas is what it was. -/
theorem dump_reconstruct_load (ha : a.WellFormed) (hd : a.Decoded)
    (hslash : ∀ ⦃i n⦄, a.node? i = some n → Path.slash ∉ n.name) (hroot : ∀ i, root ∉ a.dependencies i)
    (hm : a.Mirrored) {layout : Json.Layout} (hl : layout.IsBlank) :
    ∃ d b, Json.parse (a.dump ⟨false, layout⟩) = .ok d ∧ empty.load d = (b, .ok ()) ∧
      ∀ style, b.reconstruct.1.dump style = a.dump style := by
  obtain ⟨b, hb, hwf, hdec, hholds⟩ :=
    load_document ha.forwardOnly (hd.portable_forwardOnly hslash hroot) false
  simp only [holds_forwardOnly ha] at hholds
  rw [document_forwardOnly ha] at hb
  have hadds := reconstruct_adds hwf hdec
  exact ⟨_, b, parse_dump ha hl, hb, dump_eq_of_sameFacts hadds.wellFormed ha hadds.decoded hd
    (hm.sameFacts_reconstruct ha hwf hdec hholds)⟩

/-- A mirrored atlas with a cycle, a node that includes itself, and names of which two must be escaped and one is no
UTF-8. The root includes a node, which lists it as its dependent. -/
def mirroredAtlas : Atlas :=
  [Operation.addPath (.own root) "$meta/$$meta" Path.root,
    .addChild (.own root) (CodePoint.ofNat 0xDCFF :: Text.ofString "\"\n"),
    .addDependency (.own 1) (.own 2), .addDependencyPath (.own 2) "$meta" Path.root,
    .addDependency (.own 3) (.own 3), .addDependency (.own root) (.own 3), .reconstruct].foldl
      Operation.apply empty

/-- The root is a dependent here, which the document of the whole atlas could not say. -/
theorem dump_reconstruct_load_cycle :
    root ∈ mirroredAtlas.dependents 3 ∧
      ∃ d b, Json.parse (mirroredAtlas.dump ⟨false, .lines " \t"⟩) = .ok d ∧ empty.load d = (b, .ok ()) ∧
        ∀ style, b.reconstruct.1.dump style = mirroredAtlas.dump style := by
  have hbuilt : Built mirroredAtlas := Built.empty.applyAll (by decide +kernel)
  -- Leaving out the dependents makes the atlas portable, and leaves names and dependencies as they are.
  have hportable : mirroredAtlas.forwardOnly.Portable := by decide +kernel
  have hmirrored := (mirrored_iff hbuilt.wellFormed).2 (by decide +kernel)
  have hnode : ∀ ⦃i n⦄, mirroredAtlas.node? i = some n →
      mirroredAtlas.forwardOnly.node? i = some n.forwardOnly := fun i n hn => by
    rw [node?_forwardOnly, hn]
    rfl
  refine ⟨by decide +kernel, dump_reconstruct_load hbuilt.wellFormed (fun i n hn => ?_) (fun i n hn => ?_)
    (fun i => ?_) hmirrored ?_⟩
  · have hname := hportable.decoded (hnode hn)
    exact hname
  · have hname := hportable.slashless (hnode hn)
    exact hname
  · rw [← dependencies_forwardOnly]
    exact hportable.root_notMem .dependency i
  · intro c hc
    rcases List.mem_cons.1 hc with rfl | hc
    · decide
    · rw [List.mem_singleton.1 hc]
      decide

end Atlas

end HeaderAtlas
