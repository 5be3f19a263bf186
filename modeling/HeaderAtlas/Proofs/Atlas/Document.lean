import HeaderAtlas.Atlas.Document
import HeaderAtlas.Proofs.Atlas.Facts
import Mathlib.Data.List.Sort
import Mathlib.Data.Set.Basic
/-!
# The document depends on what holds

The document of an atlas shows no numbers. Children are written in the order of their bytes and edges
in the order of the bytes of their paths, and both orders are fixed by what holds: on decoded texts no
two children, and no two different paths, have the same bytes. So two atlases in which the same holds
have the same document, however their nodes are numbered (`Atlas.document_eq_of_sameFacts`).
-/

set_option autoImplicit false

namespace HeaderAtlas

/-! ## Lists that are fixed by their members -/

/-- Sorting forgets the order, if the bytes of the paths tell them apart. -/
theorem Document.sortPaths_eq_of_perm {xs ys : List Text} (h : xs.Perm ys)
    (hx : ∀ x ∈ xs, x.Decoded) : sortPaths xs = sortPaths ys := by
  have htrans : ∀ a b c : Text, decide (a.key ≤ b.key) = true → decide (b.key ≤ c.key) = true →
      decide (a.key ≤ c.key) = true := by
    intro a b c hab hbc
    simp only [decide_eq_true_eq] at hab hbc ⊢
    exact List.le_trans hab hbc
  have htotal : ∀ a b : Text, (decide (a.key ≤ b.key) || decide (b.key ≤ a.key)) = true := by
    intro a b
    simp only [Bool.or_eq_true, decide_eq_true_eq]
    exact List.le_total a.key b.key
  unfold sortPaths
  refine List.Perm.eq_of_pairwise ?_ (List.pairwise_mergeSort htrans htotal xs)
    (List.pairwise_mergeSort htrans htotal ys) ?_
  · intro a b ha hb hab hba
    simp only [decide_eq_true_eq] at hab hba
    have hda := hx a ((List.mergeSort_perm xs _).mem_iff.1 ha)
    have hdb := hx b (h.mem_iff.2 ((List.mergeSort_perm ys _).mem_iff.1 hb))
    exact hda.eq_of_key_eq hdb (List.le_antisymm hab hba)
  · exact (List.mergeSort_perm xs _).trans (h.trans (List.mergeSort_perm ys _).symm)

/-- Two lists of entries with the same keys are mapped alike, if entries with one key are. -/
theorem map_eq_map_of_keys {β γ : Type} {xs ys : List (Bytes × β)} {f g : Bytes × β → γ}
    (hkeys : xs.map Prod.fst = ys.map Prod.fst)
    (h : ∀ x ∈ xs, ∀ y ∈ ys, x.1 = y.1 → f x = g y) : xs.map f = ys.map g := by
  induction xs generalizing ys with
  | nil =>
    cases ys with
    | nil => rfl
    | cons y ys => simp at hkeys
  | cons x xs ih =>
    cases ys with
    | nil => simp at hkeys
    | cons y ys =>
      simp only [List.map_cons, List.cons.injEq] at hkeys
      rw [List.map_cons, List.map_cons, h x List.mem_cons_self y List.mem_cons_self hkeys.1,
        ih hkeys.2 fun x' hx' y' hy' => h x' (List.mem_cons_of_mem _ hx') y' (List.mem_cons_of_mem _ hy')]

namespace Atlas

open Document

variable {a b : Atlas} {i j : Nat} {names : List Text}

/-- The same holds in both atlases. -/
def SameFacts (a b : Atlas) : Prop := ∀ f, a.Holds f ↔ b.Holds f

/-! ## Paths -/

/-- The paths of all nodes. -/
def paths (a : Atlas) : Set Text := {p | ∃ i < a.size, a.fullName i Path.root = p}

/-- The paths of all pairs of nodes that an edge of one kind leads from and to. -/
def edgePairs (a : Atlas) (kind : EdgeKind) : Set (Text × Text) :=
  {p | ∃ i, ∃ j ∈ a.edges kind i, (a.fullName i Path.root, a.fullName j Path.root) = p}

/-- The paths of all pairs of nodes of which the first includes the second. -/
abbrev dependencyPairs (a : Atlas) : Set (Text × Text) := a.edgePairs .dependency

/-- The paths of all pairs of nodes of which the first is recorded as included by the second. -/
abbrev dependentPairs (a : Atlas) : Set (Text × Text) := a.edgePairs .dependent

theorem mem_paths {p : Text} :
    p ∈ a.paths ↔ ∃ names, a.Holds (.node names) ∧ Text.join Path.root names = p := by
  constructor
  · rintro ⟨i, hi, rfl⟩
    exact ⟨_, ⟨i, At.self hi⟩, rfl⟩
  · rintro ⟨names, ⟨i, hi⟩, rfl⟩
    exact ⟨i, hi.1, by rw [fullName, hi.2]⟩

theorem mem_edgePairs (ha : a.WellFormed) {kind : EdgeKind} {p : Text × Text} :
    p ∈ a.edgePairs kind ↔ ∃ node other, a.Holds (.edge kind node other) ∧
      (Text.join Path.root node, Text.join Path.root other) = p := by
  constructor
  · rintro ⟨i, j, hj, rfl⟩
    obtain ⟨hi, hj'⟩ := ha.lt_size_of_mem_edges hj
    exact ⟨_, _, ⟨i, j, At.self hi, At.self hj', hj⟩, rfl⟩
  · rintro ⟨node, other, ⟨i, j, hi, hj, hmem⟩, rfl⟩
    exact ⟨i, j, hmem, by rw [fullName, fullName, hi.2, hj.2]⟩

namespace SameFacts

theorem paths_eq (h : SameFacts a b) : a.paths = b.paths := by
  ext p
  simp only [mem_paths, h (.node _)]

theorem edgePairs_eq (h : SameFacts a b) (ha : a.WellFormed) (hb : b.WellFormed) (kind : EdgeKind) :
    a.edgePairs kind = b.edgePairs kind := by
  ext p
  simp only [mem_edgePairs ha, mem_edgePairs hb, h (.edge _ _ _)]

end SameFacts

/-! ## Edges -/

/-- Numbers in strict order stand for different names. -/
theorem nodup_map_namesTo (ha : a.WellFormed) {l : List Nat} (hl : l.Pairwise (· < ·))
    (hsize : ∀ j ∈ l, j < a.size) : (l.map a.namesTo).Nodup := by
  refine List.pairwise_map.2 (List.Pairwise.imp_of_mem ?_ hl)
  intro x y hx hy hlt heq
  have := At.unique ha (At.self (hsize x hx)) ⟨hsize y hy, heq.symm⟩
  omega

/-- The names that the edges of a node lead to are those that hold. -/
theorem mem_map_edges (ha : a.WellFormed) (hat : a.At i names) (kind : EdgeKind) (other : List Text) :
    other ∈ (a.edges kind i).map a.namesTo ↔ a.Holds (.edge kind names other) := by
  rw [List.mem_map]
  constructor
  · rintro ⟨j, hj, rfl⟩
    exact ⟨i, j, hat, At.self (ha.lt_size_of_mem_edges hj).2, hj⟩
  · rintro ⟨i', j, hi', hj, hmem⟩
    obtain rfl := At.unique ha hat hi'
    exact ⟨j, hmem, hj.2⟩

/-- All names on the way to a node are decoded. -/
theorem Decoded.namesTo (hd : a.Decoded) (ha : a.WellFormed) (hi : i < a.size) :
    ∀ name ∈ a.namesTo i, name.Decoded := by
  intro name hname
  obtain ⟨j, n, hn, _, rfl⟩ := exists_node_of_mem_namesTo ha hi hname
  exact hd hn

theorem Decoded.documentPath (hd : a.Decoded) (ha : a.WellFormed) (hi : i < a.size) :
    (a.documentPath i).Decoded := Text.Decoded.join (by decide) (hd.namesTo ha hi)

/-- **The member for the edges of one kind** depends only on which names they lead to. -/
theorem edgeMember_eq (key : Text) (ha : a.WellFormed) (hb : b.WellFormed) (hda : a.Decoded) (h : SameFacts a b)
    (hi : a.At i names) (hj : b.At j names) (kind : EdgeKind) :
    edgeMember key ((a.edges kind i).map a.documentPath) = edgeMember key ((b.edges kind j).map b.documentPath) := by
  have hsize : ∀ k ∈ a.edges kind i, k < a.size := fun k hk => (ha.lt_size_of_mem_edges hk).2
  have hsize' : ∀ k ∈ b.edges kind j, k < b.size := fun k hk => (hb.lt_size_of_mem_edges hk).2
  -- By names first, as different nodes have different names but may well share a path.
  have hperm : ((a.edges kind i).map a.namesTo).Perm ((b.edges kind j).map b.namesTo) := by
    refine (List.perm_ext_iff_of_nodup (nodup_map_namesTo ha (ha.pairwise_edges kind i) hsize)
      (nodup_map_namesTo hb (hb.pairwise_edges kind j) hsize')).2 fun other => ?_
    rw [mem_map_edges ha hi, mem_map_edges hb hj, h]
  have hpaths : ((a.edges kind i).map a.documentPath).Perm ((b.edges kind j).map b.documentPath) := by
    have := hperm.map (Text.join [CodePoint.ofChar '/'])
    rwa [List.map_map, List.map_map] at this
  have hempty : ((a.edges kind i).map a.documentPath).isEmpty = ((b.edges kind j).map b.documentPath).isEmpty := by
    rw [Bool.eq_iff_iff, List.isEmpty_iff_length_eq_zero, List.isEmpty_iff_length_eq_zero,
      hpaths.length_eq]
  unfold edgeMember
  rw [hempty, sortPaths_eq_of_perm hpaths]
  intro x hx
  obtain ⟨k, hk, rfl⟩ := List.mem_map.1 hx
  exact hda.documentPath ha (hsize k hk)

/-- The edges of a node are written alike where the same holds. -/
theorem metaMembers_eq (ha : a.WellFormed) (hb : b.WellFormed) (hda : a.Decoded)
    (h : SameFacts a b) (hi : a.At i names) (hj : b.At j names) (reverse : Bool) :
    a.metaMembers reverse i = b.metaMembers reverse j := by
  unfold metaMembers
  rw [edgeMember_eq depsKey ha hb hda h hi hj .dependency, edgeMember_eq rdepsKey ha hb hda h hi hj .dependent]

/-! ## Children -/

/-- The name of a node. -/
def nameOf (a : Atlas) (i : Nat) : Text := ((a.node? i).map (·.name)).getD []

theorem nameOf_eq {n : Node} (h : a.node? i = some n) : a.nameOf i = n.name := by rw [nameOf, h]; rfl

/-- **The object of a node in a well-formed atlas**: every child has its member. -/
theorem documentAt_eq (ha : a.WellFormed) (reverse : Bool) (i : Nat) :
    a.documentAt reverse i = .obj ((a.children i).map (fun c =>
      (escapeKey (a.nameOf c), a.documentAt reverse c)) ++
        if (a.metaMembers reverse i).isEmpty then [] else [(metaKey, .obj (a.metaMembers reverse i))]) := by
  rw [documentAt]
  congr 2
  -- The bound on a child's number that makes `documentAt` end holds of every child.
  rw [← List.filterMap_eq_map]
  refine List.filterMap_congr fun c hc => ?_
  obtain ⟨n, hn, hp⟩ := ha.mem_children.1 hc
  have hlt : i < c ∧ c < a.size := ⟨ha.parent_lt hn hp, node?_lt hn⟩
  rw [dif_pos hlt]
  rfl

/-- The keys of a node's children are the bytes of the names that hold below it. -/
theorem mem_keys_iff (ha : a.WellFormed) (hat : a.At i names) {m : Node} (hm : a.node? i = some m)
    (key : Bytes) : key ∈ m.children.map Prod.fst ↔
      ∃ name : Text, name.key = key ∧ a.Holds (.node (names ++ [name])) := by
  rw [List.mem_map]
  constructor
  · rintro ⟨⟨key, c⟩, hmem, rfl⟩
    obtain ⟨n, hn, hp, hkey⟩ := ha.child hm hmem
    exact ⟨n.name, hkey, c, At.child ha hat hn hp⟩
  · rintro ⟨name, rfl, c, hc⟩
    obtain ⟨n, p, hn, hname, hp, -, hat'⟩ := hc.parent ha
    obtain rfl := At.unique ha hat hat'
    obtain ⟨m', hm', hmem⟩ := ha.listed hn hp
    rw [hm] at hm'
    obtain rfl := Option.some.inj hm'
    exact ⟨(n.name.key, c), hmem, by rw [hname]⟩

/-- **The object of a node depends only on what holds.** The induction is on how many numbers are left
above the node, as the children of a node have greater numbers than it has. -/
theorem documentAt_eq_of_sameFacts (ha : a.WellFormed) (hb : b.WellFormed) (hda : a.Decoded)
    (hdb : b.Decoded) (h : SameFacts a b) (reverse : Bool) (hi : a.At i names) (hj : b.At j names) :
    a.documentAt reverse i = b.documentAt reverse j := by
  induction hn : a.size - i using Nat.strongRecOn generalizing i j names with
  | ind size ih =>
    obtain ⟨m, hm⟩ := exists_node? hi.1
    obtain ⟨m', hm'⟩ := exists_node? hj.1
    -- The numbers of the children differ in the two atlases, the bytes they are listed with do not.
    have hkeys : m.children.map Prod.fst = m'.children.map Prod.fst :=
      (List.pairwise_map.2 (ha.sorted hm)).eq_of_mem_iff (List.pairwise_map.2 (hb.sorted hm'))
        fun key => by
          rw [mem_keys_iff ha hi hm, mem_keys_iff hb hj hm']
          exact exists_congr fun name => and_congr Iff.rfl (h _)
    have hchildren : a.children i = m.children.map Prod.snd := by simp [children, hm]
    have hchildren' : b.children j = m'.children.map Prod.snd := by simp [children, hm']
    rw [documentAt_eq ha, documentAt_eq hb, metaMembers_eq ha hb hda h hi hj, hchildren, hchildren',
      List.map_map, List.map_map]
    congr 2
    refine map_eq_map_of_keys hkeys fun x hx y hy hxy => ?_
    obtain ⟨n, hn', hp, hkey⟩ := ha.child hm hx
    obtain ⟨n', hn'', hp', hkey'⟩ := hb.child hm' hy
    have hname : n.name = n'.name := (hda hn').eq_of_key_eq (hdb hn'') (by rw [hkey, hkey', hxy])
    have hx' := At.child ha hi hn' hp
    have hy' := At.child hb hj hn'' hp'
    have hlt := (ha.namesTo_child hn' hp).1
    rw [← hname] at hy'
    have hsub := ih (a.size - x.2) (by have := hx'.1; omega) hx' hy' rfl
    simp [nameOf_eq hn', nameOf_eq hn'', hname, hsub]

/-- **Two atlases in which the same holds have the same document.** -/
theorem document_eq_of_sameFacts (ha : a.WellFormed) (hb : b.WellFormed) (hda : a.Decoded)
    (hdb : b.Decoded) (h : SameFacts a b) (reverse : Bool) : a.document reverse = b.document reverse :=
  documentAt_eq_of_sameFacts ha hb hda hdb h reverse (At.root ha) (At.root hb)

theorem dump_eq_of_sameFacts (ha : a.WellFormed) (hb : b.WellFormed) (hda : a.Decoded)
    (hdb : b.Decoded) (h : SameFacts a b) (style : Style) : a.dump style = b.dump style := by
  unfold dump
  rw [document_eq_of_sameFacts ha hb hda hdb h]

end Atlas

end HeaderAtlas
