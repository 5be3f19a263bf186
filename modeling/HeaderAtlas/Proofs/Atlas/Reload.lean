import HeaderAtlas.Proofs.Atlas.Document
import HeaderAtlas.Proofs.Atlas.Load
import HeaderAtlas.Proofs.Json.RoundTrip
/-!
# Writing an atlas and reading it again

The document of an atlas says what holds in the atlas, if no name has a slash in it and no edge ends at
the root, whose path is empty (`Atlas.denotes_document`). A document that says so much can be read in
again, and its text can be read as JSON. Together: an atlas that is written and read again holds what it
held, and is written with the same text.
-/

set_option autoImplicit false

namespace HeaderAtlas

/-! ## Member names -/

namespace Document

theorem isReserved_dollar_cons {name : Text} (h : isReserved name = true) :
    isReserved (dollar :: name) = true := by
  unfold isReserved at h ⊢
  rw [Bool.and_eq_true] at h
  simpa using h.2

/-- **A child's name comes back from its member name.** -/
theorem unescapeKey_escapeKey (name : Text) : unescapeKey (escapeKey name) = name := by
  unfold escapeKey
  split
  · next h =>
    obtain ⟨rest, rfl⟩ : ∃ rest, name = dollar :: rest := by
      cases name with
      | nil => simp [isReserved] at h
      | cons c rest =>
        simp only [isReserved, List.head?_cons, Bool.and_eq_true, beq_iff_eq, Option.some.injEq] at h
        exact ⟨rest, by rw [h.1]⟩
    rw [unescapeKey, if_pos ⟨rfl, rfl, isReserved_dollar_cons h⟩]
  · next h =>
    -- Even if the name begins with two dollar signs, what is taken for an escape is reserved.
    unfold unescapeKey
    split
    · rw [if_neg fun hc => h hc.2.2]
    · rfl

theorem escapeKey_injective {x y : Text} (h : escapeKey x = escapeKey y) : x = y := by
  rw [← unescapeKey_escapeKey x, h, unescapeKey_escapeKey]

/-- No child is written under the name of the member for edges. -/
theorem escapeKey_ne_metaKey (name : Text) : escapeKey name ≠ metaKey := by
  unfold escapeKey
  split
  · next h =>
    intro heq
    obtain rfl : name = Text.ofString "meta" := (List.cons.inj heq).2
    exact absurd h (by decide)
  · next h =>
    rintro rfl
    exact h (by decide)

end Document

namespace Atlas

open Document

variable {a b : Atlas} {i j k : Nat} {names : List Text} {n : Node}

/-! ## Paths -/

/-- What an atlas must be like for its document to say it all: names are decoded and have no slash in
them, and no edge ends at the root. -/
structure Portable (a : Atlas) : Prop where
  decoded : a.Decoded
  slashless : ∀ ⦃i n⦄, a.node? i = some n → Path.slash ∉ n.name
  rootFree : ∀ ⦃i n⦄, a.node? i = some n → root ∉ n.dependencies ∧ root ∉ n.dependents

theorem portable_iff : a.Portable ↔ ∀ n ∈ a.nodes.toList, n.name.Decoded ∧
    n.name.all (· != Path.slash) = true ∧ root ∉ n.dependencies ∧ root ∉ n.dependents := by
  have hslashless : ∀ name : Text, name.all (· != Path.slash) = true ↔ Path.slash ∉ name := by
    intro name
    rw [List.all_eq_true]
    simp only [bne_iff_ne]
    exact ⟨fun h hmem => h _ hmem rfl, fun h c hc heq => h (heq ▸ hc)⟩
  simp only [hslashless]
  constructor
  · intro h n hn
    obtain ⟨i, hi⟩ := List.mem_iff_getElem?.1 hn
    have hi : a.node? i = some n := by rwa [Array.getElem?_toList] at hi
    exact ⟨h.decoded hi, h.slashless hi, h.rootFree hi⟩
  · intro h
    have hmem : ∀ {i n}, a.node? i = some n → n ∈ a.nodes.toList := fun hi =>
      Array.mem_toList_iff.2 (Array.mem_of_getElem? hi)
    exact ⟨fun i n hi => (h n (hmem hi)).1, fun i n hi => (h n (hmem hi)).2.1,
      fun i n hi => (h n (hmem hi)).2.2⟩

instance (a : Atlas) : Decidable a.Portable := decidable_of_iff _ portable_iff.symm

/-- No edge of either kind ends at the root. -/
theorem Portable.root_notMem (h : a.Portable) (kind : EdgeKind) (i : Nat) : root ∉ a.edges kind i := by
  cases hn : a.node? i with
  | none => simp [edges_eq_nil hn]
  | some n =>
    rw [edges_eq hn]
    cases kind with
    | dependency => exact (h.rootFree hn).1
    | dependent => exact (h.rootFree hn).2

theorem components_documentPath (ha : a.WellFormed) (hp : a.Portable) (hi : i < a.size) :
    Path.components (a.documentPath i) = a.namesTo i := components_fullName ha hp.slashless hi

/-- The path of a node below the root can be followed. -/
theorem leads_documentPath (ha : a.WellFormed) (hp : a.Portable) (hi : i < a.size) (hroot : i ≠ root) :
    Path.Leads (a.documentPath i) := by
  rw [Path.Leads, components_documentPath ha hp hi]
  exact ⟨namesTo_ne_nil ha hi hroot, hp.decoded.namesTo ha hi⟩

/-! ## Members -/

/-- Whether edges of a kind are written. Dependencies always are, dependents only on request. -/
def writes (reverse : Bool) : EdgeKind → Bool
  | .dependency => true
  | .dependent => reverse

/-- The edges of a node as its document lists them, if it does. -/
def writtenEdges (a : Atlas) (reverse : Bool) (i : Nat) (kind : EdgeKind) : List Text :=
  if writes reverse kind then sortPaths ((a.edges kind i).map a.documentPath) else []

theorem mem_sortPaths {paths : List Text} {path : Text} : path ∈ sortPaths paths ↔ path ∈ paths :=
  (List.mergeSort_perm paths _).mem_iff

/-- The member for one kind of edges gives them back. -/
theorem edgeList_edgeMember (key : Text) (paths : List Text) (rest : Json.Members)
    (hrest : rest.get? key = none) :
    EdgeList (Json.Members.get? key (edgeMember key paths ++ rest)) (sortPaths paths) := by
  unfold edgeMember
  split
  · next h =>
    rw [List.isEmpty_iff.1 h, List.nil_append, hrest, sortPaths, List.mergeSort_nil]
    exact .absent
  · simp only [Json.Members.get?, List.cons_append, List.find?_cons, beq_self_eq_true, Option.map_some]
    exact .strings rfl

/-- The member for the other kind of edges is passed over. -/
theorem get?_edgeMember_append {key other : Text} (hne : key ≠ other) (paths : List Text)
    (rest : Json.Members) :
    Json.Members.get? key (edgeMember other paths ++ rest) = rest.get? key := by
  unfold edgeMember
  split
  · rfl
  · simp [Json.Members.get?, Ne.symm hne]

theorem edges_metaMembers (reverse : Bool) (i : Nat) :
    Edges (some (.obj (a.metaMembers reverse i))) (a.writtenEdges reverse i) := by
  refine .lists fun kind => ?_
  cases kind with
  | dependency =>
    refine edgeList_edgeMember depsKey _ _ ?_
    cases reverse with
    | false => rfl
    | true =>
      have h := get?_edgeMember_append (show depsKey ≠ rdepsKey by decide)
        ((a.dependents i).map a.documentPath) []
      rwa [List.append_nil] at h
  | dependent =>
    rw [metaMembers, edgeKey, get?_edgeMember_append (by decide)]
    cases reverse with
    | false => exact .absent
    | true =>
      have h := edgeList_edgeMember rdepsKey ((a.dependents i).map a.documentPath) [] rfl
      rwa [List.append_nil] at h

/-- Where there is no member for edges, there are no edges to be written. -/
theorem writtenEdges_eq_nil {reverse : Bool} (h : (a.metaMembers reverse i).isEmpty = true) :
    a.writtenEdges reverse i = fun _ => [] := by
  have hnil : ∀ {key : Text} {paths : List Text}, edgeMember key paths = [] → sortPaths paths = [] := by
    intro key paths hpaths
    unfold edgeMember at hpaths
    split at hpaths
    · next h => rw [List.isEmpty_iff.1 h, sortPaths, List.mergeSort_nil]
    · simp at hpaths
  rw [List.isEmpty_iff, metaMembers, List.append_eq_nil_iff] at h
  funext kind
  cases kind with
  | dependency => exact hnil h.1
  | dependent =>
    cases reverse with
    | false => rfl
    | true => exact hnil h.2

/-- The member for a child. -/
def childMember (a : Atlas) (reverse : Bool) (c : Nat) : Text × Json :=
  (escapeKey (a.nameOf c), a.documentAt reverse c)

/-- The members of a node's object. -/
def documentMembers (a : Atlas) (reverse : Bool) (i : Nat) : Json.Members :=
  (a.children i).map (a.childMember reverse) ++
    if (a.metaMembers reverse i).isEmpty then [] else [(metaKey, .obj (a.metaMembers reverse i))]

theorem documentAt_eq_obj (ha : a.WellFormed) (reverse : Bool) (i : Nat) :
    a.documentAt reverse i = .obj (a.documentMembers reverse i) := documentAt_eq ha reverse i

/-- The edge lists in the object of a node. -/
theorem edges_documentMembers (reverse : Bool) (i : Nat) :
    Edges ((a.documentMembers reverse i).get? metaKey) (a.writtenEdges reverse i) := by
  have hchildren : ((a.children i).map (a.childMember reverse)).find? (fun m => m.1 == metaKey) = none := by
    rw [List.find?_eq_none]
    intro m hm
    obtain ⟨c, _, rfl⟩ := List.mem_map.1 hm
    simpa [childMember] using escapeKey_ne_metaKey (a.nameOf c)
  rw [documentMembers, Json.Members.get?, List.find?_append, hchildren, Option.none_or]
  split
  · next h =>
    rw [writtenEdges_eq_nil h]
    exact .absent
  · simpa using edges_metaMembers reverse i

/-- The members other than that for edges stand for the children. -/
theorem mem_documentMembers {reverse : Bool} {m : Text × Json} (hkey : m.1 ≠ metaKey) :
    m ∈ a.documentMembers reverse i ↔ ∃ c ∈ a.children i, m = a.childMember reverse c := by
  rw [documentMembers, List.mem_append, List.mem_map]
  constructor
  · rintro (⟨c, hc, rfl⟩ | hm)
    · exact ⟨c, hc, rfl⟩
    · split at hm
      · simp at hm
      · rw [List.mem_singleton] at hm
        exact absurd (by rw [hm]) hkey
  · rintro ⟨c, hc, rfl⟩
    exact .inl ⟨c, hc, rfl⟩

/-- A path in a list of edges is that of a node below the root. -/
theorem of_mem_writtenEdges (ha : a.WellFormed) (hp : a.Portable) {reverse : Bool} {kind : EdgeKind} {path : Text}
    (h : path ∈ a.writtenEdges reverse i kind) : writes reverse kind = true ∧
      ∃ j ∈ a.edges kind i, j < a.size ∧ j ≠ root ∧ path = a.documentPath j := by
  unfold writtenEdges at h
  split at h
  · next hwrites =>
    rw [mem_sortPaths, List.mem_map] at h
    obtain ⟨j, hj, rfl⟩ := h
    refine ⟨hwrites, j, hj, (ha.lt_size_of_mem_edges hj).2, ?_, rfl⟩
    rintro rfl
    exact hp.root_notMem kind i hj
  · simp at h

/-! ## The document fits -/

/-- **The document of a node can be read in.** The induction is on the numbers above the node, as
children have greater numbers. -/
theorem fits_documentAt (ha : a.WellFormed) (hp : a.Portable) (reverse : Bool) (i : Nat) :
    Fits (a.documentAt reverse i) := by
  induction hn : a.size - i using Nat.strongRecOn generalizing i with
  | ind size ih =>
    have hchild : ∀ m ∈ a.documentMembers reverse i, m.1 ≠ metaKey →
        ∃ c n, a.node? c = some n ∧ i < c ∧ c ≠ root ∧ m = a.childMember reverse c := by
      intro m hm hkey
      obtain ⟨c, hc, rfl⟩ := (mem_documentMembers hkey).1 hm
      obtain ⟨n, hn, hparent⟩ := ha.mem_children.1 hc
      have hlt := ha.parent_lt hn hparent
      exact ⟨c, n, hn, hlt, by rintro rfl; exact Nat.not_lt_zero i hlt, rfl⟩
    rw [documentAt_eq_obj ha]
    refine .obj (edges_documentMembers reverse i) ?_ ?_ ?_
    · intro kind path hpath
      obtain ⟨_, j, _, hj, hroot, rfl⟩ := of_mem_writtenEdges ha hp hpath
      exact leads_documentPath ha hp hj hroot
    · intro m hm hkey
      obtain ⟨c, n, hn, _, hroot, rfl⟩ := hchild m hm hkey
      rw [childMember, unescapeKey_escapeKey, nameOf_eq hn]
      exact ⟨(ha.named hn hroot).1, hp.decoded hn⟩
    · intro m hm hkey
      obtain ⟨c, n, hn, hlt, _, rfl⟩ := hchild m hm hkey
      have := node?_lt hn
      exact ih (a.size - c) (by omega) c rfl

/-! ## The document says what holds -/

/-- What a document can say: it names no root, and dependents only if they are written. -/
def Written (reverse : Bool) : Request → Prop
  | .node names => names ≠ []
  | .edge kind _ _ => writes reverse kind = true

/-- What holds of all nodes on the way to a node. -/
theorem holds_node_of_initial (ha : a.WellFormed) (hi : i < a.size) {way : List Text}
    (h : way <+: a.namesTo i) : a.Holds (.node way) := by
  obtain ⟨rest, hrest⟩ := h
  exact At.of_append ha ⟨hi, hrest.symm⟩

/-- The document of a node says nothing that does not hold. -/
theorem holds_of_denotes (ha : a.WellFormed) (hp : a.Portable) {reverse : Bool} (hat : a.At i names)
    {f : Request} (h : Denotes names (a.documentAt reverse i) f) : a.Holds f ∧ Written reverse f := by
  induction hn : a.size - i using Nat.strongRecOn generalizing i names with
  | ind size ih =>
    rw [documentAt_eq_obj ha, denotes_obj (edges_documentMembers reverse i)] at h
    rcases h with ⟨m, hm, hkey, hf⟩ | ⟨kind, path, hpath, hf⟩
    · obtain ⟨c, hc, rfl⟩ := (mem_documentMembers hkey).1 hm
      obtain ⟨n, hnode, hparent⟩ := ha.mem_children.1 hc
      have hchild := At.child ha hat hnode hparent
      rw [childMember, unescapeKey_escapeKey, nameOf_eq hnode] at hf
      rcases hf with rfl | hf
      · exact ⟨⟨c, hchild⟩, by simp [Written]⟩
      · have hlt := ha.parent_lt hnode hparent
        exact ih (a.size - c) (by have := hchild.1; omega) hchild hf rfl
    · -- A path in a list is that of a node, so all nodes on the way to it hold already.
      obtain ⟨hwrites, j, hj, hsize, _, rfl⟩ := of_mem_writtenEdges ha hp hpath
      rw [EdgeFacts, components_documentPath ha hp hsize] at hf
      rcases hf with rfl | ⟨way, hne, hway, rfl⟩
      · exact ⟨⟨i, j, hat, At.self hsize, hj⟩, hwrites⟩
      · exact ⟨holds_node_of_initial ha hsize hway, hne⟩

/-- A node's object has a member for every node whose parent it is. -/
theorem childMember_mem (ha : a.WellFormed) (reverse : Bool) {p : Nat} (hn : a.node? i = some n)
    (hparent : n.parent = some p) : a.childMember reverse i ∈ a.documentMembers reverse p :=
  (mem_documentMembers (escapeKey_ne_metaKey _)).2 ⟨i, ha.mem_children.2 ⟨n, hn, hparent⟩, rfl⟩

/-- What the document of a child says, that of its parent says too. -/
theorem denotes_parent (ha : a.WellFormed) {reverse : Bool} {f : Request} {p : Nat}
    (hn : a.node? i = some n) (hparent : n.parent = some p)
    (h : Denotes (names ++ [n.name]) (a.documentAt reverse i) f) :
    Denotes names (a.documentAt reverse p) f := by
  rw [documentAt_eq_obj ha]
  refine .nested (childMember_mem ha reverse hn hparent) (escapeKey_ne_metaKey _) ?_
  rw [childMember, unescapeKey_escapeKey, nameOf_eq hn]
  exact h

/-- What the document of a node says, the whole document says. -/
theorem denotes_document_of_denotes (ha : a.WellFormed) {reverse : Bool} {f : Request}
    (hat : a.At i names) (h : Denotes names (a.documentAt reverse i) f) :
    Denotes [] (a.document reverse) f := by
  induction i using Nat.strongRecOn generalizing names with
  | ind i ih =>
    obtain ⟨n, hn⟩ := exists_node? hat.1
    cases hparent : n.parent with
    | none =>
      obtain rfl := ha.eq_root hn hparent
      rwa [← hat.2, ha.namesTo_root] at h
    | some p =>
      obtain ⟨hlt, hnames⟩ := ha.namesTo_child hn hparent
      have hp : a.At p (a.namesTo p) := At.self (by have := hat.1; omega)
      rw [← hat.2, hnames] at h
      exact ih p hlt hp (denotes_parent ha hn hparent h)

/-- **The document says what holds**, and nothing else. -/
theorem denotes_document (ha : a.WellFormed) (hp : a.Portable) (reverse : Bool) (f : Request) :
    Denotes [] (a.document reverse) f ↔ a.Holds f ∧ Written reverse f := by
  refine ⟨fun h => holds_of_denotes ha hp (At.root ha) h, ?_⟩
  rintro ⟨hf, hwritten⟩
  cases f with
  | node names =>
    -- It is the parent's object that says that a node is there.
    obtain ⟨i, hi⟩ := hf
    obtain ⟨n, hn⟩ := exists_node? hi.1
    cases hparent : n.parent with
    | none =>
      rw [← hi.2, namesTo_of_root hn hparent] at hwritten
      exact absurd rfl hwritten
    | some p =>
      obtain ⟨hlt, hnames⟩ := ha.namesTo_child hn hparent
      have hat : a.At p (a.namesTo p) := At.self (by have := hi.1; omega)
      refine denotes_document_of_denotes ha hat ?_
      have hchild := @Denotes.child (a.namesTo p) _ _ (childMember_mem ha reverse hn hparent)
        (escapeKey_ne_metaKey _)
      rw [childMember, unescapeKey_escapeKey, nameOf_eq hn] at hchild
      rw [documentAt_eq_obj ha, ← hi.2, hnames]
      exact hchild
  | edge kind source target =>
    obtain ⟨i, j, hi, hj, hmem⟩ := hf
    refine denotes_document_of_denotes ha hi ?_
    rw [documentAt_eq_obj ha, ← hj.2, ← components_documentPath ha hp hj.1]
    refine .edge (edges_documentMembers reverse i) ?_
    rw [writtenEdges, if_pos (show writes reverse kind = true from hwritten), mem_sortPaths]
    exact List.mem_map_of_mem hmem

/-- **A document that is read into an empty atlas** makes hold what it was written from. -/
theorem load_document (ha : a.WellFormed) (hp : a.Portable) (reverse : Bool) :
    ∃ b, empty.load (a.document reverse) = (b, .ok ()) ∧ b.WellFormed ∧ b.Decoded ∧
      ∀ f, b.Holds f ↔ f = .node [] ∨ (a.Holds f ∧ Written reverse f) := by
  obtain ⟨b, hb, hadds⟩ := loadAt_adds (fits_documentAt ha hp reverse root) [] wellFormed_empty
    decoded_empty (At.root wellFormed_empty)
  refine ⟨b, hb, hadds.wellFormed, hadds.decoded, fun f => ?_⟩
  rw [hadds.holds, holds_empty, ← denotes_document ha hp]
  rfl

/-! ## The text of the document -/

/-- The children of a node have different names. -/
theorem nodup_names_children (ha : a.WellFormed) (i : Nat) : ((a.children i).map a.nameOf).Nodup := by
  unfold children
  cases hm : a.node? i with
  | none => exact List.Pairwise.nil
  | some m =>
    simp only [Option.map_some, Option.getD_some, List.map_map]
    refine List.pairwise_map.2 (List.Pairwise.imp_of_mem ?_ (ha.sorted hm))
    intro x y hx hy hlt heq
    obtain ⟨n, hn, _, hkey⟩ := ha.child hm hx
    obtain ⟨n', hn', _, hkey'⟩ := ha.child hm hy
    have hname : n.name = n'.name := by
      rw [← nameOf_eq hn, ← nameOf_eq hn']
      exact heq
    rw [← hkey, ← hkey', hname] at hlt
    exact List.lt_irrefl _ hlt

/-- The member for one kind of edges: at most one, and no more than a list of strings. -/
theorem plain_edgeMember (key : Text) (paths : List Text) :
    ((edgeMember key paths).map Prod.fst).Sublist [key] ∧ ∀ m ∈ edgeMember key paths, Json.Plain m.2 := by
  unfold edgeMember
  split
  · exact ⟨by simp, by simp⟩
  · refine ⟨by simp, fun m hm => ?_⟩
    rw [List.mem_singleton.1 hm]
    refine .arr fun v hv => ?_
    obtain ⟨t, _, rfl⟩ := List.mem_map.1 hv
    exact .str t

theorem plain_metaMembers (reverse : Bool) (i : Nat) : Json.Plain (.obj (a.metaMembers reverse i)) := by
  obtain ⟨hdeps, hdeps'⟩ := plain_edgeMember depsKey ((a.dependencies i).map a.documentPath)
  obtain ⟨hrdeps, hrdeps'⟩ := plain_edgeMember rdepsKey ((a.dependents i).map a.documentPath)
  refine .obj (@List.Nodup.sublist _ _ ([depsKey] ++ [rdepsKey]) ?_ (by decide)) ?_
  · rw [metaMembers, List.map_append]
    refine hdeps.append ?_
    cases reverse with
    | false => exact List.nil_sublist _
    | true => exact hrdeps
  · intro m hm
    rw [metaMembers, List.mem_append] at hm
    rcases hm with hm | hm
    · exact hdeps' m hm
    · cases reverse with
      | false => simp at hm
      | true => exact hrdeps' m hm

/-- The members of an object have different names. -/
theorem nodup_documentMembers (ha : a.WellFormed) (reverse : Bool) (i : Nat) :
    ((a.documentMembers reverse i).map Prod.fst).Nodup := by
  have hchildren : ((a.children i).map (a.childMember reverse)).map Prod.fst =
      ((a.children i).map a.nameOf).map escapeKey := by
    rw [List.map_map, List.map_map]
    rfl
  refine @List.Nodup.sublist _ _ (((a.children i).map a.nameOf).map escapeKey ++ [metaKey]) ?_ ?_
  · rw [documentMembers, List.map_append, hchildren]
    refine (List.Sublist.refl _).append ?_
    split
    · exact List.nil_sublist _
    · exact List.Sublist.refl _
  · rw [List.nodup_append]
    refine ⟨List.pairwise_map.2 ((nodup_names_children ha i).imp fun hne heq =>
      hne (escapeKey_injective heq)), by simp, ?_⟩
    rintro x hx y hy rfl
    obtain ⟨name, _, rfl⟩ := List.mem_map.1 hx
    exact escapeKey_ne_metaKey name (List.mem_singleton.1 hy)

/-- The document of a node is read back as it was written. -/
theorem plain_documentAt (ha : a.WellFormed) (reverse : Bool) (i : Nat) :
    Json.Plain (a.documentAt reverse i) := by
  induction hn : a.size - i using Nat.strongRecOn generalizing i with
  | ind size ih =>
    rw [documentAt_eq_obj ha]
    refine .obj (nodup_documentMembers ha reverse i) fun m hm => ?_
    rw [documentMembers, List.mem_append, List.mem_map] at hm
    rcases hm with ⟨c, hc, rfl⟩ | hm
    · obtain ⟨n, hnode, hparent⟩ := ha.mem_children.1 hc
      have hlt := ha.parent_lt hnode hparent
      have := node?_lt hnode
      exact ih (a.size - c) (by omega) c rfl
    · split at hm
      · simp at hm
      · rw [List.mem_singleton.1 hm]
        exact plain_metaMembers reverse i

/-- **The text of an atlas is read as its document.** -/
theorem parse_dump (ha : a.WellFormed) {style : Style} (hl : style.layout.IsBlank) :
    Json.parse (a.dump style) = .ok (a.document style.reverse) := by
  have hplain := plain_documentAt ha style.reverse root
  unfold dump
  cases hlayout : style.layout with
  | compact =>
    have h := Json.parse_render hplain (hlayout ▸ hl) (show ∀ c ∈ ([] : Text), Json.isSpace c = true by simp)
    rwa [List.append_nil] at h
  | lines indent =>
    refine Json.parse_render hplain (hlayout ▸ hl) fun c hc => ?_
    rw [List.mem_singleton.1 hc]
    decide

/-- **An atlas survives being written and read again.** Whatever operations it was made by, if its names
are decoded and have no slash in them and no edge ends at the root, then its text is read without a
fault in every layout whose indentation is white space. The atlas that is read has the same paths and the
same pairs of paths for both kinds of edges, and the same text. -/
theorem load_parse_dump (h : Built a) (hp : a.Portable) {layout : Json.Layout} (hl : layout.IsBlank) :
    ∃ d b, Json.parse (a.dump ⟨true, layout⟩) = .ok d ∧ empty.load d = (b, .ok ()) ∧
      b.paths = a.paths ∧ b.dependencyPairs = a.dependencyPairs ∧
      b.dependentPairs = a.dependentPairs ∧ b.dump ⟨true, layout⟩ = a.dump ⟨true, layout⟩ := by
  have ha := h.wellFormed
  obtain ⟨b, hb, hwf, hd, hholds⟩ := load_document ha hp true
  have hsame : SameFacts b a := by
    intro f
    rw [hholds]
    constructor
    · rintro (rfl | ⟨hf, _⟩)
      · exact ⟨root, At.root ha⟩
      · exact hf
    · -- Dependents are written, and the one node that no document names is there from the start.
      intro hf
      cases f with
      | node names =>
        by_cases hnil : names = []
        · exact .inl (by rw [hnil])
        · exact .inr ⟨hf, hnil⟩
      | edge kind source target =>
        refine .inr ⟨hf, ?_⟩
        cases kind with
        | dependency => rfl
        | dependent => rfl
  exact ⟨_, b, parse_dump ha hl, hb, hsame.paths_eq, hsame.edgePairs_eq hwf ha .dependency,
    hsame.edgePairs_eq hwf ha .dependent, dump_eq_of_sameFacts hwf ha hd hp.decoded hsame _⟩

/-- Children named as the member for edges and so that they must be escaped, a name that is no UTF-8, a
cycle, and a dependency of the root itself. -/
theorem load_parse_dump_cycle :
    let a := [Operation.addPath (.own root) "$meta/$$meta" Path.root,
      .addChild (.own root) (CodePoint.ofNat 0xDCFF :: Text.ofString "\"\n"),
      .addDependency (.own 1) (.own 2), .addDependent (.own 2) (.own 1),
      .addDependencyPath (.own 2) "$meta" Path.root, .addDependency (.own root) (.own 3)].foldl
        Operation.apply empty
    ∃ d b, Json.parse (a.dump ⟨true, .lines " \t"⟩) = .ok d ∧ empty.load d = (b, .ok ()) ∧
      b.paths = a.paths ∧ b.dependencyPairs = a.dependencyPairs ∧
      b.dependentPairs = a.dependentPairs ∧
      b.dump ⟨true, .lines " \t"⟩ = a.dump ⟨true, .lines " \t"⟩ := by
  refine load_parse_dump ?_ (by decide +kernel) ?_
  · simp only [List.foldl]
    repeat refine Built.step _ ?_ (by decide +kernel)
    exact Built.empty
  · intro c hc
    rcases List.mem_cons.1 hc with rfl | hc
    · decide
    · rw [List.mem_singleton.1 hc]
      decide

end Atlas

end HeaderAtlas
