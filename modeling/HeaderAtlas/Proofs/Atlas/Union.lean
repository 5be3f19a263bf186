import HeaderAtlas.Proofs.Atlas.Document
import HeaderAtlas.Proofs.Atlas.Mirror
import HeaderAtlas.Proofs.Atlas.Shape
/-!
# Reading in is a union

Where no text holds a surrogate, reading a document of the right shape into an atlas adds to its nodes and to
both kinds of its edges what the document says, and nothing else. So what has been read once is not read again,
and of two documents it does not matter which one comes first (`Atlas.load_union`).

The first of these is about the atlas itself and not only about what holds in it: an atlas that extends another
one without making anything new hold is that other one (`Atlas.Extends.eq_of_sameFacts`).
-/

set_option autoImplicit false

namespace HeaderAtlas

/-! ## What there is, as sets of names -/

namespace Document

/-- The names of the nodes that a document speaks of. -/
def nodeNames (d : Json) : Set (List Text) := {names | Denotes [] d (.node names)}

/-- The names of the pairs between which a document lists an edge of one kind. -/
def edgeNames (d : Json) (kind : EdgeKind) : Set (List Text × List Text) := {p | Denotes [] d (.edge kind p.1 p.2)}

/-- The names of the pairs that a document lists as dependencies. -/
abbrev dependencyNames (d : Json) : Set (List Text × List Text) := edgeNames d .dependency

/-- The names of the pairs that a document lists as dependents. -/
abbrev dependentNames (d : Json) : Set (List Text × List Text) := edgeNames d .dependent

end Document

namespace Atlas

open Document

variable {a b : Atlas} {d e : Json} {i j k : Nat}

/-- The names that lead to nodes. -/
def nodeNames (a : Atlas) : Set (List Text) := {names | ∃ i < a.size, a.namesTo i = names}

/-- The names of all pairs of nodes that an edge of one kind leads from and to. -/
def edgeNames (a : Atlas) (kind : EdgeKind) : Set (List Text × List Text) :=
  {p | ∃ i, ∃ j ∈ a.edges kind i, (a.namesTo i, a.namesTo j) = p}

/-- The names of all pairs of nodes of which the first includes the second. -/
abbrev dependencyNames (a : Atlas) : Set (List Text × List Text) := a.edgeNames .dependency

/-- The names of all pairs of nodes of which the first is recorded as included by the second. -/
abbrev dependentNames (a : Atlas) : Set (List Text × List Text) := a.edgeNames .dependent

theorem mem_nodeNames {names : List Text} : names ∈ a.nodeNames ↔ a.Holds (.node names) := Iff.rfl

theorem mem_edgeNames (ha : a.WellFormed) {kind : EdgeKind} {p : List Text × List Text} :
    p ∈ a.edgeNames kind ↔ a.Holds (.edge kind p.1 p.2) := by
  constructor
  · rintro ⟨i, j, hj, rfl⟩
    obtain ⟨hi, hj'⟩ := ha.lt_size_of_mem_edges hj
    exact ⟨i, j, At.self hi, At.self hj', hj⟩
  · rintro ⟨i, j, hi, hj, hmem⟩
    exact ⟨i, j, hmem, Prod.ext hi.2 hj.2⟩

namespace Adds

theorem nodeNames_eq (h : Adds a b (Denotes [] d)) : b.nodeNames = a.nodeNames ∪ Document.nodeNames d := by
  ext names
  rw [mem_nodeNames, h.holds]
  rfl

theorem edgeNames_eq (h : Adds a b (Denotes [] d)) (ha : a.WellFormed) (kind : EdgeKind) :
    b.edgeNames kind = a.edgeNames kind ∪ Document.edgeNames d kind := by
  ext p
  rw [mem_edgeNames h.wellFormed, h.holds, Set.mem_union, mem_edgeNames ha]
  rfl

end Adds

/-! ## An atlas that has grown and says nothing new -/

namespace Extends

/-- Names that lead to a node lead to the same one before, if they did lead to one. -/
theorem eq_of_at (h : a.Extends b) (ha : a.WellFormed) (hb : b.WellFormed) (hi : i < b.size)
    (hk : a.At k (b.namesTo i)) : k = i := At.unique hb (h.at ha hk) (At.self hi)

/-- No node is new, since its names lead to an old one. -/
theorem lt_size_of_sameFacts (h : a.Extends b) (ha : a.WellFormed) (hb : b.WellFormed) (hsame : SameFacts a b)
    (hi : i < b.size) : i < a.size := by
  obtain ⟨k, hk⟩ := (hsame (.node (b.namesTo i))).2 ⟨i, At.self hi⟩
  obtain rfl := h.eq_of_at ha hb hi hk
  exact hk.1

/-- An edge that is drawn was drawn before, since it holds between old nodes. -/
theorem mem_edges (h : a.Extends b) (ha : a.WellFormed) (hb : b.WellFormed) (hsame : SameFacts a b) {kind : EdgeKind}
    (hj : j ∈ b.edges kind i) : j ∈ a.edges kind i := by
  obtain ⟨hi, hj'⟩ := hb.lt_size_of_mem_edges hj
  obtain ⟨k, l, hk, hl, hmem⟩ := (hsame (.edge kind _ _)).2 ⟨i, j, At.self hi, At.self hj', hj⟩
  obtain rfl := h.eq_of_at ha hb hi hk
  obtain rfl := h.eq_of_at ha hb hj' hl
  exact hmem

/-- A child that is listed was listed before, since it is an old node and its parent is still the same. -/
theorem mem_children (h : a.Extends b) (ha : a.WellFormed) (hb : b.WellFormed) (hsame : SameFacts a b)
    {m n : Node} (hm : a.node? i = some m) (hn : b.node? i = some n) {x : Bytes × Nat} (hx : x ∈ n.children) :
    x ∈ m.children := by
  obtain ⟨key, c⟩ := x
  obtain ⟨child, hchild, hparent, rfl⟩ := hb.child hn hx
  obtain ⟨old, hold⟩ := exists_node? (h.lt_size_of_sameFacts ha hb hsame (node?_lt hchild))
  obtain ⟨new, hnew, hname, hparent', _⟩ := h hold
  rw [hchild] at hnew
  obtain rfl := Option.some.inj hnew
  obtain ⟨m', hm', hlisted⟩ := ha.listed hold (hparent'.symm.trans hparent)
  rw [hm] at hm'
  obtain rfl := Option.some.inj hm'
  rw [hname]
  exact hlisted

/-- **An atlas that has grown and says nothing new is the same as before.** All lists of a node are in strict
order, so that it is enough to compare their members. -/
theorem eq_of_sameFacts (h : a.Extends b) (ha : a.WellFormed) (hb : b.WellFormed) (hsame : SameFacts a b) :
    b = a := by
  apply ext_node?
  intro i
  cases hm : a.node? i with
  | none =>
    refine node?_eq_none (Nat.le_of_not_lt fun hi => ?_)
    obtain ⟨m, hm'⟩ := exists_node? (h.lt_size_of_sameFacts ha hb hsame hi)
    rw [hm] at hm'
    simp at hm'
  | some m =>
    obtain ⟨n, hn, hname, hparent, hchildren, hedges⟩ := h hm
    have hsameEdges : ∀ kind, n.edges kind = m.edges kind := by
      intro kind
      refine List.Subset.antisymm_of_pairwise (hb.edges hn kind).1 (ha.edges hm kind).1 (fun j hj => ?_) (hedges kind)
      rw [← edges_eq hn] at hj
      rw [← edges_eq hm]
      exact h.mem_edges ha hb hsame hj
    -- The keys of children are in strict order, and so their entries are too.
    have : Std.Irrefl fun x y : Bytes × Nat => x.1 < y.1 := ⟨fun x => List.lt_irrefl x.1⟩
    have : Std.Antisymm fun x y : Bytes × Nat => x.1 < y.1 :=
      ⟨fun x y hxy hyx => absurd hyx (List.lt_asymm hxy)⟩
    rw [hn]
    congr 1
    cases m
    cases n
    simp only [Node.mk.injEq]
    exact ⟨hname, hparent,
      List.Subset.antisymm_of_pairwise (hb.sorted hn) (ha.sorted hm)
        (fun _ => h.mem_children ha hb hsame hm hn) hchildren,
      hsameEdges .dependency, hsameEdges .dependent⟩

end Extends

/-! ## Adding again, and in another order -/

namespace Adds

variable {b' c c' : Atlas} {new new' : Request → Prop}

/-- **What has been added is not added again.** -/
theorem again (hab : Adds a b new) (hbc : Adds b c new) : c = b := by
  refine hbc.keeps.eq_of_sameFacts hab.wellFormed hbc.wellFormed fun f => ?_
  rw [hbc.holds, iff_self_or]
  exact fun hf => (hab.holds f).2 (.inr hf)

/-- **Facts may be added in either order.** Nodes get different numbers, but the text shows none. -/
theorem dump_comm (hab : Adds a b new) (hbc : Adds b c new') (hab' : Adds a b' new') (hbc' : Adds b' c' new)
    (style : Style) : c.dump style = c'.dump style := by
  refine dump_eq_of_sameFacts hbc.wellFormed hbc'.wellFormed hbc.decoded hbc'.decoded (fun f => ?_) style
  rw [hbc.holds, hab.holds, hbc'.holds, hab'.holds, or_right_comm]

end Adds

/-! ## Reading in -/

/-- No name holds a surrogate. -/
def Surrogateless (a : Atlas) : Prop := ∀ n ∈ a.nodes, n.name.Surrogateless

instance (a : Atlas) : Decidable a.Surrogateless :=
  inferInstanceAs (Decidable (∀ n ∈ a.nodes, n.name.Surrogateless))

theorem Surrogateless.decoded (h : a.Surrogateless) : a.Decoded :=
  fun _ _ hn => (h _ (Array.mem_of_getElem? hn)).decoded

/-- A document of the right shape is not refused, and adds what it says. -/
theorem load_adds (ha : a.WellFormed) (hdec : a.Decoded) (h : Shaped d) (hd : d.Surrogateless) :
    ∃ b, a.load d = (b, .ok ()) ∧ Adds a b (Denotes [] d) :=
  loadAt_adds (h.fits hd) [] ha hdec (At.root ha)

/-- **What has been read is not read again.** -/
theorem load_again (ha : a.WellFormed) (hdec : a.Decoded) (h : Shaped d) (hd : d.Surrogateless) :
    (a.load d).1.load d = ((a.load d).1, .ok ()) := by
  obtain ⟨b, hb, hadds⟩ := load_adds ha hdec h hd
  obtain ⟨c, hc, hadds'⟩ := load_adds hadds.wellFormed hadds.decoded h hd
  rw [hb, hc, hadds.again hadds']

/-- **Of two documents either may be read first.** -/
theorem dump_load_comm (ha : a.WellFormed) (hdec : a.Decoded) (h : Shaped d) (hd : d.Surrogateless)
    (h' : Shaped e) (he : e.Surrogateless) :
    ((a.load d).1.load e).2 = .ok () ∧ ((a.load e).1.load d).2 = .ok () ∧
      ∀ style, ((a.load d).1.load e).1.dump style = ((a.load e).1.load d).1.dump style := by
  obtain ⟨b, hb, hab⟩ := load_adds ha hdec h hd
  obtain ⟨c, hc, hac⟩ := load_adds ha hdec h' he
  obtain ⟨b', hb', hbb'⟩ := load_adds hab.wellFormed hab.decoded h' he
  obtain ⟨c', hc', hcc'⟩ := load_adds hac.wellFormed hac.decoded h hd
  rw [hb, hc, hb', hc']
  exact ⟨rfl, rfl, hab.dump_comm hbb' hac hcc'⟩

/-- **Reading a document in is a union**, and the documents that can be read in are those of the right shape.
This is for every atlas with a history and every document, as long as neither holds a surrogate. It follows that
reading the document again changes nothing, and that another document may be read before or after it. -/
theorem load_union (h : Built a) (ha : a.Surrogateless) (hd : d.Surrogateless) :
    ((a.load d).2 = .ok () ↔ Shaped d) ∧
    (Shaped d →
      (a.load d).1.nodeNames = a.nodeNames ∪ Document.nodeNames d ∧
      (a.load d).1.dependencyNames = a.dependencyNames ∪ Document.dependencyNames d ∧
      (a.load d).1.dependentNames = a.dependentNames ∪ Document.dependentNames d ∧
      (a.load d).1.load d = ((a.load d).1, .ok ()) ∧
      ∀ e : Json, e.Surrogateless → Shaped e →
        ((a.load d).1.load e).2 = .ok () ∧ ((a.load e).1.load d).2 = .ok () ∧
        ∀ style, ((a.load d).1.load e).1.dump style = ((a.load e).1.load d).1.dump style) := by
  have hwf := h.wellFormed
  have hdec := ha.decoded
  refine ⟨⟨shaped_of_load, fun hshaped => ?_⟩, fun hshaped => ?_⟩
  · obtain ⟨b, hb, _⟩ := load_adds hwf hdec hshaped hd
    rw [hb]
  · have hagain := load_again hwf hdec hshaped hd
    have hcomm := fun e he hshaped' => dump_load_comm (e := e) hwf hdec hshaped hd hshaped' he
    obtain ⟨b, hb, hadds⟩ := load_adds hwf hdec hshaped hd
    rw [hb] at hagain hcomm ⊢
    exact ⟨hadds.nodeNames_eq, hadds.edgeNames_eq hwf .dependency, hadds.edgeNames_eq hwf .dependent, hagain, hcomm⟩

/-- An atlas that knows `a/b` and that `a` includes it. -/
def sharedAtlas : Atlas := (Operation.addDependencyPath (.own 1) "a/b" Path.root).apply
  ((Operation.addChild (.own root) "a").apply empty)

/-- A document that names `a/b` too, and an escaped name. Its edges lead to a node of the atlas, to a new one,
and to a node that the other document names as well. -/
def sharedDocument : Json :=
  .obj [("a", .obj [("b", .obj []), (metaKey, .obj [(depsKey, .arr [.str "a/b", .str "/c//d/"])])]),
    ("$$meta", .obj [(metaKey, .obj [(depsKey, .null), (rdepsKey, .arr [.str "c"])])])]

/-- A document that shares a node with the first one. -/
def otherDocument : Json := .obj [("c", .obj [(metaKey, .null)]), ("e", .obj [])]

theorem load_union_shared :
    (sharedAtlas.load sharedDocument).2 = .ok () ∧
      (sharedAtlas.load sharedDocument).1.nodeNames = sharedAtlas.nodeNames ∪ Document.nodeNames sharedDocument ∧
      (sharedAtlas.load sharedDocument).1.load sharedDocument = ((sharedAtlas.load sharedDocument).1, .ok ()) ∧
      ∀ style, ((sharedAtlas.load sharedDocument).1.load otherDocument).1.dump style =
        ((sharedAtlas.load otherDocument).1.load sharedDocument).1.dump style := by
  have hshaped : Shaped sharedDocument := shaped_of_load (a := empty) (by decide +kernel)
  have hother : Shaped otherDocument := shaped_of_load (a := empty) (by decide +kernel)
  have hbuilt : Built sharedAtlas := .step _ (.step _ .empty (by decide)) (by decide)
  obtain ⟨hiff, h⟩ := load_union hbuilt (by decide +kernel) (d := sharedDocument) (by decide)
  obtain ⟨hnodes, _, _, hagain, hcomm⟩ := h hshaped
  exact ⟨hiff.2 hshaped, hnodes, hagain, (hcomm otherDocument (by decide) hother).2.2⟩

end Atlas

end HeaderAtlas
