import HeaderAtlas.Atlas.Load
import HeaderAtlas.Proofs.Atlas.Facts
import HeaderAtlas.Proofs.Atlas.History
/-!
# What a document says

A document says which nodes there are, by how its objects are nested, and which edges, by the lists in
its members `$meta`; the paths in these lists name nodes too, together with all nodes on the way. This
is `Document.Denotes`. Reading a document that fits into an atlas makes hold what held before and what
the document says (`Document.loadAt_adds`), whatever was there already and in whichever order nodes are
met.
-/

set_option autoImplicit false

namespace HeaderAtlas

namespace Document

/-! ## Edge lists -/

/-- The paths of an edge list as it stands in a document. -/
inductive EdgeList : Option Json → List Text → Prop where
  | absent : EdgeList none []
  | null : EdgeList (some .null) []
  | strings {items : List Json} {paths : List Text} (h : items = paths.map .str) :
      EdgeList (some (.arr items)) paths

/-- The name of the list of edges of one kind. -/
def edgeKey : EdgeKind → Text
  | .dependency => depsKey
  | .dependent => rdepsKey

/-- The paths that the member for edges lists, for either kind. Where there is no such member, or null in its place,
both lists are empty. -/
inductive Edges : Option Json → (EdgeKind → List Text) → Prop where
  | absent : Edges none fun _ => []
  | null : Edges (some .null) fun _ => []
  | lists {edges : Json.Members} {paths : EdgeKind → List Text}
      (h : ∀ kind, EdgeList (edges.get? (edgeKey kind)) (paths kind)) : Edges (some (.obj edges)) paths

theorem EdgeList.unique {value : Option Json} {xs ys : List Text} (hx : EdgeList value xs)
    (hy : EdgeList value ys) : xs = ys := by
  cases hx with
  | absent => cases hy; rfl
  | null => cases hy; rfl
  | strings h =>
    cases hy with
    | strings h' =>
      rw [h] at h'
      exact (List.map_inj_right fun _ _ heq => Json.str.inj heq).1 h'

/-- A member for edges can be read in one way only, so what a document says does not depend on how it is read. -/
theorem Edges.unique {value : Option Json} {paths paths' : EdgeKind → List Text} (h : Edges value paths)
    (h' : Edges value paths') : paths = paths' := by
  cases h with
  | absent => cases h'; rfl
  | null => cases h'; rfl
  | lists h =>
    cases h' with
    | lists h' => exact funext fun kind => (h kind).unique (h' kind)

theorem strings?_map {paths : List Text} (h : ∀ path ∈ paths, path ≠ []) :
    strings? (paths.map .str) = some paths := by
  induction paths with
  | nil => rfl
  | cons path rest ih =>
    have hne : path.isEmpty = false := by simpa using h path List.mem_cons_self
    rw [List.map_cons, strings?, hne, ih fun p hp => h p (List.mem_cons_of_mem _ hp)]
    rfl

theorem edgePaths_eq (place : Text) {value : Option Json} {paths : List Text} (h : EdgeList value paths)
    (hne : ∀ path ∈ paths, path ≠ []) : edgePaths place value = .ok paths := by
  cases h with
  | absent => rfl
  | null => rfl
  | strings h => rw [edgePaths, h, strings?_map hne]

/-! ## What a document says -/

/-- A document that can be read in: nested objects with names, and edge lists whose paths lead to nodes.
All names are decoded. -/
inductive Fits : Json → Prop where
  | obj {members : Json.Members} {paths : EdgeKind → List Text} (edges : Edges (members.get? metaKey) paths)
      (leads : ∀ kind, ∀ path ∈ paths kind, Path.Leads path)
      (names : ∀ m ∈ members, m.1 ≠ metaKey → unescapeKey m.1 ≠ [] ∧ (unescapeKey m.1).Decoded)
      (nested : ∀ m ∈ members, m.1 ≠ metaKey → Fits m.2) : Fits (.obj members)

/-- What the document of the node with the given names says. -/
inductive Denotes : List Text → Json → Request → Prop where
  | child {names : List Text} {members : Json.Members} {m : Text × Json} (hm : m ∈ members)
      (hkey : m.1 ≠ metaKey) : Denotes names (.obj members) (.node (names ++ [unescapeKey m.1]))
  | nested {names : List Text} {members : Json.Members} {m : Text × Json} {f : Request}
      (hm : m ∈ members) (hkey : m.1 ≠ metaKey) (hf : Denotes (names ++ [unescapeKey m.1]) m.2 f) :
      Denotes names (.obj members) f
  | edge {names : List Text} {members : Json.Members} {paths : EdgeKind → List Text} {kind : EdgeKind} {path : Text}
      (edges : Edges (members.get? metaKey) paths) (hpath : path ∈ paths kind) :
      Denotes names (.obj members) (.edge kind names (Path.components path))
  | onTheWay {names : List Text} {members : Json.Members} {paths : EdgeKind → List Text} {kind : EdgeKind}
      {path : Text} {way : List Text} (edges : Edges (members.get? metaKey) paths) (hpath : path ∈ paths kind)
      (hne : way ≠ []) (hway : way <+: Path.components path) : Denotes names (.obj members) (.node way)

/-- What a path in an edge list says: the edge, and the nodes on the way to its end. -/
def EdgeFacts (edge : List Text → Request) (path : Text) (f : Request) : Prop :=
  f = edge (Path.components path) ∨ ∃ way, way ≠ [] ∧ way <+: Path.components path ∧ f = .node way

/-- What a member says, unless it is the one for edges: the child, and what stands below it. -/
def MemberFacts (names : List Text) (m : Text × Json) (f : Request) : Prop :=
  m.1 ≠ metaKey ∧ (f = .node (names ++ [unescapeKey m.1]) ∨ Denotes (names ++ [unescapeKey m.1]) m.2 f)

/-- **What an object says** is what its members say and what its edge lists say. -/
theorem denotes_obj {names : List Text} {members : Json.Members} {paths : EdgeKind → List Text}
    (edges : Edges (members.get? metaKey) paths) (f : Request) :
    Denotes names (.obj members) f ↔ (∃ m ∈ members, MemberFacts names m f) ∨
      ∃ kind, ∃ path ∈ paths kind, EdgeFacts (.edge kind names) path f := by
  constructor
  · intro h
    cases h with
    | child hm hkey => exact .inl ⟨_, hm, hkey, .inl rfl⟩
    | nested hm hkey hf => exact .inl ⟨_, hm, hkey, .inr hf⟩
    | edge edges' hpath =>
      obtain rfl := edges.unique edges'
      exact .inr ⟨_, _, hpath, .inl rfl⟩
    | onTheWay edges' hpath hne hway =>
      obtain rfl := edges.unique edges'
      exact .inr ⟨_, _, hpath, .inr ⟨_, hne, hway, rfl⟩⟩
  · rintro (⟨m, hm, hkey, rfl | hf⟩ | ⟨kind, path, hpath, rfl | ⟨way, hne, hway, rfl⟩⟩)
    · exact .child hm hkey
    · exact .nested hm hkey hf
    · exact .edge edges hpath
    · exact .onTheWay edges hpath hne hway

/-! ## Reading it in -/

open Atlas

variable {a : Atlas} {i : Nat} {names : List Text}

theorem addEdgePath_adds (kind : EdgeKind) {path : Text} (ha : a.WellFormed) (hd : a.Decoded) (hat : a.At i names)
    (hpath : Path.Leads path) :
    ∃ b k, a.addEdgePath kind i path Path.root = (b, .ok k) ∧ Adds a b (EdgeFacts (.edge kind names) path) := by
  obtain ⟨b, k, hb, hadds, hk⟩ := addPath_adds ha hd hpath
  refine ⟨_, k, by rw [addEdgePath, rootOf_eq ha hat.1, hb], (hadds.trans (addEdge_adds kind hadds.wellFormed
    hadds.decoded (hadds.keeps.at ha hat) hk)).congr fun f => ?_⟩
  exact or_comm

/-- Edges of one kind, path by path. -/
theorem addEdges_adds (kind : EdgeKind) {paths : List Text} (ha : a.WellFormed) (hd : a.Decoded)
    (hat : a.At i names) (hpaths : ∀ path ∈ paths, Path.Leads path) :
    ∃ b, addEdges kind i a paths = (b, .ok ()) ∧
      Adds a b fun f => ∃ path ∈ paths, EdgeFacts (.edge kind names) path f := by
  induction paths generalizing a with
  | nil => exact ⟨a, rfl, (Adds.refl ha hd).congr fun f => by simp⟩
  | cons path rest ih =>
    obtain ⟨b, k, hb, hadds⟩ := addEdgePath_adds kind ha hd hat (hpaths path List.mem_cons_self)
    obtain ⟨c, hc, hadds'⟩ := ih hadds.wellFormed hadds.decoded (hadds.keeps.at ha hat)
      fun p hp => hpaths p (List.mem_cons_of_mem _ hp)
    refine ⟨c, by rw [addEdges, hb]; exact hc, (hadds.trans hadds').congr fun f => ?_⟩
    simp

/-- The member for edges, if all paths in it lead to nodes: the dependencies are read first, then the dependents. -/
theorem loadMeta_adds (place : Text) {value : Option Json} {paths : EdgeKind → List Text} (ha : a.WellFormed)
    (hd : a.Decoded) (hat : a.At i names) (edges : Edges value paths)
    (hpaths : ∀ kind, ∀ path ∈ paths kind, Path.Leads path) :
    ∃ b, loadMeta a i place value = (b, .ok ()) ∧
      Adds a b fun f => ∃ kind, ∃ path ∈ paths kind, EdgeFacts (.edge kind names) path f := by
  cases edges with
  | absent => exact ⟨a, rfl, (Adds.refl ha hd).congr fun f => by simp⟩
  | null => exact ⟨a, rfl, (Adds.refl ha hd).congr fun f => by simp⟩
  | @lists edges _ hlists =>
    have hread : ∀ kind, edgePaths place (edges.get? (edgeKey kind)) = .ok (paths kind) := fun kind =>
      edgePaths_eq place (hlists kind) fun path hpath => (hpaths kind path hpath).ne_nil
    obtain ⟨b, hb, hadds⟩ := addEdges_adds .dependency ha hd hat (hpaths .dependency)
    obtain ⟨c, hc, hadds'⟩ :=
      addEdges_adds .dependent hadds.wellFormed hadds.decoded (hadds.keeps.at ha hat) (hpaths .dependent)
    refine ⟨c, ?_, (hadds.trans hadds').congr fun f => by rw [EdgeKind.exists]⟩
    rw [loadMeta, show edgePaths place (edges.get? depsKey) = _ from hread .dependency]
    dsimp only
    rw [hb]
    dsimp only
    rw [show edgePaths place (edges.get? rdepsKey) = _ from hread .dependent]
    exact hc

/-- The members of an object, if each of them can be read in. -/
theorem loadMembers_adds (place : Text) {members : Json.Members} (ha : a.WellFormed) (hd : a.Decoded)
    (hat : a.At i names)
    (hnames : ∀ m ∈ members, m.1 ≠ metaKey → unescapeKey m.1 ≠ [] ∧ (unescapeKey m.1).Decoded)
    (hload : ∀ m ∈ members, m.1 ≠ metaKey → ∀ {a : Atlas} {i : Nat} {names : List Text} (place : Text),
      a.WellFormed → a.Decoded → a.At i names →
        ∃ b, loadAt a i place m.2 = (b, .ok ()) ∧ Adds a b (Denotes names m.2)) :
    ∃ b, loadMembers a i place members = (b, .ok ()) ∧
      Adds a b fun f => ∃ m ∈ members, MemberFacts names m f := by
  induction members generalizing a with
  | nil => exact ⟨a, by rw [loadMembers], (Adds.refl ha hd).congr fun f => by simp⟩
  | cons m rest ih =>
    have ih := fun {a} ha hd hat => @ih a ha hd hat
      (fun m hm => hnames m (List.mem_cons_of_mem _ hm)) fun m hm => hload m (List.mem_cons_of_mem _ hm)
    obtain ⟨key, value⟩ := m
    rw [loadMembers]
    by_cases hkey : key = metaKey
    · -- The edges wait until all members are read.
      obtain ⟨b, hb, hadds⟩ := ih ha hd hat
      refine ⟨b, by rw [if_pos hkey, hb], hadds.congr fun f => ?_⟩
      simp [MemberFacts, hkey]
    · obtain ⟨hne, hdec⟩ := hnames _ List.mem_cons_self hkey
      obtain ⟨b, k, hb, hadds, hk⟩ := addChild_adds ha hd hat hne hdec
      obtain ⟨c, hc, hadds'⟩ := hload _ List.mem_cons_self hkey (place ++ Path.slash :: key)
        hadds.wellFormed hadds.decoded hk
      have hac := hadds.trans hadds'
      obtain ⟨d, hd', hadds''⟩ := ih hac.wellFormed hac.decoded (hac.keeps.at ha hat)
      refine ⟨d, ?_, (hac.trans hadds'').congr fun f => ?_⟩
      · rw [if_neg hkey, hb]
        dsimp only
        rw [hc]
        exact hd'
      · simp [MemberFacts, hkey]

/-- **Reading a document in.** A document that fits is never refused, and afterwards holds what held
before and what the document says. -/
theorem loadAt_adds {d : Json} (h : Fits d) {a : Atlas} {i : Nat} {names : List Text} (place : Text)
    (ha : a.WellFormed) (hd : a.Decoded) (hat : a.At i names) :
    ∃ b, loadAt a i place d = (b, .ok ()) ∧ Adds a b (Denotes names d) := by
  -- The induction is on why the document fits, and so gives a hypothesis for every nested object.
  induction h generalizing a i names place with
  | obj edges hleads hnames _ ih =>
    obtain ⟨b, hb, hadds⟩ := loadMembers_adds place ha hd hat hnames
      fun m hm hkey _ _ _ place ha hd hat => ih m hm hkey place ha hd hat
    obtain ⟨c, hc, hadds'⟩ := loadMeta_adds place hadds.wellFormed hadds.decoded
      (hadds.keeps.at ha hat) edges hleads
    refine ⟨c, ?_, (hadds.trans hadds').congr fun f => (denotes_obj edges f).symm⟩
    rw [loadAt, hb]
    exact hc

end Document

end HeaderAtlas
