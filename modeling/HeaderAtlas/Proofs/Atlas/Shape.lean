import HeaderAtlas.Proofs.Atlas.Load
import HeaderAtlas.Proofs.Text.Scalar
/-!
# Which documents can be read in

A document has the right shape if it is made of objects whose members have names, and if its edge lists hold paths
that name something (`Document.Shaped`). A document that was read in without a fault has this shape
(`Document.shaped_of_loadAt`), and if no text in it holds a surrogate then the shape is enough
(`Document.Shaped.fits`).

What is wrong with a document that cannot be read in is told by the fault (`Document.Flaw`). Two faults are not about
the shape that the reader checks: an empty name and a path of nothing but slashes are left to the atlas, which takes
them for breaches of its own rules.

## Three conditions, and why they differ

`Document.Fits`, which loading is specified with, speaks about what the atlas will be asked for: names that can be
encoded and paths that lead somewhere. `Document.Shaped` speaks about the document alone, as a person reads it.
`Document.Checked` is what the reader looks at before it asks the atlas for anything. Each is weaker than the one
before it. The first gap is surrogates, which have no bytes; the second is the two breaches. All three have the form
of the document's own recursion, so a fact about one is carried to another by induction on it.

## How faults are traced back

The reader has one function for each level of a document: the whole, its members, its edges, an edge list, a path. For
each of them there is one lemma that says what an error of that function tells (`flaw_of_…`, `listFlaw_of_…`,
`pathFlaw_of_…`), and each uses only the one for the level below. The atlas that was there before does not occur in
any of them: no document is refused for what an atlas already holds.
-/

set_option autoImplicit false

namespace HeaderAtlas

/-! ## Texts in a value -/

namespace Json

mutual

/-- All names of members and all strings in a value. Nothing else in a document reaches the atlas as a text. -/
def texts : Json → List Text
  | .str t => [t]
  | .arr items => itemTexts items
  | .obj members => memberTexts members
  | _ => []

/-- All texts in the items of an array. -/
def itemTexts : List Json → List Text
  | [] => []
  | item :: rest => texts item ++ itemTexts rest

/-- All texts in the members of an object. -/
def memberTexts : List (Text × Json) → List Text
  | [] => []
  | (name, value) :: rest => name :: (texts value ++ memberTexts rest)

end

/-- No text in the value holds a surrogate. This is a condition on the characters alone, so it can be read off a
document without knowing which of its texts become names and which paths. -/
def Surrogateless (d : Json) : Prop := ∀ t ∈ d.texts, t.Surrogateless

instance (d : Json) : Decidable d.Surrogateless := inferInstanceAs (Decidable (∀ t ∈ d.texts, t.Surrogateless))

theorem mem_itemTexts {items : List Json} {item : Json} {t : Text} (hitem : item ∈ items) (ht : t ∈ item.texts) :
    t ∈ itemTexts items := by
  induction items with
  | nil => simp at hitem
  | cons first rest ih =>
    rw [itemTexts, List.mem_append]
    rcases List.mem_cons.1 hitem with rfl | hitem
    · exact .inl ht
    · exact .inr (ih hitem)

/-- A member brings its own name as well as the texts of its value, so there are two ways for a text to be
among them. -/
theorem mem_memberTexts {members : Members} {m : Text × Json} {t : Text} (hm : m ∈ members)
    (ht : t = m.1 ∨ t ∈ m.2.texts) : t ∈ memberTexts members := by
  induction members with
  | nil => simp at hm
  | cons first rest ih =>
    obtain ⟨name, value⟩ := first
    rw [memberTexts, List.mem_cons, List.mem_append]
    rcases List.mem_cons.1 hm with rfl | hm
    · rcases ht with ht | ht
      · exact .inl ht
      · exact .inr (.inl ht)
    · exact .inr (.inr (ih hm))

namespace Surrogateless

/-- What is asked of a value is asked of its parts. This and the next three lemmas take it down one level each. -/
theorem item {items : List Json} {item : Json} (h : (Json.arr items).Surrogateless) (hitem : item ∈ items) :
    item.Surrogateless := fun t ht => h t (by rw [texts]; exact mem_itemTexts hitem ht)

theorem name {members : Members} {m : Text × Json} (h : (Json.obj members).Surrogateless) (hm : m ∈ members) :
    m.1.Surrogateless := h m.1 (by rw [texts]; exact mem_memberTexts hm (.inl rfl))

theorem member {members : Members} {m : Text × Json} (h : (Json.obj members).Surrogateless) (hm : m ∈ members) :
    m.2.Surrogateless := fun t ht => h t (by rw [texts]; exact mem_memberTexts hm (.inr ht))

theorem get? {members : Members} {key : Text} {value : Json} (h : (Json.obj members).Surrogateless)
    (hget : members.get? key = some value) : value.Surrogateless := by
  obtain ⟨m, hm, rfl⟩ := Option.map_eq_some_iff.1 hget
  exact h.member (List.mem_of_find?_eq_some hm)

end Surrogateless

end Json

/-! ## Paths that name something -/

namespace Path

/-- A path with a character that is no slash. The components of any other path are none at all, since empty components
do not count. -/
def Named (path : Text) : Prop := ∃ c ∈ path, c ≠ slash

/-- A path that names something has a component. Slashes in front of it are cut off one by one; the first other
character begins one. -/
theorem components_ne_nil {path : Text} (h : Named path) : components path ≠ [] := by
  obtain ⟨c, hmem, hc⟩ := h
  induction path with
  | nil => simp at hmem
  | cons x rest ih =>
    by_cases hx : x = slash
    · rw [hx, components, Segments.split_cons_self]
      exact ih (List.mem_of_ne_of_mem (fun h => hc (h.trans hx)) hmem)
    -- No slash here, so the first part begins with this character and is not empty.
    · obtain ⟨part, parts, _, hcons⟩ := splitList_cons_of_ne hx rest
      simp [components, Segments.split, Text.splitOn, hcons]

/-- The converse of `components_ne_nil`, in the form in which a path is taken apart. -/
theorem components_eq_nil {path : Text} (h : ∀ c ∈ path, c = slash) : components path = [] := by
  induction path with
  | nil => rfl
  | cons x rest ih =>
    rw [h x List.mem_cons_self, components, Segments.split_cons_self]
    exact ih fun c hc => h c (List.mem_cons_of_mem _ hc)

theorem named_of_components {path : Text} (h : components path ≠ []) : Named path := by
  by_contra hnot
  refine h (components_eq_nil fun c hc => ?_)
  by_contra hne
  exact hnot ⟨c, hc, hne⟩

/-- In a document the conditions on a path are told apart: that it names something is a matter of its shape, that its
names have bytes is one of its characters. -/
theorem Named.leads {path : Text} (h : Named path) (hs : path.Surrogateless) : Leads path :=
  ⟨components_ne_nil h, fun _ hname => hs.decoded.of_mem_split (by decide) hname⟩

end Path

namespace Document

open Atlas

variable {a b : Atlas} {i k : Nat} {place key path : Text} {value : Option Json} {paths : List Text}
  {kind : EdgeKind}

/-! ## Names of members -/

/-- Taking an escape away leaves a character behind it, so it makes no name empty. -/
theorem unescapeKey_eq_nil (h : unescapeKey key = []) : key = [] := by
  unfold unescapeKey at h
  split at h
  · split at h <;> simp at h
  · exact h

/-- Taking an escape away brings no character in, surrogates included. -/
theorem unescapeKey_subset (key : Text) : unescapeKey key ⊆ key := by
  unfold unescapeKey
  split
  · split
    · exact List.subset_cons_self _ _
    · exact List.Subset.refl _
  · exact List.Subset.refl _

/-! ## The right shape -/

/-- **A document of the right shape**: an object; its members but the one for edges have names and are of the
right shape; and that one, if it is there, is null or an object whose two lists are absent, null, or lists of
paths that name something. -/
inductive Shaped : Json → Prop where
  | obj {members : Json.Members} {paths : EdgeKind → List Text} (edges : Edges (members.get? metaKey) paths)
      (paths : ∀ kind, ∀ path ∈ paths kind, Path.Named path)
      (names : ∀ m ∈ members, m.1 ≠ metaKey → m.1 ≠ [])
      (nested : ∀ m ∈ members, m.1 ≠ metaKey → Shaped m.2) : Shaped (.obj members)

/-- The paths of a list are among the texts of its value. Where there is no list there are none. -/
theorem EdgeList.surrogateless (h : EdgeList value paths) (hs : ∀ d, value = some d → d.Surrogateless) :
    ∀ path ∈ paths, path.Surrogateless := by
  intro path hpath
  cases h with
  | absent => simp at hpath
  | null => simp at hpath
  | strings h => exact (hs _ rfl).item (h ▸ List.mem_map_of_mem hpath) path List.mem_cons_self

/-- The strings of an edge list are its paths. A list with anything else in it is no edge list, so nothing is passed
over. -/
theorem EdgeList.mem {items : List Json} (h : EdgeList (some (.arr items)) paths) (hpath : .str path ∈ items) :
    path ∈ paths := by
  cases h with
  | strings hitems =>
    rw [hitems] at hpath
    obtain ⟨other, hother, heq⟩ := List.mem_map.1 hpath
    rwa [← Json.str.inj heq]

/-- The same for both lists of a node, whichever of them a path is in. -/
theorem Edges.surrogateless {paths : EdgeKind → List Text} (h : Edges value paths)
    (hs : ∀ d, value = some d → d.Surrogateless) (kind : EdgeKind) : ∀ path ∈ paths kind, path.Surrogateless := by
  intro path hpath
  cases h with
  | absent => simp at hpath
  | null => simp at hpath
  | lists h => exact (h kind).surrogateless (fun d hd => (hs _ rfl).get? hd) path hpath

/-- **The right shape is enough** if there are no surrogates. Each condition of `Fits` is the one of `Shaped` together
with what the characters of the texts allow. -/
theorem Shaped.fits {d : Json} (h : Shaped d) (hs : d.Surrogateless) : Fits d := by
  induction h with
  | obj edges hpaths hnames _ ih =>
    have hsurrogateless := edges.surrogateless fun d hd => hs.get? hd
    refine .obj edges (fun kind path hpath => ?_) (fun m hm hkey => ⟨?_, ?_⟩)
      fun m hm hkey => ih m hm hkey (hs.member hm)
    · exact (hpaths kind path hpath).leads (hsurrogateless kind path hpath)
    · exact fun hnil => hnames m hm hkey (unescapeKey_eq_nil hnil)
    · exact ((hs.name hm).of_subset (unescapeKey_subset m.1)).decoded

/-! ## Read without a fault -/

/-- What the reader takes for a list of paths is one, and no path in it is empty. The last is all that the reader
itself asks of a path. -/
theorem of_strings?_eq_some {items : List Json} (h : strings? items = some paths) :
    items = paths.map .str ∧ ∀ path ∈ paths, path ≠ [] := by
  fun_induction strings? items generalizing paths with
  | case1 =>
    obtain rfl := Option.some.inj h
    exact ⟨rfl, by simp⟩
  | case2 => simp at h
  | case3 t rest ht ih =>
    obtain ⟨more, hmore, rfl⟩ := Option.map_eq_some_iff.1 h
    obtain ⟨hrest, hne⟩ := ih hmore
    exact ⟨by rw [hrest, List.map_cons], List.forall_mem_cons.2 ⟨by simpa using ht, hne⟩⟩
  | case4 => simp at h

/-- The three ways in which an edge list is read without a fault are the three forms that one can have. -/
theorem edgeList_of_edgePaths (h : edgePaths place value = .ok paths) :
    EdgeList value paths ∧ ∀ path ∈ paths, path ≠ [] := by
  unfold edgePaths at h
  split at h
  · obtain rfl := Except.ok.inj h
    exact ⟨.absent, by simp⟩
  · obtain rfl := Except.ok.inj h
    exact ⟨.null, by simp⟩
  · split at h
    · next found hfound =>
      obtain rfl := Except.ok.inj h
      obtain ⟨hitems, hne⟩ := of_strings?_eq_some hfound
      exact ⟨.strings hitems, hne⟩
    · simp at h
  · simp at h

/-- The atlas gives a node for a path only if there is a component to give it for. -/
theorem named_of_addPath (h : a.addPath i path Path.root = (b, .ok k)) : Path.Named path := by
  refine Path.named_of_components fun hnil => ?_
  have hof : Segments.ofPath path Path.root = .ok (Path.components path) := rfl
  simp [addPath, pathNames, hof, hnil] at h

theorem named_of_addEdgePath (h : a.addEdgePath kind i path Path.root = (b, .ok k)) : Path.Named path := by
  unfold addEdgePath at h
  split at h
  · simp at h
  · next hadd => exact named_of_addPath hadd

/-- All paths of a list were asked for, since none failed. -/
theorem named_of_addEdges (h : addEdges kind i a paths = (b, .ok ())) : ∀ path ∈ paths, Path.Named path := by
  induction paths generalizing a with
  | nil => simp
  | cons path rest ih =>
    rw [addEdges] at h
    split at h
    · simp at h
    · next hfirst =>
      rintro other (_ | ⟨_, hother⟩)
      · exact named_of_addEdgePath hfirst
      · exact ih h other hother

/-- What was read without a fault was a pair of edge lists, and the atlas has accepted every path in them. The two
lists are read one after the other, and so is the proof. -/
theorem edges_of_loadMeta (h : loadMeta a i place value = (b, .ok ())) :
    ∃ paths, Edges value paths ∧ ∀ kind, ∀ path ∈ paths kind, Path.Named path := by
  unfold loadMeta at h
  split at h
  · exact ⟨_, .absent, by simp⟩
  · exact ⟨_, .null, by simp⟩
  · split at h
    · simp at h
    · next deps hdeps =>
      split at h
      · simp at h
      · next hfirst =>
        split at h
        · simp at h
        · next rdeps hrdeps =>
          refine ⟨EdgeKind.rec deps rdeps, .lists fun kind => ?_, fun kind => ?_⟩
          · cases kind with
            | dependency => exact (edgeList_of_edgePaths hdeps).1
            | dependent => exact (edgeList_of_edgePaths hrdeps).1
          · cases kind with
            | dependency => exact named_of_addEdges hfirst
            | dependent => exact named_of_addEdges h
  · simp at h

mutual

/-- **A document that was read in without a fault has the right shape**, whatever was there before. -/
theorem shaped_of_loadAt {a b : Atlas} {i : Nat} {place : Text} (d : Json)
    (h : loadAt a i place d = (b, .ok ())) : Shaped d := by
  cases d with
  | obj members =>
    rw [loadAt] at h
    split at h
    · simp at h
    · next hmembers =>
      have hshaped := shaped_of_loadMembers members hmembers
      obtain ⟨paths, edges, hpaths⟩ := edges_of_loadMeta h
      exact .obj edges hpaths (fun m hm hkey => (hshaped m hm hkey).1) fun m hm hkey => (hshaped m hm hkey).2
  | _ => simp [loadAt] at h

/-- The members before the first fault do not matter here, since there is none. The one for edges is passed over, and
is dealt with by `edges_of_loadMeta`. -/
theorem shaped_of_loadMembers {a b : Atlas} {i : Nat} {place : Text} (members : List (Text × Json))
    (h : loadMembers a i place members = (b, .ok ())) :
    ∀ m ∈ members, m.1 ≠ metaKey → m.1 ≠ [] ∧ Shaped m.2 := by
  cases members with
  | nil => simp
  | cons first rest =>
    obtain ⟨key, value⟩ := first
    rw [loadMembers] at h
    split at h
    · next hmeta =>
      rintro m (_ | ⟨_, hm⟩) hkey
      · exact absurd hmeta hkey
      · exact shaped_of_loadMembers rest h m hm hkey
    · split at h
      · simp at h
      · next hchild =>
        split at h
        · simp at h
        · next hvalue =>
          rintro m (_ | ⟨_, hm⟩) hkey
          · refine ⟨?_, shaped_of_loadAt value hvalue⟩
            -- A member with the empty name would have asked the atlas for a child without one.
            rintro rfl
            simp [unescapeKey, addChild] at hchild
          · exact shaped_of_loadMembers rest h m hm hkey

end

/-! ## Read with a fault -/

/-- What a fault says about the name of a member. The name is judged as it will be in the atlas, with its escape taken
away. -/
inductive NameFlaw : Text → LoadFault → Prop where
  | empty {key : Text} (h : key = []) : NameFlaw key (.refused .emptyName)
  | encoding {key : Text} {e : EncodeError} (h : (unescapeKey key).encode = .error e) :
      NameFlaw key (.refused (.encoding e))

/-- What a fault says about a path in an edge list: it is nothing but slashes, or a name in it has no bytes. -/
inductive PathFlaw : Text → LoadFault → Prop where
  | slashes {path : Text} (h : ∀ c ∈ path, c = Path.slash) : PathFlaw path (.refused .emptyPath)
  | encoding {path name : Text} {e : EncodeError} (hname : name ∈ Path.components path)
      (h : name.encode = .error e) : PathFlaw path (.refused (.encoding e))

/-- What a fault says about an edge list: it is no list of strings that are not empty, or it holds a path with a
fault. The first is stated by what any reading of the list would have to contain, so it also covers a value that is no
list. -/
inductive ListFlaw : Option Json → LoadFault → Prop where
  | list {value : Option Json} (place : Text) (h : ∀ paths, EdgeList value paths → [] ∈ paths) :
      ListFlaw value (.edgeList place)
  | path {items : List Json} {path : Text} {e : LoadFault} (hpath : .str path ∈ items) (hne : path ≠ [])
      (h : PathFlaw path e) : ListFlaw (some (.arr items)) e

/-- **What a fault says about a document**: which part of it is to blame. The place in a fault is for the message and
is not tied to the part; `nested` says that the part may be at any depth. -/
inductive Flaw : Json → LoadFault → Prop where
  | notObject {d : Json} (place : Text) (h : ∀ members, d ≠ .obj members) : Flaw d (.notObject place)
  | name {members : Json.Members} {m : Text × Json} {e : LoadFault} (hm : m ∈ members) (hkey : m.1 ≠ metaKey)
      (h : NameFlaw m.1 e) : Flaw (.obj members) e
  | nested {members : Json.Members} {m : Text × Json} {e : LoadFault} (hm : m ∈ members) (hkey : m.1 ≠ metaKey)
      (h : Flaw m.2 e) : Flaw (.obj members) e
  | metaNotObject {members : Json.Members} {value : Json} (place : Text)
      (hget : members.get? metaKey = some value) (hnull : value ≠ .null) (h : ∀ edges, value ≠ .obj edges) :
      Flaw (.obj members) (.metaNotObject place)
  | edges {members edges : Json.Members} {e : LoadFault} (kind : EdgeKind)
      (hget : members.get? metaKey = some (.obj edges)) (h : ListFlaw (edges.get? (edgeKey kind)) e) :
      Flaw (.obj members) e

/-- A child is refused for its name alone. That it is there already is no reason. -/
theorem of_addChild_eq_error {name : Text} {e : AtlasFault} (h : a.addChild i name = .error e) :
    (name = [] ∧ e = .emptyName) ∨ ∃ err, name.encode = .error err ∧ e = .encoding err := by
  unfold addChild at h
  split at h
  · next hname => exact .inl ⟨List.isEmpty_iff.1 hname, (Except.error.inj h).symm⟩
  · split at h
    · next err hencode => exact .inr ⟨err, hencode, (Except.error.inj h).symm⟩
    · split at h <;> simp at h

/-- The nodes on the way of a path are asked for one by one. Components are not empty, so only one without bytes can
be refused. -/
theorem of_addNames_eq_error {names : List Text} {e : AtlasFault} (hnames : ∀ name ∈ names, name ≠ [])
    (h : a.addNames i names = (b, .error e)) :
    ∃ name ∈ names, ∃ err, name.encode = .error err ∧ e = .encoding err := by
  induction names generalizing a i with
  | nil => simp [addNames] at h
  | cons name rest ih =>
    rw [addNames] at h
    split at h
    · next hchild =>
      obtain rfl := Except.error.inj (Prod.mk.inj h).2
      rcases of_addChild_eq_error hchild with ⟨hnil, _⟩ | herr
      · exact absurd hnil (hnames name List.mem_cons_self)
      · exact ⟨name, List.mem_cons_self, herr⟩
    · obtain ⟨other, hother, herr⟩ := ih (fun n hn => hnames n (List.mem_cons_of_mem _ hn)) h
      exact ⟨other, List.mem_cons_of_mem _ hother, herr⟩

/-- A path without components is refused before any node is asked for; any other is refused at one of its names. -/
theorem pathFlaw_of_addPath {e : AtlasFault} (h : a.addPath i path Path.root = (b, .error e)) :
    PathFlaw path (.refused e) := by
  by_cases hnil : Path.components path = []
  · have hof : Segments.ofPath path Path.root = .ok (Path.components path) := rfl
    simp only [addPath, pathNames, hof, hnil, Prod.mk.injEq, Except.error.injEq] at h
    obtain rfl := h.2
    refine .slashes fun c hc => ?_
    by_contra hne
    exact Path.components_ne_nil ⟨c, hc, hne⟩ hnil
  · rw [addPath, pathNames_eq hnil] at h
    obtain ⟨name, hname, err, hencode, rfl⟩ :=
      of_addNames_eq_error (fun name hname => (Segments.mem_split hname).1) h
    exact .encoding hname hencode

theorem pathFlaw_of_addEdgePath {e : AtlasFault} (h : a.addEdgePath kind i path Path.root = (b, .error e)) :
    PathFlaw path (.refused e) := by
  unfold addEdgePath at h
  split at h
  · next hadd =>
    obtain rfl := Except.error.inj (Prod.mk.inj h).2
    exact pathFlaw_of_addPath hadd
  · simp at h

/-- Paths are asked for in order and the first refusal ends the list, so the fault belongs to one of them. -/
theorem pathFlaw_of_addEdges {e : LoadFault} (h : addEdges kind i a paths = (b, .error e)) :
    ∃ path ∈ paths, PathFlaw path e := by
  induction paths generalizing a with
  | nil => simp [addEdges] at h
  | cons path rest ih =>
    rw [addEdges] at h
    split at h
    · next hfirst =>
      obtain rfl := Except.error.inj (Prod.mk.inj h).2
      exact ⟨path, List.mem_cons_self, pathFlaw_of_addEdgePath hfirst⟩
    · obtain ⟨other, hother, hflaw⟩ := ih h
      exact ⟨other, List.mem_cons_of_mem _ hother, hflaw⟩

/-- A list is refused by the reader itself, with no path of it asked for. -/
theorem listFlaw_of_edgePaths {e : LoadFault} (h : edgePaths place value = .error e) : ListFlaw value e := by
  unfold edgePaths at h
  split at h
  · simp at h
  · simp at h
  · next items =>
    split at h
    · simp at h
    · next hnone =>
      obtain rfl := Except.error.inj h
      refine .list place fun paths hpaths => ?_
      cases hpaths with
      | strings hitems =>
        -- Strings none of which is empty would have been read.
        by_contra hne
        rw [hitems, strings?_map fun path hpath hnil => hne (hnil ▸ hpath)] at hnone
        simp at hnone
  · next value hnull harr =>
    obtain rfl := Except.error.inj h
    refine .list place fun paths hpaths => ?_
    cases hpaths with
    | null => exact absurd rfl hnull
    | strings => exact absurd rfl (harr _)

/-- An edge list that was read, but with a path that was refused. The path is one of its strings and is not empty, or
the list would not have been read. -/
theorem listFlaw_of_path {e : LoadFault} (h : edgePaths place value = .ok paths)
    (hflaw : ∃ path ∈ paths, PathFlaw path e) : ListFlaw value e := by
  obtain ⟨path, hpath, hflaw⟩ := hflaw
  obtain ⟨hlist, hne⟩ := edgeList_of_edgePaths h
  cases hlist with
  | absent => simp at hpath
  | null => simp at hpath
  | strings hitems => exact .path (hitems ▸ List.mem_map_of_mem hpath) (hne path hpath) hflaw

/-- The member for edges is refused as a whole, or for one of its lists, or for a path in one of them. -/
theorem flaw_of_loadMeta {members : Json.Members} {e : LoadFault}
    (h : loadMeta a i place (members.get? metaKey) = (b, .error e)) : Flaw (.obj members) e := by
  unfold loadMeta at h
  split at h
  · simp at h
  · simp at h
  · next edges hget =>
    -- Loading stops at the first fault: in one of the two lists itself, or in a path of it.
    split at h
    · next hdeps =>
      obtain rfl := Except.error.inj (Prod.mk.inj h).2
      exact .edges .dependency hget (listFlaw_of_edgePaths hdeps)
    · next deps hdeps =>
      split at h
      · next hfirst =>
        obtain rfl := Except.error.inj (Prod.mk.inj h).2
        exact .edges .dependency hget (listFlaw_of_path hdeps (pathFlaw_of_addEdges hfirst))
      · split at h
        · next hrdeps =>
          obtain rfl := Except.error.inj (Prod.mk.inj h).2
          exact .edges .dependent hget (listFlaw_of_edgePaths hrdeps)
        · next rdeps hrdeps =>
          exact .edges .dependent hget (listFlaw_of_path hrdeps (pathFlaw_of_addEdges h))
  · next value hnull hobj hget =>
    obtain rfl := Except.error.inj (Prod.mk.inj h).2
    exact .metaNotObject place hget hnull hobj

mutual

/-- **The fault with which a document is refused tells what is wrong with it**, whatever was there before. -/
theorem flaw_of_loadAt {a b : Atlas} {i : Nat} {place : Text} {e : LoadFault} (d : Json)
    (h : loadAt a i place d = (b, .error e)) : Flaw d e := by
  cases d with
  | obj members =>
    rw [loadAt] at h
    split at h
    · next hmembers =>
      obtain rfl := Except.error.inj (Prod.mk.inj h).2
      obtain ⟨m, hm, hkey, hflaw | hflaw⟩ := flaw_of_loadMembers members hmembers
      · exact .name hm hkey hflaw
      · exact .nested hm hkey hflaw
    · exact flaw_of_loadMeta h
  | _ =>
    simp only [loadAt, Prod.mk.injEq, Except.error.injEq] at h
    obtain rfl := h.2
    exact .notObject place (by simp)

/-- The first member that fails is to blame, for its name or for its value. Those before it were read, those after it
were not looked at. -/
theorem flaw_of_loadMembers {a b : Atlas} {i : Nat} {place : Text} {e : LoadFault}
    (members : List (Text × Json)) (h : loadMembers a i place members = (b, .error e)) :
    ∃ m ∈ members, m.1 ≠ metaKey ∧ (NameFlaw m.1 e ∨ Flaw m.2 e) := by
  cases members with
  | nil => simp [loadMembers] at h
  | cons first rest =>
    obtain ⟨key, value⟩ := first
    rw [loadMembers] at h
    split at h
    · obtain ⟨m, hm, hflaw⟩ := flaw_of_loadMembers rest h
      exact ⟨m, List.mem_cons_of_mem _ hm, hflaw⟩
    · next hkey =>
      split at h
      · next hchild =>
        obtain rfl := Except.error.inj (Prod.mk.inj h).2
        refine ⟨_, List.mem_cons_self, hkey, .inl ?_⟩
        -- The atlas refuses the name as it is without its escape, which is empty only if the key was.
        rcases of_addChild_eq_error hchild with ⟨hnil, rfl⟩ | ⟨err, hencode, rfl⟩
        · exact .empty (unescapeKey_eq_nil hnil)
        · exact .encoding hencode
      · split at h
        · next hvalue =>
          obtain rfl := Except.error.inj (Prod.mk.inj h).2
          exact ⟨_, List.mem_cons_self, hkey, .inr (flaw_of_loadAt value hvalue)⟩
        · obtain ⟨m, hm, hflaw⟩ := flaw_of_loadMembers rest h
          exact ⟨m, List.mem_cons_of_mem _ hm, hflaw⟩

end

/-! ## Breaches -/

/-- The object of a node in a document: the document itself, or what a member that stands for a child has
inside. -/
inductive Inside : Json → Json → Prop where
  | self {d : Json} : Inside d d
  | member {members : Json.Members} {m : Text × Json} {part : Json} (hm : m ∈ members) (hkey : m.1 ≠ metaKey)
      (h : Inside m.2 part) : Inside (.obj members) part

/-- Somewhere in the document a member has the empty name. The member for edges has a name, so it need not be
excluded. -/
def HasEmptyName (d : Json) : Prop :=
  ∃ members : Json.Members, Inside d (.obj members) ∧ ∃ m ∈ members, m.1 = []

/-- Somewhere in the document an edge list holds a path of nothing but slashes. The empty path is not meant: the
reader refuses that one itself. -/
def HasSlashPath (d : Json) : Prop :=
  ∃ (members edges : Json.Members) (kind : EdgeKind) (items : List Json) (path : Text), Inside d (.obj members) ∧
    members.get? metaKey = some (.obj edges) ∧ edges.get? (edgeKey kind) = some (.arr items) ∧
    .str path ∈ items ∧ path ≠ [] ∧ ∀ c ∈ path, c = Path.slash

/-- The faults that say that a document is malformed, or that a text in it has no bytes. They are those that a caller
is told of as a bad document; the rest are told of as breaches. -/
def IsMalformed : LoadFault → Prop
  | .notObject _ => True
  | .metaNotObject _ => True
  | .edgeList _ => True
  | .refused (.encoding _) => True
  | .refused _ => False

/-- What the reader itself checks: objects in objects, and edge lists of strings that are not empty. -/
inductive Checked : Json → Prop where
  | obj {members : Json.Members} {paths : EdgeKind → List Text} (edges : Edges (members.get? metaKey) paths)
      (paths : ∀ kind, ∀ path ∈ paths kind, path ≠ [])
      (nested : ∀ m ∈ members, m.1 ≠ metaKey → Checked m.2) : Checked (.obj members)

/-- A breach in a member is a breach of the whole. The same holds of the other kind. -/
theorem HasEmptyName.nested {members : Json.Members} {m : Text × Json} (hm : m ∈ members) (hkey : m.1 ≠ metaKey)
    (h : HasEmptyName m.2) : HasEmptyName (.obj members) := by
  obtain ⟨below, hinside, hempty⟩ := h
  exact ⟨below, .member hm hkey hinside, hempty⟩

theorem HasSlashPath.nested {members : Json.Members} {m : Text × Json} (hm : m ∈ members) (hkey : m.1 ≠ metaKey)
    (h : HasSlashPath m.2) : HasSlashPath (.obj members) := by
  obtain ⟨below, edges, kind, items, path, hinside, hpath⟩ := h
  exact ⟨below, edges, kind, items, path, .member hm hkey hinside, hpath⟩

/-- **Three kinds of faults**: the document is malformed, a name is empty, or a path is nothing but slashes. Only the
last two say something about the document that its reader has not looked for. -/
theorem Flaw.cases {d : Json} {e : LoadFault} (h : Flaw d e) :
    IsMalformed e ∨ (e = .refused .emptyName ∧ HasEmptyName d) ∨ (e = .refused .emptyPath ∧ HasSlashPath d) := by
  induction h with
  | notObject => exact .inl trivial
  | name hm hkey h =>
    cases h with
    | empty hname => exact .inr (.inl ⟨rfl, _, .self, _, hm, hname⟩)
    | encoding => exact .inl trivial
  | nested hm hkey _ ih =>
    rcases ih with hmalformed | ⟨he, hname⟩ | ⟨he, hpath⟩
    · exact .inl hmalformed
    · exact .inr (.inl ⟨he, hname.nested hm hkey⟩)
    · exact .inr (.inr ⟨he, hpath.nested hm hkey⟩)
  | metaNotObject => exact .inl trivial
  | edges kind hget h =>
    -- The index of `h` is a look-up, so it has to become a variable before the cases of the list can be told apart.
    generalize hlist : Json.Members.get? _ _ = list at h
    cases h with
    | list => exact .inl trivial
    | path hpath hne h =>
      cases h with
      | slashes h => exact .inr (.inr ⟨rfl, _, _, kind, _, _, .self, hget, hlist, hpath, hne, h⟩)
      | encoding => exact .inl trivial

/-- Without surrogates a name has bytes, so the only thing wrong with it can be that there is none. -/
theorem not_malformed_of_nameFlaw {e : LoadFault} (h : NameFlaw key e) (hs : key.Surrogateless) :
    ¬ IsMalformed e := by
  cases h with
  | empty => exact id
  | encoding h =>
    rw [(hs.of_subset (unescapeKey_subset key)).decoded.encode_eq] at h
    simp at h

/-- Without surrogates the names of a path have bytes, so the only thing wrong with it can be that it has none. -/
theorem not_malformed_of_pathFlaw {e : LoadFault} (h : PathFlaw path e) (hs : path.Surrogateless) :
    ¬ IsMalformed e := by
  cases h with
  | slashes => exact id
  | encoding hname h =>
    rw [(hs.decoded.of_mem_split (by decide) hname).encode_eq] at h
    simp at h

/-- What an object of edges says about one kind of edge. -/
theorem Edges.list {edges : Json.Members} {paths : EdgeKind → List Text} (h : Edges (some (.obj edges)) paths)
    (kind : EdgeKind) : EdgeList (edges.get? (edgeKey kind)) (paths kind) := by
  cases h with
  | lists h => exact h kind

/-- **What passes the checks and has no surrogates is not malformed.** By induction on the flaw: each of its forms is
contradicted by the check of the same level, or is about a text. -/
theorem Flaw.not_malformed {d : Json} {e : LoadFault} (h : Flaw d e) (hchecked : Checked d)
    (hs : d.Surrogateless) : ¬ IsMalformed e := by
  induction h with
  | notObject place hobj =>
    cases hchecked with
    | obj => exact absurd rfl (hobj _)
  | name hm hkey h => exact not_malformed_of_nameFlaw h (hs.name hm)
  | nested hm hkey _ ih =>
    cases hchecked with
    | obj _ _ hnested => exact ih (hnested _ hm hkey) (hs.member hm)
  | metaNotObject place hget hnull hobj =>
    cases hchecked with
    | obj edges =>
      rw [hget] at edges
      cases edges with
      | null => exact absurd rfl hnull
      | lists => exact absurd rfl (hobj _)
  | edges kind hget h =>
    cases hchecked with
    | obj edges hne =>
      have hlists := hs.get? hget
      rw [hget] at edges
      have hpaths := edges.list kind
      -- The checks have found a list of paths none of which is empty, so the fault is in one of the paths.
      generalize hlist : Json.Members.get? _ _ = list at h
      cases h with
      | list place h =>
        rw [hlist] at hpaths
        exact absurd rfl (hne kind [] (h _ hpaths))
      | path hpath _ h =>
        exact not_malformed_of_pathFlaw h ((hlists.get? hlist).item hpath _ List.mem_cons_self)

/-- All parts of a document of the right shape have it too. So one breach anywhere spoils the whole. -/
theorem Shaped.inside {d part : Json} (h : Shaped d) (hinside : Inside d part) : Shaped part := by
  induction hinside with
  | self => exact h
  | member hm hkey _ ih =>
    cases h with
    | obj _ _ _ hnested => exact ih (hnested _ hm hkey)

theorem not_shaped_of_hasEmptyName {d : Json} (h : HasEmptyName d) : ¬ Shaped d := by
  obtain ⟨members, hinside, m, hm, hname⟩ := h
  intro hshaped
  cases hshaped.inside hinside with
  | obj _ _ hnames => exact hnames m hm (by rw [hname]; decide) hname

theorem not_shaped_of_hasSlashPath {d : Json} (h : HasSlashPath d) : ¬ Shaped d := by
  obtain ⟨members, edges, kind, items, path, hinside, hget, hlist, hpath, _, hslashes⟩ := h
  intro hshaped
  cases hshaped.inside hinside with
  | obj hedges hnamed =>
    rw [hget] at hedges
    have hlisted := hedges.list kind
    rw [hlist] at hlisted
    obtain ⟨c, hc, hne⟩ := hnamed kind path (hlisted.mem hpath)
    exact hne (hslashes c hc)

end Document

namespace Atlas

open Document

variable {a : Atlas} {d : Json}

/-- Reading a whole document begins at the root and has no place yet. -/
theorem shaped_of_load (h : (a.load d).2 = .ok ()) : Shaped d := shaped_of_loadAt d (Prod.ext rfl h)

theorem flaw_of_load {e : LoadFault} (h : (a.load d).2 = .error e) : Flaw d e := flaw_of_loadAt d (Prod.ext rfl h)

/-- **How a document is refused.** The fault says that the document is malformed, with two exceptions: an
empty name, and a path of nothing but slashes, break rules of the atlas. Both can be met: a document that
passes all checks of the reader and has no surrogates, but has such a name or path, is refused for it. -/
theorem load_refusal (a : Atlas) (d : Json) :
    (∀ e, (a.load d).2 = .error e → IsMalformed e ∨ (e = .refused .emptyName ∧ HasEmptyName d) ∨
      (e = .refused .emptyPath ∧ HasSlashPath d)) ∧
    (Checked d → d.Surrogateless → HasEmptyName d ∨ HasSlashPath d →
      (a.load d).2 = .error (.refused .emptyName) ∨ (a.load d).2 = .error (.refused .emptyPath)) := by
  refine ⟨fun e h => (flaw_of_load h).cases, fun hchecked hs hbreach => ?_⟩
  -- A breach is a flaw of the shape, so the document cannot have been read; and it passed the checks, so what it is
  -- refused for is a breach.
  have hshaped : ¬ Shaped d := by
    rcases hbreach with h | h
    · exact not_shaped_of_hasEmptyName h
    · exact not_shaped_of_hasSlashPath h
  cases hload : (a.load d).2 with
  | ok => exact absurd (shaped_of_load hload) hshaped
  | error e =>
    have hflaw := flaw_of_load hload
    rcases hflaw.cases with hmalformed | ⟨rfl, _⟩ | ⟨rfl, _⟩
    · exact absurd hmalformed (hflaw.not_malformed hchecked hs)
    · exact .inl rfl
    · exact .inr rfl

/-- The two smallest documents that break rules of the atlas. -/
theorem load_refusal_breach :
    (empty.load (.obj [([], .obj [])])).2 = .error (.refused .emptyName) ∧
      (empty.load (.obj [(metaKey, .obj [(depsKey, .arr [.str "/"])])])).2 = .error (.refused .emptyPath) := by
  exact ⟨rfl, rfl⟩

end Atlas

end HeaderAtlas
