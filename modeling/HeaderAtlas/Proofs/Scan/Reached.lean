import HeaderAtlas.Proofs.Text.Utf8
import HeaderAtlas.Scan.Survey
import Mathlib.Data.List.Basic
/-!
# What a walk reaches

`Opens` is the walk without its order, its failures and its visits: it opens plain directories by their names, one
after another. A survey that does not fail visits exactly the directories that can be opened so, except those whose
first name is skipped (`Scan.Scope.describes_surveyTop`).

The walk itself is a recursion over a tree that has been sorted beforehand, with a list of visits for a result. Three
things stand between that and `Opens`, and each is removed on its own. Sorting does not change what can be opened
(`Entry.opens_inOrder_iff`). Skipping concerns the first name only (`Scope.Enters`). And a list of visits says which
directories were visited by what it contains (`Scope.Describes`), so lists can be put together without regard to their
order.
-/

set_option autoImplicit false

namespace HeaderAtlas

/-- The entries of a directory: names, and what they name. -/
abbrev Entries := List (Bytes × Entry)

/-- Opening directories by their names, one after another, leads from the entries of a directory to those of another.
Only plain directories are opened, so no link is followed. -/
inductive Opens : Entries → List Text → Entries → Prop
  | here {entries : Entries} : Opens entries [] entries
  | inside {entries inner within : Entries} {name : Bytes} {access : Access} {names : List Text} :
      (name, Entry.directory inner access) ∈ entries → Opens inner names within →
        Opens entries (name.toText :: names) within

namespace Opens

variable {top mid within : Entries} {names more : List Text}

theorem cons_iff {n : Text} : Opens top (n :: names) within ↔
    ∃ name inner access, name.toText = n ∧ (name, Entry.directory inner access) ∈ top ∧
      Opens inner names within := by
  constructor
  · rintro (_ | ⟨hmem, hopens⟩)
    exact ⟨_, _, _, rfl, hmem, hopens⟩
  · rintro ⟨name, inner, access, rfl, hmem, hopens⟩
    exact .inside hmem hopens

theorem nil_iff : Opens top [] within ↔ within = top := by
  constructor
  · rintro ⟨⟩
    rfl
  · rintro rfl
    exact .here

/-- What is opened by many names is opened by the first of them and then by the rest. -/
theorem append_iff : Opens top (names ++ more) within ↔
    ∃ mid, Opens top names mid ∧ Opens mid more within := by
  induction names generalizing top with
  | nil => simp [nil_iff]
  | cons n names ih =>
    rw [List.cons_append, cons_iff]
    simp only [ih, cons_iff]
    constructor
    · rintro ⟨name, inner, access, hn, hmem, mid, hmid, hmore⟩
      exact ⟨mid, ⟨name, inner, access, hn, hmem, hmid⟩, hmore⟩
    · rintro ⟨mid, ⟨name, inner, access, hn, hmem, hmid⟩, hmore⟩
      exact ⟨name, inner, access, hn, hmem, mid, hmid, hmore⟩

/-- The names come from the disk, so their texts are decoded. -/
theorem decoded (h : Opens top names within) : ∀ n ∈ names, n.Decoded := by
  induction h with
  | here => simp
  | inside _ _ ih => exact List.forall_mem_cons.2 ⟨Text.decoded_toText _, ih⟩

end Opens

/-! ## Sorting -/

namespace Text

theorem isLe_iff {a b : Text} : isLe a b = true ↔ a < b ∨ a = b := by
  induction a generalizing b with
  | nil => cases b <;> simp [isLe]
  | cons c a ih =>
    cases b with
    | nil => simp [isLe]
    | cons d b =>
      rw [isLe, List.cons_lt_cons_iff, Bool.or_eq_true, Bool.and_eq_true, ih]
      simp only [decide_eq_true_eq, beq_iff_eq, List.cons.injEq, Fin.lt_def, Fin.ext_iff]
      grind

/-- The order by which entries are sorted is one: this and the next lemma are what sorting asks for. -/
theorem isLe_trans {a b c : Text} (hab : isLe a b = true) (hbc : isLe b c = true) : isLe a c = true := by
  rw [isLe_iff] at hab hbc ⊢
  rcases hab with hab | rfl
  · rcases hbc with hbc | rfl
    · exact .inl (List.lt_trans hab hbc)
    · exact .inl hab
  · exact hbc

theorem isLe_total (a b : Text) : (isLe a b || isLe b a) = true := by
  rw [Bool.or_eq_true, isLe_iff, isLe_iff]
  rcases Std.lt_trichotomy a b with h | h | h
  · exact .inl (.inl h)
  · exact .inl (.inr h)
  · exact .inr (.inl h)

end Text

namespace Entry

/-- The entries of a directory as a survey takes them. -/
def inOrder (entries : Entries) : Entries :=
  (sortedAll entries).mergeSort fun a b => Bytes.nameLe a.1 b.1

theorem sorted_directory (entries : Entries) (access : Access) :
    (directory entries access).sorted = directory (inOrder entries) access := by
  rw [sorted, inOrder]

theorem sortedAll_eq_map (entries : Entries) :
    sortedAll entries = entries.map fun entry => (entry.1, entry.2.sorted) := by
  induction entries with
  | nil => rfl
  | cons entry rest ih => rw [sortedAll, ih, List.map_cons]

/-- Sorting keeps what is in a directory, but sorts it in turn. -/
theorem mem_inOrder {entries : Entries} {name : Bytes} {e : Entry} :
    (name, e) ∈ inOrder entries ↔ ∃ e', (name, e') ∈ entries ∧ e'.sorted = e := by
  rw [inOrder, List.mem_mergeSort, sortedAll_eq_map, List.mem_map]
  constructor
  · rintro ⟨⟨n, e'⟩, hmem, heq⟩
    obtain ⟨rfl, rfl⟩ := Prod.mk.inj heq
    exact ⟨e', hmem, rfl⟩
  · rintro ⟨e', hmem, rfl⟩
    exact ⟨(name, e'), hmem, rfl⟩

/-- Sorting keeps the names of a directory. -/
theorem perm_names_inOrder (entries : Entries) : ((inOrder entries).map (·.1)).Perm (entries.map (·.1)) := by
  refine ((List.mergeSort_perm _ _).map _).trans ?_
  rw [sortedAll_eq_map, List.map_map]
  exact List.Perm.refl _

/-- The names of a sorted directory go up, if no two of them are the same. Different bytes are decoded to different
texts, so the order by texts is strict. -/
theorem pairwise_inOrder {entries : Entries} (h : (entries.map (·.1)).Nodup) :
    (inOrder entries).Pairwise fun a b => a.1.toText < b.1.toText := by
  have hsorted : (inOrder entries).Pairwise fun a b => Bytes.nameLe a.1 b.1 = true := by
    refine List.pairwise_mergeSort ?_ ?_ _
    · intro a b c hab hbc
      exact Text.isLe_trans hab hbc
    · intro a b
      exact Text.isLe_total a.1.toText b.1.toText
  have hdistinct : (inOrder entries).Pairwise fun a b => a.1 ≠ b.1 := by
    rw [← List.pairwise_map]
    exact (perm_names_inOrder entries).nodup_iff.2 h
  -- Different names have different texts, so what does not come after comes before.
  refine (hsorted.and hdistinct).imp fun {a b} hab => ?_
  refine (Text.isLe_iff.1 hab.1).resolve_right fun heq => hab.2 ?_
  rw [← Bytes.key_toText a.1, heq, Bytes.key_toText]

/-- Only a directory is a directory when sorted. -/
theorem sorted_eq_directory {e : Entry} {within : Entries} {access : Access} :
    e.sorted = directory within access ↔ ∃ inner, e = directory inner access ∧ inOrder inner = within := by
  cases e with
  | directory inner l =>
    rw [sorted_directory]
    constructor
    · intro h
      obtain ⟨rfl, rfl⟩ := directory.inj h
      exact ⟨inner, rfl, rfl⟩
    · rintro ⟨_, h, rfl⟩
      obtain ⟨rfl, rfl⟩ := directory.inj h
      rfl
  | _ => simp [sorted]

end Entry

/-- Sorted directories are opened as they are unsorted. -/
theorem opens_inOrder_iff {top within : Entries} {names : List Text} :
    Opens (Entry.inOrder top) names within ↔ ∃ inner, Opens top names inner ∧ Entry.inOrder inner = within := by
  induction names generalizing top with
  | nil => simp [Opens.nil_iff, eq_comm]
  | cons n names ih =>
    simp only [Opens.cons_iff, Entry.mem_inOrder]
    constructor
    · rintro ⟨name, _, access, hn, ⟨e, hmem, he⟩, hopens⟩
      obtain ⟨inner, rfl, rfl⟩ := Entry.sorted_eq_directory.1 he
      obtain ⟨found, hfound, heq⟩ := ih.1 hopens
      exact ⟨found, ⟨name, inner, access, hn, hmem, hfound⟩, heq⟩
    · rintro ⟨found, ⟨name, inner, access, hn, hmem, hfound⟩, heq⟩
      exact ⟨name, Entry.inOrder inner, access, hn,
        ⟨_, hmem, Entry.sorted_directory inner access⟩, ih.2 ⟨found, hfound, heq⟩⟩

/-! ## Surveys -/

namespace Scan

namespace Scope

variable {s : Scope} {path : Text} {names rel : List Text} {entries within : Entries}

/-- Opening directories below one with the given names, which may skip the first. At the top there are no names yet,
and only there is anything skipped. -/
def Enters (s : Scope) (names : List Text) (entries : Entries) (rel : List Text) (within : Entries) : Prop :=
  Opens entries rel within ∧ ∀ n ∈ rel.head?, s.isSkipped names n = false

theorem enters_nil_iff : s.Enters names entries [] within ↔ within = entries := by
  simp [Enters, Opens.nil_iff]

/-- Below the top nothing is skipped. -/
theorem enters_concat_iff {n : Text} : s.Enters (names ++ [n]) entries rel within ↔ Opens entries rel within := by
  simp [Enters, isSkipped]

/-- The first name, and what is opened below it with that name among those that lead there. -/
theorem enters_cons_iff {n : Text} : s.Enters names entries (n :: rel) within ↔
    s.isSkipped names n = false ∧ ∃ name e, (name, e) ∈ entries ∧ name.toText = n ∧
      ∃ inner access, e = .directory inner access ∧ s.Enters (names ++ [n]) inner rel within := by
  simp only [enters_concat_iff]
  simp only [Enters, Opens.cons_iff, List.head?_cons, Option.mem_def, Option.some.injEq, forall_eq']
  constructor
  · rintro ⟨⟨name, inner, access, hn, hmem, hopens⟩, hskip⟩
    exact ⟨hskip, name, _, hmem, hn, inner, access, rfl, hopens⟩
  · rintro ⟨hskip, name, _, hmem, hn, inner, access, rfl, hopens⟩
    exact ⟨⟨name, inner, access, hn, hmem, hopens⟩, hskip⟩

/-- The visits are those of the directories that are opened from the directory at `path` with the given names, and
none of them failed. It says so in both directions, and says of each visit with what entries it was made. -/
structure Describes (s : Scope) (path : Text) (names : List Text) (opened : List Text → Entries → Prop)
    (visits : List Visit) : Prop where
  complete : ∀ rel within, opened rel within →
    ∃ v ∈ visits, s.visit (rel.foldl Path.join path) (names ++ rel) within = (v, none)
  sound : ∀ v ∈ visits, ∃ rel within, opened rel within ∧
    s.visit (rel.foldl Path.join path) (names ++ rel) within = (v, none)

namespace Describes

variable {opened opened' : List Text → Entries → Prop} {visits visits' : List Visit}

/-- Which directories are meant matters only up to equivalence. -/
theorem congr (h : s.Describes path names opened visits)
    (heq : ∀ rel within, opened rel within ↔ opened' rel within) : s.Describes path names opened' visits where
  complete rel within ho := h.complete rel within ((heq rel within).2 ho)
  sound v hv := by
    obtain ⟨rel, within, ho, hvisit⟩ := h.sound v hv
    exact ⟨rel, within, (heq rel within).1 ho, hvisit⟩

theorem nil (hnone : ∀ rel within, ¬ opened rel within) : s.Describes path names opened [] where
  complete rel within ho := absurd ho (hnone rel within)
  sound v hv := by simp at hv

/-- Visits of different parts of a directory are put together. -/
theorem append (h : s.Describes path names opened visits) (h' : s.Describes path names opened' visits') :
    s.Describes path names (fun rel within => opened rel within ∨ opened' rel within) (visits ++ visits') where
  complete rel within ho := by
    rcases ho with ho | ho
    · obtain ⟨v, hv, hvisit⟩ := h.complete rel within ho
      exact ⟨v, List.mem_append_left _ hv, hvisit⟩
    · obtain ⟨v, hv, hvisit⟩ := h'.complete rel within ho
      exact ⟨v, List.mem_append_right _ hv, hvisit⟩
  sound v hv := by
    rcases List.mem_append.1 hv with hv | hv
    · obtain ⟨rel, within, ho, hvisit⟩ := h.sound v hv
      exact ⟨rel, within, .inl ho, hvisit⟩
    · obtain ⟨rel, within, ho, hvisit⟩ := h'.sound v hv
      exact ⟨rel, within, .inr ho, hvisit⟩

/-- A directory by itself, without those in it. -/
theorem single {v : Visit} (h : s.visit path names entries = (v, none)) :
    s.Describes path names (fun rel within => rel = [] ∧ within = entries) [v] where
  complete := by
    rintro _ _ ⟨rfl, rfl⟩
    exact ⟨v, List.mem_singleton_self v, by rwa [List.append_nil]⟩
  sound w hw := by
    rw [List.mem_singleton.1 hw]
    exact ⟨[], entries, ⟨rfl, rfl⟩, by rwa [List.append_nil]⟩

/-- The same visits as seen from the directory above. -/
theorem fromAbove {n : Text} (h : s.Describes (Path.join path n) (names ++ [n]) opened visits) :
    s.Describes path names (fun rel within => ∃ rest, rel = n :: rest ∧ opened rest within) visits where
  complete := by
    rintro _ within ⟨rest, rfl, ho⟩
    obtain ⟨v, hv, hvisit⟩ := h.complete rest within ho
    exact ⟨v, hv, by rwa [List.append_assoc] at hvisit⟩
  sound v hv := by
    obtain ⟨rest, within, ho, hvisit⟩ := h.sound v hv
    exact ⟨n :: rest, within, ⟨rest, rfl, ho⟩, by rwa [List.append_assoc] at hvisit⟩

end Describes

/-- A survey of a directory that does not fail visits it and surveys what is in it. -/
theorem survey_directory {access : Access} (h : (s.survey path names (.directory entries access)).failure = none) :
    ∃ v, s.visit path names entries = (v, none) ∧ (s.surveyAll path names entries).failure = none ∧
      (s.survey path names (.directory entries access)).visits =
        v :: (s.surveyAll path names entries).visits := by
  rw [survey] at h ⊢
  split at h
  · simp at h
  · cases hvisit : s.visit path names entries with
    | mk v failure =>
      rw [hvisit] at h
      cases failure with
      | some e => simp at h
      | none => exact ⟨v, rfl, h, rfl⟩

/-- A survey of entries that does not fail surveys those that are not skipped. -/
theorem surveyAll_cons {name : Bytes} {e : Entry} {rest : Entries}
    (h : (s.surveyAll path names ((name, e) :: rest)).failure = none) :
    (s.surveyAll path names rest).failure = none ∧
      ((s.isSkipped names name.toText = true ∧
          (s.surveyAll path names ((name, e) :: rest)).visits = (s.surveyAll path names rest).visits) ∨
        (s.isSkipped names name.toText = false ∧
          (s.survey (Path.join path name.toText) (names ++ [name.toText]) e).failure = none ∧
          (s.surveyAll path names ((name, e) :: rest)).visits =
            (s.survey (Path.join path name.toText) (names ++ [name.toText]) e).visits ++
              (s.surveyAll path names rest).visits)) := by
  rw [surveyAll] at h ⊢
  split at h
  · next hskip => exact ⟨h, .inl ⟨hskip, by rw [if_pos hskip]⟩⟩
  · next hskip =>
    dsimp only at h ⊢
    split at h
    · simp at h
    · next hfirst => exact ⟨h, .inr ⟨by simpa using hskip, hfirst, by rw [if_neg hskip]⟩⟩

mutual

/-- A survey of an entry opens nothing but a directory. The recursion is that of the survey, over the entry and over
the list of its entries. -/
theorem describes_survey (s : Scope) (path : Text) (names : List Text) : ∀ e : Entry,
    (s.survey path names e).failure = none →
      s.Describes path names
        (fun rel within => ∃ inner access, e = .directory inner access ∧ s.Enters names inner rel within)
        (s.survey path names e).visits
  | .directory entries access, h => by
    obtain ⟨v, hvisit, hbelow, hvisits⟩ := survey_directory h
    rw [hvisits]
    -- No name at all is the directory itself, and any other list of names has a first one.
    refine ((Describes.single hvisit).append (describes_surveyAll s path names entries hbelow)).congr
      fun rel within => ?_
    cases rel with
    | nil => simp [enters_nil_iff]
    | cons n rel => simp
  | .file _ _, _ => .nil (by simp)
  | .link _ _, _ => .nil (by simp)
  | .pipe _ _, _ => .nil (by simp)
  | .device _ _, _ => .nil (by simp)

/-- A survey of entries opens the directories among them that are not skipped. -/
theorem describes_surveyAll (s : Scope) (path : Text) (names : List Text) : ∀ entries : Entries,
    (s.surveyAll path names entries).failure = none →
      s.Describes path names (fun rel within => rel ≠ [] ∧ s.Enters names entries rel within)
        (s.surveyAll path names entries).visits
  | [], _ => by
    refine .nil fun rel within => ?_
    cases rel with
    | nil => simp
    | cons n rel => simp [enters_cons_iff]
  | (name, e) :: rest, h => by
    obtain ⟨hrest, ⟨hskip, hvisits⟩ | ⟨hskip, hfirst, hvisits⟩⟩ := surveyAll_cons h
    · rw [hvisits]
      refine (describes_surveyAll s path names rest hrest).congr fun rel within => ?_
      cases rel with
      | nil => simp
      | cons n rel =>
        -- The entry could be opened by its own name only, and that is skipped.
        simp only [enters_cons_iff, List.mem_cons]
        grind
    · rw [hvisits]
      refine ((describes_survey s _ _ e hfirst).fromAbove.append
        (describes_surveyAll s path names rest hrest)).congr fun rel within => ?_
      cases rel with
      | nil => simp
      | cons n rel =>
        simp only [enters_cons_iff, List.mem_cons]
        grind

end

/-- **The visits of a survey** that does not fail are those of the directories that are opened from the
scan directory, if the first name is not skipped. -/
theorem describes_surveyTop (h : s.surveyTop.failure = none) :
    ∃ top, s.host.list (s.host.absolute s.scanDir) = .ok top ∧
      s.Describes (s.host.absolute s.scanDir) []
        (fun rel within => ∃ inner, s.Enters [] top rel inner ∧ Entry.inOrder inner = within)
        s.surveyTop.visits := by
  rw [surveyTop] at h ⊢
  split at h
  · simp at h
  · next top htop =>
    refine ⟨top, htop, (describes_survey s _ [] _ h).congr fun rel within => ?_⟩
    simp only [Entry.sorted_directory, Entry.directory.injEq, Enters]
    constructor
    · rintro ⟨_, _, ⟨rfl, rfl⟩, hopens, hskip⟩
      obtain ⟨inner, hinner, heq⟩ := opens_inOrder_iff.1 hopens
      exact ⟨inner, ⟨hinner, hskip⟩, heq⟩
    · rintro ⟨inner, ⟨hinner, hskip⟩, heq⟩
      exact ⟨_, _, ⟨rfl, rfl⟩, opens_inOrder_iff.2 ⟨inner, hinner, heq⟩, hskip⟩

end Scope

end Scan

end HeaderAtlas
