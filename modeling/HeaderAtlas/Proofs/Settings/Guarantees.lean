import HeaderAtlas.Proofs.Settings.Strict
import HeaderAtlas.Proofs.Wildcard
import HeaderAtlas.Scan.Draft
import Mathlib.Data.List.Infix
/-!
# What a check guarantees

A lenient check can refuse a configuration for two reasons only, an unknown format and a pattern that cannot be
matched (`Settings.Unacceptable`). Whatever else is wrong with a configuration, settings come out, and they can be
relied upon (`Settings.Guaranteed`): each value is of the kind that the default has, paths are absolute, no directory
is there twice and the order of directories is the user's. Written as a configuration they give the parameters of a
scan, and no pattern among these is at fault for any file name.

This is so on every machine that can be asked what the paths mean. On one that cannot (`Settings.Astray`) the check
ends with that, unless the configuration is refused before any path is read.
-/

set_option autoImplicit false

namespace HeaderAtlas

open HeaderAtlas.Path

/-! ## Drafts that say what parameters say -/

namespace Scan

/-- The parameters as values. -/
def Params.draft (p : Params) : Draft where
  scanDir := .str p.scanDir
  projectRoot := .str p.projectRoot
  includeDirs := p.includeDirs.map .str
  rootDirs := p.rootDirs.map .str
  whitelist := p.whitelist.map .str
  blacklist := p.blacklist.map .str
  sources := p.sources.map .str
  skipped := p.skipped.map .str
  reverse := p.reverse

/-- No pattern of the draft is at fault, whatever name it is matched with. -/
def Draft.Matchable (d : Draft) : Prop :=
  ∀ pattern ∈ d.whitelist ++ d.blacklist ++ d.sources, ∀ name,
    ∃ answer, Wildcard.isMatchOfValue name pattern = .ok answer

theorem Params.Supported.matchable {p : Params} (h : p.Supported) : p.draft.Matchable := by
  intro pattern hpattern name
  simp only [Params.draft, ← List.map_append] at hpattern
  obtain ⟨t, ht, rfl⟩ := List.mem_map.1 hpattern
  obtain ⟨answer, hanswer⟩ := Wildcard.exists_isMatch name (h t ht)
  exact ⟨answer, by rw [Wildcard.isMatchOfValue, hanswer]⟩

namespace Draft

variable {config : Json.Members} {key : Text} {ts : List Text}

theorem optionalValues_texts (h : config.get? key = some (Settings.textsValue ts)) :
    optionalValues config key = .ok (ts.map .str) := by
  rw [optionalValues, h]
  cases ts <;> rfl

theorem requiredValues_texts (h : config.get? key = some (Settings.textsValue ts)) :
    requiredValues config key = .ok (ts.map .str) := by
  rw [requiredValues, required, h]
  rfl

theorem required_eq {value : Json} (h : config.get? key = some value) : required config key = .ok value := by
  rw [required, h]

end Draft

end Scan

namespace Settings

variable {host : Host} {config : Json} {s : Settings}

/-- **The configuration of settings** is read into the draft of their parameters. -/
theorem ofValue_members (s : Settings) : Scan.Draft.ofValue (.obj s.members) = .ok s.params.draft := by
  have hget := get?_members s
  have horRoot : ∀ ts : List Text,
      (if (ts.map Json.str).isEmpty then [Json.str s.projectRoot] else ts.map .str) =
        (if ts.isEmpty then [s.projectRoot] else ts).map .str := by
    intro ts
    cases ts <;> rfl
  simp only [Scan.Draft.ofValue, Scan.Draft.ofConfig, bind, Except.bind, pure, Except.pure,
    Scan.Draft.required_eq (hget "project_root" (.str s.projectRoot) (by simp [fields])),
    Scan.Draft.optionalValues_texts (hget "include_dirs" (textsValue s.includeDirs) (by simp [fields])),
    Scan.Draft.optionalValues_texts (hget "root_dirs" (textsValue s.rootDirs) (by simp [fields])),
    Scan.Draft.required_eq (hget "scan_dir" (.str s.scanDir) (by simp [fields])),
    Scan.Draft.requiredValues_texts (hget "whitelist_wildcards" (textsValue s.whitelist) (by simp [fields])),
    Scan.Draft.requiredValues_texts (hget "blacklist_wildcards" (textsValue s.blacklist) (by simp [fields])),
    Scan.Draft.requiredValues_texts (hget "cxx_wildcards" (textsValue s.sources) (by simp [fields])),
    Scan.Draft.requiredValues_texts (hget "skip_root_dirs" (textsValue s.skipped) (by simp [fields])),
    Scan.Draft.required_eq (hget "create_reverse_dependencies" (.bool s.reverse) (by simp [fields])),
    horRoot]
  rfl

/-! ## Kinds of values -/

/-- All settings have members of the same names and kinds. -/
theorem map_kind_fields (s s' : Settings) :
    s.fields.map (fun member => (member.1, member.2.kindName)) =
      s'.fields.map fun member => (member.1, member.2.kindName) := rfl

theorem exists_member_of_defaults (host : Host) (s : Settings) :
    ∀ member ∈ defaults host, ∃ value, s.members.get? member.1 = some value ∧
      value.kindName = member.2.kindName := by
  intro member hmember
  have hfields : member ∈ (initial host).fields := by simpa [defaults, members, initial] using hmember
  have hkind := List.mem_map_of_mem (f := fun member => (member.1, member.2.kindName)) hfields
  rw [map_kind_fields (initial host) s] at hkind
  obtain ⟨found, hfound, heq⟩ := List.mem_map.1 hkind
  obtain ⟨hkey, hvalue⟩ := Prod.mk.inj heq
  exact ⟨found.2, get?_members s member.1 found.2 (hkey ▸ hfound), hvalue⟩

/-- The lists of the settings. -/
def lists (s : Settings) : List (List Text) :=
  [s.includeDirs, s.rootDirs, s.whitelist, s.blacklist, s.sources, s.skipped, s.markers]

theorem mem_lists_of_field {key : Text} {items : List Json} (h : (key, .arr items) ∈ s.fields) :
    ∃ ts ∈ s.lists, items = ts.map .str := by
  simp only [fields, textsValue, List.mem_cons, Prod.mk.injEq, List.not_mem_nil, or_false, reduceCtorEq,
    and_false, false_or, Json.arr.injEq] at h
  simp only [lists, List.mem_cons, List.not_mem_nil, or_false]
  rcases h with ⟨_, h⟩ | ⟨_, h⟩ | ⟨_, h⟩ | ⟨_, h⟩ | ⟨_, h⟩ | ⟨_, h⟩ | ⟨_, h⟩ <;> exact ⟨_, by simp, h⟩

/-- The texts in the lists of settings that have been read and located are not empty. -/
theorem ne_nil_of_mem_lists (hread : s.Read) (hlocated : s.Located) :
    ∀ ts ∈ s.lists, ∀ t ∈ ts, t ≠ [] := by
  have hpath : ∀ path ∈ s.paths, path ≠ [] := by
    rintro path hpath rfl
    simpa [isAbsolute] using (hlocated.normal [] hpath).isAbsolute
  simp only [lists, List.forall_mem_cons, List.not_mem_nil, false_implies, implies_true, and_true]
  exact ⟨fun t ht => hpath t (by simp [paths, ht]), fun t ht => hpath t (by simp [paths, ht]),
    fun t ht => (hread.whitelist t ht).1, fun t ht => (hread.blacklist t ht).1,
    fun t ht => (hread.sources t ht).1, fun t ht => (hread.skipped t ht).1,
    fun t ht => (hread.markers t ht).1⟩

theorem exists_text_of_item (hread : s.Read) (hlocated : s.Located) :
    ∀ key ∈ keys, ∀ items, s.members.get? key = some (.arr items) →
      ∀ item ∈ items, ∃ t, item = .str t ∧ t ≠ [] := by
  intro key hkey items hitems item hitem
  rw [← map_fst_fields s] at hkey
  obtain ⟨⟨_, value⟩, hfield, rfl⟩ := List.mem_map.1 hkey
  have hvalue := get?_members s _ value hfield
  obtain rfl := Option.some.inj (hvalue.symm.trans hitems)
  obtain ⟨ts, hts, rfl⟩ := mem_lists_of_field hfield
  obtain ⟨t, ht, rfl⟩ := List.mem_map.1 hitem
  exact ⟨t, rfl, ne_nil_of_mem_lists hread hlocated ts hts t ht⟩

/-! ## The order of directories -/

/-- The same directories in the order in which they appear for the first time. -/
structure InOrder (all kept : List Text) : Prop where
  mem_iff : ∀ t, t ∈ kept ↔ t ∈ all
  pairwise : kept.Pairwise fun t u => all.idxOf t < all.idxOf u

theorem pairwise_unique (seen ts : List Text) :
    (unique seen ts).Pairwise fun t u => ts.idxOf t < ts.idxOf u := by
  induction ts generalizing seen with
  | nil => exact List.Pairwise.nil
  | cons t ts ih =>
    -- What is left behind a directory that has been seen is not that directory, so it stands one further.
    have hne : ∀ {seen : List Text}, t ∈ seen → ∀ u ∈ unique seen ts, t ≠ u := by
      rintro seen ht u hu rfl
      exact (mem_unique.1 hu).2 ht
    have hrest : ∀ {seen : List Text}, t ∈ seen →
        (unique seen ts).Pairwise fun u v => (t :: ts).idxOf u < (t :: ts).idxOf v := by
      intro seen ht
      refine (ih seen).imp_of_mem fun hu hv hlt => ?_
      rw [List.idxOf_cons_ne ts (hne ht _ hu), List.idxOf_cons_ne ts (hne ht _ hv)]
      exact Nat.succ_lt_succ hlt
    rw [unique]
    split
    · next ht => exact hrest (by simpa using ht)
    · refine List.pairwise_cons.2 ⟨fun u hu => ?_, hrest List.mem_cons_self⟩
      rw [List.idxOf_cons_self, List.idxOf_cons_ne ts (hne List.mem_cons_self u hu)]
      exact Nat.succ_pos _

theorem inOrder_unique (ts : List Text) : InOrder ts (unique [] ts) :=
  ⟨fun t => by simp [mem_unique], pairwise_unique [] ts⟩

/-! ## Settings that can be relied upon -/

/-- What is promised of the settings of a configuration that gives the search directories `dirs`. -/
structure Guaranteed (host : Host) (dirs : List Text) (s : Settings) : Prop where
  /-- Each member of the default configuration is there, with a value of the same kind. -/
  kinds : ∀ member ∈ defaults host, ∃ value, s.members.get? member.1 = some value ∧
    value.kindName = member.2.kindName
  /-- Lists hold texts, and none of these is empty. -/
  items : ∀ key ∈ keys, ∀ items, s.members.get? key = some (.arr items) →
    ∀ item ∈ items, ∃ t, item = .str t ∧ t ≠ []
  absolute : ∀ path ∈ s.scanDir :: s.projectRoot :: (s.includeDirs ++ s.rootDirs), isAbsolute path = true
  outputPath : s.outputPath = [] ∨ isAbsolute s.outputPath = true
  /-- The search directories are those that were given, read as paths, and at last the project root. -/
  includeDirs : ∃ found, List.Forall₂ (fun dir path => host.normalizePath dir host.cwdText = .ok path) dirs found ∧
    InOrder (found ++ [s.projectRoot]) s.includeDirs
  root_mem : s.projectRoot ∈ s.includeDirs
  nodup_includeDirs : s.includeDirs.Nodup
  rootDirs_ne_nil : s.rootDirs ≠ []
  nodup_rootDirs : s.rootDirs.Nodup
  /-- The parameters of a scan can be made of them. -/
  params : Scan.Draft.ofValue (.obj s.members) = .ok s.params.draft
  matchable : s.params.draft.Matchable

/-- Settings that were read, located and have patterns that can be matched are as promised. -/
theorem guaranteed_of_locate {given : Settings} (hread : s.Read)
    (hpatterns : ∀ pattern ∈ s.patterns, Wildcard.isSupported pattern = true)
    (hlocate : given.locate host = .ok s) : s.Guaranteed host given.includeDirs := by
  have hlocated := located_of_locate hlocate
  have habsolute : ∀ path ∈ s.paths, isAbsolute path = true := fun path hpath =>
    (hlocated.normal path hpath).isAbsolute
  refine ⟨exists_member_of_defaults host s, exists_text_of_item hread hlocated, ?_, ?_, ?_, hlocated.root_mem,
    hlocated.nodup_includeDirs, hlocated.rootDirs_ne_nil, hlocated.nodup_rootDirs, ofValue_members s,
    Scan.Params.Supported.matchable hpatterns⟩
  · intro path hpath
    exact habsolute path (by simp only [paths, List.mem_cons, List.mem_append] at hpath ⊢; tauto)
  · by_cases hempty : s.outputPath = []
    · exact .inl hempty
    · exact .inr (habsolute s.outputPath (by simp [paths, hempty]))
  · obtain ⟨_, root, found, _, _, _, _, hfound, _, _, rfl⟩ := locate_eq_ok.1 hlocate
    exact ⟨found, absoluteAll_eq_ok.1 hfound, inOrder_unique _⟩

/-! ## What can go wrong -/

/-- What it takes for settings to come out. -/
theorem conclude_eq_ok {name : Text} {done : Settings} :
    conclude host s name = .ok done ↔
      name.lowerAscii = Format.json.name ∧ (∀ pattern ∈ s.patterns, Wildcard.isSupported pattern = true) ∧
        locate host { s with format := .json } = .ok done := by
  rw [← Wildcard.checkAll_eq_ok_iff]
  unfold conclude Format.ofName?
  by_cases hname : name.lowerAscii = Format.json.name
  · rw [if_pos hname]
    cases Wildcard.checkAll s.patterns with
    | error e => simp
    | ok _ => simp [hname, mapError_eq_ok]
  · simp [hname]

/-- The configuration asks for what is not there: its format is unknown, or one of its patterns has a `?` right after
a `*`. -/
def Unacceptable (host : Host) (config : Json) : Prop :=
  (meantFormat (membersOf config)).lowerAscii ≠ Format.json.name ∨
    ∃ pattern ∈ (meant host (membersOf config)).patterns, [Wildcard.star, Wildcard.question] <:+: pattern

theorem kind?_of_unacceptable (h : Unacceptable host config) :
    ∃ e, conclude host (meant host (membersOf config)) (meantFormat (membersOf config)) = .error e ∧
      (Run.Problem.settings e).kind? = some .configuration := by
  unfold conclude
  by_cases hname : (meantFormat (membersOf config)).lowerAscii = Format.json.name
  · obtain ⟨pattern, hpattern, hstarred⟩ := h.resolve_left (not_not_intro hname)
    cases hpatterns : Wildcard.checkAll (meant host (membersOf config)).patterns with
    | error e => exact ⟨_, by rw [Format.ofName?, if_pos hname], rfl⟩
    | ok _ =>
      have hsupported := Wildcard.checkAll_eq_ok_iff.1 hpatterns pattern hpattern
      exact absurd hstarred (Wildcard.isSupported_iff.1 hsupported)
  · exact ⟨_, by rw [Format.ofName?, if_neg hname], rfl⟩

/-- A configuration that asks for nothing odd gives settings, unless one of its paths names a user who cannot be asked
about. -/
theorem conclude_of_acceptable (hbytes : ∀ path ∈ (meant host (membersOf config)).paths, path.HasBytes)
    (h : ¬ Unacceptable host config) :
    (∃ done, conclude host (meant host (membersOf config)) (meantFormat (membersOf config)) = .ok done) ∧
        (∀ path ∈ (meant host (membersOf config)).paths, ¬ host.Unaskable path) ∨
      conclude host (meant host (membersOf config)) (meantFormat (membersOf config)) = .error (.path .zeroByte) ∧
        ∃ path ∈ (meant host (membersOf config)).paths, host.Unaskable path := by
  obtain ⟨hname, hpatterns⟩ := not_or.1 h
  have hchecked : Wildcard.checkAll (meant host (membersOf config)).patterns = .ok () := by
    refine Wildcard.checkAll_eq_ok_iff.2 fun pattern hpattern => Wildcard.isSupported_iff.2 fun hstarred => ?_
    exact hpatterns ⟨pattern, hpattern, hstarred⟩
  rw [conclude, Format.ofName?, if_pos (not_not.1 hname)]
  simp only [hchecked]
  rcases locate_cases host (s := { meant host (membersOf config) with format := .json }) hbytes with
    ⟨⟨done, hdone⟩, hnone⟩ | ⟨hzero, hsome⟩
  · exact .inl ⟨⟨done, by rw [hdone]; rfl⟩, hnone⟩
  · exact .inr ⟨by rw [hzero]; rfl, hsome⟩

/-- The same machine, but with user accounts. -/
def accountHost : Host := { variableHost with accounts := some {} }

end Settings

end HeaderAtlas
