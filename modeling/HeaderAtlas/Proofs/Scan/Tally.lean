import HeaderAtlas.Proofs.Atlas.Drawn
import HeaderAtlas.Proofs.Scan.Listing
import Mathlib.Algebra.BigOperators.Group.Finset.Basic
import Mathlib.Algebra.GroupWithZero.Nat
/-!
# What a scan counts

The numbers that a scan returns are sizes of sets of things on the disk: the directories that it lists, the files in
them, those of the files that it parses, and what these include (`Census`). No name is listed twice in a directory, so
no directory is visited twice and no file is counted twice (`Surveyed`).

Edges are drawn from includes, but two directives of one file that lead to the same node draw one edge. Between the
includes that are not dropped and the edges of the atlas lies therefore just the number of such repetitions
(`run_empty_conserved`).
-/

set_option autoImplicit false

namespace HeaderAtlas

namespace Scan

open HeaderAtlas.Path

variable {host : Host} {p : Params} {r : Resolver} {top within : Entries} {dir : List Text} {name contents : Bytes}
  {path : Text}

/-! ## The specification -/

/-- A directory that is opened from the scan directory and is not below one that is skipped is listed. -/
def Lists (p : Params) (top : Entries) (dir : List Text) : Prop :=
  (∃ within, Opens top dir within) ∧ ∀ first ∈ dir.head?, first ∉ p.skipped

/-- An entry that is reached is visited as a file, unless it is a directory or a link to one. -/
def VisitsFile (host : Host) (p : Params) (top : Entries) (dir : List Text) (name : Bytes) : Prop :=
  ∃ e, Reached p top dir name e ∧ e.isDirectory = false ∧
    ∀ target access, e = .link target access → host.isDirectory (p.pathOf host (dir ++ [name.toText])) = false

/-- The path of the node that an include leads to. -/
def Lead.path? : Lead → Option Text
  | .tracked path => some path
  | _ => none

/-- A file with its place below the scan directory. -/
structure SourceFile where
  dir : List Text
  name : Bytes
  contents : Bytes
  deriving DecidableEq

namespace SourceFile

/-- The names that lead to a file. -/
def names (f : SourceFile) : List Text := f.dir ++ [f.name.toText]

/-- Where the directives of a file lead: the path of a node for each of them that leads to one. -/
def targets (host : Host) (r : Resolver) (f : SourceFile) : List Text :=
  (Source.includes f.contents).filterMap fun d => (r.lead host d (Text.join [slash] f.dir)).path?

end SourceFile

/-- Everything that a scan of the directory with the entries `top` has to do with. -/
structure Census (host : Host) (p : Params) (top : Entries) where
  directories : Finset (List Text)
  files : Finset (List Text × Bytes)
  parsed : Finset SourceFile
  mem_directories : ∀ dir, dir ∈ directories ↔ Lists p top dir
  mem_files : ∀ dir name, (dir, name) ∈ files ↔ VisitsFile host p top dir name
  mem_parsed : ∀ f, f ∈ parsed ↔ Parses host p top f.dir f.name f.contents

/-- The statistics of a scan and the edges of its atlas, in terms of what is on the disk. -/
structure Conserved (c : Census host p top) (r : Resolver) (stats : Stats) (a : Atlas) : Prop where
  directories : stats.directories = c.directories.card
  files : stats.files = c.files.card
  parsed : stats.parsedFiles = c.parsed.card
  parsed_le : stats.parsedFiles ≤ stats.files
  found : stats.includesFound = ∑ f ∈ c.parsed, (Source.includes f.contents).length
  dropped_le : stats.includesDropped ≤ stats.includesFound
  tracked : stats.includesFound - stats.includesDropped = ∑ f ∈ c.parsed, (f.targets host r).length
  /-- What is not dropped leads to a node. -/
  leads : ∀ f ∈ c.parsed, ∀ path ∈ f.targets host r, ∃ j, a.findNames Atlas.root (components path) = .ok (some j)
  edges_le : a.edgeCount ≤ stats.includesFound - stats.includesDropped
  /-- There is one edge for each include that is not dropped if those of one file lead to different nodes. -/
  edges_eq_iff : a.edgeCount = stats.includesFound - stats.includesDropped ↔
    ∀ f ∈ c.parsed, ((f.targets host r).map fun path => a.findNames Atlas.root (components path)).Nodup

theorem Lead.path?_eq_some_iff {lead : Lead} : lead.path? = some path ↔ lead = .tracked path := by
  cases lead <;> simp [path?]

theorem Lead.isTracked_eq (lead : Lead) : lead.isTracked = lead.path?.isSome := by
  cases lead <;> rfl

/-- A directive counts among the targets if it has a header, and the file that it refers to has a node. -/
theorem SourceFile.mem_targets_iff {f : SourceFile} : path ∈ f.targets host r ↔
    ∃ d ∈ Source.includes f.contents, d.header ≠ [] ∧ r.Finds host f.dir d path := by
  rw [targets, List.mem_filterMap]
  refine exists_congr fun d => and_congr_right fun _ => ?_
  rw [Lead.path?_eq_some_iff]
  exact lead_tracked_iff

theorem includes_iff : Includes host p r top dir name path ↔
    ∃ contents, Parses host p top dir name contents ∧ path ∈ SourceFile.targets host r ⟨dir, name, contents⟩ := by
  simp only [Includes, SourceFile.mem_targets_iff]
  constructor
  · rintro ⟨contents, d, hparses, hd, htarget⟩
    exact ⟨contents, hparses, d, hd, htarget⟩
  · rintro ⟨contents, hparses, d, hd, htarget⟩
    exact ⟨contents, d, hparses, hd, htarget⟩

/-! ## One file -/

/-- A parsed file is one of those that are visited. -/
theorem Parses.visitsFile (h : Parses host p top dir name contents) : VisitsFile host p top dir name := by
  obtain ⟨e, hreached, hdir⟩ := h.reached
  obtain ⟨place, access, hentry⟩ := h.isFile
  exact ⟨e, hreached, hdir, fun _ _ _ => by simp [Host.isDirectory, Host.entry?, hentry, Entry.isDirectory]⟩

/-- What a path leads to has one contents. -/
theorem Parses.contents_eq {contents' : Bytes} (h : Parses host p top dir name contents)
    (h' : Parses host p top dir name contents') : contents = contents' := by
  obtain ⟨place, access, hentry⟩ := h.isFile
  obtain ⟨place', access', hentry'⟩ := h'.isFile
  rw [hentry] at hentry'
  exact (Entry.file.inj (Prod.mk.inj (Except.ok.inj hentry')).2).1

namespace Scope

variable {s : Scope} {names : List Text} {v : Visit}

/-- A visited file was either not parsed, or read. -/
theorem visitFile_cases {name : Text} {f : FileVisit} (h : s.visitFile path names name = .ok f) :
    (s.isParsed (Path.join path name) name = .ok false ∧ f = ⟨name, none⟩) ∨
      ∃ ds, s.isParsed (Path.join path name) name = .ok true ∧ readIncludes s.host (Path.join path name) = .ok ds ∧
        f = ⟨name, some (ds.map (s.inclusion names))⟩ := by
  unfold visitFile at h
  dsimp only at h
  split at h
  · simp at h
  · next hparsed => exact .inl ⟨hparsed, (Except.ok.inj h).symm⟩
  · next hparsed =>
    split at h
    · simp at h
    · next ds hds => exact .inr ⟨ds, hparsed, hds, (Except.ok.inj h).symm⟩

theorem isDirectory_eq_false_iff {e : Entry} : s.isDirectory path (name, e) = false ↔
    e.isDirectory = false ∧
      ∀ target access, e = .link target access → s.host.isDirectory (Path.join path name.toText) = false := by
  cases e <;> simp [isDirectory, Entry.isDirectory]

end Scope

/-- **The includes of a file** that is parsed are those of its directives. A file that is not parsed has none. -/
theorem includes_visitFile {f : FileVisit}
    (hf : (p.scopeOf host r).visitFile (p.pathOf host dir) dir name.toText = .ok f)
    (hvisits : VisitsFile host p top dir name) :
    f.name = name.toText ∧
      ((f.includes = none ∧ ∀ contents, ¬ Parses host p top dir name contents) ∨
        ∃ contents, Parses host p top dir name contents ∧
          f.includes = some ((Source.includes contents).map ((p.scopeOf host r).inclusion dir))) := by
  rcases Scope.visitFile_cases hf with ⟨hparsed, rfl⟩ | ⟨ds, hparsed, hds, rfl⟩
  · refine ⟨rfl, .inl ⟨rfl, fun contents hparses => ?_⟩⟩
    obtain ⟨place, access, hentry⟩ := hparses.isFile
    have htrue := isParsed_eq_true (r := r).2 ⟨isFile_iff.2 ⟨place, contents, access, hentry⟩,
      selects_eq_true.2 ⟨hparses.candidate, hparses.source⟩⟩
    rw [join_pathOf, htrue] at hparsed
    simp at hparsed
  · rw [join_pathOf] at hparsed hds
    obtain ⟨hisFile, hselects⟩ := isParsed_eq_true.1 hparsed
    obtain ⟨place, contents, access, hentry⟩ := isFile_iff.1 hisFile
    obtain ⟨hcandidate, hsource⟩ := selects_eq_true.1 hselects
    obtain ⟨e, hreached, hdir, _⟩ := hvisits
    refine ⟨rfl, .inr ⟨contents, ⟨⟨e, hreached, hdir⟩, ⟨place, access, hentry⟩, hcandidate, hsource⟩, ?_⟩⟩
    rw [readIncludes_eq hentry hds]

/-! ## One directory -/

theorem lists_iff (host : Host) (r : Resolver) :
    Lists p top dir ↔ ∃ within, (p.scopeOf host r).Enters [] top dir within := by
  simp [Lists, Scope.Enters, Scope.isSkipped, Params.scopeOf]

section Visited

variable {v : Visit}
  (hvisit : (p.scopeOf host r).visit (p.pathOf host dir) dir (Entry.inOrder within) = (v, none))

include hvisit

theorem visitsFile_of_mem_files (henters : (p.scopeOf host r).Enters [] top dir within) {f : FileVisit}
    (hf : f ∈ v.files) : ∃ name, VisitsFile host p top dir name ∧
      (p.scopeOf host r).visitFile (p.pathOf host dir) dir name.toText = .ok f := by
  obtain ⟨name, _, hsorted, hdir, hskip, hfile⟩ := (Scope.mem_files hvisit).1 hf
  obtain ⟨e, hmem, rfl⟩ := Entry.mem_inOrder.1 hsorted
  rw [Scope.isDirectory_sorted, Scope.isDirectory_eq_false_iff, join_pathOf] at hdir
  exact ⟨name, ⟨e, reached_iff.2 ⟨within, henters, hmem, hskip⟩, hdir⟩, hfile⟩

theorem exists_mem_files {e : Entry} (hmem : (name, e) ∈ within)
    (hskip : (p.scopeOf host r).isSkipped dir name.toText = false)
    (hdir : (p.scopeOf host r).isDirectory (p.pathOf host dir) (name, e) = false) :
    ∃ f ∈ v.files, (p.scopeOf host r).visitFile (p.pathOf host dir) dir name.toText = .ok f := by
  have hsorted : (name, e.sorted) ∈ Entry.inOrder within := Entry.mem_inOrder.2 ⟨e, hmem, rfl⟩
  rw [← Scope.isDirectory_sorted] at hdir
  obtain ⟨f, hf⟩ := Scope.exists_visitFile hvisit hsorted hskip hdir
  exact ⟨f, (Scope.mem_files hvisit).2 ⟨name, _, hsorted, hdir, hskip, hf⟩, hf⟩

/-- The names of the files in a directory are different, if those of all its entries are. -/
theorem nodup_files (hnodup : (within.map (·.1)).Nodup) : (v.files.map (·.name.key)).Nodup := by
  have hnames : ∀ {l : List (Bytes × Entry)} {files : List FileVisit},
      files.map Except.ok = l.map (fun entry => (p.scopeOf host r).visitFile (p.pathOf host dir) dir entry.1.toText) →
        files.map (·.name.key) = l.map (·.1) := by
    intro l
    induction l with
    | nil => intro files h; rw [List.map_eq_nil_iff.1 h]; rfl
    | cons entry l ih =>
      intro files h
      cases files with
      | nil => simp at h
      | cons f files =>
        obtain ⟨hf, hrest⟩ := List.cons.inj h
        rw [List.map_cons, List.map_cons, ih hrest, (Scope.of_visitFile hf.symm).1, Bytes.key_toText]
  -- The files are some of the sorted entries, in their order.
  rw [hnames (Scope.visit_eq hvisit).2.2]
  have hsorted := (Entry.perm_names_inOrder within).nodup_iff.2 hnodup
  exact hsorted.sublist ((List.filter_sublist.trans List.filter_sublist).map _)

end Visited

/-! ## The whole walk -/

/-- In the directories that are opened names differ, if no directory at all lists a name twice. -/
theorem nodup_of_opens {access : Access} (h : Opens top dir within) (htop : (Entry.directory top access).Distinct) :
    (within.map (·.1)).Nodup := by
  induction h generalizing access with
  | here =>
    cases htop with
    | directory hnodup _ => exact hnodup
  | inside hmem _ ih => exact ih (htop.of_mem hmem)

namespace Scope

variable {s : Scope} {names : List Text} {entries : Entries}

/-- The names of what was visited go on from those of the directory where the survey began. -/
theorem Describes.exists_names {opened : List Text → Entries → Prop} {visits : List Visit}
    (h : s.Describes path names opened visits) {dir : List Text} (hdir : dir ∈ visits.map (·.names)) :
    ∃ rel within, opened rel within ∧ dir = names ++ rel := by
  obtain ⟨v, hv, rfl⟩ := List.mem_map.1 hdir
  obtain ⟨rel, within, hopened, hvisit⟩ := h.sound v hv
  exact ⟨rel, within, hopened, (visit_eq hvisit).1⟩

mutual

/-- **No directory is visited twice.** -/
theorem nodup_survey (s : Scope) (path : Text) (names : List Text) : ∀ e : Entry, e.Distinct →
    (s.survey path names e).failure = none → ((s.survey path names e).visits.map (·.names)).Nodup
  | .directory entries access, hdistinct, h => by
    obtain ⟨v, hvisit, hbelow, hvisits⟩ := survey_directory h
    have hnodup : (entries.map (·.1)).Nodup := nodup_of_opens .here hdistinct
    rw [hvisits, List.map_cons, List.nodup_cons, (visit_eq hvisit).1]
    refine ⟨fun hmem => ?_, nodup_surveyAll s path names entries hnodup (fun _ _ => hdistinct.of_mem) hbelow⟩
    obtain ⟨rel, _, ⟨hne, _⟩, hnames⟩ := (describes_surveyAll s path names entries hbelow).exists_names hmem
    exact hne (List.self_eq_append_right.1 hnames)
  | .file _ _, _, _ => List.nodup_nil
  | .link _ _, _, _ => List.nodup_nil
  | .pipe _ _, _, _ => List.nodup_nil
  | .device _ _, _, _ => List.nodup_nil

theorem nodup_surveyAll (s : Scope) (path : Text) (names : List Text) : ∀ entries : Entries,
    (entries.map (·.1)).Nodup → (∀ name e, (name, e) ∈ entries → e.Distinct) →
      (s.surveyAll path names entries).failure = none →
        ((s.surveyAll path names entries).visits.map (·.names)).Nodup
  | [], _, _, _ => List.nodup_nil
  | (name, e) :: rest, hnodup, hdistinct, h => by
    rw [List.map_cons, List.nodup_cons] at hnodup
    obtain ⟨hrest, hcases⟩ := surveyAll_cons h
    have hlater := nodup_surveyAll s path names rest hnodup.2
      (fun n x hx => hdistinct n x (List.mem_cons_of_mem _ hx)) hrest
    rcases hcases with ⟨_, hvisits⟩ | ⟨_, hfirst, hvisits⟩
    · rwa [hvisits]
    rw [hvisits, List.map_append, List.nodup_append]
    refine ⟨nodup_survey s _ _ e (hdistinct name e List.mem_cons_self) hfirst, hlater, ?_⟩
    -- What is visited below the first entry has its name, and what is visited below another one has not.
    rintro dir hdir _ hdir' rfl
    obtain ⟨rel, _, _, hnames⟩ := (describes_survey s _ _ e hfirst).exists_names hdir
    obtain ⟨rel', _, ⟨hne, henters⟩, hnames'⟩ := (describes_surveyAll s path names rest hrest).exists_names hdir'
    rw [hnames', List.append_assoc] at hnames
    obtain rfl := List.append_cancel_left hnames
    obtain ⟨_, name', _, hmem, hname, _⟩ := enters_cons_iff.1 henters
    refine hnodup.1 ?_
    rw [← Bytes.key_toText name, ← hname, Bytes.key_toText]
    exact List.mem_map.2 ⟨_, hmem, rfl⟩

end

theorem nodup_surveyTop (hhost : s.host.Distinct) (h : s.surveyTop.failure = none) :
    (s.surveyTop.visits.map (·.names)).Nodup := by
  rw [surveyTop] at h ⊢
  split at h
  · simp at h
  · next htop => exact nodup_survey _ _ _ _ (hhost.of_list htop).reordered_sorted.symm.distinct h

end Scope

/-- The files that a survey visited, each with the names of its directory. -/
def Survey.placed (s : Survey) : List (List Text × FileVisit) :=
  s.visits.flatMap fun v => v.files.map fun f => (v.names, f)

/-- The place of a visited file: its directory, and the bytes of its name. -/
def placeOf (x : List Text × FileVisit) : List Text × Bytes := (x.1, x.2.name.key)

/-- Places differ if no directory was visited twice, and no name was found twice in a directory. -/
theorem Survey.nodup_places {s : Survey} (hnames : (s.visits.map (·.names)).Nodup)
    (hfiles : ∀ v ∈ s.visits, (v.files.map (·.name.key)).Nodup) : (s.placed.map placeOf).Nodup := by
  have hplaces : ∀ v : Visit, (v.files.map fun f => (v.names, f)).map placeOf =
      (v.files.map (·.name.key)).map (Prod.mk v.names) := by
    intro v
    rw [List.map_map, List.map_map]
    rfl
  rw [placed, List.map_flatMap, List.nodup_flatMap]
  simp only [hplaces]
  refine ⟨fun v hv => (hfiles v hv).map (Prod.mk_right_injective v.names),
    (List.pairwise_map.1 hnames).imp fun {v w} hne => ?_⟩
  rintro x hx hx'
  obtain ⟨_, _, rfl⟩ := List.mem_map.1 hx
  obtain ⟨_, _, hplace⟩ := List.mem_map.1 hx'
  exact hne (congrArg Prod.fst hplace).symm

/-- What a survey that did not fail has found of the disk: every directory that is listed and every file that is
visited, once each. -/
structure Surveyed (host : Host) (p : Params) (r : Resolver) (top : Entries) (s : Survey) : Prop where
  mem_names : ∀ dir, dir ∈ s.visits.map (·.names) ↔ Lists p top dir
  nodup_names : (s.visits.map (·.names)).Nodup
  sound : ∀ x ∈ s.placed, ∃ name, VisitsFile host p top x.1 name ∧
    (p.scopeOf host r).visitFile (p.pathOf host x.1) x.1 name.toText = .ok x.2
  complete : ∀ dir name, VisitsFile host p top dir name → ∃ f, (dir, f) ∈ s.placed ∧
    (p.scopeOf host r).visitFile (p.pathOf host dir) dir name.toText = .ok f
  nodup_places : (s.placed.map placeOf).Nodup

theorem surveyed_surveyTop (hhost : host.Distinct) (h : (p.scopeOf host r).surveyTop.failure = none) :
    ∃ top, host.list (host.absolute p.scanDir) = .ok top ∧
      Surveyed host p r top (p.scopeOf host r).surveyTop := by
  obtain ⟨top, htop, hvisits⟩ := Scope.describes_surveyTop h
  have hnames := Scope.nodup_surveyTop hhost h
  -- Every visit is that of one directory, which is opened under the names of the visit.
  have hvisit : ∀ v ∈ (p.scopeOf host r).surveyTop.visits, ∃ within,
      (p.scopeOf host r).Enters [] top v.names within ∧
        (p.scopeOf host r).visit (p.pathOf host v.names) v.names (Entry.inOrder within) = (v, none) := by
    intro v hv
    obtain ⟨dir, _, ⟨within, henters, rfl⟩, hvisit⟩ := hvisits.sound v hv
    obtain rfl : v.names = dir := (Scope.visit_eq hvisit).1
    exact ⟨within, henters, hvisit⟩
  have hcomplete : ∀ {dir within}, (p.scopeOf host r).Enters [] top dir within →
      ∃ v ∈ (p.scopeOf host r).surveyTop.visits, v.names = dir ∧
        (p.scopeOf host r).visit (p.pathOf host dir) dir (Entry.inOrder within) = (v, none) := by
    intro dir within henters
    obtain ⟨v, hv, hvisit⟩ := hvisits.complete dir _ ⟨within, henters, rfl⟩
    exact ⟨v, hv, (Scope.visit_eq hvisit).1, hvisit⟩
  refine ⟨top, htop, fun dir => ?_, hnames, fun x hx => ?_, fun dir name hfile => ?_, ?_⟩
  · rw [lists_iff host r, List.mem_map]
    constructor
    · rintro ⟨v, hv, rfl⟩
      obtain ⟨within, henters, _⟩ := hvisit v hv
      exact ⟨within, henters⟩
    · rintro ⟨within, henters⟩
      obtain ⟨v, hv, hdir, _⟩ := hcomplete henters
      exact ⟨v, hv, hdir⟩
  · obtain ⟨v, hv, hx⟩ := List.mem_flatMap.1 hx
    obtain ⟨f, hf, rfl⟩ := List.mem_map.1 hx
    obtain ⟨within, henters, hdir⟩ := hvisit v hv
    exact visitsFile_of_mem_files hdir henters hf
  · obtain ⟨e, hreached, hnot⟩ := hfile
    obtain ⟨within, henters, hmem, hskip⟩ := reached_iff.1 hreached
    obtain ⟨v, hv, rfl, hdir⟩ := hcomplete henters
    rw [← join_pathOf] at hnot
    obtain ⟨f, hf, hfile⟩ := exists_mem_files hdir hmem hskip (Scope.isDirectory_eq_false_iff.2 hnot)
    exact ⟨f, List.mem_flatMap.2 ⟨v, hv, List.mem_map.2 ⟨f, hf, rfl⟩⟩, hfile⟩
  · refine Survey.nodup_places hnames fun v hv => ?_
    obtain ⟨within, henters, hdir⟩ := hvisit v hv
    exact nodup_files hdir (nodup_of_opens henters.1 (hhost.of_list htop))

/-! ## The numbers -/

/-- The contents of the file that a path leads to. -/
def contentsAt (host : Host) (path : Text) : Bytes :=
  match host.entry true path with
  | .ok (_, .file contents _) => contents
  | _ => []

/-- A visited file with its contents. -/
def sourceOf (host : Host) (p : Params) (x : List Text × FileVisit) : SourceFile :=
  ⟨x.1, x.2.name.key, contentsAt host (p.pathOf host (x.1 ++ [x.2.name]))⟩

/-- The visited files that were parsed. -/
def Survey.parsed (s : Survey) : List (List Text × FileVisit) := s.placed.filter (·.2.includes.isSome)

theorem Parses.contentsAt_eq (h : Parses host p top dir name contents) :
    contentsAt host (p.pathOf host (dir ++ [name.toText])) = contents := by
  obtain ⟨place, access, hentry⟩ := h.isFile
  rw [contentsAt, hentry]

namespace Surveyed

variable {s : Survey} (h : Surveyed host p r top s)

include h

/-- A file that was parsed, as it is on the disk, and its includes. -/
theorem parses_sourceOf {x : List Text × FileVisit} (hx : x ∈ s.parsed) :
    Parses host p top (sourceOf host p x).dir (sourceOf host p x).name (sourceOf host p x).contents ∧
      x.2.includes = some ((Source.includes (sourceOf host p x).contents).map ((p.scopeOf host r).inclusion x.1)) := by
  obtain ⟨hx, hsome⟩ := List.mem_filter.1 hx
  obtain ⟨name, hvisits, hfile⟩ := h.sound x hx
  obtain ⟨hname, ⟨hnone, _⟩ | ⟨contents, hparses, hincludes⟩⟩ := includes_visitFile hfile hvisits
  · rw [hnone] at hsome
    simp at hsome
  · have hsource : sourceOf host p x = ⟨x.1, name, contents⟩ := by
      rw [sourceOf, hname, Bytes.key_toText, hparses.contentsAt_eq]
    rw [hsource]
    exact ⟨hparses, hincludes⟩

theorem mem_sources_iff (f : SourceFile) :
    f ∈ s.parsed.map (sourceOf host p) ↔ Parses host p top f.dir f.name f.contents := by
  constructor
  · intro hf
    obtain ⟨x, hx, rfl⟩ := List.mem_map.1 hf
    exact (h.parses_sourceOf hx).1
  · intro hparses
    obtain ⟨file, hplaced, hfile⟩ := h.complete f.dir f.name hparses.visitsFile
    obtain ⟨hname, ⟨_, hnone⟩ | ⟨_, _, hincludes⟩⟩ := includes_visitFile hfile hparses.visitsFile
    · exact absurd hparses (hnone f.contents)
    · refine List.mem_map.2 ⟨(f.dir, file), List.mem_filter.2 ⟨hplaced, by simp [hincludes]⟩, ?_⟩
      rw [sourceOf, hname, Bytes.key_toText, hparses.contentsAt_eq]

theorem nodup_sources : (s.parsed.map (sourceOf host p)).Nodup := by
  -- Files that differ in their places differ, whatever they hold.
  have hplaces : (s.parsed.map placeOf).Nodup := h.nodup_places.sublist (List.filter_sublist.map _)
  refine List.Nodup.of_map (fun f => (f.dir, f.name)) ?_
  rw [List.map_map]
  exact hplaces

/-- The directories and files on the disk that a survey has found. -/
def census : Census host p top where
  directories := (s.visits.map (·.names)).toFinset
  files := (s.placed.map placeOf).toFinset
  parsed := (s.parsed.map (sourceOf host p)).toFinset
  mem_directories dir := by rw [List.mem_toFinset, h.mem_names]
  mem_files dir name := by
    rw [List.mem_toFinset, List.mem_map]
    constructor
    · rintro ⟨x, hx, hplace⟩
      obtain ⟨found, hvisits, hfile⟩ := h.sound x hx
      have hname := (includes_visitFile hfile hvisits).1
      obtain ⟨rfl, rfl⟩ := Prod.mk.inj hplace
      rwa [hname, Bytes.key_toText]
    · intro hvisits
      obtain ⟨f, hf, hfile⟩ := h.complete dir name hvisits
      refine ⟨(dir, f), hf, ?_⟩
      rw [placeOf, (includes_visitFile hfile hvisits).1, Bytes.key_toText]
  mem_parsed f := by rw [List.mem_toFinset, h.mem_sources_iff]

/-- A sum over the parsed files on the disk is one over those that were visited. -/
theorem sum_parsed (g : SourceFile → Nat) :
    ∑ f ∈ h.census.parsed, g f = (s.parsed.map fun x => g (sourceOf host p x)).sum := by
  rw [census, List.sum_toFinset g h.nodup_sources, List.map_map]
  rfl

end Surveyed

namespace Survey

theorem map_snd_placed (s : Survey) : s.placed.map Prod.snd = s.files := by
  rw [placed, files, List.map_flatMap]
  exact List.flatMap_congr fun v _ => by simp

/-- Only parsed files have includes. -/
theorem inclusions_eq (s : Survey) : s.inclusions = s.parsed.flatMap fun x => x.2.includes.getD [] := by
  rw [inclusions, ← map_snd_placed, parsed, List.flatMap_map]
  induction s.placed with
  | nil => rfl
  | cons x rest ih =>
    cases hx : x.2.includes with
    | none => simp [hx, ih]
    | some incs => simp [hx, ih]

end Survey

/-- A directive leads to a node, or its include is dropped. -/
theorem length_targets_add_dropped (f : SourceFile) :
    (f.targets host r).length + (((Source.includes f.contents).map ((p.scopeOf host r).inclusion f.dir)).filter
      fun i => !i.lead.isTracked).length = (Source.includes f.contents).length := by
  rw [SourceFile.targets, List.length_filterMap_eq_countP, ← List.countP_eq_length_filter, List.countP_map,
    List.length_eq_countP_add_countP fun d => (r.lead host d (Text.join [slash] f.dir)).path?.isSome]
  refine congrArg _ (List.countP_congr fun d _ => ?_)
  have hlead : ((p.scopeOf host r).inclusion f.dir d).lead = r.lead host d (Text.join [slash] f.dir) := rfl
  simp [hlead, Lead.isTracked_eq]

namespace Surveyed

variable {s : Survey} (h : Surveyed host p r top s)

include h

theorem sum_directives : s.stats.includesFound = ∑ f ∈ h.census.parsed, (Source.includes f.contents).length := by
  have hfound : s.stats.includesFound = (s.parsed.map fun x => (x.2.includes.getD []).length).sum := by
    rw [← List.length_flatMap, ← Survey.inclusions_eq]
    rfl
  rw [hfound, h.sum_parsed]
  congr 1
  refine List.map_congr_left fun x hx => ?_
  rw [(h.parses_sourceOf hx).2, Option.getD_some, List.length_map]

/-- **Includes are conserved**: each one that was found leads to a node or was dropped. -/
theorem sum_targets_add_dropped :
    ∑ f ∈ h.census.parsed, (f.targets host r).length + s.stats.includesDropped = s.stats.includesFound := by
  have hcount : s.stats.includesDropped =
      (s.parsed.map fun x => ((x.2.includes.getD []).filter fun i => !i.lead.isTracked).length).sum := by
    rw [← List.length_flatMap, ← List.filter_flatMap, ← Survey.inclusions_eq]
    rfl
  have hdropped : s.stats.includesDropped = ∑ f ∈ h.census.parsed, (((Source.includes f.contents).map
      ((p.scopeOf host r).inclusion f.dir)).filter fun i => !i.lead.isTracked).length := by
    rw [hcount, h.sum_parsed]
    congr 1
    refine List.map_congr_left fun x hx => ?_
    rw [(h.parses_sourceOf hx).2]
    rfl
  rw [hdropped, h.sum_directives, ← Finset.sum_add_distrib]
  exact Finset.sum_congr rfl fun f _ => length_targets_add_dropped f

theorem card_directories : s.stats.directories = h.census.directories.card := by
  rw [census, List.toFinset_card_of_nodup h.nodup_names, List.length_map]
  rfl

theorem card_files : s.stats.files = h.census.files.card := by
  rw [census, List.toFinset_card_of_nodup h.nodup_places, List.length_map, Survey.stats, ← Survey.map_snd_placed,
    List.length_map]

theorem card_parsed : s.stats.parsedFiles = h.census.parsed.card := by
  have hparsed : s.files.filter (·.includes.isSome) = s.parsed.map Prod.snd := by
    rw [← Survey.map_snd_placed, List.filter_map]
    rfl
  rw [census, List.toFinset_card_of_nodup h.nodup_sources, List.length_map, Survey.stats, hparsed, List.length_map]

end Surveyed

/-! ## The edges -/

theorem asked_dependency_iff {reverse : Bool} {source target : List Text} :
    Asked host p r top reverse (.dependency source target) ↔ ∃ f : SourceFile,
      Parses host p top f.dir f.name f.contents ∧ source = f.names ∧
        ∃ path ∈ f.targets host r, target = components path := by
  constructor
  · intro hasked
    cases hasked with
    | dependency hincludes =>
      obtain ⟨contents, hparses, htarget⟩ := includes_iff.1 hincludes
      exact ⟨⟨_, _, contents⟩, hparses, rfl, _, htarget, rfl⟩
  · rintro ⟨f, hparses, rfl, path, htarget, rfl⟩
    exact .dependency (includes_iff.2 ⟨f.contents, hparses, htarget⟩)

section Edges

variable {a : Atlas} {requests : List Request} {reverse : Bool} (c : Census host p top)
  (hdraws : Atlas.Draws Atlas.empty a requests) (hrequests : ∀ q, q ∈ requests ↔ Asked host p r top reverse q)

include hdraws hrequests

theorem exists_node_of_parses {f : SourceFile} (hf : f ∈ c.parsed) :
    ∃ i, a.findNames Atlas.root f.names = .ok (some i) := by
  obtain ⟨e, hreached, _⟩ := ((c.mem_parsed f).1 hf).reached
  exact hdraws.found _ ((hrequests _).2 (.entry hreached)) _ (List.mem_singleton_self _)

theorem exists_node_of_target {f : SourceFile} (hf : f ∈ c.parsed) (hpath : path ∈ f.targets host r) :
    ∃ j, a.findNames Atlas.root (components path) = .ok (some j) := by
  have hasked : Asked host p r top reverse (.dependency f.names (components path)) :=
    asked_dependency_iff.2 ⟨f, (c.mem_parsed f).1 hf, rfl, path, hpath, rfl⟩
  exact hdraws.found _ ((hrequests _).2 hasked) _ (by simp [Request.paths])

/-- Different files have different nodes: names on the disk are decoded, so they differ if their bytes do. -/
theorem injOn_numberOf : Set.InjOn (fun f : SourceFile => a.numberOf f.names) c.parsed := by
  intro f hf g hg hfg
  obtain ⟨i, hi⟩ := exists_node_of_parses c hdraws hrequests hf
  obtain ⟨j, hj⟩ := exists_node_of_parses c hdraws hrequests hg
  obtain rfl : i = j := by
    have hnumbers : a.numberOf f.names = a.numberOf g.names := hfg
    rwa [Atlas.numberOf_eq hi, Atlas.numberOf_eq hj] at hnumbers
  have hf := (c.mem_parsed f).1 hf
  have hg := (c.mem_parsed g).1 hg
  have ha := hdraws.grows.wellFormed
  have hkeys := (Atlas.keys_of_findNames ha ha.root_lt hi).2.symm.trans (Atlas.keys_of_findNames ha ha.root_lt hj).2
  rw [ha.namesTo_root, List.nil_append, List.nil_append] at hkeys
  obtain ⟨hdir, hname⟩ := List.append_inj' (Text.Decoded.eq_of_map_key_eq hf.decoded hg.decoded hkeys) rfl
  have hname : f.name = g.name := by
    rw [← Bytes.key_toText f.name, (List.cons.inj hname).1, Bytes.key_toText]
  obtain ⟨dir, name, contents⟩ := f
  obtain ⟨dir', name', contents'⟩ := g
  obtain rfl : dir = dir' := hdir
  obtain rfl : name = name' := hname
  exact congrArg (SourceFile.mk dir name) (hf.contents_eq hg)

/-- **The edges of the atlas**, file by file: each of them counts the nodes that its directives lead to. -/
theorem edgeCount_eq : a.edgeCount =
    ∑ f ∈ c.parsed, ((f.targets host r).map fun path => a.numberOf (components path)).toFinset.card := by
  have ha := hdraws.grows.wellFormed
  refine Atlas.edgeCount_eq_sum_card ha (injOn_numberOf c hdraws hrequests) (fun f hf => ?_) fun i j => ?_
  · obtain ⟨i, hi⟩ := exists_node_of_parses c hdraws hrequests hf
    rw [Atlas.numberOf_eq hi]
    exact (Atlas.keys_of_findNames ha ha.root_lt hi).1
  · rw [hdraws.edges]
    simp only [hrequests, asked_dependency_iff, List.mem_map]
    constructor
    · rintro (hempty | ⟨_, _, ⟨f, hparses, rfl, path, hpath, rfl⟩, hi, hj⟩)
      · simp at hempty
      · exact ⟨f, (c.mem_parsed f).2 hparses, Atlas.numberOf_eq hi, path, hpath, Atlas.numberOf_eq hj⟩
    · rintro ⟨f, hf, rfl, path, hpath, rfl⟩
      obtain ⟨i, hi⟩ := exists_node_of_parses c hdraws hrequests hf
      obtain ⟨j, hj⟩ := exists_node_of_target c hdraws hrequests hf hpath
      rw [Atlas.numberOf_eq hi, Atlas.numberOf_eq hj]
      exact .inr ⟨_, _, ⟨f, (c.mem_parsed f).1 hf, rfl, path, hpath, rfl⟩, hi, hj⟩

/-- The nodes that directives lead to are different if their numbers are. -/
theorem nodup_numbers_iff {f : SourceFile} (hf : f ∈ c.parsed) :
    ((f.targets host r).map fun path => a.numberOf (components path)).Nodup ↔
      ((f.targets host r).map fun path => a.findNames Atlas.root (components path)).Nodup := by
  have hfound : ((f.targets host r).map fun path => a.findNames Atlas.root (components path)) =
      ((f.targets host r).map fun path => a.numberOf (components path)).map fun j => .ok (some j) := by
    rw [List.map_map]
    refine List.map_congr_left fun path hpath => ?_
    obtain ⟨j, hj⟩ := exists_node_of_target c hdraws hrequests hf hpath
    rw [Function.comp_apply, Atlas.numberOf_eq hj, hj]
  rw [hfound, List.nodup_map_iff fun i j hij => Option.some.inj (Except.ok.inj hij)]

end Edges

/-! ## Scans -/

theorem stats_of_outcome_eq_ok {survey : Survey} {full : Text} {reverse : Bool} {a : Atlas} {stats : Stats}
    (h : (survey.outcome full reverse a).result = .ok stats) : survey.stats = stats := by
  unfold Survey.outcome at h
  dsimp only at h
  split at h
  · simp at h
  · split at h
    · simp at h
    · exact Except.ok.inj h

theorem stats_of_run_eq_ok {a : Atlas} {stats : Stats} (hr : Resolver.ofParams host p = .ok r)
    (h : (run host p a).result = .ok stats) : (p.scopeOf host r).surveyTop.stats = stats := by
  rw [run_eq_outcome hr] at h
  exact stats_of_outcome_eq_ok h

/-- **The statistics of a scan are conserved.** After a scan into an empty atlas that comes to its end they are the
numbers of directories listed, of files visited and of files parsed, and of the directives in the parsed files. What is
left of these without the dropped ones leads to nodes, and the edges are as many or fewer: as many if and only if the
directives of each file lead to different nodes. -/
theorem run_empty_conserved {stats : Stats} (hhost : host.Distinct) (h : (run host p Atlas.empty).result = .ok stats) :
    ∃ r top, Resolver.ofParams host p = .ok r ∧ host.list (host.absolute p.scanDir) = .ok top ∧
      ∃ c : Census host p top, Conserved c r stats (run host p Atlas.empty).atlas := by
  obtain ⟨r, hr, hfailure, hperform⟩ := of_run_eq_ok h
  obtain ⟨top, htop, hs⟩ := surveyed_surveyTop hhost hfailure
  obtain ⟨top', htop', hrequests⟩ := mem_requests_iff hfailure p.reverse
  obtain rfl : top' = top := Except.ok.inj (htop'.symm.trans htop)
  obtain rfl := stats_of_run_eq_ok hr h
  have hdraws := Atlas.draws_performAll Atlas.wellFormed_empty hperform
  have htracked := hs.sum_targets_add_dropped
  have hedges := edgeCount_eq hs.census hdraws hrequests
  obtain ⟨hle, heq⟩ := Atlas.sum_card_toFinset hs.census.parsed fun f =>
    (f.targets host r).map fun path => (run host p Atlas.empty).atlas.numberOf (components path)
  simp only [List.length_map] at hle heq
  refine ⟨r, _, hr, htop, hs.census, hs.card_directories, hs.card_files, hs.card_parsed, List.length_filter_le _ _,
    hs.sum_directives, by omega, by omega, fun f hf path hpath => exists_node_of_target _ hdraws hrequests hf hpath,
    by omega, ?_⟩
  rw [hedges, ← htracked, Nat.add_sub_cancel, heq]
  exact forall₂_congr fun f hf => nodup_numbers_iff _ hdraws hrequests hf

/-- Three directives of one file: two lead to the same neighbour, by different headers, and one leads nowhere. -/
theorem run_empty_conserved_repeated :
    let host := sampleHost (Text.key "#include\"b\"\n#include\"./b\"\n#include\"x\"")
    host.Distinct ∧ (run host sampleParams Atlas.empty).atlas.edgeCount = 1 ∧
      ∃ r top, Resolver.ofParams host sampleParams = .ok r ∧
        host.list (host.absolute sampleParams.scanDir) = .ok top ∧
        ∃ c : Census host sampleParams top,
          Conserved c r ⟨1, 2, 2, 3, 1⟩ (run host sampleParams Atlas.empty).atlas := by
  have hdistinct : (sampleHost (Text.key "#include\"b\"\n#include\"./b\"\n#include\"x\"")).Distinct :=
    (Entry.sound_of_isSound _ (by decide)).distinct
  have hrun : (run (sampleHost (Text.key "#include\"b\"\n#include\"./b\"\n#include\"x\"")) sampleParams
      Atlas.empty).result = .ok ⟨1, 2, 2, 3, 1⟩ := by cbv
  have hedges : (run (sampleHost (Text.key "#include\"b\"\n#include\"./b\"\n#include\"x\"")) sampleParams
      Atlas.empty).atlas.edgeCount = 1 := by cbv
  exact ⟨hdistinct, hedges, run_empty_conserved hdistinct hrun⟩

end Scan

end HeaderAtlas
