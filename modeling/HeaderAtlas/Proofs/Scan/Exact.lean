import HeaderAtlas.Proofs.Atlas.Document
import HeaderAtlas.Proofs.Scan.Reached
import HeaderAtlas.Proofs.Scan.Resolver
import HeaderAtlas.Scan.Basic
import Mathlib.Data.List.Permutation
/-!
# What a scan records

The entries that a scan reaches, the files that it parses and the includes that it follows are all
described without the walk (`Reached`, `Parses`, `Includes`). A scan into an empty atlas that comes to its
end records these and nothing else (`run_empty_exact`).
-/

set_option autoImplicit false

namespace HeaderAtlas

namespace Scan

open HeaderAtlas.Path

/-! ## The specification -/

/-- The path of what the names lead to from the scan directory. -/
def Params.pathOf (host : Host) (p : Params) (names : List Text) : Text :=
  names.foldl Path.join (host.absolute p.scanDir)

/-- An entry of a directory that is opened from the scan directory, whose entries are `top`. What is to be
skipped at the top is left out, with all that is below it. -/
structure Reached (p : Params) (top : Entries) (dir : List Text) (name : Bytes) (e : Entry) : Prop where
  listed : ∃ within, Opens top dir within ∧ (name, e) ∈ within
  kept : ∀ first ∈ (dir ++ [name.toText]).head?, first ∉ p.skipped

/-- A reached entry that is no directory, and whose path leads to a regular file with the given contents,
is parsed if it is a candidate and a source. -/
structure Parses (host : Host) (p : Params) (top : Entries) (dir : List Text) (name contents : Bytes) :
    Prop where
  reached : ∃ e, Reached p top dir name e ∧ e.isDirectory = false
  isFile : ∃ place access,
    host.entry true (p.pathOf host (dir ++ [name.toText])) = .ok (place, .file contents access)
  candidate : FileClass.isCandidate name.toText p.whitelist p.blacklist = .ok true
  source : FileClass.isParsed (p.pathOf host (dir ++ [name.toText])) p.sources = .ok true

/-- The file that a directive in the directory `dir` refers to has a node with the given path. -/
def Resolver.Finds (host : Host) (r : Resolver) (dir : List Text) (d : Source.Directive) (path : Text) :
    Prop :=
  ∃ file, r.resolve? host d.header.toText d.angled (Text.join [slash] dir) = some file ∧
    r.nodePathFor host file = .ok (some path)

/-- A parsed file has a directive that refers to the node with the given path. A directive without a
header refers to nothing. -/
def Includes (host : Host) (p : Params) (r : Resolver) (top : Entries) (dir : List Text) (name : Bytes)
    (path : Text) : Prop :=
  ∃ contents d, Parses host p top dir name contents ∧ d ∈ Source.includes contents ∧ d.header ≠ [] ∧
    r.Finds host dir d path

/-! ## Visits -/

namespace Scope

variable {s : Scope} {path : Text} {names : List Text} {entries : Entries} {v : Visit}

theorem visitFiles_eq {files : List FileVisit} {list : List Text}
    (h : s.visitFiles path names list = (files, none)) :
    files.map Except.ok = list.map (s.visitFile path names) := by
  induction list generalizing files with
  | nil =>
    obtain ⟨rfl, _⟩ := Prod.mk.inj h
    rfl
  | cons name rest ih =>
    rw [visitFiles] at h
    split at h
    · simp at h
    · next file hfile =>
      obtain ⟨rfl, hnone⟩ := Prod.mk.inj h
      rw [List.map_cons, List.map_cons, hfile, ih (Prod.ext rfl hnone)]

/-- What a visit that did not fail holds: the directories among the entries that are shown, and the files
that the others are visited as. -/
theorem visit_eq (h : s.visit path names entries = (v, none)) :
    let shown := entries.filter fun entry => !s.isSkipped names entry.1.toText
    v.names = names ∧
      v.directories = (shown.filter (s.isDirectory path)).map (fun entry => entry.1.toText) ∧
      v.files.map Except.ok = (shown.filter fun entry => !s.isDirectory path entry).map
        fun entry => s.visitFile path names entry.1.toText := by
  unfold visit at h
  obtain ⟨rfl, hnone⟩ := Prod.mk.inj h
  refine ⟨rfl, rfl, ?_⟩
  rw [visitFiles_eq (Prod.ext rfl hnone), List.map_map]
  rfl

theorem mem_directories (h : s.visit path names entries = (v, none)) {n : Text} :
    n ∈ v.directories ↔ ∃ name e, (name, e) ∈ entries ∧ s.isDirectory path (name, e) = true ∧
      s.isSkipped names name.toText = false ∧ name.toText = n := by
  rw [(visit_eq h).2.1]
  simp [and_assoc]

theorem mem_files (h : s.visit path names entries = (v, none)) {f : FileVisit} :
    f ∈ v.files ↔ ∃ name e, (name, e) ∈ entries ∧ s.isDirectory path (name, e) = false ∧
      s.isSkipped names name.toText = false ∧ s.visitFile path names name.toText = .ok f := by
  have hmem : f ∈ v.files ↔ (.ok f : Except Failure FileVisit) ∈ v.files.map Except.ok := by simp
  rw [hmem, (visit_eq h).2.2]
  simp [and_assoc]

/-- Every file that is shown was visited. -/
theorem exists_visitFile (h : s.visit path names entries = (v, none)) {name : Bytes} {e : Entry}
    (hmem : (name, e) ∈ entries) (hskip : s.isSkipped names name.toText = false)
    (hdir : s.isDirectory path (name, e) = false) : ∃ f, s.visitFile path names name.toText = .ok f := by
  have hvisited : s.visitFile path names name.toText ∈ v.files.map Except.ok := by
    rw [(visit_eq h).2.2]
    exact List.mem_map.2 ⟨(name, e), by simp [hmem, hskip, hdir], rfl⟩
  obtain ⟨f, _, hf⟩ := List.mem_map.1 hvisited
  exact ⟨f, hf.symm⟩

/-- The includes of a file that was visited: those of its directives, if it is parsed. -/
theorem of_visitFile {name : Text} {f : FileVisit} (h : s.visitFile path names name = .ok f) :
    f.name = name ∧
      (s.isParsed (Path.join path name) name = .ok true →
        ∃ ds, readIncludes s.host (Path.join path name) = .ok ds) ∧
      ∀ i, i ∈ f.includes.getD [] ↔ ∃ ds, s.isParsed (Path.join path name) name = .ok true ∧
        readIncludes s.host (Path.join path name) = .ok ds ∧ ∃ d ∈ ds, s.inclusion names d = i := by
  unfold visitFile at h
  dsimp only at h
  split at h
  · simp at h
  · next hparsed =>
    obtain rfl := Except.ok.inj h
    simp [hparsed]
  · next hparsed =>
    split at h
    · simp at h
    · next ds hds =>
      obtain rfl := Except.ok.inj h
      simp [hparsed, hds]

theorem isDirectory_sorted (s : Scope) (path : Text) (name : Bytes) (e : Entry) :
    s.isDirectory path (name, e.sorted) = s.isDirectory path (name, e) := by
  cases e <;> simp [isDirectory, Entry.sorted]

theorem isDirectory_of_isDirectory {name : Bytes} {e : Entry} (h : s.isDirectory path (name, e) = false) :
    e.isDirectory = false := by
  cases e with
  | directory inner access => exact h
  | _ => rfl

/-- What leads to a regular file counts as no directory, unless it is one itself. -/
theorem isDirectory_eq_false {name : Bytes} {e : Entry} {place : List Bytes} {contents : Bytes} {access : Access}
    (he : e.isDirectory = false)
    (h : s.host.entry true (Path.join path name.toText) = .ok (place, .file contents access)) :
    s.isDirectory path (name, e) = false := by
  cases e with
  | directory inner access => simp [Entry.isDirectory] at he
  | link target access => simp [isDirectory, Host.isDirectory, Host.entry?, h, Entry.isDirectory]
  | _ => rfl

end Scope

/-! ## Parsed files -/

variable {host : Host} {p : Params} {r : Resolver} {top : Entries} {dir : List Text} {name : Bytes}
  {path : Text}

/-- The scope of a scan with a resolver. -/
def Params.scopeOf (host : Host) (r : Resolver) (p : Params) : Scope :=
  ⟨host, r, p.scanDir, p.skipped, p.selects⟩

theorem isFile_iff {full : Text} : host.isFile full = true ↔
    ∃ place contents access, host.entry true full = .ok (place, .file contents access) := by
  unfold Host.isFile Host.entry?
  cases h : host.entry true full with
  | error e => simp
  | ok found =>
    obtain ⟨place, e⟩ := found
    cases e <;> simp [Entry.isFile]

theorem selects_eq_true {full name : Text} : p.selects full name = .ok true ↔
    FileClass.isCandidate name p.whitelist p.blacklist = .ok true ∧
      FileClass.isParsed full p.sources = .ok true := by
  unfold Params.selects
  split
  · next h => simp [h]
  · next h => simp [h]
  · next h =>
    split
    · next h' => simp [h']
    · next h' => simp [h, h']

theorem isParsed_eq_true {full name : Text} : (p.scopeOf host r).isParsed full name = .ok true ↔
    host.isFile full = true ∧ p.selects full name = .ok true := by
  unfold Scope.isParsed
  split
  · next h => exact ⟨fun hselects => ⟨h, hselects⟩, fun hboth => hboth.2⟩
  · next h =>
    simp only [Except.ok.injEq, Bool.false_eq_true, false_iff]
    exact fun hboth => h hboth.1

/-- A regular file is mapped if it may be read and may be mapped, in this order. -/
theorem mapped_file {full : Text} {place : List Bytes} {contents : Bytes} {access : Access}
    (h : host.entry true full = .ok (place, .file contents access)) :
    mapped host full (.file contents access) =
      if access.read then if access.map then .ok contents else .error (.bare .noDevice)
      else .error (.fault .denied) := by
  rw [mapped, Host.read, h]
  dsimp only [Host.readEntry, Entry.access]
  cases access.read <;> rfl

/-- What is read from a regular file are the directives in its contents. A file of size zero, which is not
opened, has none. -/
theorem readIncludes_eq {full : Text} {place : List Bytes} {contents : Bytes} {access : Access}
    {ds : List Source.Directive} (h : host.entry true full = .ok (place, .file contents access))
    (hds : readIncludes host full = .ok ds) : ds = Source.includes contents := by
  unfold readIncludes at hds
  rw [h] at hds
  dsimp only at hds
  split at hds
  · next hempty =>
    obtain rfl := Except.ok.inj hds
    rw [List.isEmpty_iff.1 hempty]
    simp [Source.includes, Source.includesFrom]
  · obtain ⟨read, hread, rfl⟩ := Host.exists_of_map_eq_ok hds
    rw [mapped_file h] at hread
    split at hread
    · split at hread
      · rw [Except.ok.inj hread]
      · simp at hread
    · simp at hread

/-! ## Requests -/

theorem mem_inclusionRequests {i : Inclusion} {reverse : Bool} {file : List Text} {q : Request} :
    q ∈ i.requests reverse file ↔ ∃ path, i.lead = .tracked path ∧
      (q = .dependency file (components path) ∨
        reverse = true ∧ q = .dependent (components path) file) := by
  unfold Inclusion.requests
  split
  · next path h =>
    cases reverse <;> simp [h]
  · next h => simpa using fun path hpath => absurd hpath (h path)

theorem reached_iff {e : Entry} : Reached p top dir name e ↔
    ∃ within, (p.scopeOf host r).Enters [] top dir within ∧ (name, e) ∈ within ∧
      (p.scopeOf host r).isSkipped dir name.toText = false := by
  have hkept : (∀ first ∈ (dir ++ [name.toText]).head?, first ∉ p.skipped) ↔
      (∀ first ∈ dir.head?, (p.scopeOf host r).isSkipped [] first = false) ∧
        (p.scopeOf host r).isSkipped dir name.toText = false := by
    cases dir <;> simp [Scope.isSkipped, Params.scopeOf]
  constructor
  · rintro ⟨⟨within, hopens, hmem⟩, hfirst⟩
    obtain ⟨hhead, hskip⟩ := hkept.1 hfirst
    exact ⟨within, ⟨hopens, hhead⟩, hmem, hskip⟩
  · rintro ⟨within, ⟨hopens, hhead⟩, hmem, hskip⟩
    exact ⟨⟨within, hopens, hmem⟩, hkept.2 ⟨hhead, hskip⟩⟩

theorem join_pathOf (host : Host) (p : Params) (dir : List Text) (n : Text) :
    Path.join (p.pathOf host dir) n = p.pathOf host (dir ++ [n]) := by
  rw [Params.pathOf, Params.pathOf, List.foldl_append]
  rfl

/-- What a directive leads to: it has a header, and the file that it refers to has a node. -/
theorem lead_tracked_iff {d : Source.Directive} :
    r.lead host d (Text.join [slash] dir) = .tracked path ↔ d.header ≠ [] ∧ r.Finds host dir d path := by
  have hheader : d.header.toText ≠ [] ↔ d.header ≠ [] := by
    refine not_congr ⟨fun h => ?_, fun h => by rw [h]; rfl⟩
    rw [← Bytes.key_toText d.header, h]
    rfl
  rw [← hheader]
  exact Resolver.lead_eq_tracked_iff

theorem lead_inclusion_iff {d : Source.Directive} :
    ((p.scopeOf host r).inclusion dir d).lead = .tracked path ↔ d.header ≠ [] ∧ r.Finds host dir d path :=
  lead_tracked_iff

section Visited

variable {within : Entries} {v : Visit}
  (hvisit : (p.scopeOf host r).visit (p.pathOf host dir) dir (Entry.inOrder within) = (v, none))

include hvisit

/-- The names of what was visited in a directory are those of its entries that are shown. -/
theorem mem_names_iff {n : Text} : (n ∈ v.directories ∨ ∃ f ∈ v.files, f.name = n) ↔
    ∃ name e, (name, e) ∈ within ∧ (p.scopeOf host r).isSkipped dir name.toText = false ∧ name.toText = n := by
  constructor
  · rintro (hn | ⟨f, hf, rfl⟩)
    · obtain ⟨name, _, hmem, _, hskip, hname⟩ := (Scope.mem_directories hvisit).1 hn
      obtain ⟨e, hmem, _⟩ := Entry.mem_inOrder.1 hmem
      exact ⟨name, e, hmem, hskip, hname⟩
    · obtain ⟨name, _, hmem, _, hskip, hfile⟩ := (Scope.mem_files hvisit).1 hf
      obtain ⟨e, hmem, _⟩ := Entry.mem_inOrder.1 hmem
      exact ⟨name, e, hmem, hskip, (Scope.of_visitFile hfile).1.symm⟩
  · rintro ⟨name, e, hmem, hskip, rfl⟩
    have hsorted : (name, e.sorted) ∈ Entry.inOrder within := Entry.mem_inOrder.2 ⟨e, hmem, rfl⟩
    cases hdir : (p.scopeOf host r).isDirectory (p.pathOf host dir) (name, e.sorted) with
    | true => exact .inl ((Scope.mem_directories hvisit).2 ⟨name, _, hsorted, hdir, hskip, rfl⟩)
    | false =>
      obtain ⟨f, hf⟩ := Scope.exists_visitFile hvisit hsorted hskip hdir
      exact .inr ⟨f, (Scope.mem_files hvisit).2 ⟨name, _, hsorted, hdir, hskip, hf⟩,
        (Scope.of_visitFile hf).1⟩

/-- An include of a file that was visited is one of its directives. -/
theorem includes_of_visit (henters : (p.scopeOf host r).Enters [] top dir within) {f : FileVisit} {i : Inclusion}
    (hf : f ∈ v.files) (hi : i ∈ f.includes.getD []) (hlead : i.lead = .tracked path) :
    ∃ name, name.toText = f.name ∧ Includes host p r top dir name path := by
  obtain ⟨name, _, hsorted, hdir, hskip, hfile⟩ := (Scope.mem_files hvisit).1 hf
  obtain ⟨e, hmem, rfl⟩ := Entry.mem_inOrder.1 hsorted
  rw [Scope.isDirectory_sorted] at hdir
  obtain ⟨hname, _, hincludes⟩ := Scope.of_visitFile hfile
  obtain ⟨ds, hparsed, hds, d, hd, rfl⟩ := (hincludes i).1 hi
  rw [join_pathOf] at hparsed hds
  obtain ⟨hisFile, hselects⟩ := isParsed_eq_true.1 hparsed
  obtain ⟨place, contents, access, hentry⟩ := isFile_iff.1 hisFile
  obtain ⟨hcandidate, hsource⟩ := selects_eq_true.1 hselects
  rw [readIncludes_eq hentry hds] at hd
  obtain ⟨hheader, hfinds⟩ := lead_inclusion_iff.1 hlead
  refine ⟨name, hname.symm, contents, d, ⟨⟨e, ?_, Scope.isDirectory_of_isDirectory hdir⟩,
    ⟨place, access, hentry⟩, hcandidate, hsource⟩, hd, hheader, hfinds⟩
  exact reached_iff.2 ⟨within, henters, hmem, hskip⟩

/-- A directive of a file that is parsed is an include of a file that was visited. -/
theorem exists_visited_of_parses {e : Entry} (hmem : (name, e) ∈ within)
    (hskip : (p.scopeOf host r).isSkipped dir name.toText = false) (hdir : e.isDirectory = false) {contents : Bytes}
    (hparses : Parses host p top dir name contents) {d : Source.Directive} (hd : d ∈ Source.includes contents) :
    ∃ f ∈ v.files, f.name = name.toText ∧ (p.scopeOf host r).inclusion dir d ∈ f.includes.getD [] := by
  obtain ⟨place, access, hentry⟩ := hparses.isFile
  have hsorted : (name, e.sorted) ∈ Entry.inOrder within := Entry.mem_inOrder.2 ⟨e, hmem, rfl⟩
  have hnot : (p.scopeOf host r).isDirectory (p.pathOf host dir) (name, e.sorted) = false := by
    rw [Scope.isDirectory_sorted]
    exact Scope.isDirectory_eq_false hdir (by rw [join_pathOf]; exact hentry)
  obtain ⟨f, hf⟩ := Scope.exists_visitFile hvisit hsorted hskip hnot
  obtain ⟨hname, hread, hincludes⟩ := Scope.of_visitFile hf
  refine ⟨f, (Scope.mem_files hvisit).2 ⟨name, _, hsorted, hnot, hskip, hf⟩, hname, ?_⟩
  rw [join_pathOf] at hread hincludes
  have hparsed : (p.scopeOf host r).isParsed (p.pathOf host (dir ++ [name.toText])) name.toText = .ok true :=
    isParsed_eq_true.2 ⟨isFile_iff.2 ⟨place, contents, access, hentry⟩,
      selects_eq_true.2 ⟨hparses.candidate, hparses.source⟩⟩
  obtain ⟨ds, hds⟩ := hread hparsed
  rw [← readIncludes_eq hentry hds] at hd
  exact (hincludes _).2 ⟨ds, hparsed, hds, d, hd, rfl⟩

end Visited

/-- What a scan asks an atlas for. -/
inductive Asked (host : Host) (p : Params) (r : Resolver) (top : Entries) (reverse : Bool) : Request → Prop
  | directory {dir : List Text} {within : Entries} :
      (p.scopeOf host r).Enters [] top dir within → Asked host p r top reverse (.node dir)
  | entry {dir : List Text} {name : Bytes} {e : Entry} :
      Reached p top dir name e → Asked host p r top reverse (.node (dir ++ [name.toText]))
  | dependency {dir : List Text} {name : Bytes} {path : Text} : Includes host p r top dir name path →
      Asked host p r top reverse (.dependency (dir ++ [name.toText]) (components path))
  | dependent {dir : List Text} {name : Bytes} {path : Text} : Includes host p r top dir name path →
      reverse = true → Asked host p r top reverse (.dependent (components path) (dir ++ [name.toText]))

theorem mem_visitRequests {v : Visit} {reverse : Bool} {q : Request} : q ∈ v.requests reverse ↔
    q = .node v.names ∨ (∃ n, (n ∈ v.directories ∨ ∃ f ∈ v.files, f.name = n) ∧ q = .node (v.names ++ [n])) ∨
      ∃ f ∈ v.files, ∃ i ∈ f.includes.getD [], q ∈ i.requests reverse (v.names ++ [f.name]) := by
  simp only [Visit.requests, FileVisit.requests, List.mem_append, List.mem_cons, List.mem_map,
    List.mem_flatMap]
  constructor
  · rintro ((rfl | ⟨n, hn, rfl⟩) | ⟨f, hf, rfl | hq⟩)
    · exact .inl rfl
    · exact .inr (.inl ⟨n, .inl hn, rfl⟩)
    · exact .inr (.inl ⟨_, .inr ⟨f, hf, rfl⟩, rfl⟩)
    · exact .inr (.inr ⟨f, hf, hq⟩)
  · rintro (rfl | ⟨n, hn | ⟨f, hf, rfl⟩, rfl⟩ | ⟨f, hf, hq⟩)
    · exact .inl (.inl rfl)
    · exact .inl (.inr ⟨n, hn, rfl⟩)
    · exact .inr ⟨f, hf, .inl rfl⟩
    · exact .inr ⟨f, hf, .inr hq⟩

/-- What is included is an include of a file that some visit of the survey holds. -/
theorem exists_visit_of_includes {visits : List Visit}
    (hvisits : (p.scopeOf host r).Describes (p.pathOf host []) []
      (fun rel within => ∃ inner, (p.scopeOf host r).Enters [] top rel inner ∧ Entry.inOrder inner = within)
      visits)
    (h : Includes host p r top dir name path) : ∃ v ∈ visits, v.names = dir ∧
      ∃ f ∈ v.files, f.name = name.toText ∧ ∃ i ∈ f.includes.getD [], i.lead = .tracked path := by
  obtain ⟨contents, d, hparses, hd, hheader, hfinds⟩ := h
  obtain ⟨e, hreached, hdir⟩ := hparses.reached
  obtain ⟨within, henters, hmem, hskip⟩ := reached_iff.1 hreached
  obtain ⟨v, hv, hvisit⟩ := hvisits.complete dir _ ⟨within, henters, rfl⟩
  obtain ⟨f, hf, hname, hi⟩ := exists_visited_of_parses hvisit hmem hskip hdir hparses hd
  exact ⟨v, hv, (Scope.visit_eq hvisit).1, f, hf, hname, _, hi, lead_inclusion_iff.2 ⟨hheader, hfinds⟩⟩

/-- **The requests of a survey** that does not fail are what is to be asked for. -/
theorem mem_requests_iff (h : (p.scopeOf host r).surveyTop.failure = none) (reverse : Bool) :
    ∃ top, host.list (host.absolute p.scanDir) = .ok top ∧
      ∀ q, q ∈ (p.scopeOf host r).surveyTop.requests reverse ↔ Asked host p r top reverse q := by
  obtain ⟨top, htop, hvisits⟩ := Scope.describes_surveyTop h
  refine ⟨top, htop, fun q => ?_⟩
  rw [Survey.requests, List.mem_flatMap]
  constructor
  · -- A visit asks for its directory, for the entries in it, and for the edges of the files among them.
    rintro ⟨v, hv, hq⟩
    obtain ⟨dir, _, ⟨within, henters, rfl⟩, hvisit⟩ := hvisits.sound v hv
    have hnames := (Scope.visit_eq hvisit).1
    rcases mem_visitRequests.1 hq with rfl | ⟨n, hn, rfl⟩ | ⟨f, hf, i, hi, hq⟩
    · rw [hnames]
      exact .directory henters
    · obtain ⟨name, e, hmem, hskip, rfl⟩ := (mem_names_iff hvisit).1 hn
      rw [hnames]
      exact .entry (reached_iff.2 ⟨within, henters, hmem, hskip⟩)
    · obtain ⟨path, hlead, hq⟩ := mem_inclusionRequests.1 hq
      obtain ⟨name, hname, hincludes⟩ := includes_of_visit hvisit henters hf hi hlead
      rw [hnames, ← hname] at hq
      rcases hq with rfl | ⟨hreverse, rfl⟩
      · exact .dependency hincludes
      · exact .dependent hincludes hreverse
  · -- Each directory that is entered has its visit, and what is asked for because of it is asked for there.
    intro hasked
    cases hasked with
    | directory henters =>
      obtain ⟨v, hv, hvisit⟩ := hvisits.complete _ _ ⟨_, henters, rfl⟩
      refine ⟨v, hv, mem_visitRequests.2 (.inl ?_)⟩
      rw [(Scope.visit_eq hvisit).1]
      rfl
    | entry hreached =>
      obtain ⟨within, henters, hmem, hskip⟩ := reached_iff.1 hreached
      obtain ⟨v, hv, hvisit⟩ := hvisits.complete _ _ ⟨within, henters, rfl⟩
      refine ⟨v, hv, mem_visitRequests.2 (.inr (.inl
        ⟨_, (mem_names_iff hvisit).2 ⟨_, _, hmem, hskip, rfl⟩, ?_⟩))⟩
      rw [(Scope.visit_eq hvisit).1]
      rfl
    | dependency hincludes =>
      obtain ⟨v, hv, rfl, f, hf, hname, i, hi, hlead⟩ := exists_visit_of_includes hvisits hincludes
      rw [← hname]
      exact ⟨v, hv, mem_visitRequests.2 (.inr (.inr
        ⟨f, hf, i, hi, mem_inclusionRequests.2 ⟨_, hlead, .inl rfl⟩⟩))⟩
    | dependent hincludes hreverse =>
      obtain ⟨v, hv, rfl, f, hf, hname, i, hi, hlead⟩ := exists_visit_of_includes hvisits hincludes
      rw [← hname]
      exact ⟨v, hv, mem_visitRequests.2 (.inr (.inr
        ⟨f, hf, i, hi, mem_inclusionRequests.2 ⟨_, hlead, .inr ⟨hreverse, rfl⟩⟩⟩))⟩

/-! ## What is granted -/

/-- Every directory on the way to one that is opened is reached itself. -/
theorem reached_of_opens {within : Entries} {pre : List Text} (h : Opens top dir within)
    (hkept : ∀ first ∈ dir.head?, first ∉ p.skipped) (hne : pre ≠ []) (hpre : pre <+: dir) :
    ∃ dir' name e, Reached p top dir' name e ∧ pre = dir' ++ [name.toText] := by
  obtain ⟨rest, rfl⟩ := hpre
  obtain ⟨dir', n, rfl⟩ := (List.eq_nil_or_concat' pre).resolve_left hne
  rw [List.append_assoc] at h
  obtain ⟨mid, hmid, hrest⟩ := Opens.append_iff.1 h
  obtain ⟨name, inner, access, rfl, hmem, _⟩ := Opens.cons_iff.1 hrest
  exact ⟨dir', name, _, ⟨⟨mid, hmid, hmem⟩,
    fun first hfirst => hkept first (List.mem_head?_append_of_mem_head? hfirst)⟩, rfl⟩

theorem Reached.of_initial {e : Entry} {pre : List Text} (h : Reached p top dir name e) (hne : pre ≠ [])
    (hpre : pre <+: dir ++ [name.toText]) :
    ∃ dir' name' e', Reached p top dir' name' e' ∧ pre = dir' ++ [name'.toText] := by
  rcases List.prefix_concat_iff.1 hpre with rfl | hpre
  · exact ⟨dir, name, e, h, rfl⟩
  · obtain ⟨within, hopens, _⟩ := h.listed
    exact reached_of_opens hopens
      (fun first hfirst => h.kept first (List.mem_head?_append_of_mem_head? hfirst)) hne hpre

/-- The nodes that are granted are those of the entries that are reached, and those on the way to what is
included. -/
theorem grants_node_iff {reverse : Bool} {names : List Text} :
    (∃ q, Asked host p r top reverse q ∧ q.Grants (.node names)) ↔ names ≠ [] ∧
      ((∃ dir name e, Reached p top dir name e ∧ names = dir ++ [name.toText]) ∨
        ∃ dir name path, Includes host p r top dir name path ∧ names <+: components path) := by
  constructor
  · rintro ⟨q, hasked, hne, path, hpath, hpre⟩
    refine ⟨hne, ?_⟩
    -- A file that includes something was reached, and so were the directories on the way to it.
    have hfile : ∀ {dir name path}, Includes host p r top dir name path → names <+: dir ++ [name.toText] →
        ∃ dir name e, Reached p top dir name e ∧ names = dir ++ [name.toText] := by
      rintro dir name path ⟨_, _, hparses, _⟩ hpre
      obtain ⟨e, hreached, _⟩ := hparses.reached
      exact hreached.of_initial hne hpre
    cases hasked with
    | directory henters =>
      obtain rfl := List.mem_singleton.1 hpath
      refine .inl (reached_of_opens henters.1 (fun first hfirst => ?_) hne hpre)
      simpa [Scope.isSkipped, Params.scopeOf] using henters.2 first hfirst
    | entry hreached =>
      obtain rfl := List.mem_singleton.1 hpath
      exact .inl (hreached.of_initial hne hpre)
    | dependency hincludes =>
      rcases List.mem_pair.1 hpath with rfl | rfl
      · exact .inl (hfile hincludes hpre)
      · exact .inr ⟨_, _, _, hincludes, hpre⟩
    | dependent hincludes _ =>
      rcases List.mem_pair.1 hpath with rfl | rfl
      · exact .inr ⟨_, _, _, hincludes, hpre⟩
      · exact .inl (hfile hincludes hpre)
  · rintro ⟨hne, ⟨dir, name, e, hreached, rfl⟩ | ⟨dir, name, path, hincludes, hpre⟩⟩
    · exact ⟨_, .entry hreached, hne, _, List.mem_singleton_self _, List.prefix_rfl⟩
    · exact ⟨_, .dependency hincludes, hne, _, List.mem_pair.2 (.inr rfl), hpre⟩

theorem grants_dependency_iff {reverse : Bool} {source target : List Text} :
    (∃ q, Asked host p r top reverse q ∧ q.Grants (.dependency source target)) ↔
      ∃ dir name path, Includes host p r top dir name path ∧ source = dir ++ [name.toText] ∧
        target = components path := by
  constructor
  · rintro ⟨q, hasked, rfl⟩
    cases hasked with
    | dependency hincludes => exact ⟨_, _, _, hincludes, rfl, rfl⟩
  · rintro ⟨dir, name, path, hincludes, rfl, rfl⟩
    exact ⟨_, .dependency hincludes, rfl⟩

/-! ## Scans -/

theorem Reached.decoded {e : Entry} (h : Reached p top dir name e) : ∀ n ∈ dir ++ [name.toText], n.Decoded := by
  obtain ⟨within, hopens, _⟩ := h.listed
  intro n hn
  rcases List.mem_append.1 hn with hn | hn
  · exact hopens.decoded n hn
  · rw [List.mem_singleton.1 hn]
    exact Text.decoded_toText name

theorem Parses.decoded {contents : Bytes} (h : Parses host p top dir name contents) :
    ∀ n ∈ dir ++ [name.toText], n.Decoded := by
  obtain ⟨e, hreached, _⟩ := h.reached
  exact hreached.decoded

/-- The path of a node that is found for a directive leads somewhere, and is made of its components alone. -/
theorem leads_of_finds (hr : r.AllClean) (hdir : ∀ n ∈ dir, n.Decoded) {d : Source.Directive}
    (h : r.Finds host dir d path) : Leads path ∧ Text.join [slash] (components path) = path := by
  obtain ⟨file, hfile, hpath⟩ := h
  obtain ⟨hclean, _⟩ := Resolver.of_resolve? (Host.peelable_clean host) hr.searched
    (Text.decoded_toText d.header) (Text.Decoded.join (by decide) hdir) hfile
  exact Resolver.leads_of_nodePathFor hclean hpath

theorem leads_of_includes (hr : r.AllClean) (h : Includes host p r top dir name path) :
    Leads path ∧ Text.join [slash] (components path) = path := by
  obtain ⟨contents, d, hparses, _, _, hfinds⟩ := h
  exact leads_of_finds hr (fun n hn => hparses.decoded n (List.mem_append_left _ hn)) hfinds

theorem fits_of_asked (hr : r.AllClean) {reverse : Bool} {q : Request} (h : Asked host p r top reverse q)
    (hne : ∀ path ∈ q.paths, ∀ n ∈ path, n ≠ []) : q.Fits := by
  refine fun path hpath n hn => ⟨hne path hpath n hn, ?_⟩
  have hfile : ∀ {dir name path}, Includes host p r top dir name path → n ∈ dir ++ [name.toText] → n.Decoded := by
    rintro dir name path ⟨_, _, hparses, _⟩ hn
    exact hparses.decoded n hn
  cases h with
  | directory henters =>
    obtain rfl := List.mem_singleton.1 hpath
    exact henters.1.decoded n hn
  | entry hreached =>
    obtain rfl := List.mem_singleton.1 hpath
    exact hreached.decoded n hn
  | dependency hincludes =>
    rcases List.mem_pair.1 hpath with rfl | rfl
    · exact hfile hincludes hn
    · exact (leads_of_includes hr hincludes).1.2 n hn
  | dependent hincludes _ =>
    rcases List.mem_pair.1 hpath with rfl | rfl
    · exact (leads_of_includes hr hincludes).1.2 n hn
    · exact hfile hincludes hn

theorem of_outcome_eq_ok {survey : Survey} {full : Text} {reverse : Bool} {a : Atlas} {stats : Stats}
    (h : (survey.outcome full reverse a).result = .ok stats) : survey.failure = none ∧
      a.performAll (survey.requests reverse) = ((survey.outcome full reverse a).atlas, .ok ()) := by
  unfold Survey.outcome at h ⊢
  dsimp only at h ⊢
  cases hperform : a.performAll (survey.requests reverse) with
  | mk b result =>
    cases result with
    | error e => simp [hperform] at h
    | ok _ =>
      cases hfailure : survey.failure with
      | some e => simp [hperform, hfailure] at h
      | none => exact ⟨rfl, rfl⟩

/-- A scan that has a resolver is what its survey makes of the atlas. -/
theorem run_eq_outcome (hr : Resolver.ofParams host p = .ok r) (a : Atlas) :
    run host p a = (p.scopeOf host r).surveyTop.outcome (host.absolute p.scanDir) p.reverse a := by
  rw [run, Params.scope, hr]
  rfl

/-- A scan that comes to its end has a resolver, and its survey did not fail and was not refused. -/
theorem of_run_eq_ok {a : Atlas} {stats : Stats} (h : (run host p a).result = .ok stats) :
    ∃ r, Resolver.ofParams host p = .ok r ∧ (p.scopeOf host r).surveyTop.failure = none ∧
      a.performAll ((p.scopeOf host r).surveyTop.requests p.reverse) = ((run host p a).atlas, .ok ()) := by
  unfold run runIn Params.scope at h ⊢
  cases hr : Resolver.ofParams host p with
  | error e => simp [hr] at h
  | ok r =>
    rw [hr] at h
    exact ⟨r, rfl, of_outcome_eq_ok h⟩

/-- **What a scan that comes to its end has asked for**: its requests are those for what it reaches and what is
included there, and they fit. -/
theorem requests_of_run_eq_ok {a : Atlas} {stats : Stats} (hp : p.Decoded) (h : (run host p a).result = .ok stats) :
    ∃ r top, Resolver.ofParams host p = .ok r ∧ r.AllClean ∧ host.list (host.absolute p.scanDir) = .ok top ∧
      (p.scopeOf host r).surveyTop.failure = none ∧
      ∀ q, (q ∈ (p.scopeOf host r).surveyTop.requests p.reverse → q.Fits) ∧
        (q ∈ (p.scopeOf host r).surveyTop.requests p.reverse ↔ Asked host p r top p.reverse q) := by
  obtain ⟨r, hr, hfailure, hperform⟩ := of_run_eq_ok h
  have hclean := Resolver.allClean_of_ofParams hp hr
  obtain ⟨top, htop, hrequests⟩ := mem_requests_iff hfailure p.reverse
  -- That no name is empty is not known of the disk, but a run with one would have been refused.
  have hne := Atlas.ne_nil_of_performAll hperform
  exact ⟨r, top, hr, hclean, htop, hfailure, fun q =>
    ⟨fun hq => fits_of_asked hclean ((hrequests q).1 hq) (hne q hq), hrequests q⟩⟩

/-- **What a scan adds to an atlas** does not depend on the atlas, and neither do its statistics. -/
theorem run_adds {b : Atlas} {r : Resolver} (hr : Resolver.ofParams host p = .ok r)
    (hfailure : (p.scopeOf host r).surveyTop.failure = none)
    (hfits : ∀ q ∈ (p.scopeOf host r).surveyTop.requests p.reverse, q.Fits) (hb : b.WellFormed) (hd : b.Decoded) :
    (run host p b).result = .ok (p.scopeOf host r).surveyTop.stats ∧
      Atlas.Adds b (run host p b).atlas fun f =>
        ∃ q ∈ (p.scopeOf host r).surveyTop.requests p.reverse, q.Grants f := by
  obtain ⟨c, hc, hadds⟩ := Atlas.performAll_adds hb hd hfits
  rw [run_eq_outcome hr, Survey.outcome, hc, hfailure]
  exact ⟨rfl, hadds⟩

/-- What holds after a scan into an empty atlas. -/
theorem run_empty_holds {stats : Stats} (hp : p.Decoded) (h : (run host p Atlas.empty).result = .ok stats) :
    ∃ r top, Resolver.ofParams host p = .ok r ∧ r.AllClean ∧ host.list (host.absolute p.scanDir) = .ok top ∧
      (run host p Atlas.empty).atlas.WellFormed ∧
      ∀ f, (run host p Atlas.empty).atlas.Holds f ↔
        f = .node [] ∨ ∃ q, Asked host p r top p.reverse q ∧ q.Grants f := by
  obtain ⟨r, top, hr, hclean, htop, hfailure, hrequests⟩ := requests_of_run_eq_ok hp h
  obtain ⟨_, hadds⟩ := run_adds hr hfailure (fun q => (hrequests q).1) Atlas.wellFormed_empty Atlas.decoded_empty
  refine ⟨r, top, hr, hclean, htop, hadds.wellFormed, fun f => ?_⟩
  rw [hadds.holds, Atlas.holds_empty]
  simp only [fun q => (hrequests q).2]

/-- An atlas of what is reached and included, and of nothing else. Its nodes are the root, the entries that
are reached, and what lies on the way to an included file; its dependencies are the includes of the files
that are parsed, and no other node has one. -/
structure Exact (host : Host) (p : Params) (r : Resolver) (top : Entries) (a : Atlas) : Prop where
  paths : ∀ path, path ∈ a.paths ↔ path = [] ∨
    (∃ dir name e, Reached p top dir name e ∧ Text.join [slash] (dir ++ [name.toText]) = path) ∨
    ∃ dir name target names, Includes host p r top dir name target ∧ names ≠ [] ∧
      names <+: components target ∧ Text.join [slash] names = path
  dependencies : ∀ source target, (source, target) ∈ a.dependencyPairs ↔
    ∃ dir name, Includes host p r top dir name target ∧ Text.join [slash] (dir ++ [name.toText]) = source
  sources : ∀ i, a.dependencies i ≠ [] → ∃ dir name contents, Parses host p top dir name contents ∧
    a.At i (dir ++ [name.toText])

/-- **A scan records exactly what is there**, if it is a scan into an empty atlas that comes to its end. -/
theorem run_empty_exact {stats : Stats} (hp : p.Decoded) (h : (run host p Atlas.empty).result = .ok stats) :
    ∃ r top, Resolver.ofParams host p = .ok r ∧ host.list (host.absolute p.scanDir) = .ok top ∧
      Exact host p r top (run host p Atlas.empty).atlas := by
  obtain ⟨r, top, hr, hclean, htop, hwf, hholds⟩ := run_empty_holds hp h
  have hjoin : ∀ {dir name path}, Includes host p r top dir name path →
      Text.join Path.root (components path) = path := fun h => (leads_of_includes hclean h).2
  refine ⟨r, top, hr, htop, fun path => ?_, fun source target => ?_, fun i hi => ?_⟩
  · simp only [Atlas.mem_paths, hholds, grants_node_iff, Request.node.injEq]
    constructor
    · rintro ⟨names, rfl | ⟨hne, ⟨dir, name, e, hreached, rfl⟩ | ⟨dir, name, target, hincludes, hpre⟩⟩, rfl⟩
      · exact .inl rfl
      · exact .inr (.inl ⟨dir, name, e, hreached, rfl⟩)
      · exact .inr (.inr ⟨dir, name, target, names, hincludes, hne, hpre, rfl⟩)
    · rintro (rfl | ⟨dir, name, e, hreached, rfl⟩ | ⟨dir, name, target, names, hincludes, hne, hpre, rfl⟩)
      · exact ⟨[], .inl rfl, rfl⟩
      · exact ⟨_, .inr ⟨by simp, .inl ⟨dir, name, e, hreached, rfl⟩⟩, rfl⟩
      · exact ⟨names, .inr ⟨hne, .inr ⟨dir, name, target, hincludes, hpre⟩⟩, rfl⟩
  · simp only [Atlas.mem_edgePairs hwf, hholds, grants_dependency_iff, reduceCtorEq, false_or]
    constructor
    · rintro ⟨_, _, ⟨dir, name, path, hincludes, rfl, rfl⟩, heq⟩
      obtain ⟨rfl, rfl⟩ := Prod.mk.inj heq
      refine ⟨dir, name, ?_, rfl⟩
      rwa [hjoin hincludes]
    · rintro ⟨dir, name, hincludes, rfl⟩
      exact ⟨_, _, ⟨dir, name, target, hincludes, rfl, rfl⟩, Prod.ext rfl (hjoin hincludes)⟩
  · -- Any one dependency says what kind of node it starts from.
    obtain ⟨j, hj⟩ := List.exists_mem_of_ne_nil _ hi
    obtain ⟨hlt, hlt'⟩ := hwf.lt_size_of_mem_edges hj
    have hdependency := (hholds (.dependency _ _)).1
      ⟨i, j, Atlas.At.self hlt, Atlas.At.self hlt', hj⟩
    rw [grants_dependency_iff] at hdependency
    obtain ⟨dir, name, _, ⟨contents, _, hparses, _⟩, hnames, _⟩ := hdependency.resolve_left (by simp)
    exact ⟨dir, name, contents, hparses, hlt, hnames⟩

/-- A file of the given contents and an empty file `b` in a directory `s`, and a file `h` beside it. -/
def sampleHost (contents : Bytes) : Host where
  disk := ⟨.directory [(Text.key "h", .file [] .full), (Text.key "s", .directory
    [(Text.key "a", .file contents .full), (Text.key "b", .file [] .full)] .full)] .full⟩
  cwd := []
  env := []

/-- Scans the directory `s`, with the file `h` in the place of a search directory. -/
def sampleParams : Params where
  scanDir := "/s"
  projectRoot := "/"
  includeDirs := ["/h"]
  rootDirs := ["/"]
  sources := ["*"]
  skipped := []

/-- A scan of a file that includes its neighbour. -/
theorem run_empty_exact_sample :
    let host := sampleHost (Text.key "#include\"b\"")
    ∃ r top, Resolver.ofParams host sampleParams = .ok r ∧
      host.list (host.absolute sampleParams.scanDir) = .ok top ∧
      Exact host sampleParams r top (run host sampleParams Atlas.empty).atlas := by
  have h : (run (sampleHost (Text.key "#include\"b\"")) sampleParams Atlas.empty).result =
      .ok ⟨1, 2, 2, 1, 0⟩ := by cbv
  exact run_empty_exact ⟨by decide, by decide, by decide⟩ h

/-- A directive without a header can be resolved, by a search directory that is a file, but is dropped. -/
theorem run_empty_blank_header :
    let contents := Text.key "#include<>"
    let host := sampleHost contents
    let blank : Source.Directive := ⟨[], true⟩
    (∃ stats, (run host sampleParams Atlas.empty).result = .ok stats) ∧
      (∃ r top, Resolver.ofParams host sampleParams = .ok r ∧
        host.list (host.absolute sampleParams.scanDir) = .ok top ∧
        Parses host sampleParams top [] (Text.key "a") contents ∧ blank ∈ Source.includes contents ∧
        r.Finds host [] blank "h") ∧
      (Text.ofString "a", Text.ofString "h") ∉ (run host sampleParams Atlas.empty).atlas.dependencyPairs := by
  have hrun : (run (sampleHost (Text.key "#include<>")) sampleParams Atlas.empty).result = .ok ⟨1, 2, 2, 1, 1⟩ ∧
      (run (sampleHost (Text.key "#include<>")) sampleParams Atlas.empty).atlas.nodes.toList.map
        (·.dependencies) = [[], [], []] := by cbv
  have hr : Resolver.ofParams (sampleHost (Text.key "#include<>")) sampleParams =
      .ok ⟨"/s", ["/h"], ["/"]⟩ := by cbv
  have htop : (sampleHost (Text.key "#include<>")).list
      ((sampleHost (Text.key "#include<>")).absolute sampleParams.scanDir) =
        .ok [(Text.key "a", .file (Text.key "#include<>") .full), (Text.key "b", .file [] .full)] := by cbv
  have hentry : (sampleHost (Text.key "#include<>")).entry true
      (sampleParams.pathOf (sampleHost (Text.key "#include<>")) [Text.ofString "a"]) =
        .ok ([Text.key "s", Text.key "a"], .file (Text.key "#include<>") .full) := by cbv
  have hblank : Source.includes (Text.key "#include<>") = [⟨[], true⟩] := by cbv
  have hfile : (Resolver.mk "/s" ["/h"] ["/"]).resolve? (sampleHost (Text.key "#include<>")) [] true [] =
      some (Text.ofString "/h") := by cbv
  intro contents host blank
  refine ⟨⟨_, hrun.1⟩, ⟨_, _, hr, htop, ⟨⟨_, ⟨⟨_, .here, List.mem_cons_self⟩, by decide⟩, rfl⟩,
    ⟨_, _, hentry⟩, by decide, by decide⟩, by rw [hblank]; exact List.mem_cons_self, _, hfile, by decide⟩, ?_⟩
  -- The atlas has three nodes, and none of them has a dependency.
  rintro ⟨i, j, hj, _⟩
  have hnone : (run host sampleParams Atlas.empty).atlas.edges .dependency i = [[], [], []][i]?.getD [] := by
    rw [← hrun.2, List.getElem?_map, Array.getElem?_toList]
    rfl
  rw [hnone] at hj
  rcases i with _ | _ | _ | i <;> simp at hj

end Scan

end HeaderAtlas
