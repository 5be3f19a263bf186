import HeaderAtlas.Proofs.Disk.Sound
import HeaderAtlas.Proofs.Scan.Exact
import HeaderAtlas.Proofs.Wildcard
import Mathlib.Data.List.Lex
/-!
# When a scan fails

A scan needs the canonical paths of its directories and cannot start without them (`Unsettled`). Its walk may be
stopped by a directory that cannot be listed and by a file that is to be parsed, is not empty and cannot be read
(`Obstacle`). Where it is stopped has a position: the directories that lead there,
and perhaps a file. Positions are ordered as the walk comes to them, the files of a directory before its
directories and both by their names (`Step.Before`).

A survey stops at the first obstacle (`Scope.isFirst_surveyTop`): the induction goes over the entries in
their order, and at each directory joins what stops the walk there with what stops it below. On a sound disk
nothing else can stop a scan: its patterns have answers, and no request to the atlas is refused
(`Scope.fits_surveyTop`).
-/

set_option autoImplicit false

namespace HeaderAtlas

open HeaderAtlas.Path

/-! ## Entries in order -/

namespace Entry

/-- The names in every directory are not empty and go up. -/
inductive Ordered : Entry → Prop
  | file {contents : Bytes} {access : Access} : Ordered (.file contents access)
  | pipe {contents : Bytes} {access : Access} : Ordered (.pipe contents access)
  | device {answer : Bytes} {access : Access} : Ordered (.device answer access)
  | link {target : Bytes} {access : Access} : Ordered (.link target access)
  | directory {entries : Entries} {access : Access} :
      (∀ entry ∈ entries, entry.1 ≠ []) → entries.Pairwise (fun a b => a.1.toText < b.1.toText) →
        (∀ entry ∈ entries, Ordered entry.2) → Ordered (.directory entries access)

theorem Sound.ordered {e : Entry} (h : e.Sound) : e.sorted.Ordered := by
  induction h with
  | file => exact .file
  | pipe => exact .pipe
  | device => exact .device
  | link _ => exact .link
  | directory hnames _ hnodup ih =>
    rw [sorted_directory]
    refine .directory ?_ (pairwise_inOrder hnodup) ?_
    · rintro ⟨name, e⟩ hmem
      obtain ⟨e', hmem', rfl⟩ := mem_inOrder.1 hmem
      exact (hnames _ hmem').ne_nil
    · rintro ⟨name, e⟩ hmem
      obtain ⟨e', hmem', rfl⟩ := mem_inOrder.1 hmem
      exact ih _ hmem'

end Entry

/-- What is opened on a sound disk has names without zeros. -/
theorem Opens.zeroless {top within : Entries} {dir : List Text} {access : Access} (hopens : Opens top dir within)
    (h : (Entry.directory top access).Sound) : ∀ n ∈ dir, n.Zeroless := by
  induction hopens generalizing access with
  | here => simp
  | inside hmem _ ih =>
    obtain ⟨hname, hsound⟩ := h.of_mem hmem
    exact List.forall_mem_cons.2 ⟨Text.zeroless_toText hname.zeroless, ih hsound⟩

namespace Scan

/-! ## Positions in a walk -/

/-- A step into a directory: to one of its files or to one of its directories. -/
inductive Step where
  | file (name : Text)
  | directory (name : Text)

namespace Step

/-- The name that a step goes to. -/
def name : Step → Text
  | .file name => name
  | .directory name => name

@[simp] theorem map_name_directory (dir : List Text) : (dir.map directory).map name = dir := by
  induction dir with
  | nil => rfl
  | cons n dir ih => rw [List.map_cons, List.map_cons, ih, name]

/-- Files come before directories, and both come in the order of their names. -/
inductive Before : Step → Step → Prop
  | files {m n : Text} : m < n → Before (.file m) (.file n)
  | apart {m n : Text} : Before (.file m) (.directory n)
  | directories {m n : Text} : m < n → Before (.directory m) (.directory n)

theorem Before.irrefl {a : Step} : ¬ Before a a := by
  rintro (h | h | h)
  · exact lt_irrefl _ h
  · exact lt_irrefl _ h

end Step

/-- A position does not come before those on the way to it. -/
theorem not_lex_append (position rest : List Step) :
    ¬ List.Lex Step.Before (position ++ rest) position := by
  induction position with
  | nil => simp
  | cons a position ih =>
    intro h
    cases h with
    | rel h => exact h.irrefl
    | cons h => exact ih h

/-- Of the failures that may be met at positions, the one that is met first; none if there are none. -/
def IsFirst (met : List Step → Failure → Prop) : Option Failure → Prop
  | none => ∀ position f, ¬ met position f
  | some f => ∃ position, met position f ∧
      ∀ other g, met other g → position = other ∨ List.Lex Step.Before position other

namespace IsFirst

variable {met met' : List Step → Failure → Prop} {x y : Option Failure}

theorem congr (h : IsFirst met x) (heq : ∀ position f, met position f ↔ met' position f) : IsFirst met' x := by
  obtain rfl : met = met' := funext fun position => funext fun f => propext (heq position f)
  exact h

/-- What is met in one part of a walk comes before what is met in a later part. -/
theorem or (h : IsFirst met x) (h' : IsFirst met' y)
    (hbefore : ∀ {position f other g}, met position f → met' other g → List.Lex Step.Before position other) :
    IsFirst (fun position f => met position f ∨ met' position f) (x.or y) := by
  cases x with
  | none =>
    refine congr h' fun position f => ?_
    simp [h position f]
  | some f =>
    obtain ⟨position, hmet, hfirst⟩ := h
    refine ⟨position, .inl hmet, fun other g hother => ?_⟩
    rcases hother with hother | hother
    · exact hfirst other g hother
    · exact .inr (hbefore hmet hother)

/-- What is met below a step. -/
theorem under (step : Step) (h : IsFirst met x) :
    IsFirst (fun position f => ∃ rest, position = step :: rest ∧ met rest f) x := by
  cases x with
  | none =>
    rintro _ f ⟨rest, rfl, hmet⟩
    exact h rest f hmet
  | some f =>
    obtain ⟨position, hmet, hfirst⟩ := h
    refine ⟨step :: position, ⟨position, rfl, hmet⟩, ?_⟩
    rintro _ g ⟨rest, rfl, hother⟩
    rcases hfirst rest g hother with rfl | hlex
    · exact .inl rfl
    · exact .inr (.cons hlex)

end IsFirst

/-! ## Surveys -/

namespace Scope

variable {s : Scope} {path : Text} {names : List Text} {entries within : Entries} {f : Failure}
  {position : List Step}

/-- The first file that cannot be visited, if the names go up. -/
theorem isFirst_visitFiles (s : Scope) (path : Text) (names : List Text) {list : List Text}
    (h : list.Pairwise (· < ·)) :
    IsFirst (fun position f => ∃ n ∈ list, position = [.file n] ∧ s.visitFile path names n = .error f)
      (s.visitFiles path names list).2 := by
  induction list with
  | nil => simp [visitFiles, IsFirst]
  | cons n rest ih =>
    obtain ⟨hn, hrest⟩ := List.pairwise_cons.1 h
    rw [visitFiles]
    cases hfile : s.visitFile path names n with
    | error e =>
      refine ⟨[.file n], ⟨n, List.mem_cons_self, rfl, hfile⟩, ?_⟩
      rintro _ g ⟨m, hm, rfl, _⟩
      rcases List.mem_cons.1 hm with rfl | hm
      · exact .inl rfl
      · exact .inr (.rel (.files (hn m hm)))
    | ok file =>
      refine (ih hrest).congr fun position f => ?_
      simp [hfile]

/-- What stops a walk in a directory that it has come to: the directory cannot be listed, or one of its
files cannot be visited. -/
inductive Blocks (s : Scope) (path : Text) (names : List Text) (within : Entries) :
    List Step → Failure → Prop
  | listing {e : PathError} : s.host.list path = .error e → Blocks s path names within [] (.listing e path)
  | file {name : Bytes} {e : Entry} {f : Failure} : (name, e) ∈ within →
      s.isSkipped names name.toText = false → s.isDirectory path (name, e) = false →
      s.visitFile path names name.toText = .error f → Blocks s path names within [.file name.toText] f

/-- What stops a walk in a directory or below. -/
def Obstructs (s : Scope) (path : Text) (names : List Text) (entries : Entries) (position : List Step)
    (f : Failure) : Prop :=
  ∃ rel within last, s.Enters names entries rel within ∧
    s.Blocks (rel.foldl Path.join path) (names ++ rel) within last f ∧
    position = rel.map .directory ++ last

/-- What stops a walk in the directories among some entries. -/
def ObstructsBelow (s : Scope) (path : Text) (names : List Text) (entries : Entries) (position : List Step)
    (f : Failure) : Prop :=
  ∃ name inner access rest, (name, Entry.directory inner access) ∈ entries ∧
    s.isSkipped names name.toText = false ∧ position = .directory name.toText :: rest ∧
    s.Obstructs (Path.join path name.toText) (names ++ [name.toText]) inner rest f

theorem obstructs_iff : s.Obstructs path names entries position f ↔
    s.Blocks path names entries position f ∨ s.ObstructsBelow path names entries position f := by
  constructor
  · rintro ⟨rel, within, last, henters, hblocks, rfl⟩
    cases rel with
    | nil =>
      obtain rfl := enters_nil_iff.1 henters
      exact .inl (by simpa using hblocks)
    | cons n rel =>
      obtain ⟨hskip, name, _, hmem, rfl, inner, access, rfl, hbelow⟩ := enters_cons_iff.1 henters
      refine .inr ⟨name, inner, access, _, hmem, hskip, rfl, rel, within, last, hbelow, ?_, rfl⟩
      rw [List.append_assoc]
      exact hblocks
  · rintro (hblocks | ⟨name, inner, access, _, hmem, hskip, rfl, rel, within, last, henters, hblocks, rfl⟩)
    · exact ⟨[], entries, position, enters_nil_iff.2 rfl, by simpa using hblocks, rfl⟩
    · refine ⟨name.toText :: rel, within, last,
        enters_cons_iff.2 ⟨hskip, name, _, hmem, rfl, inner, access, rfl, henters⟩, ?_, rfl⟩
      rw [List.append_assoc] at hblocks
      exact hblocks

/-- In a directory that can be listed the first file that cannot be visited stops the walk. -/
theorem isFirst_visit {listed : Entries} (hlist : s.host.list path = .ok listed)
    (h : entries.Pairwise fun a b => a.1.toText < b.1.toText) :
    IsFirst (s.Blocks path names entries) (s.visit path names entries).2 := by
  have hsorted : (((entries.filter fun entry => !s.isSkipped names entry.1.toText).filter
      fun entry => !s.isDirectory path entry).map fun entry => entry.1.toText).Pairwise (· < ·) := by
    rw [List.pairwise_map]
    exact (h.filter _).filter _
  refine (isFirst_visitFiles s path names hsorted).congr fun position f => ?_
  simp only [List.mem_map, List.mem_filter, Bool.not_eq_true', Prod.exists]
  constructor
  · rintro ⟨_, ⟨name, e, ⟨⟨hmem, hskip⟩, hdir⟩, rfl⟩, rfl, hfile⟩
    exact .file hmem hskip hdir hfile
  · rintro (hfail | ⟨hmem, hskip, hdir, hfile⟩)
    · simp [hlist] at hfail
    · exact ⟨_, ⟨_, _, ⟨⟨hmem, hskip⟩, hdir⟩, rfl⟩, rfl, hfile⟩

theorem failure_survey {access : Access} {listed : Entries} (h : s.host.list path = .ok listed) :
    (s.survey path names (.directory entries access)).failure =
      (s.visit path names entries).2.or (s.surveyAll path names entries).failure := by
  rw [survey, h]
  rcases hvisit : s.visit path names entries with ⟨v, _ | e⟩ <;> simp

theorem failure_surveyAll_cons {name : Bytes} {e : Entry} :
    (s.surveyAll path names ((name, e) :: entries)).failure =
      if s.isSkipped names name.toText then (s.surveyAll path names entries).failure
      else (s.survey (Path.join path name.toText) (names ++ [name.toText]) e).failure.or
        (s.surveyAll path names entries).failure := by
  rw [surveyAll]
  split
  · rfl
  · dsimp only
    cases (s.survey (Path.join path name.toText) (names ++ [name.toText]) e).failure <;> rfl

mutual

/-- **A survey of an entry** stops at what is met first in it. -/
theorem isFirst_survey (s : Scope) (path : Text) (names : List Text) : ∀ e : Entry, e.Ordered →
    IsFirst (fun position f => ∃ inner access, e = .directory inner access ∧
      s.Obstructs path names inner position f) (s.survey path names e).failure
  | .directory entries access, .directory _ hnames hbelow => by
    cases hlist : s.host.list path with
    | error e =>
      rw [survey, hlist]
      refine ⟨[], ⟨entries, access, rfl, obstructs_iff.2 (.inl (.listing hlist))⟩, fun other g _ => ?_⟩
      cases other with
      | nil => exact .inl rfl
      | cons step rest => exact .inr .nil
    | ok listed =>
      rw [failure_survey hlist]
      have hfiles : IsFirst (s.Blocks path names entries) (s.visit path names entries).2 :=
        isFirst_visit hlist hnames
      refine (hfiles.or (isFirst_surveyAll s path names entries hnames hbelow) ?_).congr fun position f => ?_
      · rintro _ _ _ _ (hfail | _) ⟨name, inner, access, rest, _, _, rfl, _⟩
        · simp [hlist] at hfail
        · exact .rel .apart
      · rw [← obstructs_iff]
        simp
  | .file _ _, _ => by simp [survey, IsFirst]
  | .link _ _, _ => by simp [survey, IsFirst]
  | .pipe _ _, _ => by simp [survey, IsFirst]
  | .device _ _, _ => by simp [survey, IsFirst]

/-- A survey of entries stops at what is met first in the directories among them. -/
theorem isFirst_surveyAll (s : Scope) (path : Text) (names : List Text) : ∀ entries : Entries,
    (entries.Pairwise fun a b => a.1.toText < b.1.toText) → (∀ entry ∈ entries, entry.2.Ordered) →
      IsFirst (s.ObstructsBelow path names entries) (s.surveyAll path names entries).failure
  | [], _, _ => by
    rintro position f ⟨name, inner, access, rest, hmem, _⟩
    simp at hmem
  | (name, e) :: entries, hnames, hbelow => by
    obtain ⟨hfirst, hrest⟩ := List.pairwise_cons.1 hnames
    have hmore := isFirst_surveyAll s path names entries hrest fun entry hentry =>
      hbelow entry (List.mem_cons_of_mem _ hentry)
    rw [failure_surveyAll_cons]
    split
    · next hskip =>
      refine hmore.congr fun position f => ?_
      simp only [ObstructsBelow, List.mem_cons]
      grind
    · next hskip =>
      have hhere := (isFirst_survey s (Path.join path name.toText) (names ++ [name.toText]) e
        (hbelow _ List.mem_cons_self)).under (.directory name.toText)
      refine (hhere.or hmore ?_).congr fun position f => ?_
      · rintro _ _ _ _ ⟨rest, rfl, _⟩ ⟨name', inner, access, rest', hmem, _, rfl, _⟩
        exact .rel (.directories (hfirst _ hmem))
      · simp only [ObstructsBelow, List.mem_cons]
        grind

end

theorem blocks_inOrder_iff : s.Blocks path names (Entry.inOrder within) position f ↔
    s.Blocks path names within position f := by
  constructor
  · rintro (hlist | ⟨hmem, hskip, hdir, hfile⟩)
    · exact .listing hlist
    · obtain ⟨e, hmem', rfl⟩ := Entry.mem_inOrder.1 hmem
      exact .file hmem' hskip (by rwa [isDirectory_sorted] at hdir) hfile
  · rintro (hlist | ⟨hmem, hskip, hdir, hfile⟩)
    · exact .listing hlist
    · exact .file (Entry.mem_inOrder.2 ⟨_, hmem, rfl⟩) hskip (by rwa [isDirectory_sorted]) hfile

/-- Sorting changes the order of what stops a walk, and nothing else. -/
theorem obstructs_inOrder_iff : s.Obstructs path names (Entry.inOrder entries) position f ↔
    s.Obstructs path names entries position f := by
  constructor
  · rintro ⟨rel, _, last, ⟨hopens, hskip⟩, hblocks, rfl⟩
    obtain ⟨within, hopens', rfl⟩ := opens_inOrder_iff.1 hopens
    exact ⟨rel, within, last, ⟨hopens', hskip⟩, blocks_inOrder_iff.1 hblocks, rfl⟩
  · rintro ⟨rel, within, last, ⟨hopens, hskip⟩, hblocks, rfl⟩
    exact ⟨rel, _, last, ⟨opens_inOrder_iff.2 ⟨within, hopens, rfl⟩, hskip⟩,
      blocks_inOrder_iff.2 hblocks, rfl⟩

theorem failure_surveyTop {e : PathError} (h : s.host.list (s.host.absolute s.scanDir) = .error e) :
    s.surveyTop.failure = some (.listing e (s.host.absolute s.scanDir)) := by
  rw [surveyTop, h]

/-- **A survey of the scan directory** stops at what is met first. -/
theorem isFirst_surveyTop {top : Entries} (htop : s.host.list (s.host.absolute s.scanDir) = .ok top)
    {access : Access} (hsound : (Entry.directory top access).Sound) :
    IsFirst (s.Obstructs (s.host.absolute s.scanDir) [] top) s.surveyTop.failure := by
  rw [surveyTop, htop]
  refine (isFirst_survey s (s.host.absolute s.scanDir) [] _
    (hsound.directory_of .full).ordered).congr fun position f => ?_
  simp only [Entry.sorted_directory, Entry.directory.injEq]
  constructor
  · rintro ⟨_, _, ⟨rfl, rfl⟩, hobstructs⟩
    exact obstructs_inOrder_iff.1 hobstructs
  · intro hobstructs
    exact ⟨_, _, ⟨rfl, rfl⟩, obstructs_inOrder_iff.2 hobstructs⟩

/-! ## Requests -/

/-- The file visits of a directory, also those up to a failure: each has one of the names, and its includes
are those of directives. -/
theorem mem_visitFiles {list : List Text} {v : FileVisit} (h : v ∈ (s.visitFiles path names list).1) :
    v.name ∈ list ∧ ∀ i ∈ v.includes.getD [], ∃ d, s.inclusion names d = i := by
  induction list with
  | nil => simp [visitFiles] at h
  | cons n rest ih =>
    rw [visitFiles] at h
    cases hfile : s.visitFile path names n with
    | error e =>
      rw [hfile] at h
      obtain rfl := List.mem_singleton.1 h
      simp
    | ok file =>
      rw [hfile] at h
      rcases List.mem_cons.1 h with rfl | h
      · obtain ⟨hname, _, hincludes⟩ := of_visitFile hfile
        refine ⟨by simp [hname], fun i hi => ?_⟩
        obtain ⟨_, _, _, d, _, hd⟩ := (hincludes i).1 hi
        exact ⟨d, hd⟩
      · obtain ⟨hname, hincludes⟩ := ih h
        exact ⟨List.mem_cons_of_mem _ hname, hincludes⟩

theorem fits_concat {name : Bytes} (hnames : ∀ n ∈ names, n ≠ [] ∧ n.Decoded) (hname : name ≠ []) :
    ∀ n ∈ names ++ [name.toText], n ≠ [] ∧ n.Decoded := by
  intro n hn
  rcases List.mem_append.1 hn with hn | hn
  · exact hnames n hn
  · rw [List.mem_singleton.1 hn]
    refine ⟨fun hnil => hname ?_, Text.decoded_toText name⟩
    rw [← Bytes.key_toText name, hnil]
    rfl

/-- **A visit asks for nothing that could be refused**, whether it fails or not. -/
theorem fits_visit {reverse : Bool} {q : Request} (hr : s.resolver.AllClean)
    (hnames : ∀ n ∈ names, n ≠ [] ∧ n.Decoded) (hentries : ∀ entry ∈ entries, entry.1 ≠ [])
    (h : q ∈ (s.visit path names entries).1.requests reverse) : q.Fits := by
  have hinside : ∀ {n : Text}, (∃ entry ∈ entries, entry.1.toText = n) →
      ∀ m ∈ names ++ [n], m ≠ [] ∧ m.Decoded := by
    rintro _ ⟨entry, hentry, rfl⟩
    exact fits_concat hnames (hentries entry hentry)
  -- The files that were visited before a failure are still among the entries.
  have hlisted : ∀ {v : FileVisit}, v ∈ (s.visit path names entries).1.files →
      (∃ entry ∈ entries, entry.1.toText = v.name) ∧
        ∀ i ∈ v.includes.getD [], ∃ d, s.inclusion names d = i := by
    intro v hv
    obtain ⟨hname, hincludes⟩ := mem_visitFiles hv
    obtain ⟨entry, hentry, heq⟩ := List.mem_map.1 hname
    exact ⟨⟨entry, List.mem_of_mem_filter (List.mem_of_mem_filter hentry), heq⟩, hincludes⟩
  rcases mem_visitRequests.1 h with rfl | ⟨n, hn, rfl⟩ | ⟨v, hv, i, hi, hq⟩
  · intro names' hmem
    obtain rfl := List.mem_singleton.1 hmem
    exact hnames
  · intro names' hmem
    obtain rfl := List.mem_singleton.1 hmem
    refine hinside ?_
    rcases hn with hn | ⟨v, hv, rfl⟩
    · obtain ⟨entry, hentry, heq⟩ := List.mem_map.1 hn
      exact ⟨entry, List.mem_of_mem_filter (List.mem_of_mem_filter hentry), heq⟩
    · exact (hlisted hv).1
  · obtain ⟨hname, hincludes⟩ := hlisted hv
    obtain ⟨d, rfl⟩ := hincludes i hi
    obtain ⟨target, hlead, hq⟩ := mem_inclusionRequests.1 hq
    obtain ⟨_, hfinds⟩ := Resolver.lead_eq_tracked_iff.1 hlead
    -- The other end of an edge is a path that the resolver has found, so its components are names.
    have hleads := (leads_of_finds hr (fun n hn => (hnames n hn).2) hfinds).1
    have htarget : ∀ n ∈ components target, n ≠ [] ∧ n.Decoded := fun n hn =>
      ⟨(Segments.mem_split hn).1, hleads.2 n hn⟩
    rcases hq with rfl | ⟨_, rfl⟩
    · intro names' hmem
      rcases List.mem_pair.1 hmem with rfl | rfl
      · exact hinside hname
      · exact htarget
    · intro names' hmem
      rcases List.mem_pair.1 hmem with rfl | rfl
      · exact htarget
      · exact hinside hname

theorem mem_survey {access : Access} {v : Visit}
    (h : v ∈ (s.survey path names (.directory entries access)).visits) :
    v = (s.visit path names entries).1 ∨ v ∈ (s.surveyAll path names entries).visits := by
  rw [survey] at h
  split at h
  · simp at h
  · rcases hvisit : s.visit path names entries with ⟨w, _ | e⟩
    · rw [hvisit] at h
      exact List.mem_cons.1 h
    · rw [hvisit] at h
      exact .inl (List.mem_singleton.1 h)

theorem mem_surveyAll {name : Bytes} {e : Entry} {v : Visit}
    (h : v ∈ (s.surveyAll path names ((name, e) :: entries)).visits) :
    v ∈ (s.survey (Path.join path name.toText) (names ++ [name.toText]) e).visits ∨
      v ∈ (s.surveyAll path names entries).visits := by
  rw [surveyAll] at h
  split at h
  · exact .inr h
  · dsimp only at h
    split at h
    · exact .inl h
    · exact List.mem_append.1 h

mutual

/-- **A survey asks for nothing that could be refused**, whether it fails or not. -/
theorem fits_survey (s : Scope) (hr : s.resolver.AllClean) (reverse : Bool) (path : Text) (names : List Text) :
    ∀ e : Entry, e.Ordered → (∀ n ∈ names, n ≠ [] ∧ n.Decoded) →
      ∀ v ∈ (s.survey path names e).visits, ∀ q ∈ v.requests reverse, q.Fits
  | .directory entries access, .directory hentries _ hbelow, hnames, v, hv, q, hq => by
    rcases mem_survey hv with rfl | hv
    · exact fits_visit hr hnames hentries hq
    · exact fits_surveyAll s hr reverse path names entries hentries hbelow hnames v hv q hq
  | .file _ _, _, _, v, hv, _, _ => by simp [survey] at hv
  | .link _ _, _, _, v, hv, _, _ => by simp [survey] at hv
  | .pipe _ _, _, _, v, hv, _, _ => by simp [survey] at hv
  | .device _ _, _, _, v, hv, _, _ => by simp [survey] at hv

theorem fits_surveyAll (s : Scope) (hr : s.resolver.AllClean) (reverse : Bool) (path : Text)
    (names : List Text) : ∀ entries : Entries, (∀ entry ∈ entries, entry.1 ≠ []) →
      (∀ entry ∈ entries, entry.2.Ordered) → (∀ n ∈ names, n ≠ [] ∧ n.Decoded) →
      ∀ v ∈ (s.surveyAll path names entries).visits, ∀ q ∈ v.requests reverse, q.Fits
  | [], _, _, _, v, hv, _, _ => by simp [surveyAll] at hv
  | (name, e) :: entries, hentries, hbelow, hnames, v, hv, q, hq => by
    rcases mem_surveyAll hv with hv | hv
    · exact fits_survey s hr reverse _ _ e (hbelow _ List.mem_cons_self)
        (fits_concat hnames (hentries _ List.mem_cons_self)) v hv q hq
    · exact fits_surveyAll s hr reverse path names entries
        (fun entry hentry => hentries entry (List.mem_cons_of_mem _ hentry))
        (fun entry hentry => hbelow entry (List.mem_cons_of_mem _ hentry)) hnames v hv q hq

end

theorem fits_surveyTop (hhost : s.host.Sound) (hr : s.resolver.AllClean) {reverse : Bool} {q : Request}
    (h : q ∈ s.surveyTop.requests reverse) : q.Fits := by
  obtain ⟨v, hv, hq⟩ := List.mem_flatMap.1 h
  rw [surveyTop] at hv
  split at hv
  · simp at hv
  · next top htop =>
    obtain ⟨place, access, hentry, _⟩ := Host.list_eq_ok.1 htop
    exact fits_survey s hr reverse _ [] _ ((hhost.entry hentry).directory_of .full).ordered (by simp) v hv q hq

end Scope

/-! ## The specification -/

variable {host : Host} {p : Params} {r : Resolver} {top : Entries} {dir : List Text} {f : Failure}
  {position : List Step}

/-- A directory can be listed, and so can all that lead to it from the scan directory. -/
def Listed (host : Host) (p : Params) (dir : List Text) : Prop :=
  ∀ above, above <+: dir → ∃ entries, host.list (p.pathOf host above) = .ok entries

/-- A regular file that is not empty gives no includes: it cannot be opened, or it is open and lies where files
cannot be mapped into memory. -/
inductive Unreadable (host : Host) (path : Text) : PathError → Prop
  | closed {e : PathError} : host.read path = .error e → Unreadable host path e
  | unmapped {place : List Bytes} {contents : Bytes} {access : Access} :
      host.entry true path = .ok (place, .file contents access) → access.read = true → access.map = false →
        Unreadable host path (.bare .noDevice)

/-- What stops a walk: the scan directory cannot be listed; a directory that it comes to by listing, other
than through a link and other than what is to be skipped, cannot be listed; or an entry of a directory that
it lists is to be parsed, is not empty and cannot be read. -/
inductive Obstacle (host : Host) (p : Params) : List Step → Failure → Prop
  | scanDir {e : PathError} : host.list (p.pathOf host []) = .error e →
      Obstacle host p [] (.listing e (p.pathOf host []))
  | directory {top within : Entries} {dir : List Text} {n : Text} {e : PathError} : Listed host p dir →
      host.list (p.pathOf host []) = .ok top → Opens top (dir ++ [n]) within →
      (∀ first ∈ (dir ++ [n]).head?, first ∉ p.skipped) → host.list (p.pathOf host (dir ++ [n])) = .error e →
      Obstacle host p ((dir ++ [n]).map .directory) (.listing e (p.pathOf host (dir ++ [n])))
  | file {top : Entries} {dir : List Text} {name contents : Bytes} {e : PathError} : Listed host p dir →
      host.list (p.pathOf host []) = .ok top → Parses host p top dir name contents → contents ≠ [] →
      Unreadable host (p.pathOf host (dir ++ [name.toText])) e →
      Obstacle host p (dir.map .directory ++ [.file name.toText])
        (.reading e (p.pathOf host (dir ++ [name.toText])))

/-! ## Files that cannot be visited -/

theorem mapped_eq_error_iff {full : Text} {place : List Bytes} {contents : Bytes} {access : Access}
    {e : PathError} (h : host.entry true full = .ok (place, .file contents access)) :
    mapped host full (.file contents access) = .error e ↔ Unreadable host full e := by
  have hread : host.read full = if access.read then .ok contents else .error (.fault .denied) := by
    rw [Host.read, h]
    rfl
  rw [mapped_file h]
  constructor
  · intro hmapped
    split at hmapped
    · next hopen =>
      split at hmapped
      · simp at hmapped
      · next hmap =>
        obtain rfl := Except.error.inj hmapped
        exact .unmapped h hopen (by simpa using hmap)
    · next hopen =>
      obtain rfl := Except.error.inj hmapped
      exact .closed (by rw [hread, if_neg hopen])
  · rintro (hclosed | ⟨hentry, hopen, hmap⟩)
    · rw [hread] at hclosed
      split at hclosed
      · simp at hclosed
      · next hopen => rwa [if_neg hopen]
    · obtain ⟨_, heq⟩ := Prod.mk.inj (Except.ok.inj (h.symm.trans hentry))
      obtain ⟨_, rfl⟩ := Entry.file.inj heq
      rw [if_pos hopen, hmap]
      rfl

/-- The includes of a file cannot be read if it is not empty and cannot be read. -/
theorem readIncludes_eq_error_iff {full : Text} {place : List Bytes} {contents : Bytes} {access : Access}
    {e : PathError} (h : host.entry true full = .ok (place, .file contents access)) :
    readIncludes host full = .error e ↔ contents ≠ [] ∧ Unreadable host full e := by
  rw [readIncludes, h, ← mapped_eq_error_iff h]
  change (if contents.isEmpty then Except.ok [] else
    (mapped host full (.file contents access)).map Source.includes) = _ ↔ _
  by_cases hempty : contents = []
  · simp [hempty]
  · rw [if_neg (by simpa using hempty)]
    cases mapped host full (.file contents access) <;> simp [Except.map, hempty]

/-- A file that is to be parsed is visited if its includes can be read. -/
theorem visitFile_eq_error_of_parsed {s : Scope} {names : List Text} {path n : Text}
    (h : s.isParsed (Path.join path n) n = .ok true) :
    s.visitFile path names n = .error f ↔
      ∃ e, readIncludes s.host (Path.join path n) = .error e ∧ f = .reading e (Path.join path n) := by
  rw [Scope.visitFile]
  simp only [h]
  cases readIncludes s.host (Path.join path n) with
  | ok directives => simp
  | error e => simp [eq_comm]

/-- A file cannot be visited if it is to be parsed, is not empty and cannot be read. -/
theorem visitFile_eq_error_iff (hp : p.Supported) {names : List Text} {path n : Text} :
    (p.scopeOf host r).visitFile path names n = .error f ↔
      ∃ place contents access e, host.entry true (Path.join path n) = .ok (place, .file contents access) ∧
        FileClass.isCandidate n p.whitelist p.blacklist = .ok true ∧
        FileClass.isParsed (Path.join path n) p.sources = .ok true ∧ contents ≠ [] ∧
        Unreadable host (Path.join path n) e ∧ f = .reading e (Path.join path n) := by
  obtain ⟨answer, hanswer⟩ : ∃ answer, (p.scopeOf host r).isParsed (Path.join path n) n = .ok answer := by
    rw [Scope.isParsed]
    split
    · exact Params.exists_selects hp _ _
    · exact ⟨false, rfl⟩
  -- Whether the file is parsed can always be told, and only then is it read.
  cases answer with
  | false =>
    have hok : (p.scopeOf host r).visitFile path names n = .ok ⟨n, none⟩ := by
      rw [Scope.visitFile]
      simp only [hanswer]
    rw [hok]
    simp only [reduceCtorEq, false_iff]
    rintro ⟨place, contents, access, e, hentry, hcandidate, hsource, _⟩
    have htrue : (p.scopeOf host r).isParsed (Path.join path n) n = .ok true :=
      isParsed_eq_true.2 ⟨isFile_iff.2 ⟨place, contents, access, hentry⟩,
        selects_eq_true.2 ⟨hcandidate, hsource⟩⟩
    exact absurd (hanswer.symm.trans htrue) (by simp)
  | true =>
    obtain ⟨hisFile, hselects⟩ := isParsed_eq_true.1 hanswer
    obtain ⟨place, contents, access, hentry⟩ := isFile_iff.1 hisFile
    obtain ⟨hcandidate, hsource⟩ := selects_eq_true.1 hselects
    rw [visitFile_eq_error_of_parsed hanswer]
    constructor
    · rintro ⟨e, he, rfl⟩
      obtain ⟨hne, hfail⟩ := (readIncludes_eq_error_iff hentry).1 he
      exact ⟨place, contents, access, e, hentry, hcandidate, hsource, hne, hfail, rfl⟩
    · rintro ⟨_, _, _, e, hentry', _, _, hne, hfail, rfl⟩
      exact ⟨e, (readIncludes_eq_error_iff hentry').2 ⟨hne, hfail⟩, rfl⟩

/-! ## Obstacles -/

theorem kept_iff {dir : List Text} : (∀ first ∈ dir.head?, (p.scopeOf host r).isSkipped [] first = false) ↔
    ∀ first ∈ dir.head?, first ∉ p.skipped := by
  simp [Scope.isSkipped, Params.scopeOf]

/-- Every obstacle stops the survey, if it comes to it. -/
theorem obstructs_of_obstacle (hp : p.Supported) (htop : host.list (p.pathOf host []) = .ok top)
    (h : Obstacle host p position f) :
    (p.scopeOf host r).Obstructs (p.pathOf host []) [] top position f := by
  cases h with
  | scanDir hlist => simp [htop] at hlist
  | @directory top' within dir n e _ htop' hopens hkept hlist =>
    obtain rfl := Except.ok.inj (htop.symm.trans htop')
    exact ⟨dir ++ [n], within, [], ⟨hopens, kept_iff.2 hkept⟩, .listing hlist, by simp⟩
  | @file top' dir name contents e _ htop' hparses hne hread =>
    obtain rfl := Except.ok.inj (htop.symm.trans htop')
    obtain ⟨entry, hreached, hdir⟩ := hparses.reached
    obtain ⟨within, henters, hmem, hskip⟩ := (@reached_iff host p r top dir name entry).1 hreached
    obtain ⟨place, access, hentry⟩ := hparses.isFile
    rw [← join_pathOf] at hentry hread ⊢
    refine ⟨dir, within, [.file name.toText], henters,
      .file hmem hskip (Scope.isDirectory_eq_false hdir hentry) ((visitFile_eq_error_iff hp).2 ?_), rfl⟩
    have hsource := hparses.source
    rw [← join_pathOf] at hsource
    exact ⟨place, contents, access, e, hentry, hparses.candidate, hsource, hne, hread, rfl⟩

/-- On the way to what stops the survey first, every directory can be listed. -/
theorem listed_of_first {within : Entries} {step : Step} {rest : List Step}
    (hfirst : ∀ other g, (p.scopeOf host r).Obstructs (p.pathOf host []) [] top other g →
      dir.map .directory ++ step :: rest = other ∨
        List.Lex Step.Before (dir.map .directory ++ step :: rest) other)
    (hopens : Opens top dir within) (hkept : ∀ first ∈ dir.head?, first ∉ p.skipped) :
    Listed host p dir := by
  rintro above ⟨more, rfl⟩
  cases hlist : host.list (p.pathOf host above) with
  | ok entries => exact ⟨entries, rfl⟩
  | error e =>
    -- A directory above that cannot be listed would have stopped the survey before.
    obtain ⟨mid, hmid, _⟩ := Opens.append_iff.1 hopens
    have hobstructs : (p.scopeOf host r).Obstructs (p.pathOf host []) [] top (above.map .directory)
        (.listing e (p.pathOf host above)) :=
      ⟨above, mid, [], ⟨hmid, kept_iff.2 fun first h => hkept first (List.mem_head?_append_of_mem_head? h)⟩,
        .listing hlist, by simp⟩
    have hsplit : (above ++ more).map Step.directory ++ step :: rest =
        above.map .directory ++ (more.map .directory ++ step :: rest) := by simp
    rw [hsplit] at hfirst
    rcases hfirst _ _ hobstructs with heq | hlex
    · simp at heq
    · exact absurd hlex (not_lex_append _ _)

/-- What stops the survey first is an obstacle. -/
theorem obstacle_of_first (hp : p.Supported) (htop : host.list (p.pathOf host []) = .ok top)
    (h : (p.scopeOf host r).Obstructs (p.pathOf host []) [] top position f)
    (hfirst : ∀ other g, (p.scopeOf host r).Obstructs (p.pathOf host []) [] top other g →
      position = other ∨ List.Lex Step.Before position other) : Obstacle host p position f := by
  obtain ⟨dir, within, last, henters, hblocks, rfl⟩ := h
  have hkept := kept_iff.1 henters.2
  cases hblocks with
  | @listing e hlist =>
    obtain rfl | ⟨init, n, rfl⟩ := List.eq_nil_or_concat' dir
    · exact .scanDir hlist
    · rw [List.append_nil] at hfirst ⊢
      refine .directory ?_ htop henters.1 hkept hlist
      obtain ⟨mid, hmid, _⟩ := Opens.append_iff.1 henters.1
      rw [List.map_append] at hfirst
      exact listed_of_first hfirst hmid fun first hfirst =>
        hkept first (List.mem_head?_append_of_mem_head? hfirst)
  | @file name e f hmem hskip hdir hfile =>
    obtain ⟨place, contents, access, e', hentry, hcandidate, hsource, hne, hread, rfl⟩ :=
      (visitFile_eq_error_iff hp).1 hfile
    have hpath : Path.join (dir.foldl Path.join (p.pathOf host [])) name.toText =
        p.pathOf host (dir ++ [name.toText]) := join_pathOf host p dir name.toText
    rw [hpath] at hentry hsource hread ⊢
    exact .file (listed_of_first hfirst henters.1 hkept) htop
      ⟨⟨e, reached_iff.2 ⟨within, henters, hmem, hskip⟩, Scope.isDirectory_of_isDirectory hdir⟩,
        ⟨place, access, hentry⟩, hcandidate, hsource⟩ hne hread

/-- **The survey stops at the first obstacle.** -/
theorem isFirst_obstacle (r : Resolver) (hhost : host.Sound) (hpatterns : p.Supported) :
    IsFirst (Obstacle host p) (p.scopeOf host r).surveyTop.failure := by
  cases htop : host.list (p.pathOf host []) with
  | error e =>
    have hfailure : (p.scopeOf host r).surveyTop.failure = some (.listing e (p.pathOf host [])) :=
      Scope.failure_surveyTop htop
    rw [hfailure]
    refine ⟨[], .scanDir htop, fun other g _ => ?_⟩
    cases other with
    | nil => exact .inl rfl
    | cons step rest => exact .inr .nil
  | ok top =>
    obtain ⟨place, access, hentry, _⟩ := Host.list_eq_ok.1 htop
    have hsurvey := @Scope.isFirst_surveyTop (p.scopeOf host r) top htop access (hhost.entry hentry)
    cases hfailure : (p.scopeOf host r).surveyTop.failure with
    | none =>
      rw [hfailure] at hsurvey
      exact fun position f hobstacle => hsurvey position f (obstructs_of_obstacle hpatterns htop hobstacle)
    | some f =>
      rw [hfailure] at hsurvey
      obtain ⟨position, hobstructs, hfirst⟩ := hsurvey
      exact ⟨position, obstacle_of_first hpatterns htop hobstructs hfirst,
        fun other g hother => hfirst other g (obstructs_of_obstacle hpatterns htop hother)⟩

/-! ## Scans -/

/-- The directories of a scan hold no zeros. -/
structure Params.Zeroless (p : Params) : Prop where
  scanDir : p.scanDir.Zeroless
  includeDirs : ∀ dir ∈ p.includeDirs, dir.Zeroless
  rootDirs : ∀ dir ∈ p.rootDirs, dir.Zeroless

/-- The directories that a scan needs the canonical paths of, in the order in which it asks for them. -/
def Params.directories (p : Params) : List Text := p.scanDir :: (p.includeDirs ++ p.rootDirs)

/-- The first of the directories that has no canonical path, by what is wrong and the path that it is wrong
with. -/
inductive Unsettled (host : Host) : List Text → PathError → Text → Prop
  | here {dir : Text} {rest : List Text} {e : PathError} {path : Text} :
      host.canonical dir = .error (e, path) → Unsettled host (dir :: rest) e path
  | later {dir found : Text} {rest : List Text} {e : PathError} {path : Text} :
      host.canonical dir = .ok found → Unsettled host rest e path → Unsettled host (dir :: rest) e path

namespace Unsettled

variable {dirs more : List Text} {e : PathError} {path : Text}

theorem exists_mem (h : Unsettled host dirs e path) : ∃ dir ∈ dirs, host.canonical dir = .error (e, path) := by
  induction h with
  | here hdir => exact ⟨_, List.mem_cons_self, hdir⟩
  | later _ _ ih =>
    obtain ⟨dir, hmem, hdir⟩ := ih
    exact ⟨dir, List.mem_cons_of_mem _ hmem, hdir⟩

theorem append_right (h : Unsettled host dirs e path) : Unsettled host (dirs ++ more) e path := by
  induction h with
  | here hdir => exact .here hdir
  | later hdir _ ih => exact .later hdir ih

theorem append_left (hdirs : ∀ dir ∈ dirs, ∃ found, host.canonical dir = .ok found)
    (h : Unsettled host more e path) : Unsettled host (dirs ++ more) e path := by
  induction dirs with
  | nil => exact h
  | cons dir rest ih =>
    obtain ⟨found, hfound⟩ := hdirs dir List.mem_cons_self
    exact .later hfound (ih fun d hd => hdirs d (List.mem_cons_of_mem _ hd))

end Unsettled

/-- The canonical paths of directories are there for all, or for none from the first on that has none. -/
theorem Resolver.canonicalAll_cases (host : Host) (dirs : List Text) :
    (∃ found, canonicalAll host dirs = .ok found ∧ ∀ dir ∈ dirs, ∃ t, host.canonical dir = .ok t) ∨
      ∃ e path, canonicalAll host dirs = .error (e, path) ∧ Unsettled host dirs e path := by
  induction dirs with
  | nil => exact .inl ⟨[], rfl, by simp⟩
  | cons dir rest ih =>
    rw [canonicalAll]
    cases hdir : host.canonical dir with
    | error e => exact .inr ⟨e.1, e.2, rfl, .here hdir⟩
    | ok first =>
      rcases ih with ⟨found, hrest, hall⟩ | ⟨e, path, hrest, hunsettled⟩
      · exact .inl ⟨first :: found, by simp [hrest, Except.map], List.forall_mem_cons.2 ⟨⟨first, hdir⟩, hall⟩⟩
      · exact .inr ⟨e, path, by simp [hrest, Except.map], .later hdir hunsettled⟩

/-- **There is a resolver for a scan** unless one of its directories has no canonical path. -/
theorem Resolver.ofParams_cases (host : Host) (p : Params) :
    (∃ r, ofParams host p = .ok r ∧ ∀ dir ∈ p.directories, ∃ t, host.canonical dir = .ok t) ∨
      ∃ e path, ofParams host p = .error (e, path) ∧ Unsettled host p.directories e path := by
  unfold ofParams Params.directories
  cases hscan : host.canonical p.scanDir with
  | error e => exact .inr ⟨e.1, e.2, rfl, .here hscan⟩
  | ok scanDir =>
    rcases canonicalAll_cases host p.includeDirs with ⟨includeDirs, hincludes, hall⟩ | ⟨e, path, hincludes, hun⟩
    · rcases canonicalAll_cases host p.rootDirs with ⟨rootDirs, hroots, hall'⟩ | ⟨e, path, hroots, hun⟩
      · refine .inl ⟨⟨scanDir, includeDirs, rootDirs⟩, by rw [hincludes, hroots]; rfl, ?_⟩
        exact List.forall_mem_cons.2 ⟨⟨scanDir, hscan⟩, List.forall_mem_append.2 ⟨hall, hall'⟩⟩
      · exact .inr ⟨e, path, by rw [hincludes, hroots]; rfl, .later hscan (.append_left hall hun)⟩
    · exact .inr ⟨e, path, by rw [hincludes]; rfl, .later hscan hun.append_right⟩

/-- What is wrong with a directory that has no canonical path: a link does not show its target, or the
directory is given from a working directory that is not there any more. -/
def Misled (host : Host) (dirs : List Text) (e : PathError) (path : Text) : Prop :=
  (∃ f, e = .fault f ∧ host.linkTarget? path = some (.error f)) ∨
    e = Host.noWorkingDirectory ∧ path ∈ dirs ∧ host.isAdrift path = true

theorem Unsettled.misled {dirs : List Text} {e : PathError} {path : Text} (h : Unsettled host dirs e path)
    (hhost : host.Sound) (hd : ∀ dir ∈ dirs, dir.Decoded) (hz : ∀ dir ∈ dirs, dir.Zeroless) :
    Misled host dirs e path := by
  obtain ⟨dir, hmem, hdir⟩ := h.exists_mem
  rcases Host.canonical_cases hhost (hd dir hmem) (hz dir hmem) with ⟨t, hok⟩ | ⟨link, f, hlink, htarget⟩ |
    ⟨hadrift, hgone⟩
  · simp [hok] at hdir
  · obtain ⟨rfl, rfl⟩ := Prod.mk.inj (Except.error.inj (hlink.symm.trans hdir))
    exact .inl ⟨f, rfl, htarget⟩
  · obtain ⟨rfl, rfl⟩ := Prod.mk.inj (Except.error.inj (hgone.symm.trans hdir))
    exact .inr ⟨rfl, hmem, hadrift⟩

theorem Params.Decoded.directories (h : p.Decoded) : ∀ dir ∈ p.directories, dir.Decoded :=
  List.forall_mem_cons.2 ⟨h.scanDir, List.forall_mem_append.2 ⟨h.includeDirs, h.rootDirs⟩⟩

theorem Params.Zeroless.directories (h : p.Zeroless) : ∀ dir ∈ p.directories, dir.Zeroless :=
  List.forall_mem_cons.2 ⟨h.scanDir, List.forall_mem_append.2 ⟨h.includeDirs, h.rootDirs⟩⟩

/-- A scan without a resolver has failed before it has asked for a node. -/
theorem result_run_of_error {e : PathError} {path : Text} {a : Atlas}
    (h : Resolver.ofParams host p = .error (e, path)) : (run host p a).result = .error (.path e path) := by
  rw [run, Params.scope, h]
  rfl

/-- **A scan of a sound disk fails only as its survey does**, once its directories are known. -/
theorem result_run (hhost : host.Sound) (hp : p.Decoded) (hr : Resolver.ofParams host p = .ok r) :
    (run host p Atlas.empty).result =
      match (p.scopeOf host r).surveyTop.failure with
      | some f => .error f
      | none => .ok (p.scopeOf host r).surveyTop.stats := by
  have hclean := Resolver.allClean_of_ofParams hp hr
  obtain ⟨b, hb, _⟩ := Atlas.performAll_adds Atlas.wellFormed_empty Atlas.decoded_empty
    fun q hq => @Scope.fits_surveyTop (p.scopeOf host r) hhost hclean p.reverse q hq
  rw [run_eq_outcome hr, Survey.outcome, hb]
  cases (p.scopeOf host r).surveyTop.failure <;> rfl

/-- Only a fault of the disk keeps a directory from being listed. -/
theorem exists_fault_of_list {path : Text} {e : PathError} (hd : path.Decoded) (hz : path.Zeroless)
    (h : host.list path = .error e) : ∃ fault, e = .fault fault := by
  unfold Host.list at h
  split at h
  · next e' hentry =>
    obtain rfl := Except.error.inj h
    exact Host.exists_fault hd hz hentry
  · split at h
    · simp at h
    · exact ⟨_, (Except.error.inj h).symm⟩
  · exact ⟨_, (Except.error.inj h).symm⟩

theorem usable_pathOf (hhost : host.Sound) (hp : p.Decoded) (hz : p.Zeroless)
    (hdir : ∀ n ∈ dir, n.Decoded ∧ n.Zeroless) :
    (p.pathOf host dir).Decoded ∧ (p.pathOf host dir).Zeroless := by
  unfold Params.pathOf
  refine List.foldlRecOn dir Path.join (motive := fun path => path.Decoded ∧ path.Zeroless) ?_ ?_
  · refine ⟨?_, hhost.zeroless_absolute hz.scanDir⟩
    exact decoded_absolute (Host.isAbsolute_cwdText host) (Host.decoded_cwdText host) hp.scanDir
  · rintro path ⟨hd, hz⟩ n hn
    exact ⟨decoded_join hd (hdir n hn).1, zeroless_join hz (hdir n hn).2⟩

/-- An obstacle is a failure with a path, that of its position. -/
theorem path?_of_obstacle (hhost : host.Sound) (hp : p.Decoded) (hz : p.Zeroless)
    (h : Obstacle host p position f) : f.path? = some (p.pathOf host (position.map Step.name)) := by
  have hlisting : ∀ {dir e}, (∀ n ∈ dir, n.Decoded ∧ n.Zeroless) → host.list (p.pathOf host dir) = .error e →
      Failure.path? (.listing e (p.pathOf host dir)) = some (p.pathOf host dir) := by
    intro dir e hdir hlist
    obtain ⟨hd, hz⟩ := usable_pathOf hhost hp hz hdir
    obtain ⟨fault, rfl⟩ := exists_fault_of_list hd hz hlist
    rfl
  cases h with
  | scanDir hlist => exact hlisting (by simp) hlist
  | @directory top within dir n e _ htop hopens _ hlist =>
    obtain ⟨place, access, hentry, _⟩ := Host.list_eq_ok.1 htop
    rw [Step.map_name_directory]
    exact hlisting (fun n hn => ⟨hopens.decoded n hn, hopens.zeroless (hhost.entry hentry) n hn⟩) hlist
  | @file top dir name contents e _ _ _ _ _ =>
    rw [List.map_append, Step.map_name_directory]
    rfl

/-- A scan that nothing stops comes to its end. -/
theorem exists_stats (hhost : host.Sound) (hp : p.Decoded) (hr : Resolver.ofParams host p = .ok r)
    (hpatterns : p.Supported) (h : ∀ position f, ¬ Obstacle host p position f) :
    ∃ stats, (run host p Atlas.empty).result = .ok stats := by
  have hresult := result_run hhost hp hr
  have hfirst := isFirst_obstacle r hhost hpatterns
  cases hfailure : (p.scopeOf host r).surveyTop.failure with
  | none => exact ⟨_, by rw [hresult, hfailure]⟩
  | some f =>
    rw [hfailure] at hfirst
    obtain ⟨position, hobstacle, _⟩ := hfirst
    exact absurd hobstacle (h position f)

/-- **When a scan into an empty atlas fails**: if one of its directories has no canonical path, or there is an
obstacle on its walk, and not otherwise. What is wrong with a directory comes first and leaves as it is; else the
failure is that of the first obstacle in the order of the walk, and has its path. -/
theorem run_empty_fails (hhost : host.Sound) (hp : p.Decoded) (hz : p.Zeroless) (hpatterns : p.Supported) :
    ((∃ f, (run host p Atlas.empty).result = .error f) ↔
        (∃ e path, Unsettled host p.directories e path) ∨ ∃ position f, Obstacle host p position f) ∧
      ∀ f, (run host p Atlas.empty).result = .error f →
        (∃ e path, f = .path e path ∧ Unsettled host p.directories e path ∧
          Misled host p.directories e path) ∨
        (∀ dir ∈ p.directories, ∃ t, host.canonical dir = .ok t) ∧
          ∃ position, Obstacle host p position f ∧
            f.path? = some (p.pathOf host (position.map Step.name)) ∧
            ∀ other g, Obstacle host p other g → position = other ∨ List.Lex Step.Before position other := by
  rcases Resolver.ofParams_cases host p with ⟨r, hr, hsettled⟩ | ⟨e, path, hr, hunsettled⟩
  · have hnone : ∀ e path, ¬ Unsettled host p.directories e path := by
      intro e path hunsettled
      obtain ⟨dir, hmem, hdir⟩ := hunsettled.exists_mem
      obtain ⟨t, ht⟩ := hsettled dir hmem
      simp [ht] at hdir
    have hfirst := isFirst_obstacle r hhost hpatterns
    rw [result_run hhost hp hr]
    cases hfailure : (p.scopeOf host r).surveyTop.failure with
    | none =>
      rw [hfailure] at hfirst
      refine ⟨⟨by simp, ?_⟩, by simp⟩
      rintro (⟨e, path, hunsettled⟩ | ⟨position, f, hobstacle⟩)
      · exact absurd hunsettled (hnone e path)
      · exact absurd hobstacle (hfirst position f)
    | some f =>
      rw [hfailure] at hfirst
      obtain ⟨position, hobstacle, hbefore⟩ := hfirst
      refine ⟨⟨fun _ => .inr ⟨position, f, hobstacle⟩, fun _ => ⟨f, rfl⟩⟩, ?_⟩
      rintro _ ⟨⟩
      exact .inr ⟨hsettled, position, hobstacle, path?_of_obstacle hhost hp hz hobstacle, hbefore⟩
  · rw [result_run_of_error hr]
    refine ⟨⟨fun _ => .inl ⟨e, path, hunsettled⟩, fun _ => ⟨_, rfl⟩⟩, ?_⟩
    rintro _ ⟨⟩
    exact .inl ⟨e, path, rfl, hunsettled, hunsettled.misled hhost hp.directories hz.directories⟩

/-- A directory `s` with a directory `a` that cannot be opened and a file `b` that cannot be mapped, and beside it
a link `h` that may not be read if `hidden` is set. -/
def lockedHost (hidden : Bool) : Host where
  disk := ⟨.directory [(Text.key "s", .directory
      [(Text.key "a", .directory [] .none), (Text.key "b", .file [0] { Access.full with map := false })] .full),
    (Text.key "h", .link (Text.key "s") { Access.full with read := !hidden })] .full⟩
  cwd := []
  env := []

/-- A scan with two obstacles fails at the file, whose name comes later. With a link that does not show its target
in the place of a search directory it does not come so far. -/
theorem run_empty_fails_locked :
    (Obstacle (lockedHost false) sampleParams [.directory "a"] (.listing (.fault .denied) "/s/a") ∧
      (run (lockedHost false) sampleParams Atlas.empty).result = .error (.reading (.bare .noDevice) "/s/b") ∧
      ∃ position, Obstacle (lockedHost false) sampleParams position (.reading (.bare .noDevice) "/s/b") ∧
        some (Text.ofString "/s/b") = some (sampleParams.pathOf (lockedHost false) (position.map Step.name)) ∧
        ∀ other g, Obstacle (lockedHost false) sampleParams other g →
          position = other ∨ List.Lex Step.Before position other) ∧
      (run (lockedHost true) sampleParams Atlas.empty).result = .error (.path (.fault .denied) "/h") ∧
        Misled (lockedHost true) sampleParams.directories (.fault .denied) "/h" := by
  have hsound : ∀ hidden, (lockedHost hidden).Sound := fun hidden =>
    ⟨Entry.sound_of_isSound _ (by cases hidden <;> decide), by simp [lockedHost]⟩
  have hfails := fun hidden => run_empty_fails (hsound hidden) (p := sampleParams)
    ⟨by decide, by decide, by decide⟩ ⟨by decide, by decide, by decide⟩ (by decide)
  have hopen : (run (lockedHost false) sampleParams Atlas.empty).result =
      .error (.reading (.bare .noDevice) "/s/b") := by cbv
  have hhidden : (run (lockedHost true) sampleParams Atlas.empty).result =
      .error (.path (.fault .denied) "/h") := by cbv
  refine ⟨⟨?_, hopen, ?_⟩, hhidden, ?_⟩
  · have htop : (lockedHost false).list (sampleParams.pathOf (lockedHost false) []) = .ok
        [(Text.key "a", .directory [] .none), (Text.key "b", .file [0] { Access.full with map := false })] := by
      cbv
    have hlist : (lockedHost false).list (sampleParams.pathOf (lockedHost false) [Text.ofString "a"]) =
        .error (.fault .denied) := by cbv
    refine @Obstacle.directory (lockedHost false) sampleParams _ [] [] (Text.ofString "a") _ ?_ htop ?_
      (by decide) hlist
    · intro above habove
      obtain rfl := List.prefix_nil.1 habove
      exact ⟨_, htop⟩
    · exact .inside List.mem_cons_self .here
  · rcases (hfails false).2 _ hopen with ⟨_, _, heq, _⟩ | ⟨_, hobstacle⟩
    · simp at heq
    · exact hobstacle
  · rcases (hfails true).2 _ hhidden with ⟨_, _, heq, _, hmisled⟩ | ⟨_, _, hobstacle, _⟩
    · obtain ⟨rfl, rfl⟩ := Failure.path.inj heq
      exact hmisled
    · cases hobstacle

/-- **What is walked is the normal form of the scan directory**: a path through a directory that is not there
cannot be listed, and a scan of it is one of the directory that is left when its `..` are applied. -/
theorem run_empty_absent_scanDir :
    let host : Host := { disk := ⟨.directory [(Text.key "s", .directory [] .full)] .full⟩, cwd := [], env := [] }
    let p := { sampleParams with scanDir := "/s/nope/..", includeDirs := [] }
    host.Sound ∧ host.list p.scanDir = .error (.fault .noEntry) ∧
      (run host p Atlas.empty).result = .ok ⟨1, 0, 0, 0, 0⟩ :=
  ⟨⟨Entry.sound_of_isSound _ (by decide), by simp⟩, by cbv, by cbv⟩

end Scan

end HeaderAtlas
