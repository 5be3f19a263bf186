import HeaderAtlas.Proofs.Disk.Beneath
import HeaderAtlas.Settings.Check
import Mathlib.Data.List.DropRight
import Mathlib.Data.List.Forall2
import Mathlib.Data.List.Nodup
import Mathlib.Data.List.Permutation
/-!
# Checking settings once more

A run checks its configuration, and what comes out is checked again before the scan. The first check
leaves every list trimmed, every path normal and no directory twice (`Settings.Trimmed`,
`Settings.Located`). On such settings a second check reads the paths once more and does nothing else: no
value is of the wrong kind and no warning is left but the one about a missing directory
(`Settings.check_members`).

Reading a path is no projection, since variables are replaced in it and the value of a variable may refer
to another one. So the second check gives the same settings exactly if each path is read as itself
(`Settings.locate_eq_self_iff`).
-/

set_option autoImplicit false

namespace HeaderAtlas

open HeaderAtlas.Path

/-! ## White space at the ends -/

namespace Text

variable {t : Text}

/-- Cutting from the right is known to the library by another name. -/
theorem dropRightWhile_eq_rdropWhile (p : CodePoint → Bool) (t : Text) :
    dropRightWhile p t = t.rdropWhile p := rfl

theorem dropWhile_eq_self {p : CodePoint → Bool} (h : ∀ c ∈ t.head?, p c = false) :
    t.dropWhile p = t := by
  cases t with
  | nil => rfl
  | cons c rest => simp [h c rfl]

/-- Cutting white space twice is cutting it once. So a second check finds nothing to cut. -/
theorem strip_strip (t : Text) : t.strip.strip = t.strip := by
  have hhead : ∀ c ∈ t.strip.head?, c.isBlank = false := by
    intro c hc
    -- What is cut at the end leaves a beginning of the text, and that does not begin with white space.
    obtain ⟨rest, hrest⟩ := List.rdropWhile_prefix CodePoint.isBlank (t.dropWhile CodePoint.isBlank)
    have hfirst : (t.dropWhile CodePoint.isBlank).head? = some c := by
      rw [← hrest, List.head?_append]
      change Option.or t.strip.head? _ = _
      rw [hc]
      rfl
    have hnot := List.head?_dropWhile_not CodePoint.isBlank t
    rw [hfirst] at hnot
    exact hnot
  calc t.strip.strip
      = dropRightWhile CodePoint.isBlank t.strip := by rw [strip, dropWhile_eq_self hhead]
    _ = t.strip := List.rdropWhile_idempotent _ _

/-- A path that begins at the root is never all white space. -/
theorem strip_ne_nil (h : isAbsolute t = true) : t.strip ≠ [] := by
  cases t with
  | nil => simp [isAbsolute] at h
  | cons c rest =>
    have hc : c = slash := by simpa [isAbsolute] using h
    subst hc
    intro hstrip
    rw [strip, dropWhile_eq_self (by rintro c ⟨⟩; decide), dropRightWhile_eq_rdropWhile,
      List.rdropWhile_eq_nil_iff] at hstrip
    exact absurd (hstrip slash List.mem_cons_self) (by decide)

end Text

/-! ## Reading a path -/

namespace Host

variable {host : Host} {path : Text}

/-- The path is read as itself. A path that a check gave need not be, if it still refers to something. -/
def Settled (host : Host) (path : Text) : Prop := host.normalizePath path host.cwdText = .ok path

/-- A path is stripped before it is read, so white space around it does not matter. -/
theorem normalizePath_strip (host : Host) (path fallback : Text) :
    host.normalizePath path.strip fallback = host.normalizePath path fallback := by
  rw [normalizePath, normalizePath, Text.strip_strip]

/-- A path is read in three steps: the home directory, the variables, and what is left is made absolute. -/
theorem normalizePath_eq_ok {given fallback : Text} : host.normalizePath given fallback = .ok path ↔
    ∃ home found, host.expandHome (if given.strip.isEmpty then fallback else given.strip) = .ok home ∧
      host.expandVariables home = .ok found ∧ host.absolute found = path := by
  rw [normalizePath]
  cases host.expandHome (if given.strip.isEmpty then fallback else given.strip) with
  | error e => simp
  | ok home => cases hfound : host.expandVariables home <;> simp [hfound]

/-- Whatever a path was, it is normal once it has been read. -/
theorem isNormal_of_normalizePath {given fallback : Text}
    (h : host.normalizePath given fallback = .ok path) : IsNormal path := by
  obtain ⟨_, found, _, _, rfl⟩ := normalizePath_eq_ok.1 h
  exact isNormal_absolute (isAbsolute_cwdText host) found

/-- Without references there is nothing to replace. -/
theorem expandVariables_eq_self {t : Text} (h : CodePoint.ofChar '$' ∉ t) :
    host.expandVariables t = .ok t := by
  induction t with
  | nil => rw [expandVariables]
  | cons c rest ih =>
    have hc : c ≠ CodePoint.ofChar '$' := fun hc => h (hc ▸ List.mem_cons_self)
    rw [expandVariables, if_neg hc, ih fun hmem => h (List.mem_cons_of_mem _ hmem)]
    rfl

theorem expandHome_eq_self (h : isAbsolute path = true) : host.expandHome path = .ok path := by
  cases path with
  | nil => rfl
  | cons c rest =>
    have hc : c = slash := by simpa [isAbsolute] using h
    subst hc
    rw [expandHome, if_neg (by decide)]

/-- **A normal path is settled** if it does not end with white space and refers to no variable. It begins with a
slash, so there is no home directory to be put in and no white space in front. -/
theorem settled_of_plain (hnormal : IsNormal path) (hstrip : path.strip = path)
    (hplain : CodePoint.ofChar '$' ∉ path) : host.Settled path := by
  have hne : path.isEmpty = false := by
    have := Text.strip_ne_nil hnormal.isAbsolute
    rw [hstrip] at this
    simpa using this
  refine normalizePath_eq_ok.2 ⟨path, path, ?_, expandVariables_eq_self hplain, absolute_eq_self hnormal⟩
  rw [hstrip, hne]
  exact expandHome_eq_self hnormal.isAbsolute

/-- The project root that is found is a normal path. -/
theorem isNormal_projectRoot {markers : List Text} (h : host.projectRoot [] markers = some path) :
    IsNormal path := by
  have hfind : ∀ current, Clean current → host.findMarked markers current = some path → IsNormal path := by
    intro current hcurrent hfound
    fun_induction findMarked host markers current with
    | case1 current => exact Option.some.inj hfound ▸ hcurrent.normal
    | case2 current _ _ ih => exact ih hcurrent.parent hfound
    | case3 => simp at hfound
  unfold projectRoot at h
  split at h
  · exact Option.some.inj h ▸ isNormal_absolute (isAbsolute_cwdText host) _
  · refine hfind _ ⟨isNormal_absolute (isAbsolute_cwdText host) _, ?_⟩ h
    exact decoded_absolute (isAbsolute_cwdText host) (decoded_cwdText host) (decoded_cwdText host)

end Host

namespace Settings

/-! ## Values that have been read -/

namespace Checked

variable {α β : Type} {f : α → Checked β}

/-- The value, if there is one, has the property. Nothing is said about a check that gives up. -/
def Ensures (x : Checked α) (P : α → Prop) : Prop := ∀ a warnings, x = .ok (a, warnings) → P a

theorem ensures_clean {P : α → Prop} {a : α} (h : P a) : (clean a).Ensures P := by
  intro b warnings hb
  exact (Prod.mk.inj (Except.ok.inj hb)).1 ▸ h

/-- Steps one after the other: each may rely on what the one before ensures. -/
theorem Ensures.andThen {x : Checked α} {Q : α → Prop} {P : β → Prop} (hx : x.Ensures Q)
    (hf : ∀ a, Q a → (f a).Ensures P) : (x.andThen f).Ensures P := by
  intro b warnings h
  unfold Checked.andThen at h
  split at h
  · simp at h
  · next a first =>
    split at h
    · simp at h
    · next c more hc =>
      obtain rfl := (Prod.mk.inj (Except.ok.inj h)).1
      exact hf a (hx a first rfl) c more hc

/-- Where a step ensures something by itself, it does not matter what came before it. -/
theorem ensures_andThen {x : Checked α} {P : β → Prop} (hf : ∀ a, (f a).Ensures P) :
    (x.andThen f).Ensures P :=
  Ensures.andThen (show x.Ensures fun _ => True from fun _ _ _ => trivial) fun a _ => hf a

theorem ensures_complain {P : α → Prop} {strict : Bool} {c : Complaint} {instead : α} (h : P instead) :
    (complain strict c instead).Ensures P := by
  intro b warnings hb
  unfold complain at hb
  split at hb
  · simp at hb
  · exact (Prod.mk.inj (Except.ok.inj hb)).1 ▸ h

@[simp]
theorem clean_andThen (a : α) (f : α → Checked β) : (clean a).andThen f = f a := by
  rw [clean, andThen]
  cases f a <;> rfl

end Checked

/-- The texts are as they are read: none is empty and none has white space at its ends. -/
def Trimmed (ts : List Text) : Prop := ∀ t ∈ ts, t ≠ [] ∧ t.strip = t

theorem trimmed_stripAll (ts : List Text) : Trimmed (stripAll ts) := by
  intro t ht
  obtain ⟨hmem, hne⟩ := List.mem_filter.1 ht
  obtain ⟨given, _, rfl⟩ := List.mem_map.1 hmem
  exact ⟨by simpa using hne, Text.strip_strip given⟩

theorem stripAll_cons (t : Text) (ts : List Text) : stripAll (t :: ts) = stripAll [t] ++ stripAll ts := by
  rw [stripAll, List.map_cons, List.filter_cons]
  by_cases h : (!t.strip.isEmpty) = true
  · simp [stripAll, h]
  · simp [stripAll, h]

/-- Reading trimmed texts once more changes nothing. -/
theorem stripAll_eq_self {ts : List Text} (h : Trimmed ts) : stripAll ts = ts := by
  induction ts with
  | nil => rfl
  | cons t ts ih =>
    obtain ⟨hne, hstrip⟩ := h t List.mem_cons_self
    rw [stripAll_cons, ih fun u hu => h u (List.mem_cons_of_mem _ hu)]
    simp [stripAll, hstrip, hne]

theorem Trimmed.append {ts us : List Text} (ht : Trimmed ts) (hu : Trimmed us) : Trimmed (ts ++ us) := by
  intro t h
  rcases List.mem_append.1 h with h | h
  · exact ht t h
  · exact hu t h

/-- What is left of a list is trimmed: an item that is no text is left out or given up on. -/
theorem trimmed_readItems (strict : Bool) (key : Text) (index : Nat) (items : List Json) :
    (readItems strict key index items).Ensures Trimmed := by
  fun_induction readItems strict key index items with
  | case1 => exact Checked.ensures_clean (by simp [Trimmed])
  | case2 index t rest ih =>
    exact ih.andThen fun ts hts => Checked.ensures_clean ((trimmed_stripAll [t]).append hts)
  | case3 index _ rest _ ih => exact Checked.ensures_andThen fun _ => ih

/-- A list of texts comes out trimmed, if the one that is taken for a missing one is. -/
theorem trimmed_readTexts (strict : Bool) (key : Text) {fallback : List Text} (value : Json)
    (h : Trimmed fallback) : (readTexts strict key fallback value).Ensures Trimmed := by
  unfold readTexts
  split
  · exact Checked.ensures_clean h
  · exact trimmed_readItems strict key 0 _
  · next t =>
    intro ts warnings hts
    split at hts
    · simp at hts
    · exact (Prod.mk.inj (Except.ok.inj hts)).1 ▸ trimmed_stripAll _
  · exact Checked.ensures_complain h

theorem readItems_texts (strict : Bool) (key : Text) (index : Nat) (ts : List Text) :
    readItems strict key index (ts.map .str) = .clean (stripAll ts) := by
  induction ts generalizing index with
  | nil => rfl
  | cons t ts ih => rw [List.map_cons, readItems, ih, Checked.clean_andThen, ← stripAll_cons]

/-- Texts that are written as a list are read as these texts. -/
theorem readTexts_textsValue (strict : Bool) (key : Text) (fallback ts : List Text) :
    readTexts strict key fallback (textsValue ts) = .clean (stripAll ts) :=
  readItems_texts strict key 0 ts

/-- What is known of settings whose fields have been read: the lists that hold no paths are trimmed, and what is kept
besides the settings has other names. -/
structure Read (s : Settings) : Prop where
  whitelist : Trimmed s.whitelist
  blacklist : Trimmed s.blacklist
  sources : Trimmed s.sources
  skipped : Trimmed s.skipped
  markers : Trimmed s.markers
  others : ∀ member ∈ s.others, keys.contains member.1 = false

variable {host : Host} {strict : Bool} {s : Settings}

/-- The defaults are as they are read. -/
theorem read_initial (host : Host) : (initial host).Read where
  whitelist := show Trimmed Scan.everyFile by unfold Trimmed; decide
  blacklist := by simp [initial, Trimmed]
  sources := show Trimmed Scan.sourcePatterns by unfold Trimmed; decide
  skipped := show Trimmed Scan.skippedNames by unfold Trimmed; decide
  markers := show Trimmed Host.defaultMarkers by unfold Trimmed; decide
  others := by simp [initial]

theorem read_readFields (host : Host) (strict : Bool) (config : Json.Members) :
    (readFields host strict config).Ensures fun given => given.1.Read := by
  have hinitial := read_initial host
  unfold readFields
  -- The first eight fields hold paths, flags and the format.
  iterate 8 refine Checked.ensures_andThen fun _ => ?_
  refine (trimmed_readTexts _ _ _ hinitial.whitelist).andThen fun whitelist hwhitelist => ?_
  refine (trimmed_readTexts _ _ _ hinitial.blacklist).andThen fun blacklist hblacklist => ?_
  refine (trimmed_readTexts _ _ _ hinitial.sources).andThen fun sources hsources => ?_
  refine (trimmed_readTexts _ _ _ hinitial.skipped).andThen fun skipped hskipped => ?_
  refine (trimmed_readTexts _ _ _ hinitial.markers).andThen fun markers hmarkers => ?_
  refine Checked.ensures_andThen fun indent => Checked.ensures_clean ?_
  exact ⟨hwhitelist, hblacklist, hsources, hskipped, hmarkers,
    fun member hmember => by simpa using (List.mem_filter.1 hmember).2⟩

/-! ## Reading settings again -/

theorem map_fst_fields (s : Settings) : s.fields.map (·.1) = keys := rfl

/-- The members of settings are found under their names. All names are different, so none hides another. -/
theorem get?_members (s : Settings) (key : Text) (value : Json) (h : (key, value) ∈ s.fields) :
    s.members.get? key = some value := by
  have hkeys : (s.fields.map (·.1)).Nodup := by
    rw [map_fst_fields]
    decide
  have hfind : s.fields.find? (fun member => member.1 == key) = some (key, value) := by
    cases hfound : s.fields.find? (fun member => member.1 == key) with
    | none => simpa using List.find?_eq_none.1 hfound _ h
    | some member =>
      have hname : member.1 = key := by simpa using List.find?_some hfound
      have hmem := List.mem_of_find?_eq_some hfound
      rw [List.inj_on_of_nodup_map hkeys hmem h hname]
  rw [Json.Members.get?, members, List.find?_append, hfind]
  rfl

/-- The settings with no white space around their paths. -/
def trimPaths (s : Settings) : Settings :=
  { s with
    scanDir := s.scanDir.strip
    projectRoot := s.projectRoot.strip
    includeDirs := stripAll s.includeDirs
    rootDirs := stripAll s.rootDirs
    outputPath := s.outputPath.strip }

/-- What a configuration has beside its settings is kept apart from them. -/
theorem filter_members (h : s.Read) :
    s.members.filter (fun member => !keys.contains member.1) = s.others := by
  have hfields : s.fields.filter (fun member => !keys.contains member.1) = [] := by
    rw [List.filter_eq_nil_iff]
    intro member hmember
    have hkey : member.1 ∈ keys := map_fst_fields s ▸ List.mem_map_of_mem hmember
    simpa using hkey
  have hothers : s.others.filter (fun member => !keys.contains member.1) = s.others := by
    rw [List.filter_eq_self]
    intro member hmember
    rw [h.others member hmember]
    rfl
  rw [members, List.filter_append, hfields, hothers, List.nil_append]

/-- **Reading the members of settings** gives the settings back, but for white space around paths, and there is
nothing to warn about. -/
theorem readFields_members (h : s.Read) :
    readFields host strict s.members = .clean (s.trimPaths, s.format.name) := by
  have hformat : s.format.name.strip = s.format.name := by
    cases s.format
    decide
  unfold readFields
  simp only [get?_members s "scan_dir" (.str s.scanDir) (by simp [fields]),
    get?_members s "project_root" (.str s.projectRoot) (by simp [fields]),
    get?_members s "include_dirs" (textsValue s.includeDirs) (by simp [fields]),
    get?_members s "root_dirs" (textsValue s.rootDirs) (by simp [fields]),
    get?_members s "whitelist_wildcards" (textsValue s.whitelist) (by simp [fields]),
    get?_members s "blacklist_wildcards" (textsValue s.blacklist) (by simp [fields]),
    get?_members s "cxx_wildcards" (textsValue s.sources) (by simp [fields]),
    get?_members s "skip_root_dirs" (textsValue s.skipped) (by simp [fields]),
    get?_members s "root_markers" (textsValue s.markers) (by simp [fields]),
    get?_members s "create_reverse_dependencies" (.bool s.reverse) (by simp [fields]),
    get?_members s "output_path" (.str s.outputPath) (by simp [fields]),
    get?_members s "output_format" (.str s.format.name) (by simp [fields]),
    get?_members s "pretty_print" (.bool s.pretty) (by simp [fields]),
    get?_members s "indent" (.str s.indent) (by simp [fields]),
    Option.getD_some, readText, readFlag, readTexts_textsValue, readExact, Checked.clean_andThen,
    hformat, filter_members h, stripAll_eq_self h.whitelist, stripAll_eq_self h.blacklist,
    stripAll_eq_self h.sources, stripAll_eq_self h.skipped, stripAll_eq_self h.markers]
  rfl

/-! ## Paths of settings -/

/-- The paths that settings give. -/
def paths (s : Settings) : List Text :=
  s.scanDir :: s.projectRoot ::
    (s.includeDirs ++ s.rootDirs ++ if s.outputPath.isEmpty then [] else [s.outputPath])

/-- What a check does to paths: they are normal, the project root is among the search directories, there is a root
directory, and no directory is there twice. -/
structure Located (s : Settings) : Prop where
  normal : ∀ path ∈ s.paths, IsNormal path
  root_mem : s.projectRoot ∈ s.includeDirs
  nodup_includeDirs : s.includeDirs.Nodup
  rootDirs_ne_nil : s.rootDirs ≠ []
  nodup_rootDirs : s.rootDirs.Nodup

/-- Paths are read one by one, and all of them have to be. -/
theorem absoluteAll_eq_ok {ts us : List Text} :
    absoluteAll host ts = .ok us ↔
      List.Forall₂ (fun t u => host.normalizePath t host.cwdText = .ok u) ts us := by
  induction ts generalizing us with
  | nil =>
    rw [absoluteAll, List.forall₂_nil_left_iff]
    simp [eq_comm]
  | cons t ts ih =>
    rw [absoluteAll, List.forall₂_cons_left_iff]
    cases hfirst : host.normalizePath t host.cwdText with
    | error e => simp
    | ok first =>
      constructor
      · intro h
        obtain ⟨rest, hrest, rfl⟩ := Host.exists_of_map_eq_ok h
        exact ⟨first, rest, rfl, ih.1 hrest, rfl⟩
      · rintro ⟨u, rest, hu, hrest, rfl⟩
        obtain rfl := Except.ok.inj hu
        simp [ih.2 hrest, Except.map]

theorem mem_absoluteAll {ts us : List Text} (h : absoluteAll host ts = .ok us) (u : Text) :
    u ∈ us ↔ ∃ t ∈ ts, host.normalizePath t host.cwdText = .ok u := by
  have hall := absoluteAll_eq_ok.1 h
  clear h
  induction hall with
  | nil => simp
  | cons hfirst _ ih => simp [ih, hfirst, eq_comm]

/-- Paths that are read as themselves, all together, are read so one by one. -/
theorem absoluteAll_eq_self_iff {ts : List Text} :
    absoluteAll host ts = .ok ts ↔ ∀ t ∈ ts, host.Settled t := by
  rw [absoluteAll_eq_ok, List.forall₂_same]
  rfl

theorem absoluteAll_stripAll {ts : List Text} (h : ∀ t ∈ ts, t.strip ≠ []) :
    absoluteAll host (stripAll ts) = absoluteAll host ts := by
  induction ts with
  | nil => rfl
  | cons t ts ih =>
    have hone : stripAll [t] = [t.strip] := by simp [stripAll, h t List.mem_cons_self]
    rw [stripAll_cons, hone, List.singleton_append, absoluteAll, absoluteAll, Host.normalizePath_strip,
      ih fun u hu => h u (List.mem_cons_of_mem _ hu)]

/-! ### No directory twice -/

theorem mem_unique {seen ts : List Text} {t : Text} : t ∈ unique seen ts ↔ t ∈ ts ∧ t ∉ seen := by
  induction ts generalizing seen with
  | nil => simp [unique]
  | cons u ts ih =>
    rw [unique]
    by_cases hu : u ∈ seen
    · rw [if_pos (by simpa using hu), ih, List.mem_cons]
      constructor
      · rintro ⟨hmem, hseen⟩
        exact ⟨.inr hmem, hseen⟩
      · rintro ⟨rfl | hmem, hseen⟩
        · exact absurd hu hseen
        · exact ⟨hmem, hseen⟩
    · rw [if_neg (by simpa using hu), List.mem_cons, ih, List.mem_cons, List.mem_cons]
      by_cases htu : t = u
      · subst htu
        simp [hu]
      · simp [htu]

theorem nodup_unique (seen ts : List Text) : (unique seen ts).Nodup := by
  induction ts generalizing seen with
  | nil => simp [unique]
  | cons t ts ih =>
    rw [unique]
    split
    · exact ih seen
    · refine List.nodup_cons.2 ⟨fun hmem => ?_, ih (t :: seen)⟩
      exact (mem_unique.1 hmem).2 List.mem_cons_self

theorem unique_sublist (seen ts : List Text) : (unique seen ts).Sublist ts := by
  induction ts generalizing seen with
  | nil => exact List.Sublist.slnil
  | cons t ts ih =>
    rw [unique]
    split
    · exact (ih seen).cons t
    · exact (ih (t :: seen)).cons_cons t

/-- Without repetitions there is nothing to leave out. -/
theorem unique_eq_self {seen ts : List Text} (hnodup : ts.Nodup) (hseen : ∀ t ∈ ts, t ∉ seen) :
    unique seen ts = ts := by
  induction ts generalizing seen with
  | nil => rfl
  | cons t ts ih =>
    obtain ⟨hfresh, hrest⟩ := List.nodup_cons.1 hnodup
    rw [unique, if_neg (by simpa using hseen t List.mem_cons_self), ih hrest]
    intro u hu hmem
    rcases List.mem_cons.1 hmem with rfl | hmem
    · exact hfresh hu
    · exact hseen u (List.mem_cons_of_mem _ hu) hmem

/-- A directory that is there already is not added at the end. -/
theorem unique_concat {seen ts : List Text} {t : Text} (h : t ∈ ts ∨ t ∈ seen) :
    unique seen (ts ++ [t]) = unique seen ts := by
  induction ts generalizing seen with
  | nil =>
    have ht : t ∈ seen := h.resolve_left (by simp)
    simp [unique, ht]
  | cons u ts ih =>
    rw [List.cons_append, unique, unique]
    split
    · next hu =>
      have hu : u ∈ seen := by simpa using hu
      refine ih ?_
      rcases h with h | h
      · rcases List.mem_cons.1 h with rfl | h
        · exact .inr hu
        · exact .inl h
      · exact .inr h
    · rw [ih]
      rcases h with h | h
      · rcases List.mem_cons.1 h with rfl | h
        · exact .inr List.mem_cons_self
        · exact .inl h
      · exact .inr (List.mem_cons_of_mem _ h)

/-! ### Locating -/

theorem bind_eq_ok {ε α β : Type} {x : Except ε α} {f : α → Except ε β} {b : β} :
    x >>= f = .ok b ↔ ∃ a, x = .ok a ∧ f a = .ok b := by
  cases x with
  | error e => simp [bind, Except.bind]
  | ok a => simp [bind, Except.bind]

theorem mapError_eq_ok {ε δ α : Type} {x : Except ε α} {f : ε → δ} {a : α} :
    x.mapError f = .ok a ↔ x = .ok a := by
  cases x <;> simp [Except.mapError]

/-- What it takes to make the paths of settings absolute: each path is read, in the order in which later ones depend
on earlier ones. -/
theorem locate_eq_ok {done : Settings} :
    s.locate host = .ok done ↔
      ∃ scanDir root includeDirs rootDirs outputPath,
        host.normalizePath s.scanDir host.cwdText = .ok scanDir ∧ s.rootDir host scanDir = .ok root ∧
        absoluteAll host s.includeDirs = .ok includeDirs ∧ absoluteAll host s.rootDirs = .ok rootDirs ∧
        outputFile host s.outputPath = .ok outputPath ∧
        done = { s with
          scanDir := scanDir
          projectRoot := root
          includeDirs := unique [] (includeDirs ++ [root])
          rootDirs := unique [] (if rootDirs.isEmpty then [root] else rootDirs)
          outputPath := outputPath } := by
  simp only [locate, bind_eq_ok, pure, Except.pure, Except.ok.injEq, @eq_comm _ _ done]
  constructor
  · rintro ⟨scanDir, hscan, root, hroot, includeDirs, hinclude, rootDirs, hroots, outputPath, houtput, rfl⟩
    exact ⟨scanDir, root, includeDirs, rootDirs, outputPath, hscan, hroot, hinclude, hroots, houtput, rfl⟩
  · rintro ⟨scanDir, root, includeDirs, rootDirs, outputPath, hscan, hroot, hinclude, hroots, houtput, rfl⟩
    exact ⟨scanDir, hscan, root, hroot, includeDirs, hinclude, rootDirs, hroots, outputPath, houtput, rfl⟩

theorem isNormal_of_rootDir {scanDir root : Text} (hscan : IsNormal scanDir)
    (h : s.rootDir host scanDir = .ok root) : IsNormal root := by
  unfold rootDir at h
  split at h
  · obtain rfl := Except.ok.inj h
    cases hfound : host.projectRoot [] s.markers with
    | none => exact hscan
    | some found => exact Host.isNormal_projectRoot hfound
  · exact Host.isNormal_of_normalizePath h

theorem isNormal_of_outputFile {path done : Text} (h : outputFile host path = .ok done) :
    done = [] ∨ IsNormal done := by
  unfold outputFile at h
  split at h
  · next hempty =>
    obtain rfl := Except.ok.inj h
    exact .inl (by simpa using hempty)
  · exact .inr (Host.isNormal_of_normalizePath h)

theorem isNormal_of_absoluteAll {ts us : List Text} (h : absoluteAll host ts = .ok us) :
    ∀ u ∈ us, IsNormal u := by
  intro u hu
  obtain ⟨t, _, ht⟩ := (mem_absoluteAll h u).1 hu
  exact Host.isNormal_of_normalizePath ht

/-- **Settings whose paths have been made absolute** have them in order. -/
theorem located_of_locate {done : Settings} (h : s.locate host = .ok done) : done.Located := by
  obtain ⟨scanDir, root, includeDirs, rootDirs, outputPath, hscan, hroot, hinclude, hroots, houtput, rfl⟩ :=
    locate_eq_ok.1 h
  have hscan := Host.isNormal_of_normalizePath hscan
  have hroot := isNormal_of_rootDir hscan hroot
  -- Where no root directories are given there is one, the root.
  have hne : unique [] (if rootDirs.isEmpty then [root] else rootDirs) ≠ [] := by
    cases rootDirs with
    | nil => simp [unique]
    | cons first rest => simp [unique]
  refine ⟨?_, mem_unique.2 ⟨by simp, by simp⟩, nodup_unique _ _, hne, nodup_unique _ _⟩
  intro path hpath
  simp only [paths, List.mem_cons, List.mem_append, mem_unique] at hpath
  rcases hpath with rfl | rfl | ((⟨hpath | hpath, _⟩ | ⟨hpath, _⟩) | hpath)
  · exact hscan
  · exact hroot
  · exact isNormal_of_absoluteAll hinclude path hpath
  · simp only [List.not_mem_nil, or_false] at hpath
    exact hpath ▸ hroot
  · split at hpath
    · exact List.mem_singleton.1 hpath ▸ hroot
    · exact isNormal_of_absoluteAll hroots path hpath
  · rcases isNormal_of_outputFile houtput with rfl | hnormal
    · simp at hpath
    · split at hpath
      · simp at hpath
      · exact List.mem_singleton.1 hpath ▸ hnormal

/-- Normal paths mean the same with the white space around them and without it. -/
theorem locate_trimPaths (h : s.Located) : s.trimPaths.locate host = s.locate host := by
  have hstrip : ∀ path ∈ s.paths, path.strip ≠ [] := fun path hpath =>
    Text.strip_ne_nil (h.normal path hpath).isAbsolute
  have hroot : s.trimPaths.rootDir host = s.rootDir host := by
    funext scanDir
    have hne : s.projectRoot.strip.isEmpty = s.projectRoot.isEmpty := by
      have hnormal := h.normal s.projectRoot (by simp [paths])
      have hgiven : s.projectRoot ≠ [] := by
        intro hnil
        simpa [hnil, isAbsolute] using hnormal.isAbsolute
      rw [List.isEmpty_eq_false_iff.2 hgiven, List.isEmpty_eq_false_iff.2 (hstrip _ (by simp [paths]))]
    simp only [rootDir, trimPaths, hne, Host.normalizePath_strip]
  have houtput : outputFile host s.trimPaths.outputPath = outputFile host s.outputPath := by
    by_cases hempty : s.outputPath = []
    · simp only [trimPaths, hempty]
      rfl
    · have hne : s.outputPath.strip ≠ [] := hstrip _ (by simp [paths, hempty])
      simp only [outputFile, trimPaths, List.isEmpty_eq_false_iff.2 hempty,
        List.isEmpty_eq_false_iff.2 hne, Host.normalizePath_strip, Bool.false_eq_true, if_false]
  have hinclude : absoluteAll host s.trimPaths.includeDirs = absoluteAll host s.includeDirs :=
    absoluteAll_stripAll fun t ht => hstrip t (by simp [paths, ht])
  have hroots : absoluteAll host s.trimPaths.rootDirs = absoluteAll host s.rootDirs :=
    absoluteAll_stripAll fun t ht => hstrip t (by simp [paths, ht])
  rw [locate, locate, hroot, houtput, hinclude, hroots, trimPaths, Host.normalizePath_strip]

/-- Directories that have no repetitions and are read as themselves but for repetitions are settled. -/
theorem settled_of_unique {ts us : List Text} (h : absoluteAll host ts = .ok us)
    (hunique : unique [] us = ts) : ∀ t ∈ ts, host.Settled t := by
  have hlength : us.length = ts.length := (absoluteAll_eq_ok.1 h).length_eq.symm
  have hsame : unique [] us = us := (unique_sublist [] us).eq_of_length (by rw [hunique, hlength])
  rw [← absoluteAll_eq_self_iff, h, ← hunique, hsame]

/-- **Located settings are located once more** exactly if each of their paths is read as itself. -/
theorem locate_eq_self_iff (h : s.Located) :
    s.locate host = .ok s ↔ ∀ path ∈ s.paths, host.Settled path := by
  have hgiven : s.projectRoot.isEmpty = false := by
    have hnormal := h.normal s.projectRoot (by simp [paths])
    cases hroot : s.projectRoot with
    | nil => simpa [hroot, isAbsolute] using hnormal.isAbsolute
    | cons c rest => rfl
  have hrootDir : ∀ scanDir, s.rootDir host scanDir = host.normalizePath s.projectRoot host.cwdText := by
    intro scanDir
    simp [rootDir, hgiven]
  constructor
  · intro hlocate
    obtain ⟨scanDir, root, includeDirs, rootDirs, outputPath, hscan, hroot, hinclude, hroots, houtput, hs⟩ :=
      locate_eq_ok.1 hlocate
    obtain ⟨hscanEq, hrootEq, hincludeEq, hrootsEq, houtputEq⟩ :
        s.scanDir = scanDir ∧ s.projectRoot = root ∧ s.includeDirs = unique [] (includeDirs ++ [root]) ∧
          s.rootDirs = unique [] (if rootDirs.isEmpty then [root] else rootDirs) ∧
          s.outputPath = outputPath := by
      rw [hs]
      simp
    have hprojectRoot : host.Settled s.projectRoot := by
      rw [Host.Settled, ← hrootDir scanDir, hroot, hrootEq]
    -- The project root is a search directory and is read as itself, so it is not added once more.
    have hmem : root ∈ includeDirs :=
      (mem_absoluteAll hinclude root).2 ⟨root, hrootEq ▸ h.root_mem, hrootEq ▸ hprojectRoot⟩
    rw [unique_concat (.inl hmem)] at hincludeEq
    have hne : rootDirs.isEmpty = false := by
      have hlength := (absoluteAll_eq_ok.1 hroots).length_eq
      rw [List.isEmpty_eq_false_iff]
      rintro rfl
      exact h.rootDirs_ne_nil (List.length_eq_zero_iff.1 hlength)
    rw [hne] at hrootsEq
    intro path hpath
    simp only [paths, List.mem_cons, List.mem_append] at hpath
    rcases hpath with rfl | rfl | ((hpath | hpath) | hpath)
    · rw [Host.Settled, hscan, hscanEq]
    · exact hprojectRoot
    · exact settled_of_unique hinclude hincludeEq.symm path hpath
    · exact settled_of_unique hroots hrootsEq.symm path hpath
    · split at hpath
      · simp at hpath
      · next hempty =>
        obtain rfl := List.mem_singleton.1 hpath
        rw [outputFile, if_neg hempty] at houtput
        rw [Host.Settled, houtput, houtputEq]
  · intro hsettled
    have hof : ∀ ts : List Text, (∀ t ∈ ts, t ∈ s.paths) → absoluteAll host ts = .ok ts := fun ts hts =>
      absoluteAll_eq_self_iff.2 fun t ht => hsettled t (hts t ht)
    have houtput : outputFile host s.outputPath = .ok s.outputPath := by
      unfold outputFile
      split
      · rfl
      · next hempty => exact hsettled s.outputPath (by simp [paths, hempty])
    refine locate_eq_ok.2 ⟨s.scanDir, s.projectRoot, s.includeDirs, s.rootDirs, s.outputPath,
      hsettled _ (by simp [paths]), (hrootDir _).trans (hsettled _ (by simp [paths])),
      hof _ fun t ht => by simp [paths, ht], hof _ fun t ht => by simp [paths, ht], houtput, ?_⟩
    rw [unique_concat (.inl h.root_mem), unique_eq_self h.nodup_includeDirs (by simp),
      List.isEmpty_eq_false_iff.2 h.rootDirs_ne_nil]
    simp only [Bool.false_eq_true, if_false]
    rw [unique_eq_self h.nodup_rootDirs (by simp)]

/-! ## The second check -/

/-- What is said of the directory to be scanned. -/
def scanWarnings (host : Host) (s : Settings) : List Warning :=
  if host.isDirectory s.scanDir then [] else [.noScanDir s.scanDir]

/-- The end of a check: paths are made absolute, and then the disk is asked about the directory to be scanned. -/
theorem result_checkPaths (host : Host) (s : Settings) (warnings : List Warning) :
    (checkPaths host s warnings).result =
      ((s.locate host).mapError .path).map fun done => (done, warnings ++ done.scanWarnings host) := by
  unfold checkPaths
  split
  · next e hscan =>
    have hlocate : s.locate host = .error e := by
      rw [locate, hscan]
      rfl
    rw [hlocate]
    rfl
  · cases s.locate host <;> rfl

/-- A check that ends well had a working directory to begin with. -/
theorem not_stranded_of_check {config : Json} {warnings : List Warning}
    (h : (check host strict config).result = .ok (s, warnings)) : host.stranded = false := by
  unfold check at h
  split at h
  · simp at h
  · next hstranded => simpa using hstranded

/-- What a check that ends well leaves behind. -/
theorem of_check {config : Json} {warnings : List Warning}
    (h : (check host strict config).result = .ok (s, warnings)) :
    s.Read ∧ s.Located ∧ Wildcard.checkAll s.patterns = .ok () := by
  have hstranded := not_stranded_of_check h
  unfold check at h
  rw [if_neg (by simp [hstranded])] at h
  split at h
  · simp at h
  · next given name first hread =>
    have hread : given.Read :=
      Checked.ensures_andThen (read_readFields host strict) (given, name) first hread
    split at h
    · simp at h
    · next format _ =>
      split at h
      · simp at h
      · next hpatterns =>
        rw [result_checkPaths] at h
        obtain ⟨done, hdone, heq⟩ := Host.exists_of_map_eq_ok h
        obtain rfl := (Prod.mk.inj heq).1
        have hlocate := mapError_eq_ok.1 hdone
        have hlocated := located_of_locate hlocate
        -- Only paths have changed since the fields were read.
        obtain ⟨_, _, _, _, _, _, _, _, _, _, rfl⟩ := locate_eq_ok.1 hlocate
        exact ⟨⟨hread.whitelist, hread.blacklist, hread.sources, hread.skipped, hread.markers,
          hread.others⟩, hlocated, hpatterns⟩

/-- **A check of what a check gave** reads the paths once more and does nothing else. -/
theorem check_members {again : Bool} (hstranded : host.stranded = false) (hread : s.Read) (hlocated : s.Located)
    (hpatterns : Wildcard.checkAll s.patterns = .ok ()) :
    (check host again (.obj s.members)).result =
      ((s.locate host).mapError .path).map fun done => (done, done.scanWarnings host) := by
  have hfields : (readMembers again (.obj s.members)).andThen (readFields host again) =
      .ok ((s.trimPaths, s.format.name), []) := by
    rw [readMembers, Checked.clean_andThen, readFields_members hread]
    rfl
  have hformat : Format.ofName? s.format.name = some s.format := by
    cases s.format
    decide
  have hpatterns : Wildcard.checkAll s.trimPaths.patterns = .ok () := hpatterns
  unfold check
  rw [if_neg (by simp [hstranded]), hfields]
  simp only [hformat, hpatterns]
  rw [result_checkPaths]
  change ((s.trimPaths.locate host).mapError Refusal.path).map _ = _
  rw [locate_trimPaths hlocated]
  rfl

/-- **A second check** reads the paths of the settings once more and does nothing else. It gives the same
settings exactly if every path is read as itself, and so it does where no path ends with white space or
refers to a variable. -/
theorem check_again {config : Json} {warnings : List Warning}
    (h : (check host strict config).result = .ok (s, warnings)) (again : Bool) :
    (check host again (.obj s.members)).result =
        ((s.locate host).mapError .path).map (fun done => (done, done.scanWarnings host)) ∧
      ((check host again (.obj s.members)).result = .ok (s, s.scanWarnings host) ↔
        ∀ path ∈ s.paths, host.Settled path) ∧
      ∀ path ∈ s.paths, path.strip = path → CodePoint.ofChar '$' ∉ path → host.Settled path := by
  obtain ⟨hread, hlocated, hpatterns⟩ := of_check h
  have hresult := @check_members host s again (not_stranded_of_check h) hread hlocated hpatterns
  refine ⟨hresult, ?_, fun path hpath => Host.settled_of_plain (hlocated.normal path hpath)⟩
  rw [hresult, ← locate_eq_self_iff hlocated]
  constructor
  · intro hsame
    obtain ⟨done, hdone, heq⟩ := Host.exists_of_map_eq_ok hsame
    obtain rfl := (Prod.mk.inj heq).1
    exact mapError_eq_ok.1 hdone
  · intro hlocate
    rw [hlocate]
    rfl

/-- A machine on which one variable refers to another. -/
def variableHost : Host where
  disk := ⟨.directory [(Text.key "$B", .directory [] .full), (Text.key "x", .directory [] .full)] .full⟩
  cwd := []
  env := [(Text.key "A", Text.key "$B"), (Text.key "B", Text.key "x")]

/-- The settings of a project at the root with one directory to be scanned. -/
def scanning (scanDir : Text) : Settings where
  scanDir := scanDir
  projectRoot := "/"
  includeDirs := ["/"]
  rootDirs := ["/"]

/-- A variable whose value is a plain name is replaced for good. -/
theorem check_again_plain :
    let config : Json := .obj [("scan_dir", .str " ./$B/y/.. "), ("project_root", .str "/")]
    (check variableHost false config).result = .ok (scanning "/x", []) ∧
      (check variableHost true (.obj (scanning "/x").members)).result = .ok (scanning "/x", []) := by
  intro config
  have hfirst : (check variableHost false config).result = .ok (scanning "/x", []) := by cbv
  have hwarnings : (scanning "/x").scanWarnings variableHost = [] := by cbv
  obtain ⟨_, hsame, hplain⟩ := check_again hfirst true
  refine ⟨hfirst, hwarnings ▸ hsame.2 fun path hpath => hplain path hpath ?_ ?_⟩
  · revert path
    decide
  · revert path
    decide

/-- **Not every check is the last one**: the value of a variable is taken for a reference by the second
check, and the directory that is scanned is not the one that the first check gave. -/
theorem check_again_reference :
    let config : Json := .obj [("scan_dir", .str "$A"), ("project_root", .str "/")]
    (check variableHost false config).result = .ok (scanning "/$B", []) ∧
      (check variableHost false (.obj (scanning "/$B").members)).result = .ok (scanning "/x", []) ∧
      (scanning "/$B").scanDir ≠ (scanning "/x").scanDir := by
  refine ⟨?_, ?_, by decide⟩
  · cbv
  · cbv

end Settings

end HeaderAtlas
