import HeaderAtlas.Proofs.Atlas.Shape
import HeaderAtlas.Proofs.Settings.Again
import HeaderAtlas.Run
import Mathlib.Data.Option.Basic
/-!
# Strict and lenient checks

What a configuration means does not depend on how it is checked (`Settings.meant`). A lenient check always
finds out what is meant. A strict one gives up where the lenient one warns, and where there is nothing to
warn about the two do the same (`Settings.Checked.Reads`). A warning about a directory that is missing comes
later, from the disk, and is the only one that a strict check gives.

Both kinds go on with what is meant, and in the same way (`Settings.conclude`). Texts without surrogates have
bytes, so their paths can be read, and nothing is left to go wrong with the configuration but the format and the
patterns. The machine may be at fault too (`Settings.Astray`): the working directory may have been removed, and a
machine that keeps accounts may be asked about a user by a name that no user can have.
-/

set_option autoImplicit false

namespace HeaderAtlas

/-! ## Paths that can be read -/

namespace Text

variable {s t : Text}

theorem HasBytes.append (hs : s.HasBytes) (ht : t.HasBytes) : HasBytes (s ++ t) := by
  intro c hc
  rcases List.mem_append.1 hc with hc | hc
  · exact hs c hc
  · exact ht c hc

theorem dropRightWhile_subset (p : CodePoint → Bool) (t : Text) : dropRightWhile p t ⊆ t :=
  (List.rdropWhile_prefix p t).subset

theorem strip_subset (t : Text) : t.strip ⊆ t :=
  List.Subset.trans (dropRightWhile_subset _ _) (List.dropWhile_suffix _).subset

end Text

namespace Host

variable {host : Host} {path : Text}

/-- A variable can be asked about if its name has bytes, whether it is there or not. -/
theorem exists_environment (host : Host) {name : Text} (h : name.HasBytes) :
    ∃ value, host.environment name = .ok value :=
  ⟨_, by rw [environment, h.encode_eq]⟩

theorem hasBytes_of_environment {name value : Text} (h : host.environment name = .ok (some value)) :
    value.HasBytes := by
  unfold environment at h
  split at h
  · simp at h
  · obtain ⟨entry, _, rfl⟩ := Option.map_eq_some_iff.1 (Except.ok.inj h)
    exact (Text.decoded_toText entry.2).hasBytes

/-- A variable is named by part of the text that refers to it. -/
theorem subset_of_reference? {t name : Text} {n : Nat} (h : reference? t = some (name, n)) : name ⊆ t := by
  unfold reference? at h
  split at h
  · simp at h
  · next c rest =>
    dsimp only at h
    split at h
    · -- A name in braces.
      split at h
      · obtain rfl := (Prod.mk.inj (Option.some.inj h)).1
        exact List.Subset.trans (List.takeWhile_prefix _).subset (List.subset_cons_self c rest)
      · simp at h
    · split at h
      · simp at h
      · obtain rfl := (Prod.mk.inj (Option.some.inj h)).1
        exact (List.takeWhile_prefix _).subset

/-- Replacing variables fails only for a name without bytes, and the names are parts of the text. -/
theorem exists_expandVariables (host : Host) {t : Text} (h : t.HasBytes) : ∃ u, host.expandVariables t = .ok u := by
  have hmap : ∀ {x : Except EncodeError Text} {f : Text → Text}, (∃ u, x = .ok u) →
      ∃ u, x.map f = .ok u := by
    rintro x f ⟨u, rfl⟩
    exact ⟨f u, rfl⟩
  fun_induction expandVariables host t with
  | case1 => exact ⟨[], rfl⟩
  | case2 rest _ ih => exact hmap (ih (h.of_subset (List.subset_cons_self _ rest)))
  | case3 rest name n hname e henv =>
    obtain ⟨value, hvalue⟩ := exists_environment host
      (h.of_subset (List.Subset.trans (subset_of_reference? hname) (List.subset_cons_self _ rest)))
    simp [henv] at hvalue
  | case4 rest name n _ value _ ih =>
    exact hmap (ih (h.of_subset (List.Subset.trans (List.drop_subset n rest) (List.subset_cons_self _ rest))))
  | case5 c rest _ ih => exact hmap (ih (h.of_subset (List.subset_cons_self c rest)))

/-- The path begins with the name of a user that nobody can be asked about: the machine keeps accounts, and the name
holds a zero. -/
def Unaskable (host : Host) (path : Text) : Prop :=
  ∃ rest, path.strip = CodePoint.ofChar '~' :: rest ∧ host.accounts.isSome = true ∧
    CodePoint.ofNat 0 ∈ rest.takeWhile (· != Path.slash)

theorem mem_key_of_zero {t : Text} (h : CodePoint.ofNat 0 ∈ t) : 0 ∈ t.key :=
  List.mem_flatMap.2 ⟨_, h, by decide⟩

/-- Whom a machine knows has a home that can be read, and whom it does not know has none. Only a name that is no name
for it is refused. -/
theorem homeOf_cases (host : Host) {name : Text} (h : name.HasBytes) :
    (∃ home?, host.homeOf name = .ok home? ∧ (∀ home ∈ home?, home.HasBytes) ∧
        ¬ (host.accounts.isSome = true ∧ CodePoint.ofNat 0 ∈ name)) ∨
      host.homeOf name = .error .zeroByte ∧ host.accounts.isSome = true ∧ CodePoint.ofNat 0 ∈ name := by
  have hhome : ∀ {found : Option Bytes}, ∀ home ∈ found.map Bytes.toText, home.HasBytes := by
    intro found home hmem
    obtain ⟨bytes, _, rfl⟩ := Option.mem_map.1 hmem
    exact (Text.decoded_toText bytes).hasBytes
  unfold homeOf
  by_cases hempty : name = []
  · subst hempty
    rw [if_pos List.isEmpty_nil]
    split
    · next home henv =>
      refine .inl ⟨some home, rfl, fun t ht => ?_, by simp⟩
      obtain rfl := Option.mem_some.1 ht
      exact hasBytes_of_environment henv
    · exact .inl ⟨_, rfl, hhome, by simp⟩
  · rw [if_neg (by simpa using hempty)]
    cases haccounts : host.accounts with
    | none => exact .inl ⟨none, rfl, by simp, by simp⟩
    | some accounts =>
      dsimp only
      rw [pathBytes, h.encode_eq]
      dsimp only
      by_cases hzero : name.key.contains 0 = true
      · rw [if_pos hzero]
        exact .inr ⟨rfl, rfl, Text.mem_of_mem_key (by decide) (List.contains_iff_mem.1 hzero)⟩
      · rw [if_neg hzero]
        refine .inl ⟨_, rfl, fun home hmem => ?_, fun hboth => hzero ?_⟩
        · obtain ⟨entry, _, rfl⟩ := Option.mem_map.1 hmem
          exact (Text.decoded_toText entry.2).hasBytes
        · simpa using mem_key_of_zero hboth.2

/-- A path that has bytes still has them when the home directory is put into it. -/
theorem expandHome_cases (host : Host) (h : path.HasBytes) :
    (∃ home, host.expandHome path = .ok home ∧ home.HasBytes) ∨
      host.expandHome path = .error .zeroByte ∧ ∃ rest, path = CodePoint.ofChar '~' :: rest ∧
        host.accounts.isSome = true ∧ CodePoint.ofNat 0 ∈ rest.takeWhile (· != Path.slash) := by
  unfold expandHome
  split
  · exact .inl ⟨[], rfl, h⟩
  · next c rest =>
    have hrest : Text.HasBytes rest := h.of_subset (List.subset_cons_self c rest)
    split
    · next hc =>
      rcases host.homeOf_cases (hrest.of_subset (List.takeWhile_prefix (· != Path.slash)).subset) with
        ⟨home?, hhome, hbytes, _⟩ | ⟨hrefused, haccounts, hzero⟩
      · rw [hhome]
        cases home? with
        | none => exact .inl ⟨_, rfl, h⟩
        | some home =>
          refine .inl ⟨_, rfl, ?_⟩
          split
          · exact Text.Decoded.hasBytes (Text.Surrogateless.decoded (by decide))
          · exact ((hbytes home rfl).of_subset (Text.dropRightWhile_subset _ home)).append
              (hrest.of_subset (List.dropWhile_suffix _).subset)
      · rw [hrefused]
        exact .inr ⟨rfl, rest, by rw [hc], haccounts, hzero⟩
    · exact .inl ⟨_, rfl, h⟩

/-- **A path that has bytes** can be read, unless it names a user that nobody can be asked about. -/
theorem normalizePath_cases (host : Host) (h : path.HasBytes) :
    (∃ done, host.normalizePath path host.cwdText = .ok done) ∨
      host.normalizePath path host.cwdText = .error .zeroByte ∧ host.Unaskable path := by
  have hgiven : Text.HasBytes (if path.strip.isEmpty then host.cwdText else path.strip) := by
    split
    · exact (decoded_cwdText host).hasBytes
    · exact h.of_subset (Text.strip_subset path)
  rcases host.expandHome_cases hgiven with ⟨home, hhome, hbytes⟩ | ⟨hrefused, rest, hrest, haccounts, hzero⟩
  · obtain ⟨found, hfound⟩ := exists_expandVariables host hbytes
    exact .inl ⟨_, normalizePath_eq_ok.2 ⟨home, found, hhome, hfound, rfl⟩⟩
  · refine .inr ⟨by rw [normalizePath, hrefused], rest, ?_, haccounts, hzero⟩
    -- The working directory is no path of a user.
    split at hrest
    · exact absurd (List.cons.inj hrest).1 (by decide)
    · exact hrest

theorem normalizePath_of_unaskable (h : path.HasBytes) (hask : host.Unaskable path) :
    host.normalizePath path host.cwdText = .error .zeroByte := by
  obtain ⟨rest, hstrip, haccounts, hzero⟩ := hask
  have hrest : Text.HasBytes rest := by
    have hgiven := h.of_subset (Text.strip_subset path)
    rw [hstrip] at hgiven
    exact hgiven.of_subset (List.subset_cons_self _ rest)
  rcases host.homeOf_cases (hrest.of_subset (List.takeWhile_prefix (· != Path.slash)).subset) with
    ⟨_, _, _, hnot⟩ | ⟨hrefused, _, _⟩
  · exact absurd ⟨haccounts, hzero⟩ hnot
  · rw [normalizePath, hstrip]
    simp [expandHome, hrefused]

end Host

namespace Settings

variable {host : Host} {config : Json}

/-! ## What a configuration means -/

/-- The members of a configuration, which has none if it is no object. -/
def membersOf : Json → Json.Members
  | .obj members => members
  | _ => []

/-- The texts among the items of a list. -/
def textItems : List Json → List Text
  | [] => []
  | .str t :: rest => t :: textItems rest
  | _ :: rest => textItems rest

/-- The text that a member means. One that is missing means the default. -/
def textOf (fallback : Text) : Option Json → Text
  | none => fallback.strip
  | some (.str t) => t.strip
  | some _ => fallback

/-- The yes or no that a member means. -/
def flagOf (key : Text) (fallback : Bool) : Option Json → Bool
  | none => fallback
  | some (.bool b) => b
  | some other => ((convertFlag? key other).map (·.1)).getD fallback

/-- The texts that a member means: those of a list, or those between commas. -/
def textsOf (fallback : List Text) : Option Json → List Text
  | some (.arr items) => stripAll (textItems items)
  | some (.str t) => stripAll (t.splitOn ',')
  | _ => fallback

/-- The text that a member means to the letter. -/
def exactOf (fallback : Text) : Option Json → Text
  | some (.str t) => t
  | _ => fallback

/-- The settings that a configuration means, but for the format and with paths as they are given. No check computes
them, and nothing can go wrong here; they are what a reading turns out to give. -/
def meant (host : Host) (config : Json.Members) : Settings where
  scanDir := textOf host.cwdText (config.get? "scan_dir")
  projectRoot := textOf [] (config.get? "project_root")
  includeDirs := textsOf [] (config.get? "include_dirs")
  rootDirs := textsOf [] (config.get? "root_dirs")
  whitelist := textsOf Scan.everyFile (config.get? "whitelist_wildcards")
  blacklist := textsOf [] (config.get? "blacklist_wildcards")
  sources := textsOf Scan.sourcePatterns (config.get? "cxx_wildcards")
  skipped := textsOf Scan.skippedNames (config.get? "skip_root_dirs")
  markers := textsOf Host.defaultMarkers (config.get? "root_markers")
  reverse := flagOf "create_reverse_dependencies" true (config.get? "create_reverse_dependencies")
  outputPath := textOf [] (config.get? "output_path")
  pretty := flagOf "pretty_print" true (config.get? "pretty_print")
  indent := exactOf "\t" (config.get? "indent")
  others := config.filter fun member => !keys.contains member.1

/-- The format that a configuration means, by name. -/
def meantFormat (config : Json.Members) : Text := textOf Format.json.name (config.get? "output_format")

/-! ## Reading in two ways -/

namespace Checked

/-- A strict and a lenient reading of what means `a`. Either both give it and have nothing to say, or the strict one
gives up and the lenient one warns. -/
inductive Reads {α : Type} (a : α) : Checked α → Checked α → Prop where
  | clean : Reads a (.clean a) (.clean a)
  | warned {c : Complaint} {first : Warning} {more : List Warning} (h : ∀ path, first ≠ .noScanDir path) :
      Reads a (.error c) (.ok (a, first :: more))

variable {α β : Type} {a : α} {b : β} {x y : Checked α} {f g : α → Checked β}

theorem Reads.lenient (h : Reads a x y) : ∃ warnings, y = .ok (a, warnings) := by
  cases h with
  | clean => exact ⟨[], rfl⟩
  | warned _ => exact ⟨_, rfl⟩

/-- Readings one after the other. If the first is warned of, the strict reading gives up there, whatever the second
would say. -/
theorem Reads.andThen (hx : Reads a x y) (hf : Reads b (f a) (g a)) : Reads b (x.andThen f) (y.andThen g) := by
  cases hx with
  | clean => simpa only [clean_andThen] using hf
  | warned h =>
    -- A warning stays, whatever is read after it.
    obtain ⟨warnings, hwarnings⟩ := hf.lenient
    simp only [Checked.andThen, hwarnings, List.cons_append]
    exact .warned h

theorem reads_complain (c : Complaint) (a : α) : Reads a (complain true c a) (complain false c a) :=
  .warned (by simp)

end Checked

open Checked (Reads reads_complain)

/-- One lemma for each kind of member: what a reader gives is what the member means, and it complains in the same
cases whether it is strict or not. -/
theorem reads_readText (key fallback : Text) (value? : Option Json) :
    Reads (textOf fallback value?) (readText true key fallback (value?.getD (.str fallback)))
      (readText false key fallback (value?.getD (.str fallback))) := by
  cases value? with
  | none => exact .clean
  | some value =>
    cases value with
    | null | str t => exact .clean
    | bool _ | int _ | float _ | arr _ | obj _ => exact reads_complain _ _

theorem reads_readExact (key fallback : Text) (value? : Option Json) :
    Reads (exactOf fallback value?) (readExact true key fallback (value?.getD (.str fallback)))
      (readExact false key fallback (value?.getD (.str fallback))) := by
  cases value? with
  | none => exact .clean
  | some value =>
    cases value with
    | str t => exact .clean
    | null | bool _ | int _ | float _ | arr _ | obj _ => exact reads_complain _ _

/-- What is taken for a yes or no is pointed out. -/
theorem convertFlag?_warning {key : Text} {value : Json} {answer : Bool} {w : Warning}
    (h : convertFlag? key value = some (answer, w)) (path : Text) : w ≠ .noScanDir path := by
  rintro rfl
  cases value <;> grind [convertFlag?]

theorem reads_readFlag (key : Text) (fallback : Bool) (value? : Option Json) :
    Reads (flagOf key fallback value?) (readFlag true key fallback (value?.getD (.bool fallback)))
      (readFlag false key fallback (value?.getD (.bool fallback))) := by
  cases value? with
  | none => exact .clean
  | some value =>
    cases value with
    | null | bool _ => exact .clean
    | int _ | float _ | str _ | arr _ | obj _ =>
      simp only [flagOf, readFlag, Option.getD_some, if_true, Bool.false_eq_true, if_false]
      split
      · next answer w hconvert =>
        rw [hconvert]
        exact .warned (convertFlag?_warning hconvert)
      · next hconvert =>
        rw [hconvert]
        exact reads_complain _ _

theorem reads_readItems (key : Text) (index : Nat) (items : List Json) :
    Reads (stripAll (textItems items)) (readItems true key index items) (readItems false key index items) := by
  induction items generalizing index with
  | nil => exact .clean
  | cons item rest ih =>
    cases item with
    | str t =>
      rw [textItems, stripAll_cons, readItems, readItems]
      exact (ih (index + 1)).andThen .clean
    | null | bool _ | int _ | float _ | arr _ | obj _ =>
      exact (reads_complain (.item key index) ()).andThen (ih (index + 1))

theorem reads_readTexts (key : Text) {fallback : List Text} (hfallback : Trimmed fallback)
    (value? : Option Json) :
    Reads (textsOf fallback value?) (readTexts true key fallback (value?.getD (textsValue fallback)))
      (readTexts false key fallback (value?.getD (textsValue fallback))) := by
  cases value? with
  | none =>
    rw [Option.getD_none, readTexts_textsValue, readTexts_textsValue, stripAll_eq_self hfallback]
    exact .clean
  | some value =>
    cases value with
    | null => exact .clean
    | arr items => exact reads_readItems key 0 items
    | str t => exact .warned (by simp)
    | bool _ | int _ | float _ | obj _ => exact reads_complain _ _

/-- **The fields of a configuration** are read as what they mean. -/
theorem reads_readFields (host : Host) (config : Json.Members) :
    Reads (meant host config, meantFormat config) (readFields host true config)
      (readFields host false config) := by
  have hinitial := read_initial host
  have hnil : Trimmed [] := by simp [Trimmed]
  unfold readFields
  iterate 4 refine (reads_readText _ _ _).andThen ?_
  iterate 2 refine (reads_readFlag _ _ _).andThen ?_
  iterate 2 refine (reads_readTexts _ hnil _).andThen ?_
  refine (reads_readTexts _ hinitial.whitelist _).andThen ?_
  refine (reads_readTexts _ hinitial.blacklist _).andThen ?_
  refine (reads_readTexts _ hinitial.sources _).andThen ?_
  refine (reads_readTexts _ hinitial.skipped _).andThen ?_
  refine (reads_readTexts _ hinitial.markers _).andThen ?_
  exact (reads_readExact _ _ _).andThen .clean

theorem reads_readMembers (config : Json) :
    Reads (membersOf config) (readMembers true config) (readMembers false config) := by
  cases config with
  | obj members => exact .clean
  | null | bool _ | int _ | float _ | str _ | arr _ => exact reads_complain _ _

/-- **A configuration** is read as what it means. -/
theorem reads_config (host : Host) (config : Json) :
    Reads (meant host (membersOf config), meantFormat (membersOf config))
      ((readMembers true config).andThen (readFields host true))
      ((readMembers false config).andThen (readFields host false)) :=
  (reads_readMembers config).andThen (reads_readFields host _)

/-! ## What follows the reading -/

/-- What a check makes of settings that have been read and of the name of their format. It does not know whether the
check is strict. -/
def conclude (host : Host) (s : Settings) (name : Text) : Except Refusal Settings :=
  match Format.ofName? name with
  | none => .error (.format name)
  | some format =>
    match Wildcard.checkAll s.patterns with
    | .error e => .error (.pattern e)
    | .ok _ => (locate host { s with format := format }).mapError .path

/-- A check is its reading and its conclusion, with the warnings of both. -/
theorem result_check {strict : Bool} {s : Settings} {name : Text} {warnings : List Warning}
    (hstranded : host.stranded = false)
    (h : (readMembers strict config).andThen (readFields host strict) = .ok ((s, name), warnings)) :
    (check host strict config).result =
      (conclude host s name).map fun done => (done, warnings ++ done.scanWarnings host) := by
  unfold check conclude
  rw [if_neg (by simp [hstranded]), h]
  dsimp only
  cases Format.ofName? name with
  | none => rfl
  | some format =>
    cases Wildcard.checkAll s.patterns with
    | error e => rfl
    | ok _ => exact result_checkPaths host _ warnings

theorem map_eq_error {ε α β : Type} {x : Except ε α} {f : α → β} {e : ε} :
    x.map f = .error e ↔ x = .error e := by
  cases x <;> simp [Except.map]

theorem result_check_of_error {strict : Bool} {c : Complaint} (hstranded : host.stranded = false)
    (h : (readMembers strict config).andThen (readFields host strict) = .error c) :
    (check host strict config).result = .error (.complaint c) := by
  rw [check, if_neg (by simp [hstranded]), h]

/-- Nothing is checked where there is no working directory. -/
theorem result_check_of_stranded {strict : Bool} (h : host.stranded = true) :
    (check host strict config).result = .error (.path Host.noWorkingDirectory) := by
  rw [check, if_pos h]

/-- Texts without surrogates mean texts that have bytes. -/
theorem hasBytes_textOf {fallback : Text} (hfallback : fallback.HasBytes) {value? : Option Json}
    (h : ∀ value, value? = some value → value.Surrogateless) : (textOf fallback value?).HasBytes := by
  unfold textOf
  split
  · exact hfallback.of_subset (Text.strip_subset _)
  · next t =>
    have ht : t.Surrogateless := h _ rfl t List.mem_cons_self
    exact ht.decoded.hasBytes.of_subset (Text.strip_subset t)
  · exact hfallback

theorem mem_textItems {items : List Json} {t : Text} (h : t ∈ textItems items) : .str t ∈ items := by
  fun_induction textItems items with
  | case1 => simp at h
  | case2 u rest ih =>
    rcases List.mem_cons.1 h with rfl | h
    · exact List.mem_cons_self
    · exact List.mem_cons_of_mem _ (ih h)
  | case3 item rest _ ih => exact List.mem_cons_of_mem _ (ih h)

theorem surrogateless_of_mem_stripAll {ts : List Text} (h : ∀ t ∈ ts, t.Surrogateless) {t : Text}
    (ht : t ∈ stripAll ts) : t.Surrogateless := by
  obtain ⟨given, hgiven, rfl⟩ := List.mem_map.1 (List.mem_filter.1 ht).1
  exact (h given hgiven).of_subset (Text.strip_subset given)

theorem hasBytes_textsOf {value? : Option Json} (h : ∀ value, value? = some value → value.Surrogateless) :
    ∀ t ∈ textsOf [] value?, t.HasBytes := by
  intro t ht
  unfold textsOf at ht
  split at ht
  · next items =>
    have hitems : ∀ u ∈ textItems items, u.Surrogateless := fun u hu =>
      (h _ rfl).item (mem_textItems hu) u List.mem_cons_self
    exact (surrogateless_of_mem_stripAll hitems ht).decoded.hasBytes
  · next given =>
    have hgiven : given.Surrogateless := h _ rfl given List.mem_cons_self
    have hparts : ∀ u ∈ given.splitOn (CodePoint.ofChar ','), u.Surrogateless := fun u hu =>
      hgiven.of_subset (subset_of_mem_splitList hu)
    exact (surrogateless_of_mem_stripAll hparts ht).decoded.hasBytes
  · simp at ht

theorem surrogateless_get?_membersOf (h : config.Surrogateless) (key : Text) (value : Json)
    (hvalue : (membersOf config).get? key = some value) : value.Surrogateless := by
  cases config with
  | obj members => exact h.get? hvalue
  | null | bool _ | int _ | float _ | str _ | arr _ => cases hvalue

/-- The paths that such a configuration means have bytes. -/
theorem hasBytes_meant (host : Host) (h : config.Surrogateless) :
    ∀ path ∈ (meant host (membersOf config)).paths, path.HasBytes := by
  have hnil : Text.HasBytes [] := by simp [Text.HasBytes]
  have hget := surrogateless_get?_membersOf h
  intro path hpath
  simp only [paths, meant, List.mem_cons, List.mem_append] at hpath
  rcases hpath with rfl | rfl | ((hpath | hpath) | hpath)
  · exact hasBytes_textOf (Host.decoded_cwdText host).hasBytes (hget _)
  · exact hasBytes_textOf hnil (hget _)
  · exact hasBytes_textsOf (hget _) path hpath
  · exact hasBytes_textsOf (hget _) path hpath
  · obtain rfl := List.mem_singleton.1 (List.mem_ite_nil_left.1 hpath).2
    exact hasBytes_textOf hnil (hget _)

/-! ## What is no matter of the configuration -/

/-- What can be wrong with the machine, as far as the paths of settings go: there is no working directory, or else it
keeps accounts and cannot be asked about a user that one of the paths names. -/
inductive Astray (host : Host) (paths : List Text) : PathError → Prop
  | stranded (h : host.stranded = true) : Astray host paths Host.noWorkingDirectory
  | unaskable {path : Text} (h : host.stranded = false) (hpath : path ∈ paths) (hask : host.Unaskable path) :
    Astray host paths .zeroByte

/-- A machine that has a working directory and keeps no accounts is never at fault. -/
theorem not_astray {paths : List Text} (hstranded : host.stranded = false) (haccounts : host.accounts = none)
    (p : PathError) : ¬ Astray host paths p := by
  rintro (hs | ⟨_, _, _, _, hsome, _⟩)
  · simp [hstranded] at hs
  · simp [haccounts] at hsome

theorem absoluteAll_eq_error {ts : List Text} {e : PathError} (h : absoluteAll host ts = .error e) :
    ∃ t ∈ ts, host.normalizePath t host.cwdText = .error e := by
  induction ts with
  | nil => simp [absoluteAll] at h
  | cons t ts ih =>
    rw [absoluteAll] at h
    cases hfirst : host.normalizePath t host.cwdText with
    | error e' =>
      rw [hfirst] at h
      exact ⟨t, List.mem_cons_self, by rw [hfirst, Except.error.inj h]⟩
    | ok first =>
      rw [hfirst] at h
      obtain ⟨u, hu, herror⟩ := ih (map_eq_error.1 h)
      exact ⟨u, List.mem_cons_of_mem _ hu, herror⟩

/-- A computation fails in its first step or in what follows it. -/
theorem bind_eq_error {ε α β : Type} {x : Except ε α} {f : α → Except ε β} {e : ε} :
    x >>= f = .error e ↔ x = .error e ∨ ∃ a, x = .ok a ∧ f a = .error e := by
  cases x with
  | error e' => simp [bind, Except.bind]
  | ok a => simp [bind, Except.bind]

/-- Where paths cannot be made absolute, it is one of them that cannot be read. -/
theorem locate_eq_error {s : Settings} {e : PathError} (h : s.locate host = .error e) :
    ∃ path ∈ s.paths, host.normalizePath path host.cwdText = .error e := by
  simp only [locate, bind_eq_error, pure, Except.pure, reduceCtorEq, and_false, exists_false, or_false] at h
  rcases h with hscan | ⟨scanDir, _, hroot | ⟨_, _, hinclude | ⟨_, _, hroots | ⟨_, _, houtput⟩⟩⟩⟩
  · exact ⟨s.scanDir, by simp [paths], hscan⟩
  · unfold rootDir at hroot
    split at hroot
    · simp at hroot
    · exact ⟨s.projectRoot, by simp [paths], hroot⟩
  · obtain ⟨t, ht, herror⟩ := absoluteAll_eq_error hinclude
    exact ⟨t, by simp [paths, ht], herror⟩
  · obtain ⟨t, ht, herror⟩ := absoluteAll_eq_error hroots
    exact ⟨t, by simp [paths, ht], herror⟩
  · unfold outputFile at houtput
    split at houtput
    · simp at houtput
    · next hempty => exact ⟨s.outputPath, by simp [paths, hempty], houtput⟩

/-- Where paths can be made absolute, each of them can be read. One that is left out need not be. -/
theorem exists_normalizePath_of_locate {s done : Settings} (h : s.locate host = .ok done) {path : Text}
    (hpath : path ∈ s.paths) : path = [] ∨ ∃ t, host.normalizePath path host.cwdText = .ok t := by
  obtain ⟨scanDir, root, includeDirs, rootDirs, outputPath, hscan, hroot, hinclude, hroots, houtput, _⟩ :=
    locate_eq_ok.1 h
  have hof : ∀ {ts us : List Text}, absoluteAll host ts = .ok us → ∀ t ∈ ts,
      ∃ u, host.normalizePath t host.cwdText = .ok u := by
    intro ts us hall t ht
    have hpairs := (absoluteAll_eq_ok.1 hall).imp (S := fun t _ =>
      (∃ u, host.normalizePath t host.cwdText = .ok u) ∧ True) fun t u htu => ⟨⟨u, htu⟩, trivial⟩
    exact ((List.forall₂_and_left _ _).1 hpairs).1 t ht
  simp only [paths, List.mem_cons, List.mem_append] at hpath
  rcases hpath with rfl | rfl | ((hpath | hpath) | hpath)
  · exact .inr ⟨scanDir, hscan⟩
  · unfold rootDir at hroot
    split at hroot
    · next hempty => exact .inl (by simpa using hempty)
    · exact .inr ⟨root, hroot⟩
  · exact .inr (hof hinclude path hpath)
  · exact .inr (hof hroots path hpath)
  · obtain ⟨hempty, hpath⟩ := List.mem_ite_nil_left.1 hpath
    obtain rfl := List.mem_singleton.1 hpath
    rw [outputFile, if_neg hempty] at houtput
    exact .inr ⟨outputPath, houtput⟩

/-- **Paths that have bytes** can be made absolute exactly if there is nobody to be asked about in vain. -/
theorem locate_cases (host : Host) {s : Settings} (h : ∀ path ∈ s.paths, path.HasBytes) :
    (∃ done, s.locate host = .ok done) ∧ (∀ path ∈ s.paths, ¬ host.Unaskable path) ∨
      s.locate host = .error .zeroByte ∧ ∃ path ∈ s.paths, host.Unaskable path := by
  cases hlocate : s.locate host with
  | error e =>
    obtain ⟨path, hpath, herror⟩ := locate_eq_error hlocate
    rcases host.normalizePath_cases (h path hpath) with ⟨done, hdone⟩ | ⟨hzero, hask⟩
    · simp [hdone] at herror
    · obtain rfl := Except.error.inj (hzero.symm.trans herror)
      exact .inr ⟨rfl, path, hpath, hask⟩
  | ok done =>
    refine .inl ⟨⟨done, rfl⟩, fun path hpath hask => ?_⟩
    rcases exists_normalizePath_of_locate hlocate hpath with rfl | ⟨t, ht⟩
    · obtain ⟨rest, hrest, _⟩ := hask
      rw [show Text.strip [] = [] from rfl] at hrest
      cases hrest
    · simp [Host.normalizePath_of_unaskable (h path hpath) hask] at ht

/-- What can be wrong with settings whose paths have bytes is a matter of their configuration, or else of users that
their paths name. -/
theorem of_conclude_eq_error {s : Settings} (hstranded : host.stranded = false)
    (h : ∀ path ∈ s.paths, path.HasBytes) {name : Text} {e : Refusal} (he : conclude host s name = .error e) :
    (Run.Problem.settings e).kind? = some .configuration ∨ ∃ p, e = .path p ∧ Astray host s.paths p := by
  unfold conclude at he
  split at he
  · obtain rfl := Except.error.inj he
    exact .inl rfl
  · next format _ =>
    split at he
    · obtain rfl := Except.error.inj he
      exact .inl rfl
    · rcases locate_cases host (s := { s with format := format }) h with
        ⟨⟨done, hdone⟩, _⟩ | ⟨hzero, path, hpath, hask⟩
      · rw [hdone] at he
        cases he
      · rw [hzero] at he
        obtain rfl := Except.error.inj he
        exact .inr ⟨.zeroByte, rfl, .unaskable hstranded hpath hask⟩

/-! ## The two checks -/

theorem mem_scanWarnings {s : Settings} {w : Warning} (h : w ∈ s.scanWarnings host) :
    ∃ path, w = .noScanDir path := by
  unfold scanWarnings at h
  split at h
  · simp at h
  · exact ⟨s.scanDir, List.mem_singleton.1 h⟩

end Settings

end HeaderAtlas
