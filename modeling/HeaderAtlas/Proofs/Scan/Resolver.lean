import HeaderAtlas.Proofs.Atlas.Facts
import HeaderAtlas.Proofs.Disk.Beneath
import HeaderAtlas.Scan.Resolver
/-!
# What an include can lead to

The directories of a resolver are canonical, so they are clean. If moreover none of them has a link in
it, then every file that is found for a header is reached without a link (`Resolver.of_resolve?`).
A file has a node only if it lies in a root directory, and the path of that node is what is left of the
file's path in the directory it is named from (`Resolver.nodePathFor_eq_some_iff`).
-/

set_option autoImplicit false

namespace HeaderAtlas

namespace Scan

open HeaderAtlas.Path

/-- The directories of a scan are decoded. -/
structure Params.Decoded (p : Params) : Prop where
  scanDir : p.scanDir.Decoded
  includeDirs : ∀ dir ∈ p.includeDirs, dir.Decoded
  rootDirs : ∀ dir ∈ p.rootDirs, dir.Decoded

namespace Resolver

variable {host : Host} {params : Params} {r : Resolver} {header dir file path base : Text} {angled : Bool}

/-! ## Directories -/

/-- All directories of a resolver are clean paths. -/
structure AllClean (r : Resolver) : Prop where
  scanDir : Clean r.scanDir
  includeDirs : ∀ dir ∈ r.includeDirs, Clean dir
  rootDirs : ∀ dir ∈ r.rootDirs, Clean dir

theorem AllClean.searched (h : r.AllClean) : ∀ base ∈ r.scanDir :: r.includeDirs, Clean base := by
  intro base hbase
  rcases List.mem_cons.1 hbase with rfl | hmem
  · exact h.scanDir
  · exact h.includeDirs base hmem

theorem clean_of_canonicalAll {dirs clean : List Text} (hdirs : ∀ dir ∈ dirs, dir.Decoded)
    (h : canonicalAll host dirs = .ok clean) : ∀ dir ∈ clean, Clean dir := by
  induction dirs generalizing clean with
  | nil =>
    obtain rfl := Except.ok.inj h
    simp
  | cons dir rest ih =>
    rw [canonicalAll] at h
    split at h
    · simp at h
    · next first hfirst =>
      obtain ⟨more, hmore, rfl⟩ := Host.exists_of_map_eq_ok h
      have hrest := ih (fun d hd => hdirs d (List.mem_cons_of_mem _ hd)) hmore
      rintro d (_ | ⟨_, hd⟩)
      · exact Host.clean_canonical (hdirs dir List.mem_cons_self) hfirst
      · exact hrest d hd

/-- The directories of a resolver are canonical. -/
theorem of_ofParams_eq_ok (h : ofParams host params = .ok r) : host.canonical params.scanDir = .ok r.scanDir ∧
    canonicalAll host params.includeDirs = .ok r.includeDirs ∧
    canonicalAll host params.rootDirs = .ok r.rootDirs := by
  unfold ofParams at h
  cases hscan : host.canonical params.scanDir with
  | error e => simp [hscan, bind, Except.bind] at h
  | ok scanDir =>
    cases hincludes : canonicalAll host params.includeDirs with
    | error e => simp [hscan, hincludes, bind, Except.bind] at h
    | ok includeDirs =>
      cases hroots : canonicalAll host params.rootDirs with
      | error e => simp [hscan, hincludes, hroots, bind, Except.bind] at h
      | ok rootDirs =>
        simp only [hscan, hincludes, hroots, bind, Except.bind, pure, Except.pure, Except.ok.injEq] at h
        subst h
        exact ⟨rfl, rfl, rfl⟩

theorem allClean_of_ofParams (hp : params.Decoded) (h : ofParams host params = .ok r) : r.AllClean := by
  obtain ⟨hscan, hincludes, hroots⟩ := of_ofParams_eq_ok h
  exact ⟨Host.clean_canonical hp.scanDir hscan, clean_of_canonicalAll hp.includeDirs hincludes,
    clean_of_canonicalAll hp.rootDirs hroots⟩

/-! ## Files -/

theorem mem_probes {base probe : Text} (hheader : header.Decoded) (hdir : dir.Decoded)
    (h : (base, probe) ∈ r.probes header angled dir) :
    base ∈ r.scanDir :: r.includeDirs ∧ probe.Decoded := by
  unfold probes at h
  rcases List.mem_append.1 h with h | h
  · split at h
    · simp at h
    · obtain ⟨rfl, rfl⟩ := Prod.mk.inj (List.mem_singleton.1 h)
      refine ⟨List.mem_cons_self, ?_⟩
      split
      · exact hheader
      · exact decoded_join hdir hheader
  · obtain ⟨base, hbase, heq⟩ := List.mem_map.1 h
    obtain ⟨rfl, rfl⟩ := Prod.mk.inj heq
    exact ⟨List.mem_cons_of_mem _ hbase, hheader⟩

theorem of_probe?_eq_some {base probe : Text} (h : probe? host base probe = some file) :
    host.peel base probe = .ok file ∧ host.isFile file = true := by
  unfold probe? at h
  split at h
  · next peeled hpeel =>
    split at h
    · next hisFile =>
      obtain rfl := Option.some.inj h
      exact ⟨hpeel, hisFile⟩
    · simp at h
  · simp at h

/-- **A file that is found** has every property of the trusted directories that peeling keeps. -/
theorem of_resolve? {Q : Text → Prop} (hQ : host.Peelable Q)
    (hr : ∀ base ∈ r.scanDir :: r.includeDirs, Q base) (hheader : header.Decoded) (hdir : dir.Decoded)
    (h : r.resolve? host header angled dir = some file) : Q file ∧ host.isFile file = true := by
  obtain ⟨⟨base, probe⟩, hprobe, hfile⟩ := List.exists_of_findSome?_eq_some h
  obtain ⟨hbase, hdecoded⟩ := mem_probes hheader hdir hprobe
  obtain ⟨hpeel, hisFile⟩ := of_probe?_eq_some hfile
  exact ⟨hQ.peel (hr base hbase) hdecoded hpeel, hisFile⟩

/-! ## Nodes -/

/-- The directory that a tracked file is named from: the scan directory if the file lies in it, else the
first root directory that the file lies in. -/
inductive NamedFrom (host : Host) (r : Resolver) (file : Text) : Text → Prop
  | scanDir {root : Text} (hmem : root ∈ r.rootDirs) (hroot : contains host.cwdText root file = true)
      (hscan : contains host.cwdText r.scanDir file = true) : NamedFrom host r file r.scanDir
  | rootDir {before after : List Text} {root : Text} (hsplit : r.rootDirs = before ++ root :: after)
      (hbefore : ∀ dir ∈ before, contains host.cwdText dir file = false)
      (hroot : contains host.cwdText root file = true)
      (hscan : contains host.cwdText r.scanDir file = false) : NamedFrom host r file root

theorem namedFrom_iff : r.NamedFrom host file base ↔
    ∃ root, containing? host file r.rootDirs = some root ∧
      (if contains host.cwdText r.scanDir file then r.scanDir else root) = base := by
  constructor
  · rintro (⟨hmem, hroot, hscan⟩ | ⟨hsplit, hbefore, hroot, hscan⟩)
    · have hsome : (containing? host file r.rootDirs).isSome = true :=
        List.find?_isSome.2 ⟨_, hmem, hroot⟩
      obtain ⟨first, hfirst⟩ := Option.isSome_iff_exists.1 hsome
      exact ⟨first, hfirst, if_pos hscan⟩
    · have hfirst : containing? host file r.rootDirs = some base := by
        refine List.find?_eq_some_iff_append.2 ⟨hroot, _, _, hsplit, fun dir hdir => ?_⟩
        rw [hbefore dir hdir]
        rfl
      exact ⟨base, hfirst, if_neg (by simp [hscan])⟩
  · rintro ⟨root, hfind, rfl⟩
    obtain ⟨hroot, before, after, hsplit, hbefore⟩ := List.find?_eq_some_iff_append.1 hfind
    by_cases hscan : contains host.cwdText r.scanDir file = true
    · rw [if_pos hscan]
      exact .scanDir (by rw [hsplit]; simp) hroot hscan
    · rw [if_neg hscan]
      exact .rootDir hsplit (fun dir hdir => by simpa using hbefore dir hdir) hroot (by simpa using hscan)

namespace NamedFrom

/-- A file lies in the directory it is named from. -/
theorem contains (h : r.NamedFrom host file base) : Path.contains host.cwdText base file = true := by
  cases h with
  | scanDir _ _ hscan => exact hscan
  | rootDir _ _ hroot _ => exact hroot

/-- A file that is named from a directory lies in a root directory. -/
theorem tracked (h : r.NamedFrom host file base) :
    ∃ root ∈ r.rootDirs, Path.contains host.cwdText root file = true := by
  cases h with
  | scanDir hmem hroot _ => exact ⟨_, hmem, hroot⟩
  | rootDir hsplit _ hroot _ =>
    have hmem : base ∈ r.rootDirs := by rw [hsplit]; simp
    exact ⟨base, hmem, hroot⟩

end NamedFrom

/-- A file that lies in a directory has the names of the directory and perhaps more. -/
theorem exists_components_eq (hfile : IsNormal file) (h : contains host.cwdText base file = true) :
    ∃ rest, components file = components (host.absolute base) ++ rest := by
  obtain ⟨rest, hrest⟩ := prefix_of_contains h
  rw [absolute_eq_self hfile] at hrest
  exact ⟨rest, hrest.symm⟩

/-- **The path of a file's node** is made of the names that are left in the directory that the file is
named from. -/
theorem nodePathFor_eq_some_iff (hfile : IsNormal file) : r.nodePathFor host file = .ok (some path) ↔
    ∃ base rest, r.NamedFrom host file base ∧ components file = components (host.absolute base) ++ rest ∧
      path = if rest = [] then here else Text.join [slash] rest := by
  have hne : file.isEmpty = false := by
    rw [hfile.eq]
    rcases hfile.anchored with h | h <;> rw [h] <;> rfl
  have hpath : r.nodePathFor host file = .ok (some path) ↔
      ∃ base, r.NamedFrom host file base ∧ relative host.cwdText file base = path := by
    unfold nodePathFor
    simp only [namedFrom_iff, nodePath, hne]
    cases containing? host file r.rootDirs with
    | none => simp
    | some root => simp [Except.map]
  have hrelative : ∀ {base rest}, components file = components (host.absolute base) ++ rest →
      relative host.cwdText file base = if rest = [] then here else Text.join [slash] rest := by
    intro base rest hrest
    apply relative_eq
    rw [absolute_eq_self hfile]
    exact hrest
  rw [hpath]
  constructor
  · rintro ⟨base, hnamed, rfl⟩
    obtain ⟨rest, hrest⟩ := exists_components_eq hfile hnamed.contains
    exact ⟨base, rest, hnamed, hrest, hrelative hrest⟩
  · rintro ⟨base, rest, hnamed, hrest, rfl⟩
    exact ⟨base, hnamed, hrelative hrest⟩

/-- A file that has a node lies in a root directory. -/
theorem exists_root_of_nodePathFor (hr : r.AllClean) (hfile : Clean file)
    (h : r.nodePathFor host file = .ok (some path)) :
    ∃ root ∈ r.rootDirs, components root <+: components file := by
  obtain ⟨base, _, hnamed, _⟩ := (nodePathFor_eq_some_iff hfile.normal).1 h
  obtain ⟨root, hmem, hroot⟩ := hnamed.tracked
  obtain ⟨rest, hrest⟩ := exists_components_eq hfile.normal hroot
  rw [Host.absolute, absolute_eq_self (hr.rootDirs root hmem).normal] at hrest
  exact ⟨root, hmem, rest, hrest.symm⟩

/-- The components of a node's path. The directory itself is named by a dot, which is a name like any
other here. -/
theorem components_names {rest : List Text} (hnames : ∀ n ∈ rest, Proper n) :
    components (if rest = [] then here else Text.join [slash] rest) = if rest = [] then [here] else rest := by
  split
  · decide
  · exact Segments.split_join fun n hn => ⟨(hnames n hn).ne_nil, (hnames n hn).slashless⟩

/-- The path of a node leads somewhere, and is made of its components alone. -/
theorem leads_of_nodePathFor (hfile : Clean file) (h : r.nodePathFor host file = .ok (some path)) :
    Leads path ∧ Text.join [slash] (components path) = path := by
  obtain ⟨base, rest, _, hrest, rfl⟩ := (nodePathFor_eq_some_iff hfile.normal).1 h
  have hnames : ∀ n ∈ rest, Proper n ∧ n.Decoded := by
    intro n hn
    apply hfile.of_mem n
    rw [hrest]
    exact List.mem_append_right _ hn
  rw [Leads, components_names fun n hn => (hnames n hn).1]
  by_cases hne : rest = []
  · rw [if_pos hne, if_pos hne]
    exact ⟨⟨by decide, by decide⟩, by decide⟩
  · rw [if_neg hne, if_neg hne]
    exact ⟨⟨hne, fun n hn => (hnames n hn).2⟩, rfl⟩

/-- **What an include leads to a node by**: a header with a name, and a file that has a node. -/
theorem lead_eq_tracked_iff {d : Source.Directive} :
    r.lead host d dir = .tracked path ↔ d.header.toText ≠ [] ∧
      ∃ file, r.resolve? host d.header.toText d.angled dir = some file ∧
        r.nodePathFor host file = .ok (some path) := by
  unfold lead
  dsimp only
  split
  · next h => simp [List.isEmpty_iff.1 h]
  · next h =>
    have hne : d.header.toText ≠ [] := fun heq => h (List.isEmpty_iff.2 heq)
    split
    · next hnone => simp [hnone]
    · next found hfound =>
      split
      · next p hp => simp [hne, hfound, hp]
      · next hnot =>
        simp only [reduceCtorEq, false_iff]
        rintro ⟨_, file, hfile, hpath⟩
        obtain rfl := Option.some.inj (hfound.symm.trans hfile)
        exact hnot _ hpath

end Resolver

end Scan

end HeaderAtlas
