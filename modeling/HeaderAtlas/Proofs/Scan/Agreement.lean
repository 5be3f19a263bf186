import HeaderAtlas.Proofs.Disk.Canonical
import HeaderAtlas.Proofs.Scan.Failure
/-!
# Walks and includes name files alike

A file gets a node from the walk, by the names that lead to it from the scan directory, and from an include, by what
is left of its path in the canonical scan directory. If both directories are the same place, the names are the same:
what an include finds below that place has been reached by the walk (`reached_of_includes`). So a scan makes no node
that the walk does not come to (`run_empty_mirrors`).

## Where the conditions come from

An include could lead to a node that the walk does not make in four ways, and each condition closes one. The file lies
in a root directory outside the scan directory: so the root directories must lie inside. The walk left it out: so
nothing may be skipped. It was found through a link, and has another name there: so the search directories must have
no links in them, and then neither has a header that is found. And the scan directory of the includes is not that of
the walk. The walk takes the directory as it was given and lets the disk follow its links; the includes take its
canonical path. The two agree if no link on the way lies too deep (`Host.canonical_eq`).

## The last condition is needed

A link lies too deep if its own path is longer than a path can be. A look-up meets it component by component and never
needs that path, so it follows it. Making a path canonical does need it: the question whether it is a link fails, and
the link is taken for something else. `deepHost` is a disk on which the two come to different directories, and
`run_empty_ghost` a scan of it with a node that no file of the walk has. The names on that disk are as long as names
can be, since it takes 4096 bytes to make a path too long; nothing about it is evaluated but its short parts.
-/

set_option autoImplicit false

namespace HeaderAtlas

open HeaderAtlas.Path

namespace Scan

variable {host : Host} {p : Params} {r : Resolver} {top : Entries} {dir : List Text} {name : Bytes}
  {target : Text}

/-! ## What lies below the scan directory -/

/-- What is not a directory and lies below some entries is an entry of a directory that is opened from them. By
induction on the place: every directory on the way is one that the walk opens, since it opens all. -/
theorem exists_opens_of_at? {access : Access} {names : List Bytes} {e : Entry} (he : e.isDirectory = false)
    (h : (Entry.directory top access).at? names = some e) : ∃ dir name within,
      names = dir ++ [name] ∧ Opens top (dir.map Bytes.toText) within ∧ (name, e) ∈ within := by
  induction names generalizing top access with
  | nil =>
    rw [← Option.some.inj h] at he
    simp [Entry.isDirectory] at he
  | cons n names ih =>
    obtain ⟨below, hbelow, hrest⟩ := Option.bind_eq_some_iff.1 h
    have hmem := Entry.mem_of_find? hbelow
    by_cases hnil : names = []
    · subst hnil
      obtain rfl := Option.some.inj hrest
      exact ⟨[], n, top, rfl, .here, hmem⟩
    -- More names follow, so what is here has to be a directory, and the walk opens it.
    · obtain ⟨first, more, rfl⟩ := List.exists_cons_of_ne_nil hnil
      cases below with
      | directory inner access =>
        obtain ⟨dir, name, within, hnames, hopens, hwithin⟩ := ih hrest
        exact ⟨n :: dir, name, within, by rw [hnames]; rfl, .inside hmem hopens, hwithin⟩
      | file => simp [Entry.at?, Entry.child?] at hrest
      | pipe => simp [Entry.at?, Entry.child?] at hrest
      | link => simp [Entry.at?, Entry.child?] at hrest
      | device => simp [Entry.at?, Entry.child?] at hrest

/-- A file is named from the scan directory if the root directories lie in it. The other case is for files in a root
directory but outside the scan directory, and there are none. -/
theorem Resolver.NamedFrom.eq_scanDir {file base : Text} (h : r.NamedFrom host file base)
    (hroots : ∀ root ∈ r.rootDirs, Path.contains host.cwdText r.scanDir root = true) : base = r.scanDir := by
  cases h with
  | scanDir _ _ _ => rfl
  | rootDir hsplit _ hroot hscan =>
    have hmem : base ∈ r.rootDirs := by rw [hsplit]; simp
    rw [contains_trans (hroots base hmem) hroot] at hscan
    simp at hscan

/-- **What is included has been reached**, if the canonical scan directory is where the walk starts, no
search directory has a link in it, and nothing is skipped. -/
theorem reached_of_includes {q : List Bytes} (hclean : r.AllClean)
    (hq : ∀ n ∈ q, Disk.IsName n) (hscan : r.scanDir = Host.placeText q)
    {access : Access} (htop : host.disk.at? q = some (.directory top access))
    (hroots : ∀ root ∈ r.rootDirs, Path.contains host.cwdText r.scanDir root = true)
    (hfree : ∀ base ∈ r.scanDir :: r.includeDirs, host.Linkless base) (hskip : p.skipped = [])
    (h : Includes host p r top dir name target) :
    ∃ dir name e, Reached p top dir name e ∧ e.isFile = true ∧ components target = dir ++ [name.toText] := by
  obtain ⟨contents, d, hparses, _, _, file, hfile, hpath⟩ := h
  obtain ⟨hlinkFree, hisFile⟩ := Resolver.of_resolve? (Host.peelable_linkFree host)
    (fun base hbase => ⟨hclean.searched base hbase, hfree base hbase⟩) (Text.decoded_toText d.header)
    (Text.Decoded.join (by decide) fun n hn => hparses.decoded n (List.mem_append_left _ hn)) hfile
  have hnormal := hlinkFree.normal
  obtain ⟨base, rest, hnamed, hrest, rfl⟩ := (Resolver.nodePathFor_eq_some_iff hnormal).1 hpath
  -- The names of the file are those of the scan directory and those of its node.
  rw [hnamed.eq_scanDir hroots, hscan, Host.absolute, absolute_eq_self (Host.clean_placeText hq).normal,
    Host.components_placeText hq] at hrest
  obtain ⟨contents', access', hat⟩ : ∃ contents access,
      host.disk.at? ((components file).map Text.key) = some (.file contents access) := by
    rw [hnormal.eq] at hisFile
    exact Host.at?_of_isFile hnormal.anchored hlinkFree.of_mem hlinkFree.free hisFile
  -- The file lies at a place; its first names lead to where the walk starts, and the rest of them go down from there.
  rw [hrest, List.map_append, Host.map_key_map_toText] at hat
  unfold Disk.at? at hat htop
  rw [Entry.at?_append, htop] at hat
  obtain ⟨dir', name', within, hnames, hopens, hmem⟩ := exists_opens_of_at? rfl hat
  have hproper : ∀ n ∈ rest, Proper n ∧ n.Decoded := by
    intro n hn
    refine hlinkFree.of_mem n ?_
    rw [hrest]
    exact List.mem_append_right _ hn
  -- The names of the node are texts, those on the disk bytes. A text that was decoded is decoded from what it is
  -- encoded to.
  have hdecode : rest = dir'.map Bytes.toText ++ [name'.toText] := by
    have htexts : rest.map (Bytes.toText ∘ Text.key) = rest :=
      List.map_congr_left (fun n hn => (hproper n hn).2.toText_key) |>.trans (List.map_id _)
    rw [← htexts, ← List.map_map, hnames, List.map_append]
    rfl
  refine ⟨dir'.map Bytes.toText, name', _, ⟨⟨within, hopens, hmem⟩, by simp [hskip]⟩, rfl, ?_⟩
  have hne : rest ≠ [] := by simp [hdecode]
  rw [Resolver.components_names fun n hn => (hproper n hn).1, if_neg hne, hdecode]

/-! ## Scans -/

/-- An atlas of the entries that are reached and of nothing else: its nodes are the root and those of the entries,
and whatever is included is a file among them. The first field holds in both directions, so no entry is left out
either. -/
structure Mirrors (host : Host) (p : Params) (r : Resolver) (top : Entries) (a : Atlas) : Prop where
  paths : ∀ path, path ∈ a.paths ↔ path = [] ∨
    ∃ dir name e, Reached p top dir name e ∧ Text.join [slash] (dir ++ [name.toText]) = path
  includes : ∀ dir name target, Includes host p r top dir name target →
    ∃ dir name e, Reached p top dir name e ∧ e.isFile = true ∧ Text.join [slash] (dir ++ [name.toText]) = target
  dependencies : ∀ source target, (source, target) ∈ a.dependencyPairs →
    ∃ dir name e, Reached p top dir name e ∧ e.isFile = true ∧ Text.join [slash] (dir ++ [name.toText]) = target

/-- **No include makes a node that the walk does not make**, if nothing is skipped, the root directories lie
in the scan directory, the search directories have no links in them, and no link on the way to the scan
directory lies too deep. -/
theorem run_empty_mirrors {stats : Stats} (hhost : host.Sound) (hp : p.Decoded)
    (hrun : (run host p Atlas.empty).result = .ok stats) (hr : Resolver.ofParams host p = .ok r)
    (hskip : p.skipped = [])
    (hroots : ∀ root ∈ r.rootDirs, Path.contains host.cwdText r.scanDir root = true)
    (hfree : ∀ base ∈ r.includeDirs, host.Linkless base)
    (hshort : ∀ link, host.Crosses p.scanDir link → Host.Short link) :
    ∃ top, host.list (host.absolute p.scanDir) = .ok top ∧
      Mirrors host p r top (run host p Atlas.empty).atlas := by
  obtain ⟨r', top, hr', hclean, htop, hwf, hholds⟩ := run_empty_holds hp hrun
  obtain rfl := Except.ok.inj (hr.symm.trans hr')
  obtain ⟨q, access, hentry, _⟩ := Host.list_eq_ok.1 htop
  obtain ⟨met, hroute⟩ := Host.route_of_entry hp.scanDir hentry
  have hplain := hroute.plain .root
  have hcanonical := (Resolver.of_ofParams_eq_ok hr).1
  -- Here the condition on links is used: the place that the walk lists has the canonical path for its path.
  have hscan : r.scanDir = Host.placeText q :=
    Except.ok.inj (hcanonical.symm.trans
      (Host.canonical_eq hhost hp.scanDir (Host.isAdrift_of_canonical hcanonical) hshort hentry))
  have hsearched : ∀ base ∈ r.scanDir :: r.includeDirs, host.Linkless base :=
    List.forall_mem_cons.2 ⟨hscan ▸ Host.linkless_placeText hhost.disk hplain, hfree⟩
  have hreached : ∀ {dir name target}, Includes host p r top dir name target → ∃ dir name e,
      Reached p top dir name e ∧ e.isFile = true ∧ components target = dir ++ [name.toText] := fun h =>
    reached_of_includes hclean (hplain.isName hhost.disk) hscan (Host.at?_of_entry hentry) hroots hsearched
      hskip h
  have hjoined : ∀ {dir name target}, Includes host p r top dir name target → ∃ dir name e,
      Reached p top dir name e ∧ e.isFile = true ∧ Text.join [slash] (dir ++ [name.toText]) = target := by
    intro dir name target h
    obtain ⟨dir', name', e, hreach, hisFile, hcomponents⟩ := hreached h
    exact ⟨dir', name', e, hreach, hisFile, hcomponents ▸ (leads_of_includes hclean h).2⟩
  refine ⟨top, htop, fun path => ?_, fun _ _ _ => hjoined, fun source target h => ?_⟩
  · simp only [Atlas.mem_paths, hholds, grants_node_iff, Request.node.injEq]
    constructor
    · rintro ⟨names, rfl | ⟨hne, ⟨dir, name, e, hreach, rfl⟩ | ⟨dir, name, target, hincludes, hpre⟩⟩, rfl⟩
      · exact .inl rfl
      · exact .inr ⟨dir, name, e, hreach, rfl⟩
      · obtain ⟨dir', name', e, hreach, _, hcomponents⟩ := hreached hincludes
        -- A node may be there only because it is on the way to an included file; then the walk has been through it
        -- too.
        rw [hcomponents] at hpre
        obtain ⟨dir', name', e, hreach, rfl⟩ := hreach.of_initial hne hpre
        exact .inr ⟨dir', name', e, hreach, rfl⟩
    · rintro (rfl | ⟨dir, name, e, hreach, rfl⟩)
      · exact ⟨[], .inl rfl, rfl⟩
      · exact ⟨_, .inr ⟨by simp, .inl ⟨dir, name, e, hreach, rfl⟩⟩, rfl⟩
  · simp only [Atlas.mem_edgePairs hwf, hholds, grants_dependency_iff, reduceCtorEq, false_or] at h
    obtain ⟨_, _, ⟨dir, name, path, hincludes, rfl, rfl⟩, heq⟩ := h
    obtain ⟨_, rfl⟩ := Prod.mk.inj heq
    obtain ⟨dir', name', e, hreach, hisFile, hpath⟩ := hjoined hincludes
    exact ⟨dir', name', e, hreach, hisFile, hpath.trans (leads_of_includes hclean hincludes).2.symm⟩

/-- Scans the directory `s` with its own files as headers. There is one root directory, the scan directory itself, and
nothing is skipped, so both scans below are ones in which all conditions but the last are met. -/
def ownParams : Params where
  scanDir := "/s"
  projectRoot := "/s"
  includeDirs := []
  rootDirs := ["/s"]
  sources := ["*"]
  skipped := []

/-- A link `s` to a directory, where one file includes another through the link. The include leaves the scan directory
by its parent and comes back by the link, so its text says nothing about where it leads. -/
def linkedHost : Host where
  disk := ⟨.directory [(Text.key "s", .link (Text.key "t") .full), (Text.key "t", .directory
    [(Text.key "a", .file (Text.key "#include\"../s/b\"") .full),
      (Text.key "b", .file [] .full)] .full)] .full⟩
  cwd := []
  env := []

/-- A scan of a directory by a link to it. -/
theorem run_empty_mirrors_linked :
    (run linkedHost ownParams Atlas.empty).result = .ok ⟨1, 2, 2, 1, 0⟩ ∧
      ∃ r top, Resolver.ofParams linkedHost ownParams = .ok r ∧
        linkedHost.list (linkedHost.absolute ownParams.scanDir) = .ok top ∧
        Mirrors linkedHost ownParams r top (run linkedHost ownParams Atlas.empty).atlas := by
  have hsound : linkedHost.Sound := ⟨Entry.sound_of_isSound _ (by decide), by simp [linkedHost]⟩
  have hrun : (run linkedHost ownParams Atlas.empty).result = .ok ⟨1, 2, 2, 1, 0⟩ := by cbv
  have hr : Resolver.ofParams linkedHost ownParams = .ok ⟨"/t", [], ["/t"]⟩ := by cbv
  -- The only link on the way is `s` itself.
  have hs : linkedHost.disk.Holds [] (Text.key "s") (.link (Text.key "t") .full) :=
    ⟨⟨by decide, by decide⟩, ⟨_, ⟨_, rfl, rfl⟩, rfl⟩, by decide⟩
  have ht : linkedHost.disk.Holds [] (Text.key "t") (.directory _ .full) :=
    ⟨⟨by decide, by decide⟩, ⟨_, ⟨_, rfl, rfl⟩, rfl⟩, by decide⟩
  have hroute : linkedHost.disk.Route [] [Text.key "s"] [[Text.key "s"]] [Text.key "t"] :=
    .link hs rfl (.down ht rfl .here) .here
  have hshort : ∀ link, linkedHost.Crosses ownParams.scanDir link → Host.Short link := by
    rintro link ⟨met, q, hmet, hlink⟩
    obtain ⟨rfl, rfl⟩ := hmet.unique hroute
    obtain rfl := List.mem_singleton.1 hlink
    decide
  obtain ⟨top, htop, hmirrors⟩ := run_empty_mirrors hsound ⟨by decide, by decide, by decide⟩ hrun hr rfl
    (by decide) (by simp) hshort
  exact ⟨hrun, _, top, hr, htop, hmirrors⟩

/-! ## A link that lies too deep -/

/-- A directory inside directories, one for each name, with nothing beside them. -/
def nested : List Bytes → Entry → Entry
  | [], inside => inside
  | name :: names, inside => .directory [(name, nested names inside)] .full

/-- The way down is plain, and ends where it should. By induction on the names: at each of them there is a directory
with one entry. -/
theorem plain_nested {disk : Disk} {place names : List Bytes} {inside : Entry} (hplain : disk.Plain place)
    (hat : disk.at? place = some (nested names inside))
    (hnames : ∀ n ∈ names, Disk.Downward n ∧ n.length ≤ Disk.maxName) (hinside : inside.isLink = false) :
    disk.Plain (place ++ names) ∧ disk.at? (place ++ names) = some inside := by
  induction names generalizing place with
  | nil => simpa using ⟨hplain, hat⟩
  | cons n names ih =>
    obtain ⟨hdown, hshort⟩ := hnames n List.mem_cons_self
    have hholds : disk.Holds place n (nested names inside) :=
      ⟨hdown, ⟨_, ⟨_, hat, rfl⟩, by simp [Entry.find?]⟩, hshort⟩
    have hlink : (nested names inside).isLink = false := by
      cases names with
      | nil => exact hinside
      | cons => rfl
    rw [List.append_cons]
    exact ih (hplain.down hholds hlink) hholds.at? fun m hm => hnames m (List.mem_cons_of_mem _ hm)

/-- The bytes of the path from the root by some names. The targets of the links below are given in this form, and
`pathNames_rooted` takes them apart again without evaluating them. -/
def rooted (names : List Bytes) : Bytes := names.flatMap (Disk.slashByte :: ·)

/-- A target made of names has those names. A slash between two of them is needed, and the first part of the target is
empty. -/
theorem pathNames_rooted {names : List Bytes} (h : ∀ n ∈ names, n ≠ [] ∧ Disk.slashByte ∉ n) :
    Disk.pathNames (rooted names) = names := by
  induction names with
  | nil => rfl
  | cons n names ih =>
    obtain ⟨hne, hfree⟩ := h n List.mem_cons_self
    have hrest := ih fun m hm => h m (List.mem_cons_of_mem _ hm)
    rw [rooted, List.flatMap_cons, List.cons_append, Disk.pathNames_cons]
    -- The slash that the path begins with has no name before it.
    change Disk.pathNames (n ++ rooted names) = n :: names
    cases names with
    | nil =>
      rw [rooted, List.flatMap_nil, List.append_nil]
      exact Disk.pathNames_free hne hfree
    | cons m names =>
      rw [rooted, List.flatMap_cons, List.cons_append] at hrest ⊢
      rw [Disk.pathNames_append, Disk.pathNames_free hne hfree, ← Disk.pathNames_cons, hrest]
      rfl

/-- The longest name of one letter. Fifteen of these are in the way of any evaluation, so what is used of them is
their length and their letter, through the lemmas below. -/
def longName (letter : UInt8) : Bytes := List.replicate Disk.maxName letter

theorem length_longName (letter : UInt8) : (longName letter).length = Disk.maxName := List.length_replicate

/-- A name of 255 bytes is not one of the two names that do not lead down, by its length. -/
theorem downward_longName (letter : UInt8) : Disk.Downward (longName letter) :=
  ⟨ne_of_apply_ne List.length (by rw [length_longName]; decide),
    ne_of_apply_ne List.length (by rw [length_longName]; decide)⟩

theorem free_longName {letter : UInt8} (h : Disk.slashByte ≠ letter) :
    longName letter ≠ [] ∧ Disk.slashByte ∉ longName letter :=
  ⟨ne_of_apply_ne List.length (by rw [length_longName]; decide),
    fun hmem => h (List.eq_of_mem_replicate hmem)⟩

/-- Look-ups in a directory compare names in one order, and `longName_beq` is for the other. -/
theorem beq_longName (letter : UInt8) {name : Bytes} (h : name.length < Disk.maxName) :
    (name == longName letter) = false :=
  beq_eq_false_iff_ne.2 (ne_of_apply_ne List.length (by rw [length_longName]; exact h.ne))

theorem longName_beq (letter : UInt8) {name : Bytes} (h : name.length < Disk.maxName) :
    (longName letter == name) = false := by rw [BEq.comm, beq_longName letter h]

/-- A place whose path has 3840 bytes, so that no name of 255 bytes can be added to it. -/
def deepPlace : List Bytes := List.replicate 15 (longName 0x64)

/-- What lies at the deep place: the link that lies too deep, beside a directory with the name by which the canonical
path goes on. -/
def deepEntries : Entries :=
  [(longName 0x6C, .link (rooted [Text.key "e", Text.key "f"]) .full),
    (Text.key "x", .directory [(Text.key "h", .file [] .full)] .full)]

/-- The link `s` leads through the deep place to a link that lies too deep. A look-up follows it and comes to
`/e/x`; past it, the names that are left lead to the other `x`. -/
def deepHost : Host where
  disk := ⟨.directory [
    (Text.key "s", .link (rooted [Text.key "q", longName 0x6C, Disk.dotDot, Text.key "x"]) .full),
    (Text.key "q", .link (rooted deepPlace) .full),
    (Text.key "e", .directory [(Text.key "f", .directory [] .full),
      (Text.key "x", .directory [(Text.key "a", .file (Text.key "#include\"h\"") .full)] .full)] .full),
    (longName 0x64, nested (List.replicate 14 (longName 0x64)) (.directory deepEntries .full))] .full⟩
  cwd := []
  env := []

theorem sound_deepHost : deepHost.Sound := ⟨Entry.sound_of_isSound _ (by decide +kernel), by simp [deepHost]⟩

theorem plain_deepPlace : deepHost.disk.Plain deepPlace ∧
    deepHost.disk.at? deepPlace = some (.directory deepEntries .full) := by
  have hfirst : deepHost.disk.Holds [] (longName 0x64)
      (nested (List.replicate 14 (longName 0x64)) (.directory deepEntries .full)) := by
    refine ⟨downward_longName _, ⟨_, ⟨_, rfl, rfl⟩, ?_⟩, List.length_replicate.le⟩
    have hs := beq_longName 0x64 (by decide : (Text.key "s").length < Disk.maxName)
    have hq := beq_longName 0x64 (by decide : (Text.key "q").length < Disk.maxName)
    have he := beq_longName 0x64 (by decide : (Text.key "e").length < Disk.maxName)
    simp [Entry.find?, hs, hq, he]
  refine @plain_nested _ [longName 0x64] (List.replicate 14 (longName 0x64)) _
    (.down .root hfirst rfl) hfirst.at? ?_ rfl
  intro n hn
  rw [List.eq_of_mem_replicate hn]
  exact ⟨hfirst.toDownward, hfirst.short⟩

theorem holds_deepLink : deepHost.disk.Holds deepPlace (longName 0x6C)
    (.link (rooted [Text.key "e", Text.key "f"]) .full) := by
  refine ⟨downward_longName _, ⟨_, ⟨_, plain_deepPlace.2, rfl⟩, ?_⟩, List.length_replicate.le⟩
  simp [Entry.find?, deepEntries]

theorem holds_deepDirectory : deepHost.disk.Holds deepPlace (Text.key "x")
    (.directory [(Text.key "h", .file [] .full)] .full) := by
  refine ⟨⟨by decide, by decide⟩, ⟨_, ⟨_, plain_deepPlace.2, rfl⟩, ?_⟩, by decide⟩
  have hl := longName_beq 0x6C (by decide : (Text.key "x").length < Disk.maxName)
  simp [Entry.find?, deepEntries, hl]

theorem plain_deepDirectory : deepHost.disk.Plain (deepPlace ++ [Text.key "x"]) :=
  plain_deepPlace.1.down holds_deepDirectory rfl

/-- Every path through the deep place has 3840 bytes before its last names: fifteen times a slash and 255 letters. -/
theorem length_deepPath {last : List Bytes} (hne : last ≠ []) :
    (Host.placeText (deepPlace ++ last)).key.length = 3840 + (rooted last).length := by
  rw [Host.key_placeText (by simp [hne]), List.flatMap_append, List.length_append, rooted, deepPlace,
    List.length_flatMap, List.map_replicate, List.sum_replicate_nat, List.length_cons, length_longName]
  rfl

/-- The link lies too deep: 256 bytes more make 4096, one more than a path can have. -/
theorem not_short_deepLink : ¬ Host.Short (deepPlace ++ [longName 0x6C]) := by
  unfold Host.Short
  rw [length_deepPath (by simp), rooted, List.flatMap_singleton, List.length_cons, length_longName]
  decide

/-- The header does not, so an include can find it. -/
theorem short_deepHeader : Host.Short (deepPlace ++ [Text.key "x", Text.key "h"]) := by
  unfold Host.Short
  rw [length_deepPath (by simp)]
  decide

theorem pathNames_deepLink : Disk.pathNames (rooted [Text.key "q", longName 0x6C, Disk.dotDot, Text.key "x"]) =
    [Text.key "q", longName 0x6C, Disk.dotDot, Text.key "x"] := by
  refine pathNames_rooted ?_
  simp only [List.forall_mem_cons]
  exact ⟨by decide, free_longName (by decide), by decide, by decide, by simp⟩

theorem pathNames_deepPlace : Disk.pathNames (rooted deepPlace) = deepPlace := by
  refine pathNames_rooted fun n hn => ?_
  rw [List.eq_of_mem_replicate hn]
  exact free_longName (by decide)

theorem holds_start : deepHost.disk.Holds [] (Text.key "s")
    (.link (rooted [Text.key "q", longName 0x6C, Disk.dotDot, Text.key "x"]) .full) :=
  ⟨⟨by decide, by decide⟩, ⟨_, ⟨_, rfl, rfl⟩, rfl⟩, by decide⟩

theorem holds_turn : deepHost.disk.Holds [] (Text.key "q") (.link (rooted deepPlace) .full) :=
  ⟨⟨by decide, by decide⟩, ⟨_, ⟨_, rfl, rfl⟩, rfl⟩, by decide⟩

/-- The canonical path of `s` leads past the link that lies too deep. It goes through both links whose paths are
short, down the deep place, and there takes the long link for a directory; from inside that, `..` leads back to the
deep place and not to `/e`. -/
theorem canonical_deepHost : deepHost.canonical "/s" = .ok (Host.placeText (deepPlace ++ [Text.key "x"])) := by
  have hdisk := sound_deepHost.disk
  have hplain := plain_deepPlace.1
  have hx := plain_deepDirectory
  have hstart : Host.Spells (deepHost.absolute "/s") [Text.key "s"] := ⟨by decide, by decide⟩
  obtain ⟨aim, after, haim, hafter, _, hs⟩ := Host.exists_follow_link hdisk .root holds_start rfl
    (by decide) hstart
  rw [pathNames_deepLink] at haim
  obtain ⟨aim', after', haim', hafter', _, hq⟩ := Host.exists_follow_link hdisk .root holds_turn rfl
    (by decide) haim
  rw [pathNames_deepPlace, ← List.append_nil deepPlace] at haim'
  obtain ⟨rest₁, hrest₁, hdeep⟩ := @Host.exists_follow_plain deepHost [] aim' deepPlace hdisk [] hplain haim'
  -- From the deep place on: down to the link as if it were none, up again, and down to `x`.
  obtain ⟨rest₂, hrest₂, hlong⟩ := Host.exists_follow_down hdisk hplain holds_deepLink
    (fun hshort => absurd hshort not_short_deepLink) hafter'
  obtain ⟨rest₃, hrest₃, hup⟩ := Host.exists_follow_dotDot deepHost hrest₂
  obtain ⟨rest₄, hrest₄, hdown⟩ := Host.exists_follow_plain hdisk hx hrest₃
  have hparent : Path.parent (Host.placeText (deepPlace ++ [longName 0x6C])) = Host.placeText deepPlace := by
    rw [Host.parent_placeText (holds_deepLink.isName hdisk), List.dropLast_concat]
  rw [ite_self] at hs hq
  have hseen : Host.recalled [(Host.placeText [Text.key "s"], none)] (Host.placeText [Text.key "q"]) = none := by
    decide
  -- How much fuel is left does not matter as long as there is some, so it is left open for the links.
  have hinner : ∀ fuel, ∃ met, deepHost.follow (fuel + 1) (Host.placeText []) aim
      [(Host.placeText [Text.key "s"], none)] =
        .ok ⟨Host.placeText (deepPlace ++ [Text.key "x"]), true, met⟩ := by
    intro fuel
    have htrail := (hdeep fuel [(Host.placeText [Text.key "q"], none),
      (Host.placeText [Text.key "s"], none)]).trans (Host.follow_nil hrest₁ fuel _ _)
    have hreached := hq hseen htrail
    rw [List.nil_append, hlong, hup, hparent, hdown, Host.follow_nil hrest₄] at hreached
    exact ⟨_, hreached⟩
  have hfuel : 2 ≤ (deepHost.disk.root.linkCount + 1) * ((deepHost.absolute "/s").length + 1) :=
    Nat.mul_le_mul (Nat.le_add_left 1 _) (by decide : 2 ≤ (deepHost.absolute "/s").length + 1)
  obtain ⟨fuel, hfuel⟩ := Nat.exists_eq_add_of_le' hfuel
  obtain ⟨met, htrail⟩ := hinner fuel
  have hfollow := (hs rfl htrail).trans (Host.follow_nil hafter _ _ _)
  rw [Host.canonical, if_neg (by decide)]
  dsimp only
  rw [hfuel]
  change (deepHost.follow (fuel + 1 + 1) (Host.placeText []) (deepHost.absolute "/s") []).map _ = _
  rw [hfollow]
  exact congrArg Except.ok (absolute_eq_self (Host.clean_placeText (hx.isName hdisk)).normal)

/-- A look-up of `s` follows the link that lies too deep, and so comes to `/e/f`, whose parent has an `x` of
its own. -/
theorem route_deepHost : deepHost.disk.Route [] [Text.key "s"]
    [[Text.key "s"], [Text.key "q"], deepPlace ++ [longName 0x6C]] [Text.key "e", Text.key "x"] := by
  have he : deepHost.disk.Holds [] (Text.key "e") (.directory _ .full) :=
    ⟨⟨by decide, by decide⟩, ⟨_, ⟨_, rfl, rfl⟩, rfl⟩, by decide⟩
  have hf : deepHost.disk.Holds [Text.key "e"] (Text.key "f") (.directory [] .full) :=
    ⟨⟨by decide, by decide⟩, ⟨_, ⟨_, he.at?, rfl⟩, rfl⟩, by decide⟩
  have hx : deepHost.disk.Holds [Text.key "e"] (Text.key "x") (.directory _ .full) :=
    ⟨⟨by decide, by decide⟩, ⟨_, ⟨_, he.at?, rfl⟩, rfl⟩, by decide⟩
  have hinto : deepHost.disk.Route [] (Disk.pathNames (rooted [Text.key "e", Text.key "f"])) []
      [Text.key "e", Text.key "f"] := by
    rw [pathNames_rooted (by decide)]
    exact .down he rfl (.down hf rfl .here)
  have hback : deepHost.disk.Route [Text.key "e", Text.key "f"] [Disk.dotDot, Text.key "x"] []
      [Text.key "e", Text.key "x"] := .up ⟨_, _, hf.at?, rfl⟩ (.down hx rfl .here)
  have hdeep : deepHost.disk.Route [] (Disk.pathNames (rooted deepPlace)) [] deepPlace := by
    rw [pathNames_deepPlace]
    exact (List.append_nil deepPlace) ▸ plain_deepPlace.1.route .here
  have hthrough := Disk.Route.link holds_turn rfl hdeep (.link holds_deepLink rfl hinto hback)
  rw [← pathNames_deepLink] at hthrough
  exact .link holds_start rfl hthrough .here

/-- What the walk lists. -/
def walkedEntries : Entries := [(Text.key "a", .file (Text.key "#include\"h\"") .full)]

theorem holds_source : deepHost.disk.Holds [Text.key "e", Text.key "x"] (Text.key "a")
    (.file (Text.key "#include\"h\"") .full) :=
  ⟨⟨by decide, by decide⟩, ⟨walkedEntries, ⟨_, rfl, rfl⟩, rfl⟩, by decide⟩

/-- The walk lists the directory that the look-up comes to. -/
theorem list_deepHost : deepHost.list (ownParams.pathOf deepHost []) = .ok walkedEntries := by
  have hpath : ownParams.pathOf deepHost [] = Host.placeText [Text.key "s"] := by decide
  have hname : ∀ n ∈ [Text.key "s"], Disk.IsName n :=
    fun n hn => Disk.isName_of_isName (by rw [List.mem_singleton.1 hn]; decide)
  rw [hpath]
  exact Host.list_of_route (Host.clean_placeText hname) ⟨by decide, by decide⟩ (by decide) route_deepHost rfl rfl

/-- The same look-up with one more name, for the file that is parsed. -/
theorem entry_deepHost : deepHost.entry true (ownParams.pathOf deepHost [Text.ofString "a"]) =
    .ok ([Text.key "e", Text.key "x", Text.key "a"], .file (Text.key "#include\"h\"") .full) := by
  have hpath : ownParams.pathOf deepHost [Text.ofString "a"] = Host.placeText [Text.key "s", Text.key "a"] := by
    decide
  have hname : ∀ n ∈ [Text.key "s", Text.key "a"], Disk.IsName n := by
    intro n hn
    rcases List.mem_pair.1 hn with rfl | rfl
    · exact Disk.isName_of_isName (by decide)
    · exact Disk.isName_of_isName (by decide)
  rw [hpath]
  exact @Host.entry_of_route deepHost _ _ _ [Text.key "s"] _ _ (Host.clean_placeText hname)
    ⟨by decide, by decide⟩ (by decide) (by decide) route_deepHost holds_source rfl

/-- There is no directory in the directory that is walked, so the walk does not go any further. -/
theorem opens_deepHost {dir : List Text} {within : Entries} (h : Opens walkedEntries dir within) :
    dir = [] ∧ within = walkedEntries := by
  cases h with
  | here => exact ⟨rfl, rfl⟩
  | inside hmem _ => simp [walkedEntries] at hmem

/-- The walk reaches one file and nothing else. -/
theorem reached_deepHost {dir : List Text} {name : Bytes} {e : Entry}
    (h : Reached ownParams walkedEntries dir name e) : dir = [] ∧ name = Text.key "a" := by
  obtain ⟨within, hopens, hmem⟩ := h.listed
  obtain ⟨rfl, rfl⟩ := opens_deepHost hopens
  obtain ⟨rfl, _⟩ := Prod.mk.inj (List.mem_singleton.1 hmem)
  exact ⟨rfl, rfl⟩

/-- The resolver of the scan of `s`. Both its directories are the canonical path, which is not where the walk is. -/
def deepResolver : Resolver :=
  ⟨Host.placeText (deepPlace ++ [Text.key "x"]), [], [Host.placeText (deepPlace ++ [Text.key "x"])]⟩

theorem ofParams_deepHost : Resolver.ofParams deepHost ownParams = .ok deepResolver := by
  unfold Resolver.ofParams ownParams
  simp only [Resolver.canonicalAll, canonical_deepHost]
  rfl

/-- The header lies in the directory `x` of the deep place. -/
def headerPlace : List Bytes := deepPlace ++ [Text.key "x"] ++ [Text.key "h"]

theorem holds_header : deepHost.disk.Holds (deepPlace ++ [Text.key "x"]) (Text.key "h") (.file [] .full) :=
  ⟨⟨by decide, by decide⟩, ⟨_, ⟨_, holds_deepDirectory.at?, rfl⟩, rfl⟩, by decide⟩

theorem isName_header : ∀ n ∈ headerPlace, Disk.IsName n := holds_header.isName sound_deepHost.disk

theorem isFile_header : deepHost.isFile (Host.placeText headerPlace) = true := by
  have husable := (Host.usable_placeText isName_header).2 short_deepHeader
  refine isFile_iff.2 ⟨_, _, _, Host.entry_of_route (Host.clean_placeText isName_header) husable
    (Nat.zero_le _) ?_ (plain_deepDirectory.route .here) holds_header rfl⟩
  rw [List.append_nil, Host.components_placeText isName_header, Host.map_key_map_toText]
  rfl

theorem toText_header : (Text.key "h").toText = Text.ofString "h" := by decide

/-- The header is found where its name says, since no link is on the way to it. -/
theorem peel_header : deepHost.peel deepResolver.scanDir (Text.ofString "h") =
    .ok (Host.placeText headerPlace) := by
  have hcomponents : components (Text.ofString "h") = [Text.ofString "h"] := by decide
  have hjoin : Path.join deepResolver.scanDir (Text.ofString "h") = Host.placeText headerPlace :=
    toText_header ▸ Host.join_placeText isName_header
  have hnone : deepHost.linkTarget? (Host.placeText headerPlace) = none :=
    Host.linkTarget?_placeText sound_deepHost.disk (plain_deepDirectory.down holds_header rfl)
      (by simp [headerPlace])
  rw [Host.peel, hcomponents, if_neg (by decide), Host.peelFrom, if_neg (by decide), if_neg (by decide), hjoin]
  simp only [hnone, Host.peelFrom]

/-- Its node is named from the scan directory that the includes have. The walk names nothing so. -/
theorem nodePathFor_header : deepResolver.nodePathFor deepHost (Host.placeText headerPlace) =
    .ok (some (Text.ofString "h")) := by
  have hdir := plain_deepDirectory.isName sound_deepHost.disk
  have hcontains : Path.contains deepHost.cwdText deepResolver.scanDir (Host.placeText headerPlace) = true :=
    Host.contains_placeText isName_header
  have hnamed : deepResolver.NamedFrom deepHost (Host.placeText headerPlace) deepResolver.scanDir :=
    .scanDir (List.mem_singleton_self _) hcontains hcontains
  refine (Resolver.nodePathFor_eq_some_iff (Host.clean_placeText isName_header).normal).2
    ⟨_, [Text.ofString "h"], hnamed, ?_, by decide⟩
  have hbase : components (deepHost.absolute deepResolver.scanDir) =
      (deepPlace ++ [Text.key "x"]).map Bytes.toText := by
    rw [Host.absolute, deepResolver, absolute_eq_self (Host.clean_placeText hdir).normal,
      Host.components_placeText hdir]
  rw [Host.components_placeText isName_header, hbase, headerPlace, List.map_append, List.map_singleton,
    toText_header]

/-- The file that the walk comes to includes the one that it does not. -/
theorem includes_deepHost :
    Includes deepHost ownParams deepResolver walkedEntries [] (Text.key "a") (Text.ofString "h") := by
  have hd : Source.includes (Text.key "#include\"h\"") = [⟨Text.key "h", false⟩] := by cbv
  have hparses : Parses deepHost ownParams walkedEntries [] (Text.key "a") _ :=
    ⟨⟨_, ⟨⟨_, .here, List.mem_cons_self⟩, by decide⟩, rfl⟩, ⟨_, _, entry_deepHost⟩, by decide, by decide⟩
  refine ⟨_, _, hparses, by rw [hd]; exact List.mem_cons_self, by decide, _, ?_, nodePathFor_header⟩
  -- There are no search directories, so all that is tried is the file next to the one that includes it.
  change List.findSome? _ [(deepResolver.scanDir, Text.ofString "h")] = _
  rw [List.findSome?_cons]
  simp only [Resolver.probe?, peel_header, isFile_header, if_true]

/-- Nothing stops the walk. Its one directory can be listed and its one file can be read, so the scan comes to its
end, and the node is not left over from a failure. -/
theorem not_obstacle_deepHost (position : List Step) (f : Failure) : ¬ Obstacle deepHost ownParams position f := by
  intro h
  cases h with
  | scanDir hlist => simp [list_deepHost] at hlist
  | directory _ htop hopens _ _ =>
    obtain rfl := Except.ok.inj (list_deepHost.symm.trans htop)
    simpa using (opens_deepHost hopens).1
  | file _ htop hparses _ hread =>
    obtain rfl := Except.ok.inj (list_deepHost.symm.trans htop)
    obtain ⟨e, hreached, _⟩ := hparses.reached
    obtain ⟨rfl, rfl⟩ := reached_deepHost hreached
    have ha : (Text.key "a").toText = Text.ofString "a" := by decide
    rw [List.nil_append, ha, ← mapped_eq_error_iff entry_deepHost, mapped_file entry_deepHost] at hread
    simp [Access.full] at hread

/-- **A node that the walk does not come to.** All that is asked of the directories holds, but the link that lies too
deep is on the way to the scan directory: the walk is in one directory and the includes in another. -/
theorem run_empty_ghost : ∃ r top stats, deepHost.Sound ∧ ownParams.Decoded ∧ ownParams.skipped = [] ∧
    Resolver.ofParams deepHost ownParams = .ok r ∧
    (∀ root ∈ r.rootDirs, Path.contains deepHost.cwdText r.scanDir root = true) ∧
    (∀ base ∈ r.scanDir :: r.includeDirs, deepHost.Linkless base) ∧
    (run deepHost ownParams Atlas.empty).result = .ok stats ∧
    deepHost.list (deepHost.absolute ownParams.scanDir) = .ok top ∧
    Text.ofString "h" ∈ (run deepHost ownParams Atlas.empty).atlas.paths ∧
    ∀ dir name e, Reached ownParams top dir name e →
      Text.join [slash] (dir ++ [name.toText]) ≠ Text.ofString "h" := by
  have hp : ownParams.Decoded := ⟨by decide, by decide, by decide⟩
  obtain ⟨stats, hrun⟩ := exists_stats sound_deepHost hp ofParams_deepHost (by decide)
    not_obstacle_deepHost
  refine ⟨deepResolver, walkedEntries, stats, sound_deepHost, hp, rfl, ofParams_deepHost, ?_, ?_, hrun,
    list_deepHost, ?_, ?_⟩
  · intro root hroot
    obtain rfl : root = deepResolver.scanDir := List.mem_singleton.1 hroot
    exact contains_self _ _
  · intro base hbase
    obtain rfl : base = deepResolver.scanDir := List.mem_singleton.1 hbase
    exact Host.linkless_placeText sound_deepHost.disk plain_deepDirectory
  · obtain ⟨r, top, hr, _, htop, _, hholds⟩ := run_empty_holds hp hrun
    obtain rfl := Except.ok.inj (ofParams_deepHost.symm.trans hr)
    obtain rfl := Except.ok.inj (list_deepHost.symm.trans htop)
    refine Atlas.mem_paths.2 ⟨[Text.ofString "h"], (hholds _).2 (.inr (grants_node_iff.2 ⟨by simp, .inr
      ⟨_, _, _, includes_deepHost, by decide⟩⟩)), rfl⟩
  · intro dir name e hreached
    obtain ⟨rfl, rfl⟩ := reached_deepHost hreached
    decide

end Scan

end HeaderAtlas
