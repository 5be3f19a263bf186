import HeaderAtlas.Proofs.Disk.Sound
import HeaderAtlas.Proofs.Scan.Exact
import Mathlib.Algebra.BigOperators.Group.List.Basic
import Mathlib.Algebra.GroupWithZero.Nat
import Mathlib.Data.List.Sort
/-!
# The order of listings

A disk lists the entries of a directory in an order of its own. A scan does not depend on it: an entry is looked up by
its name, and what is listed is sorted before it is walked.

## The argument

Comparing two disks that list in different orders would mean to carry a relation between trees through every function
that a scan is made of. It is enough to compare each of them with the disk that is sorted. All disks that differ in
nothing but the order become the same when all their directories are sorted (`Entry.Reordered.sorted_eq`), so they
meet there, and a comparison with the sorted disk is made of equations.

The equations go up through the layers of the model. A look-up on the sorted disk ends at the same place with the same
entry, but sorted (`Host.entry_sorted`); from there on everything that a scan asks has the same answer, since nothing
asks for the order of a directory but `Host.list`. Each function has one lemma, named after it, that says so, and each
lemma is proved with those of the functions that it calls. The last is about the whole outcome (`Scan.run_sorted`).

## What is needed of the disk

No directory may list a name twice (`Entry.Distinct`). Where one did, a look-up would find the first of the two, and
which is first is exactly what may change. Sound disks are distinct (`Entry.Sound.distinct`).
-/

set_option autoImplicit false

namespace HeaderAtlas

/-! ## Disks in another order -/

namespace Entry

/-- The entries are the same but for the order in which directories list what is in them. No directory lists a name
twice, so names may be compared as lists and entries by their names. -/
inductive Reordered : Entry → Entry → Prop
  | file {contents : Bytes} {access : Access} : Reordered (.file contents access) (.file contents access)
  | pipe {contents : Bytes} {access : Access} : Reordered (.pipe contents access) (.pipe contents access)
  | device {answer : Bytes} {access : Access} : Reordered (.device answer access) (.device answer access)
  | link {target : Bytes} {access : Access} : Reordered (.link target access) (.link target access)
  | directory {entries entries' : Entries} {access : Access} :
      (entries.map (·.1)).Nodup → (entries.map (·.1)).Perm (entries'.map (·.1)) →
      (∀ name e e', (name, e) ∈ entries → (name, e') ∈ entries' → Reordered e e') →
        Reordered (.directory entries access) (.directory entries' access)

/-- No directory lists a name twice. This is all of `Entry.Sound` that matters here; which names there are
does not. -/
inductive Distinct : Entry → Prop
  | file {contents : Bytes} {access : Access} : Distinct (.file contents access)
  | pipe {contents : Bytes} {access : Access} : Distinct (.pipe contents access)
  | device {answer : Bytes} {access : Access} : Distinct (.device answer access)
  | link {target : Bytes} {access : Access} : Distinct (.link target access)
  | directory {entries : Entries} {access : Access} :
      (entries.map (·.1)).Nodup → (∀ entry ∈ entries, Distinct entry.2) → Distinct (.directory entries access)

variable {e e' found : Entry} {entries : Entries} {name : Bytes} {access : Access} {place : List Bytes}

/-- Where names differ, a name stands for one entry. -/
theorem eq_of_nodup (h : (entries.map (·.1)).Nodup) (he : (name, e) ∈ entries) (he' : (name, e') ∈ entries) :
    e = e' := congrArg Prod.snd (List.inj_on_of_nodup_map h he he' rfl)

namespace Reordered

/-- The relation has no direction, though its condition on names is stated for one side only. -/
theorem symm (h : Reordered e e') : Reordered e' e := by
  induction h with
  | file => exact .file
  | pipe => exact .pipe
  | device => exact .device
  | link => exact .link
  | directory hnodup hperm _ ih =>
    exact .directory (hperm.nodup_iff.1 hnodup) hperm.symm fun name e e' he he' => ih name e' e he' he

/-- Either side of the relation is distinct: the names of the other are the same, but for their order. -/
theorem distinct (h : Reordered e e') : e.Distinct := by
  induction h with
  | file => exact .file
  | pipe => exact .pipe
  | device => exact .device
  | link => exact .link
  | directory hnodup hperm _ ih =>
    refine .directory hnodup fun ⟨name, e⟩ he => ?_
    obtain ⟨⟨_, e'⟩, he', rfl⟩ := List.mem_map.1 (hperm.mem_iff.1 (List.mem_map_of_mem he))
    exact ih _ e e' he he'

/-- **What differs in its order alone is the same when it is sorted.** By induction on the relation: what is in a
directory is the same when sorted, and a list in strict order is determined by its members. -/
theorem sorted_eq (h : Reordered e e') : e.sorted = e'.sorted := by
  induction h with
  | file => rfl
  | pipe => rfl
  | device => rfl
  | link => rfl
  | @directory entries entries' access hnodup hperm _ ih =>
    have hnodup' := hperm.nodup_iff.1 hnodup
    -- The sorted entries are in strict order, so that it is enough to compare their members.
    have hmem : ∀ entry, entry ∈ inOrder entries ↔ entry ∈ inOrder entries' := by
      rintro ⟨name, e⟩
      rw [mem_inOrder, mem_inOrder]
      constructor
      · rintro ⟨x, hx, rfl⟩
        obtain ⟨⟨_, y⟩, hy, rfl⟩ := List.mem_map.1 (hperm.mem_iff.1 (List.mem_map_of_mem hx))
        exact ⟨y, hy, (ih _ x y hx hy).symm⟩
      · rintro ⟨y, hy, rfl⟩
        obtain ⟨⟨_, x⟩, hx, rfl⟩ := List.mem_map.1 (hperm.mem_iff.2 (List.mem_map_of_mem hy))
        exact ⟨x, hx, ih _ x y hx hy⟩
    have : Std.Irrefl fun x y : Bytes × Entry => x.1.toText < y.1.toText := ⟨fun x => List.lt_irrefl x.1.toText⟩
    have : Std.Antisymm fun x y : Bytes × Entry => x.1.toText < y.1.toText :=
      ⟨fun x y hxy hyx => absurd hyx (List.lt_asymm hxy)⟩
    rw [sorted_directory, sorted_directory,
      (pairwise_inOrder hnodup).eq_of_mem_iff (pairwise_inOrder hnodup') hmem]

end Reordered

/-- On a sound disk no directory lists a name twice. -/
theorem Sound.distinct (h : e.Sound) : e.Distinct := by
  induction h with
  | file => exact .file
  | pipe => exact .pipe
  | device => exact .device
  | link _ => exact .link
  | directory _ _ hnodup ih => exact .directory hnodup ih

namespace Distinct

theorem of_mem (h : (Entry.directory entries access).Distinct) (hmem : (name, e) ∈ entries) : e.Distinct := by
  cases h with
  | directory _ hbelow => exact hbelow _ hmem

theorem of_at? (h : e.Distinct) (hat : e.at? place = some found) : found.Distinct := by
  induction place generalizing e with
  | nil =>
    obtain rfl := Option.some.inj hat
    exact h
  | cons name place ih =>
    obtain ⟨below, hbelow, hrest⟩ := Option.bind_eq_some_iff.1 hat
    cases e with
    | directory entries access => exact ih (h.of_mem (mem_of_find? hbelow)) hrest
    | _ => simp [child?] at hbelow

/-- Only distinct entries are related to themselves, since the relation says of both sides that they are. -/
theorem refl (h : e.Distinct) : e.Reordered e := by
  induction h with
  | file => exact .file
  | pipe => exact .pipe
  | device => exact .device
  | link => exact .link
  | directory hnodup _ ih =>
    refine .directory hnodup (List.Perm.refl _) fun name e e' he he' => ?_
    obtain rfl := eq_of_nodup hnodup he he'
    exact ih _ he

/-- A directory may list its entries in any order. -/
theorem reordered_of_perm {entries' : Entries} (h : (Entry.directory entries access).Distinct)
    (hperm : entries.Perm entries') : (Entry.directory entries access).Reordered (.directory entries' access) := by
  cases h with
  | directory hnodup hbelow =>
    refine .directory hnodup (hperm.map _) fun name e e' he he' => ?_
    obtain rfl := eq_of_nodup hnodup he (hperm.mem_iff.2 he')
    exact (hbelow _ he).refl

/-- Sorting is one way to put things in another order, at every depth at once. -/
theorem reordered_sorted (h : e.Distinct) : e.Reordered e.sorted := by
  induction h with
  | file => exact .file
  | pipe => exact .pipe
  | device => exact .device
  | link => exact .link
  | @directory entries access hnodup _ ih =>
    rw [sorted_directory]
    refine .directory hnodup (perm_names_inOrder entries).symm fun name e e' he he' => ?_
    obtain ⟨x, hx, rfl⟩ := mem_inOrder.1 he'
    obtain rfl := eq_of_nodup hnodup he hx
    exact ih _ he

/-- What is sorted stays as it is. The walk sorts what it lists, so on the sorted machine it sorts twice. -/
theorem sorted_sorted (h : e.Distinct) : e.sorted.sorted = e.sorted := h.reordered_sorted.sorted_eq.symm

end Distinct

/-! ## Looking up in a sorted disk -/

/-- Where no name is listed twice, an entry is found if it is listed. Here the order drops out: being listed does not
depend on it. -/
theorem find?_eq_some_iff (h : (entries.map (·.1)).Nodup) : find? name entries = some e ↔ (name, e) ∈ entries := by
  refine ⟨mem_of_find?, fun hmem => ?_⟩
  cases hfind : find? name entries with
  | none =>
    have hnone := List.find?_eq_none.1 (Option.map_eq_none_iff.1 hfind) _ hmem
    simp at hnone
  | some e' => rw [eq_of_nodup h (mem_of_find? hfind) hmem]

/-- Looking a name up in a sorted directory gives what it gives in the directory itself, sorted. -/
theorem find?_inOrder (h : (entries.map (·.1)).Nodup) :
    find? name (inOrder entries) = (find? name entries).map sorted := by
  refine Option.ext fun e => ?_
  rw [find?_eq_some_iff ((perm_names_inOrder entries).nodup_iff.2 h), mem_inOrder, Option.map_eq_some_iff]
  simp only [find?_eq_some_iff h]

/-- The same for a whole place. Each step is a look-up in a directory, and all below it is distinct again. -/
theorem at?_sorted (h : e.Distinct) (place : List Bytes) : e.sorted.at? place = (e.at? place).map sorted := by
  induction place generalizing e with
  | nil => rfl
  | cons name place ih =>
    rw [at?, at?]
    cases h with
    | @directory entries access hnodup hbelow =>
      rw [sorted_directory, child?, child?, find?_inOrder hnodup]
      cases hfind : find? name entries with
      | none => rfl
      | some below => exact ih (hbelow _ (mem_of_find? hfind))
    | _ => rfl

/-- The number of links as a sum, for which the order does not matter. -/
theorem linkCountAll_eq_sum (entries : Entries) : linkCountAll entries = (entries.map (·.2.linkCount)).sum := by
  induction entries with
  | nil => rfl
  | cons entry rest ih => rw [linkCountAll, ih, List.map_cons, List.sum_cons]

theorem linkCountAll_perm {entries' : Entries} (h : entries.Perm entries') :
    linkCountAll entries = linkCountAll entries' := by
  rw [linkCountAll_eq_sum, linkCountAll_eq_sum, (h.map _).sum_eq]

/-- Sorting changes nothing about an entry but the order of what is in it. This and the next three lemmas are all that
the questions about an entry need. -/
@[simp] theorem isFile_sorted (e : Entry) : e.sorted.isFile = e.isFile := by cases e <;> rfl

@[simp] theorem isDirectory_sorted (e : Entry) : e.sorted.isDirectory = e.isDirectory := by cases e <;> rfl

@[simp] theorem access_sorted (e : Entry) : e.sorted.access = e.access := by cases e <;> rfl

@[simp] theorem isEmpty_sorted (e : Entry) : e.sorted.isEmpty = e.isEmpty := by cases e <;> rfl

mutual

/-- Sorting keeps the number of links, and with it the fuel for canonical paths. -/
theorem linkCount_sorted : ∀ e : Entry, e.sorted.linkCount = e.linkCount
  | .directory entries access => by
    have hperm : (sortedAll entries).Perm (inOrder entries) := (List.mergeSort_perm _ _).symm
    rw [sorted_directory, linkCount, linkCount, ← linkCountAll_sortedAll entries, linkCountAll_perm hperm]
  | .file _ _ => rfl
  | .link _ _ => rfl
  | .pipe _ _ => rfl
  | .device _ _ => rfl

theorem linkCountAll_sortedAll : ∀ entries : Entries, linkCountAll (sortedAll entries) = linkCountAll entries
  | [] => rfl
  | (name, e) :: rest => by
    rw [sortedAll, linkCountAll, linkCountAll, linkCount_sorted e, linkCountAll_sortedAll rest]

end

end Entry

namespace Disk

/-- The disk with all its directories sorted. -/
def sorted (disk : Disk) : Disk := ⟨disk.root.sorted⟩

/-- What a path leads to, sorted. A free place has nothing to sort. -/
def Target.sorted : Target → Target
  | .found place entry slash => .found place entry.sorted slash
  | .free place slash => .free place slash

variable {disk : Disk}

theorem at?_sorted (h : disk.root.Distinct) (place : List Bytes) :
    disk.sorted.at? place = (disk.at? place).map Entry.sorted := Entry.at?_sorted h place

/-- A directory of the sorted disk, and what is found in it. This is the form in which a walk meets one. -/
theorem directory_sorted (h : disk.root.Distinct) {place : List Bytes} {entries : Entries} {access : Access}
    (hat : disk.at? place = some (.directory entries access)) :
    disk.sorted.at? place = some (.directory (Entry.inOrder entries) access) ∧
      ∀ name, Entry.find? name (Entry.inOrder entries) = (Entry.find? name entries).map Entry.sorted := by
  refine ⟨by rw [at?_sorted h, hat, Option.map_some, Entry.sorted_directory], fun name => ?_⟩
  cases h.of_at? hat with
  | directory hnodup _ => exact Entry.find?_inOrder hnodup

/-- **A walk over the sorted disk** ends where it ends on the disk itself. The recursion is that of the walk, on the
links that may still be followed and then on the names that are left. -/
theorem walk_sorted (h : disk.root.Distinct) (follow want : Bool) (links : Nat) (place names : List Bytes) :
    walk disk.sorted follow want links place names = (walk disk follow want links place names).map Target.sorted := by
  cases names with
  | nil =>
    rw [walk, walk, at?_sorted h]
    cases disk.at? place with
    | none => rfl
    | some e => rfl
  | cons name rest =>
    rw [walk, walk]
    by_cases hdir : ∃ entries access, disk.at? place = some (.directory entries access)
    · obtain ⟨entries, access, hat⟩ := hdir
      obtain ⟨hat', hfind⟩ := directory_sorted h hat
      rw [hat', hat]
      dsimp only
      by_cases hsearch : access.search = false
      · rw [if_pos hsearch, if_pos hsearch]
        rfl
      rw [if_neg hsearch, if_neg hsearch]
      by_cases hdot : name = dot
      · rw [if_pos hdot, if_pos hdot]
        exact walk_sorted h follow want links place rest
      rw [if_neg hdot, if_neg hdot]
      by_cases hdotDot : name = dotDot
      · rw [if_pos hdotDot, if_pos hdotDot]
        exact walk_sorted h follow want links place.dropLast rest
      rw [if_neg hdotDot, if_neg hdotDot]
      by_cases hlong : maxName < name.length
      · rw [if_pos hlong, if_pos hlong]
        rfl
      rw [if_neg hlong, if_neg hlong, hfind]
      rcases Entry.find? name entries with _ | _ | _ | ⟨target, access⟩ | _ | _
      · dsimp only [Option.map]
        split
        · rfl
        · rfl
      · exact walk_sorted h follow want links (place ++ [name]) rest
      · exact walk_sorted h follow want links (place ++ [name]) rest
      · -- Only a link may lead elsewhere, and sorting leaves it as it is.
        dsimp only [Option.map, Entry.sorted]
        split
        · rfl
        · cases links with
          | zero => rfl
          | succ links =>
            dsimp only
            split
            · rfl
            · exact walk_sorted h follow _ links _ _
      · exact walk_sorted h follow want links (place ++ [name]) rest
      · exact walk_sorted h follow want links (place ++ [name]) rest
    · rw [at?_sorted h]
      rcases hat : disk.at? place with _ | _ | ⟨entries, access⟩ | _ | _ | _
      · rfl
      · rfl
      · exact absurd ⟨entries, access, hat⟩ hdir
      · rfl
      · rfl
      · rfl
termination_by (links, names.length)

/-- The tests before and after a walk do not look at the order either. -/
theorem entry_sorted (h : disk.root.Distinct) (cwd : List Bytes) (follow : Bool) (path : Bytes) :
    disk.sorted.entry cwd follow path = (disk.entry cwd follow path).map (Prod.map id Entry.sorted) := by
  have hlocate : disk.sorted.locate cwd follow path = (disk.locate cwd follow path).map Target.sorted := by
    unfold locate
    split
    · rfl
    · exact walk_sorted h _ _ _ _ _
  rw [entry, entry, hlocate]
  rcases disk.locate cwd follow path with e | ⟨place, found, slash⟩ | ⟨place, slash⟩
  · rfl
  · simp only [Except.map, Target.sorted, Entry.isDirectory_sorted]
    split
    · rfl
    · rfl
  · rfl

end Disk

/-! ## Asking the sorted machine -/

namespace Host

/-- The machine with all the directories of its disk sorted. -/
def sorted (host : Host) : Host := { host with disk := host.disk.sorted }

/-- No directory of the disk lists a name twice. -/
def Distinct (host : Host) : Prop := host.disk.root.Distinct

variable {host : Host}

/-- A listing is distinct. Its access does not matter and is taken to be full, as the walk does. -/
theorem Distinct.of_list {path : Text} {entries : Entries} (h : host.Distinct) (hlist : host.list path = .ok entries) :
    (Entry.directory entries .full).Distinct := by
  obtain ⟨place, access, hentry, _⟩ := list_eq_ok.1 hlist
  cases h.of_at? (at?_of_entry hentry) with
  | directory hnodup hbelow => exact .directory hnodup hbelow

/-- **A look-up on the sorted machine** finds the same at the same place, but sorted. Everything below is derived from
this and never looks into the disk again. -/
theorem entry_sorted (h : host.Distinct) (follow : Bool) (path : Text) :
    host.sorted.entry follow path = (host.entry follow path).map (Prod.map id Entry.sorted) := by
  unfold entry
  cases pathBytes path with
  | error e => rfl
  | ok bytes =>
    simp only [sorted, Disk.entry_sorted h]
    cases host.disk.entry host.cwd follow bytes with
    | error f => rfl
    | ok found => rfl

theorem entry?_sorted (h : host.Distinct) (follow : Bool) (path : Text) :
    host.sorted.entry? follow path = (host.entry? follow path).map Entry.sorted := by
  unfold entry?
  rw [entry_sorted h]
  cases host.entry follow path with
  | error e => rfl
  | ok found => rfl

theorem isFile_sorted (h : host.Distinct) (path : Text) : host.sorted.isFile path = host.isFile path := by
  rw [isFile, isFile, entry?_sorted h]
  simp [Function.comp_def]

theorem isDirectory_sorted (h : host.Distinct) (path : Text) :
    host.sorted.isDirectory path = host.isDirectory path := by
  rw [isDirectory, isDirectory, entry?_sorted h]
  simp [Function.comp_def]

theorem linkTarget?_sorted (h : host.Distinct) (path : Text) :
    host.sorted.linkTarget? path = host.linkTarget? path := by
  rw [linkTarget?, linkTarget?, entry?_sorted h]
  rcases host.entry? false path with _ | _ | _ | _ | _ | _ <;> rfl

/-- What comes out of an entry is not in a directory's list. -/
theorem read_sorted (h : host.Distinct) (path : Text) : host.sorted.read path = host.read path := by
  rw [read, read, entry_sorted h]
  rcases host.entry true path with e | ⟨place, _ | _ | _ | _ | _⟩ <;> rfl

/-- A listing is the one thing that shows the order: here the two machines differ, by a sort. -/
theorem list_sorted (h : host.Distinct) (path : Text) :
    host.sorted.list path = (host.list path).map Entry.inOrder := by
  rw [list, list, entry_sorted h]
  rcases host.entry true path with e | ⟨place, _ | ⟨entries, access⟩ | _ | _ | _⟩
  case ok.directory =>
    simp only [Except.map, Prod.map, Entry.sorted_directory]
    split <;> rfl
  all_goals rfl

/-! ## Resolving headers -/

/-- Peeling asks about links only, and a link is the same on both disks. -/
theorem peelFrom_sorted (h : host.Distinct) (links : Nat) (current : Text) (names : List Text) :
    host.sorted.peelFrom links current names = host.peelFrom links current names := by
  fun_induction peelFrom host links current names with
  | case1 links current => rw [peelFrom]
  | case2 links current rest ih =>
    rw [peelFrom, if_pos rfl]
    exact ih
  | case3 links current rest hhere ih =>
    rw [peelFrom, if_neg hhere, if_pos rfl]
    exact ih
  | case4 links current name rest hhere hup hnone ih =>
    rw [peelFrom, if_neg hhere, if_neg hup, linkTarget?_sorted h, hnone]
    exact ih
  | case5 current name rest hhere hup found hlink =>
    rw [peelFrom, if_neg hhere, if_neg hup, linkTarget?_sorted h, hlink]
  | case6 current name rest hhere hup links f hlink =>
    rw [peelFrom, if_neg hhere, if_neg hup, linkTarget?_sorted h, hlink]
  | case7 current name rest hhere hup links target hlink ih =>
    rw [peelFrom, if_neg hhere, if_neg hup, linkTarget?_sorted h, hlink]
    exact ih

theorem peel_sorted (h : host.Distinct) (base path : Text) : host.sorted.peel base path = host.peel base path :=
  peelFrom_sorted h _ _ _

/-- Following a path to its canonical form. The recursion is that of `Host.follow`: with less fuel into the target of
a link, with the same fuel along the rest of the path. -/
theorem follow_sorted (h : host.Distinct) (fuel : Nat) (path rest : Text) (seen : SeenLinks) :
    host.sorted.follow fuel path rest seen = host.follow fuel path rest seen := by
  conv_lhs => rw [Host.follow]
  conv_rhs => rw [Host.follow]
  by_cases hne : rest = []
  · rw [dif_pos hne, dif_pos hne]
  have hshorter := length_firstComponent_lt hne
  -- All cases but that of a link go on with the rest of the path, at one place or another.
  have hlater := fun path seen => follow_sorted h fuel path (firstComponent rest).2 seen
  rw [dif_neg hne, dif_neg hne]
  dsimp only
  by_cases hname : (firstComponent rest).1 = [] ∨ (firstComponent rest).1 = Path.here
  · rw [if_pos hname, if_pos hname]
    exact hlater path seen
  rw [if_neg hname, if_neg hname]
  by_cases hup : (firstComponent rest).1 = Path.up
  · rw [if_pos hup, if_pos hup]
    exact hlater (Path.parent path) seen
  rw [if_neg hup, if_neg hup, entry_sorted h]
  rcases host.entry false (Path.join path (firstComponent rest).1) with (f | f | _ | e) |
    ⟨place, _ | _ | ⟨target, access⟩ | _ | _⟩
  · exact hlater _ seen
  · exact hlater _ seen
  · rfl
  · rfl
  · exact hlater _ seen
  · exact hlater _ seen
  · simp only [Except.map, Prod.map, Entry.sorted]
    cases fuel with
    | zero => simp only [hlater]
    | succ fuel =>
      -- The target of the link is the same on both disks, and is followed with less fuel.
      have hroot := fun seen => follow_sorted h fuel Path.root (target.toText.drop 1) seen
      have hhere := fun seen => follow_sorted h fuel path target.toText seen
      simp only [hroot, hhere, hlater]
  · exact hlater _ seen
  · exact hlater _ seen
termination_by (fuel, rest.length)

/-- The fuel of a canonical path depends on the number of links on the disk, which is the same. -/
theorem canonical_sorted (h : host.Distinct) (path : Text) : host.sorted.canonical path = host.canonical path := by
  have hfuel : host.sorted.disk.root.linkCount = host.disk.root.linkCount := Entry.linkCount_sorted _
  simp only [canonical, hfuel, follow_sorted h]
  rfl

end Host

namespace Scan

variable {host : Host}

/-- A file is read and mapped in the same way, since neither its contents nor its access change. -/
theorem readIncludes_sorted (h : host.Distinct) (path : Text) :
    readIncludes host.sorted path = readIncludes host path := by
  have hmapped : ∀ e : Entry, mapped host.sorted path e.sorted = mapped host path e := fun e => by
    rw [mapped, mapped, Host.read_sorted h, Entry.access_sorted]
  rw [readIncludes, readIncludes, Host.entry_sorted h]
  rcases host.entry true path with e | ⟨place, e⟩
  · rfl
  · simp [Except.map, hmapped]

namespace Resolver

theorem canonicalAll_sorted (h : host.Distinct) (dirs : List Text) :
    canonicalAll host.sorted dirs = canonicalAll host dirs := by
  induction dirs with
  | nil => rfl
  | cons dir rest ih => rw [canonicalAll, canonicalAll, Host.canonical_sorted h, ih]

theorem ofParams_sorted (h : host.Distinct) (p : Params) : ofParams host.sorted p = ofParams host p := by
  simp only [ofParams, Host.canonical_sorted h, canonicalAll_sorted h]

theorem snags_sorted (h : host.Distinct) (probes : List (Text × Text)) :
    snags host.sorted probes = snags host probes := by
  induction probes with
  | nil => rfl
  | cons probe rest ih => rw [snags, snags, Host.peel_sorted h, ih]; simp only [Host.isFile_sorted h]

/-- Where an include leads is settled by peeling and by asking for regular files. -/
theorem lead_sorted (h : host.Distinct) (r : Resolver) (d : Source.Directive) (dir : Text) :
    r.lead host.sorted d dir = r.lead host d dir := by
  have hprobe : ∀ base path, probe? host.sorted base path = probe? host base path := fun base path => by
    simp only [probe?, Host.peel_sorted h, Host.isFile_sorted h]
  simp only [lead, resolve?, hprobe]
  rfl

end Resolver

/-! ## Surveys -/

namespace Scope

/-- The scope on the sorted machine. -/
def sorted (s : Scope) : Scope := { s with host := s.host.sorted }

variable {s : Scope}

/-- Files are visited with the answers from above. -/
theorem visitFile_sorted (h : s.host.Distinct) (path : Text) (names : List Text) (name : Text) :
    s.sorted.visitFile path names name = s.visitFile path names name := by
  have hinclusion : s.sorted.inclusion names = s.inclusion names := funext fun d => by
    simp only [inclusion, sorted, Resolver.snags_sorted h, Resolver.lead_sorted h]
  simp only [visitFile, isParsed, hinclusion]
  simp only [sorted, Host.isFile_sorted h, readIncludes_sorted h]

theorem visitFiles_sorted (h : s.host.Distinct) (path : Text) (names list : List Text) :
    s.sorted.visitFiles path names list = s.visitFiles path names list := by
  induction list with
  | nil => rfl
  | cons name rest ih => simp only [visitFiles, visitFile_sorted h, ih]

/-- A visit is given its entries, so that it does not matter here in which order they are listed. -/
theorem visit_sorted (h : s.host.Distinct) (path : Text) (names : List Text) (entries : Entries) :
    s.sorted.visit path names entries = s.visit path names entries := by
  have hdirectory : s.sorted.isDirectory path = s.isDirectory path := funext fun entry => by
    simp only [isDirectory, sorted, Host.isDirectory_sorted h]
  simp only [visit, visitFiles_sorted h, hdirectory]
  rfl

mutual

/-- The entries are given to a survey as well. It asks the machine only whether a directory can be listed, and not
what it then lists. -/
theorem survey_sorted (h : s.host.Distinct) (path : Text) (names : List Text) : ∀ e : Entry,
    s.sorted.survey path names e = s.survey path names e
  | .directory entries access => by
    have hlist : s.sorted.host.list path = (s.host.list path).map Entry.inOrder := Host.list_sorted h path
    rw [survey, survey, hlist, visit_sorted h, surveyAll_sorted h path names entries]
    cases s.host.list path with
    | error e => rfl
    | ok within => rfl
  | .file _ _ => rfl
  | .link _ _ => rfl
  | .pipe _ _ => rfl
  | .device _ _ => rfl

theorem surveyAll_sorted (h : s.host.Distinct) (path : Text) (names : List Text) : ∀ entries : Entries,
    s.sorted.surveyAll path names entries = s.surveyAll path names entries
  | [] => rfl
  | (name, e) :: rest => by
    rw [surveyAll, surveyAll, survey_sorted h _ _ e, surveyAll_sorted h path names rest]
    rfl

end

/-- **A survey on the sorted machine** finds the same. There the walk sorts what is sorted already. -/
theorem surveyTop_sorted (h : s.host.Distinct) : s.sorted.surveyTop = s.surveyTop := by
  have hlist : s.sorted.host.list (s.sorted.host.absolute s.sorted.scanDir) =
      (s.host.list (s.host.absolute s.scanDir)).map Entry.inOrder := Host.list_sorted h _
  rw [surveyTop, surveyTop, hlist]
  cases hentries : s.host.list (s.host.absolute s.scanDir) with
  | error e => rfl
  | ok entries =>
    -- What the sorted machine lists has been sorted before, and once more makes no difference.
    have hsorted : (Entry.directory (Entry.inOrder entries) .full).sorted =
        (Entry.directory entries .full).sorted := by
      rw [← Entry.sorted_directory, (h.of_list hentries).sorted_sorted]
    dsimp only [Except.map]
    rw [hsorted, survey_sorted h]
    rfl

end Scope

/-- **A scan of the sorted machine** is the same scan. -/
theorem run_sorted (h : host.Distinct) (p : Params) (a : Atlas) : run host.sorted p a = run host p a := by
  unfold run Params.scope
  rw [Resolver.ofParams_sorted h]
  cases Resolver.ofParams host p with
  | error e => rfl
  | ok r =>
    -- A resolver knows only canonical paths, so it is the same for both machines, and the surveys are all that is
    -- left to compare.
    have hsurvey : (p.scopeOf host r).sorted.surveyTop = (p.scopeOf host r).surveyTop := Scope.surveyTop_sorted h
    exact congrArg (·.outcome (host.absolute p.scanDir) p.reverse a) hsurvey

end Scan

/-! ## Scans of reordered machines -/

/-- The machines are the same but for the order in which directories of their disks list what is in them. -/
structure Host.Reordered (host host' : Host) : Prop where
  disk : host.disk.root.Reordered host'.disk.root
  cwd : host.cwd = host'.cwd
  env : host.env = host'.env
  accounts : host.accounts = host'.accounts
  stranded : host.stranded = host'.stranded
  room : host.room = host'.room

/-- Two machines with the same sorted disk, and all else equal, are the same machine when sorted. -/
theorem Host.Reordered.sorted_eq {host host' : Host} (h : host.Reordered host') : host.sorted = host'.sorted := by
  obtain ⟨⟨root⟩, cwd, env, accounts, stranded, room⟩ := host
  obtain ⟨⟨root'⟩, cwd', env', accounts', stranded', room'⟩ := host'
  obtain ⟨hdisk, rfl, rfl, rfl, rfl, rfl⟩ := h
  simp only [Host.sorted, Disk.sorted, hdisk.sorted_eq]

namespace Scan

/-- **A scan does not depend on the order of listings.** Where two machines differ in nothing else, the outcome of a
scan into any atlas is the same: the atlas with its numbers, the statistics or the failure, and the log. -/
theorem run_reordered {host host' : Host} (h : host.Reordered host') (p : Params) (a : Atlas) :
    run host p a = run host' p a := by
  have hsorted : run host.sorted p a = run host p a := run_sorted h.disk.distinct p a
  have hsorted' : run host'.sorted p a = run host' p a := run_sorted h.disk.symm.distinct p a
  rw [← hsorted, h.sorted_eq, hsorted']

/-- A file that cannot be read, a directory that cannot be listed, and a file that includes another, in no order. -/
def shuffledEntries : Entries :=
  [(Text.key "c", .file (Text.key "x") .none), (Text.key "d", .directory [] .none),
    (Text.key "b", .file (Text.key "#include\"a\"") .full), (Text.key "a", .file [] .full)]

/-- A machine whose disk lists the given entries at its root. -/
def hostOf (entries : Entries) : Host where
  disk := ⟨.directory entries .full⟩
  cwd := []
  env := []

/-- The first obstacle is the same whether the entries are listed in this order or in reverse, and so is what has been
recorded when the scan comes to it. -/
theorem run_reordered_reverse :
    let p : Params := { sampleParams with scanDir := "/", includeDirs := [] }
    run (hostOf shuffledEntries) p Atlas.empty = run (hostOf shuffledEntries.reverse) p Atlas.empty ∧
      (run (hostOf shuffledEntries.reverse) p Atlas.empty).result = .error (.reading (.fault .denied) "/c") ∧
      (run (hostOf shuffledEntries.reverse) p Atlas.empty).atlas.nodes.toList.map (·.name) =
        [[], "d", "a", "b", "c"] := by
  have hdistinct : (Entry.directory shuffledEntries .full).Distinct := (Entry.sound_of_isSound _ (by decide)).distinct
  have hreordered : (hostOf shuffledEntries).Reordered (hostOf shuffledEntries.reverse) :=
    ⟨hdistinct.reordered_of_perm (List.reverse_perm _).symm, rfl, rfl, rfl, rfl, rfl⟩
  exact ⟨run_reordered hreordered _ _, by cbv, by cbv⟩

end Scan

end HeaderAtlas
