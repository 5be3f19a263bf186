import HeaderAtlas.Disk.Write
import HeaderAtlas.Proofs.Disk.Sound
/-!
# Writing a file

A file that is written may be new or may be there already, and the path to it may go by links. Either way
the disk changes at one place only (`Disk.SameBut`), and the path leads to that place still (`Host.Written`). A
write that is refused changes nothing. One that is not refused may come to the end of the room there is, and then
the file holds the part that went in and nothing of what it held before (`Host.write_cases`). So what is read by a
path is what was written by it, if what is there is a file and may be read.

That the path leads there still is not quite obvious. A look-up may pass the directory of the file several
times, by `..` and by links, and a name that was free is taken afterwards. But had the look-up met that name
before its end, it would have failed.
-/

set_option autoImplicit false

namespace HeaderAtlas

namespace Entry

variable {e new : Entry} {entries : List (Bytes × Entry)} {access : Access} {name : Bytes} {place q : List Bytes}

/-- An entry by itself: a directory without its entries. -/
def bare : Entry → Entry
  | .directory _ access => .directory [] access
  | other => other

theorem bare_eq_directory {inner : List (Bytes × Entry)} (h : e.bare = .directory inner access) :
    ∃ entries, e = .directory entries access := by
  cases e with
  | directory entries l =>
    obtain ⟨_, rfl⟩ := Entry.directory.inj h
    exact ⟨entries, rfl⟩
  | _ => simp [bare] at h

theorem bare_eq_link {target : Bytes} : e.bare = .link target access ↔ e = .link target access := by
  cases e <;> simp [bare]

theorem ne_link (h : e.isLink = false) (target : Bytes) (access : Access) : e ≠ .link target access := by
  rintro rfl
  simp [isLink] at h

/-- What can be opened for writing: a file, a pipe or a device. -/
inductive Pourable : Entry → Prop
  | file (contents : Bytes) (access : Access) : Pourable (.file contents access)
  | pipe (contents : Bytes) (access : Access) : Pourable (.pipe contents access)
  | device (answer : Bytes) (access : Access) : Pourable (.device answer access)

theorem Pourable.isDirectory (h : e.Pourable) : e.isDirectory = false := by cases h <;> rfl

theorem Pourable.isLink (h : e.Pourable) : e.isLink = false := by cases h <;> rfl

theorem Pourable.refill (h : e.Pourable) (contents : Bytes) : (e.refill contents).Pourable := by
  cases h with
  | file _ access => exact .file contents access
  | pipe _ access => exact .pipe contents access
  | device answer access => exact .device answer access

/-! ## Below an entry -/

theorem find?_cons (other : Bytes) (entry : Bytes × Entry) :
    find? other (entry :: entries) = if entry.1 = other then some entry.2 else find? other entries := by
  rw [find?, List.find?_cons]
  by_cases h : entry.1 = other
  · simp [h]
  · rw [if_neg h, beq_eq_false_iff_ne.2 h]
    rfl

theorem find?_put (other : Bytes) :
    find? other (put name new entries) = if name = other then some new else find? other entries := by
  induction entries with
  | nil => rw [put, find?_cons]
  | cons entry rest ih =>
    rw [put]
    split
    · next hput =>
      rw [find?_cons, find?_cons, eq_of_beq hput]
      split <;> rfl
    · next hput =>
      rw [find?_cons, find?_cons, ih]
      by_cases h : entry.1 = other
      · have hne : name ≠ other := fun heq => hput (by rw [h, heq, beq_self_eq_true])
        rw [if_pos h, if_neg hne, if_pos h]
      · rw [if_neg h, if_neg h]

/-- What has something below it is a directory. -/
theorem directory_of_at?_append {rest : List Bytes} (h : e.at? (place ++ rest) = some new) (hne : rest ≠ []) :
    ∃ entries access, e.at? place = some (.directory entries access) := by
  rw [at?_append] at h
  obtain ⟨above, habove, hbelow⟩ := Option.bind_eq_some_iff.1 h
  cases rest with
  | nil => exact absurd rfl hne
  | cons name rest =>
    cases above with
    | directory entries access => exact ⟨entries, access, habove⟩
    | _ => simp [at?, child?] at hbelow

/-- The entries of the directory at a place. -/
theorem at?_concat (h : e.at? place = some (.directory entries access)) (name : Bytes) :
    e.at? (place ++ [name]) = find? name entries := by
  rw [at?_append, h, Option.bind_some, at?, child?]
  cases find? name entries <;> rfl

theorem at?_of_not_directory (he : e.isDirectory = false) (hq : q ≠ []) : e.at? q = none := by
  cases q with
  | nil => exact absurd rfl hq
  | cons name q =>
    cases e with
    | directory entries access => simp [isDirectory] at he
    | _ => rfl

/-- One step of `set` on the way to a place further down. -/
theorem set_cons {below : Entry} (hrest : place ≠ []) (h : find? name entries = some below) :
    set new (name :: place) (.directory entries access) =
      .directory (put name (set new place below) entries) access := by
  cases place with
  | nil => exact absurd rfl hrest
  | cons x place => simp only [set, h]

/-- What is put at a place is there. -/
theorem at?_set_self (h : e.at? place = some (.directory entries access)) :
    (set new (place ++ [name]) e).at? (place ++ [name]) = some new := by
  induction place generalizing e with
  | nil =>
    obtain rfl := Option.some.inj h
    rw [List.nil_append, set, at?, child?, find?_put, if_pos rfl]
    rfl
  | cons x place ih =>
    obtain ⟨below, hbelow, hrest⟩ := Option.bind_eq_some_iff.1 h
    cases e with
    | directory inner l =>
      rw [List.cons_append, set_cons (by simp) hbelow, at?, child?, find?_put, if_pos rfl]
      exact ih hrest
    | _ => simp [child?] at hbelow

/-- **Everything else stays**: each entry at another place is what it was by itself. The induction goes down
to the directory; in it, a place is below the new entry, which has nothing below it, or it was there
before. -/
theorem bare_at?_set (h : e.at? place = some (.directory entries access)) (hnew : new.isDirectory = false)
    (hold : ∀ old, e.at? (place ++ [name]) = some old → old.isDirectory = false) (hq : q ≠ place ++ [name]) :
    ((set new (place ++ [name]) e).at? q).map bare = (e.at? q).map bare := by
  induction place generalizing e q with
  | nil =>
    obtain rfl := Option.some.inj h
    rw [List.nil_append, set]
    cases q with
    | nil => rfl
    | cons y q =>
      rw [at?, child?, at?, child?, find?_put]
      split
      · next hy =>
        have hq' : q ≠ [] := fun hnil => hq (by rw [hy, hnil]; rfl)
        rw [Option.bind_some, at?_of_not_directory hnew hq']
        cases hfind : find? y entries with
        | none => rfl
        | some old =>
          have hfile := hold old (by rw [at?_concat h, hy, hfind])
          rw [Option.bind_some, at?_of_not_directory hfile hq']
      · rfl
  | cons x place ih =>
    obtain ⟨below, hbelow, hrest⟩ := Option.bind_eq_some_iff.1 h
    cases e with
    | directory inner l =>
      rw [List.cons_append, set_cons (by simp) hbelow]
      cases q with
      | nil => rfl
      | cons y q =>
        rw [at?, child?, at?, child?, find?_put]
        split
        · next hy =>
          subst hy
          have hbelow : find? x inner = some below := hbelow
          rw [hbelow, Option.bind_some, Option.bind_some]
          refine ih hrest (fun old hat => hold old ?_) fun heq => hq (by rw [heq]; rfl)
          rw [List.cons_append, at?, child?, hbelow, Option.bind_some, hat]
        · rfl
    | _ => simp [child?] at hbelow

end Entry

namespace Disk

/-! ## Where look-ups end -/

/-- The place that a look-up comes to. -/
def Target.place : Target → List Bytes
  | .found place _ _ => place
  | .free place _ => place

/-- Whether a look-up asks for a directory where it ends. -/
def Target.slash : Target → Bool
  | .found _ _ slash => slash
  | .free _ slash => slash

variable {disk before after : Disk} {place start names q : List Bytes} {name : Bytes} {new e : Entry}
  {entries : List (Bytes × Entry)} {access : Access} {follow want s : Bool} {links : Nat} {target : Target}

theorem at?_concat (h : disk.at? place = some (.directory entries access)) (name : Bytes) :
    disk.at? (place ++ [name]) = Entry.find? name entries := Entry.at?_concat h name

/-- Above an entry there are directories. -/
theorem directory_of_initial (h : disk.at? q = some e) (hplace : place <+: q) (hne : place ≠ q) :
    ∃ entries access, disk.at? place = some (.directory entries access) := by
  obtain ⟨rest, rfl⟩ := hplace
  exact Entry.directory_of_at?_append h fun hnil => hne (by rw [hnil, List.append_nil])

/-- So what is above a directory is one, the directory itself included. -/
theorem directory_above (h : disk.at? q = some (.directory entries access)) (hplace : place <+: q) :
    ∃ entries access, disk.at? place = some (.directory entries access) := by
  by_cases hne : place = q
  · exact ⟨entries, access, hne ▸ h⟩
  · exact directory_of_initial h hplace hne

/-- So is what the target of a link is followed from. -/
theorem directory_start (h : disk.at? place = some (.directory entries access)) (target : Bytes) :
    ∃ entries access, disk.at? (if isRooted target then [] else place) = some (.directory entries access) := by
  split
  · exact directory_above h List.nil_prefix
  · exact ⟨entries, access, h⟩

/-- **A free place** has nothing at it and lies in a directory. -/
theorem of_walk_free (h : walk disk follow want links start names = .ok (.free q s)) :
    disk.at? q = none ∧ ∃ place name entries access, q = place ++ [name] ∧
      disk.at? place = some (.directory entries access) := by
  fun_induction walk disk follow want links start names with
  | case1 => simp at h
  | case2 => simp at h
  | case3 => simp at h
  | case4 want links start rest entries access _ _ ih => exact ih h
  | case5 want links start rest entries access _ _ _ ih => exact ih h
  | case6 => simp at h
  | case7 want links start name rest entries access hdir _ _ _ _ hfind _ =>
    obtain ⟨rfl, _⟩ := Target.free.inj (Except.ok.inj h)
    exact ⟨by rw [at?_concat hdir, hfind], start, name, entries, access, rfl, hdir⟩
  | case8 => simp at h
  | case9 => simp at h
  | case10 => simp at h
  | case11 => simp at h
  | case12 want start name rest entries access _ _ _ _ _ target _ _ _ links _ _ _ ih => exact ih (by simpa using h)
  | case13 want links start name rest entries access _ _ _ _ _ below _ _ ih => exact ih h
  | case14 => simp at h

/-- **A look-up that follows links finds none**, unless it starts at one and has no names to go by. -/
theorem isLink_of_walk (h : walk disk true want links start names = .ok (.found q e s))
    (hstart : names = [] → ∀ target access, disk.at? start ≠ some (.link target access)) : e.isLink = false := by
  have hdirectory : ∀ {p : List Bytes}, (∃ entries access, disk.at? p = some (.directory entries access)) →
      ∀ target access, disk.at? p ≠ some (.link target access) := by
    rintro p ⟨entries, access, hp⟩ target _ heq
    rw [hp] at heq
    simp at heq
  -- Each step but the last leaves a directory and comes to something that is no link, or to where a target is
  -- resolved, which is a directory again.
  generalize hfollow : true = follow at h
  fun_induction walk disk follow want links start names with
  | case1 => simp at h
  | case2 want links start entry hentry =>
    obtain ⟨_, rfl, _⟩ := Target.found.inj (Except.ok.inj h)
    cases entry with
    | link target access => exact absurd hentry (hstart rfl target access)
    | _ => rfl
  | case3 => simp at h
  | case4 want links start rest entries access hdir _ ih =>
    exact ih (fun _ => hdirectory ⟨entries, access, hdir⟩) h
  | case5 want links start rest entries access hdir _ _ ih =>
    exact ih (fun _ => hdirectory (directory_above hdir (List.dropLast_prefix start))) h
  | case6 => simp at h
  | case7 => simp at h
  | case8 => simp at h
  | case9 want links start name rest entries access hdir _ _ _ _ target _ hlink hstop => simp [← hfollow] at hstop
  | case10 => simp at h
  | case11 => simp at h
  | case12 want start name rest entries access hdir _ _ _ _ target _ _ _ links _ _ _ ih =>
    refine ih (fun _ => ?_) (by simpa using h)
    exact hdirectory (directory_start hdir target)
  | case13 want links start name rest entries access hdir _ _ _ _ below hlink hbelow ih =>
    refine ih (fun _ target access heq => hlink target access ?_) h
    rw [at?_concat hdir, hbelow] at heq
    exact Option.some.inj heq
  | case14 => simp at h

/-! ## Two disks that differ at one place -/

/-- Every entry of the two disks is the same by itself, but for the one at the given place. -/
def SameBut (place : List Bytes) (before after : Disk) : Prop :=
  ∀ q, q ≠ place → (after.at? q).map Entry.bare = (before.at? q).map Entry.bare

/-- **Putting a file at a place** of a directory where there is no other directory. -/
theorem set_concat (hdir : disk.at? place = some (.directory entries access)) (hnew : new.isDirectory = false)
    (hold : ∀ old, disk.at? (place ++ [name]) = some old → old.isDirectory = false) :
    (disk.set (place ++ [name]) new).at? (place ++ [name]) = some new ∧
      SameBut (place ++ [name]) disk (disk.set (place ++ [name]) new) :=
  ⟨Entry.at?_set_self hdir, fun _ hq => Entry.bare_at?_set hdir hnew hold hq⟩

namespace SameBut

theorem directory (h : SameBut place before after) (hq : q ≠ place)
    (hdir : before.at? q = some (.directory entries access)) :
    ∃ inner, after.at? q = some (.directory inner access) := by
  have hbare := h q hq
  rw [hdir] at hbare
  obtain ⟨e, he, hdirectory⟩ := Option.map_eq_some_iff.1 hbare
  obtain ⟨inner, rfl⟩ := Entry.bare_eq_directory hdirectory
  exact ⟨inner, he⟩

theorem link_iff {link : Bytes} (h : SameBut place before after) (hq : q ≠ place) :
    after.at? q = some (.link link access) ↔ before.at? q = some (.link link access) := by
  have hmap : ∀ found : Option Entry,
      found = some (.link link access) ↔ found.map Entry.bare = some (.link link access) := by
    intro found
    rw [Option.map_eq_some_iff]
    simp [Entry.bare_eq_link]
  rw [hmap, h q hq, ← hmap]

/-- **A look-up that came to the place comes to it still**, and finds what is there now. The induction is on
the first look-up. It never stands at the place before its end, as there is no directory there, so all it
meets on its way is unchanged. -/
theorem walk_eq (h : SameBut place before after) (hnew : after.at? place = some new) (hlink : new.isLink = false)
    (hold : ∀ old, before.at? place = some old → old.isDirectory = false ∧ old.isLink = false)
    (hwalk : walk before follow want links start names = .ok target) (hplace : target.place = place) :
    walk after follow want links start names = .ok (.found place new target.slash) := by
  have hplaceDir : ∀ {entries access}, before.at? place ≠ some (.directory entries access) := fun hdir =>
    absurd (hold _ hdir).1 (by simp [Entry.isDirectory])
  have hplaceLink : ∀ {link access}, before.at? place ≠ some (.link link access) := fun hlink =>
    absurd (hold _ hlink).2 (by simp [Entry.isLink])
  -- The directory that a step is taken in, afterwards.
  have hafter : ∀ {q entries access}, before.at? q = some (.directory entries access) →
      ∃ inner, after.at? q = some (.directory inner access) := by
    intro q entries access hdir
    have hq : q ≠ place := fun heq => hplaceDir (heq ▸ hdir)
    exact h.directory hq hdir
  fun_induction walk before follow want links start names with
  | case1 => simp at hwalk
  | case2 want links start entry hentry =>
    obtain rfl := Except.ok.inj hwalk
    obtain rfl : start = place := hplace
    rw [walk, hnew]
    rfl
  | case3 => simp at hwalk
  | case4 want links start rest entries access hdir hsearch ih =>
    obtain ⟨inner, hinner⟩ := hafter hdir
    rw [walk, hinner]
    simpa [hsearch] using ih hwalk
  | case5 want links start rest entries access hdir hsearch _ ih =>
    obtain ⟨inner, hinner⟩ := hafter hdir
    rw [walk, hinner]
    simpa [hsearch, dot, dotDot] using ih hwalk
  | case6 => simp at hwalk
  | case7 want links start name rest entries access hdir hsearch hdot hdotDot hlen hfind hrest =>
    obtain rfl := List.isEmpty_iff.1 hrest
    obtain rfl := Except.ok.inj hwalk
    obtain rfl : start ++ [name] = place := hplace
    obtain ⟨inner, hinner⟩ := hafter hdir
    have hfind' : Entry.find? name inner = some new := by rw [← at?_concat hinner, hnew]
    rw [walk_down (passable hinner hsearch) ⟨hdot, hdotDot⟩ (by omega) hfind' (Entry.ne_link hlink), walk, hnew]
    rfl
  | case8 => simp at hwalk
  | case9 want links start name rest entries access hdir _ _ _ _ link _ hfind _ =>
    obtain rfl := Except.ok.inj hwalk
    obtain rfl : start ++ [name] = place := hplace
    exact absurd (by rw [at?_concat hdir, hfind]) hplaceLink
  | case10 => simp at hwalk
  | case11 => simp at hwalk
  | case12 want start name rest entries access hdir hsearch hdot hdotDot hlen link shown hfind hgo links hread _ _ ih =>
    obtain ⟨inner, hinner⟩ := hafter hdir
    have hat : before.at? (start ++ [name]) = some (.link link shown) := by rw [at?_concat hdir, hfind]
    have hne : start ++ [name] ≠ place := fun heq => hplaceLink (heq ▸ hat)
    have hfind' : Entry.find? name inner = some (.link link shown) := by
      rw [← at?_concat hinner, h.link_iff hne, hat]
    rw [walk, hinner]
    simp only [if_neg hsearch, if_neg hdot, if_neg hdotDot, if_neg hlen, hfind', if_neg hgo, if_neg hread]
    exact ih (by simpa using hwalk)
  | case13 want links start name rest entries access hdir hsearch hdot hdotDot hlen below hbelowLink hbelow ih =>
    obtain ⟨inner, hinner⟩ := hafter hdir
    obtain ⟨e, hfind', he⟩ : ∃ e, Entry.find? name inner = some e ∧ ∀ link access, e ≠ .link link access := by
      by_cases heq : start ++ [name] = place
      · exact ⟨new, by rw [← at?_concat hinner, heq, hnew], Entry.ne_link hlink⟩
      · have hbare := h _ heq
        rw [at?_concat hdir, at?_concat hinner, hbelow] at hbare
        obtain ⟨e, he, _⟩ := Option.map_eq_some_iff.1 hbare
        refine ⟨e, he, fun link access hlink => hbelowLink link access ?_⟩
        rw [hlink, ← at?_concat hinner, h.link_iff heq, at?_concat hdir, hbelow] at he
        exact Option.some.inj he
    rw [walk_down (passable hinner hsearch) ⟨hdot, hdotDot⟩ (by omega) hfind' he]
    exact ih hwalk
  | case14 => simp at hwalk

end SameBut

/-- A path that does not end with a slash has a last component. -/
theorem pathNames_ne_nil {path : Bytes} (hne : path ≠ []) (hslash : endsWithSlash path = false) :
    pathNames path ≠ [] := by
  by_cases hmem : slashByte ∈ path
  · obtain ⟨a, b, rfl⟩ := List.append_of_mem hmem
    have hb : b ≠ [] := by
      rintro rfl
      simp [endsWithSlash] at hslash
    have hlast : endsWithSlash b = false := by
      rwa [endsWithSlash, List.getLast?_append_cons, List.getLast?_cons_of_ne_nil hb] at hslash
    rw [pathNames_append]
    exact List.append_ne_nil_of_right_ne_nil _ (pathNames_ne_nil hb hlast)
  · rw [pathNames_free hne hmem]
    simp
termination_by path.length

section Locate

variable {cwd : List Bytes} {path : Bytes}

/-- A look-up of a path that does not end with a slash has names to go by. -/
theorem walk_of_locate (h : disk.locate cwd follow path = .ok target) (hslash : endsWithSlash path = false) :
    pathNames path ≠ [] ∧
      walk disk follow false maxLinks (if isRooted path then [] else cwd) (pathNames path) = .ok target := by
  unfold locate at h
  split at h
  · simp at h
  · next hpath =>
    have hne : path ≠ [] := by
      rintro rfl
      simp at hpath
    rw [hslash] at h
    exact ⟨pathNames_ne_nil hne hslash, h⟩

theorem locate_of_walk (h : disk.locate cwd follow path = .ok target)
    (hwalk : walk after follow (endsWithSlash path) maxLinks (if isRooted path then [] else cwd)
      (pathNames path) = .ok (.found q e s)) : after.locate cwd follow path = .ok (.found q e s) := by
  unfold locate at h ⊢
  split at h
  · simp at h
  · next hpath => rw [if_neg hpath, hwalk]

/-- The root is a directory if a look-up goes by a name. -/
theorem root_of_walk (h : walk disk follow want links start names = .ok target) (hne : names ≠ []) :
    ∃ entries access, disk.at? [] = some (.directory entries access) := by
  cases names with
  | nil => exact absurd rfl hne
  | cons name rest =>
    rw [walk] at h
    split at h
    · next entries access hdir => exact directory_above hdir List.nil_prefix
    · simp at h

theorem not_link_of_locate (h : disk.locate cwd true path = .ok target) (hslash : endsWithSlash path = false)
    (hat : disk.at? target.place = some e) : e.isLink = false := by
  obtain ⟨hne, hwalk⟩ := walk_of_locate h hslash
  cases target with
  | found q old s =>
    obtain rfl : old = e := Option.some.inj ((at?_of_found hwalk).symm.trans hat)
    exact isLink_of_walk hwalk fun hnil => absurd hnil hne
  | free q s => exact absurd (hat.symm.trans (of_walk_free hwalk).1) (by simp)

/-- **What a path leads to is in a directory**, or it is one. -/
theorem exists_parent (h : disk.locate cwd follow path = .ok target) (hslash : endsWithSlash path = false)
    (hold : ∀ old, disk.at? target.place = some old → old.isDirectory = false) :
    ∃ place name entries access, target.place = place ++ [name] ∧
      disk.at? place = some (.directory entries access) := by
  obtain ⟨hne, hwalk⟩ := walk_of_locate h hslash
  cases target with
  | free q s => exact (of_walk_free hwalk).2
  | found q old s =>
    have hat := at?_of_found hwalk
    rcases List.eq_nil_or_concat q with rfl | ⟨place, name, rfl⟩
    · obtain ⟨entries, access, hroot⟩ := root_of_walk hwalk hne
      exact absurd (hold _ hroot) (by simp [Entry.isDirectory])
    · rw [List.concat_eq_append] at hat
      obtain ⟨entries, access, hdir⟩ := directory_of_initial hat (List.prefix_append place [name]) (by simp)
      exact ⟨place, name, entries, access, List.concat_eq_append, hdir⟩

end Locate

end Disk

namespace Host

variable {host after : Host} {path : Text} {place : List Bytes} {entry : Entry} {contents : Bytes}

/-- What may be written at a place: what is there, or a new file if nothing is. -/
def Offers (host : Host) (place : List Bytes) (entry : Entry) : Prop :=
  entry.Pourable ∧ (host.disk.at? place = some entry ∨ host.disk.at? place = none ∧ entry = .file [] .full)

theorem Offers.pourable {old : Entry} (h : host.Offers place entry) (hold : host.disk.at? place = some old) :
    old.Pourable := by
  obtain ⟨hpourable, hthere | ⟨hnone, _⟩⟩ := h
  · rwa [← Option.some.inj (hthere.symm.trans hold)]
  · simp [hnone] at hold

/-- **Where a path may be written to**: the place that its look-up comes to, which has a file, a pipe or a device, or
nothing. -/
theorem of_writable (h : host.writable path = .ok (place, entry)) :
    host.Offers place entry ∧ ∃ bytes target, pathBytes path = .ok bytes ∧ Disk.endsWithSlash bytes = false ∧
      host.disk.locate host.cwd true bytes = .ok target ∧ target.place = place ∧ target.slash = false := by
  unfold writable at h
  split at h
  · simp at h
  · next bytes hbytes =>
    split at h
    · -- A path that ends with a slash is never written to.
      repeat' split at h
      all_goals simp at h
    · next hslash =>
      rw [Bool.not_eq_true] at hslash
      split at h
      · simp at h
      · simp at h
      · simp at h
      · next q hfree =>
        split at h
        · obtain ⟨rfl, rfl⟩ := Prod.mk.inj (Except.ok.inj h)
          have hnone := (Disk.of_walk_free (Disk.walk_of_locate hfree hslash).2).1
          exact ⟨⟨.file [] .full, .inr ⟨hnone, rfl⟩⟩, bytes, _, hbytes, hslash, hfree, rfl, rfl⟩
        · simp at h
      · simp at h
      · next q old hdirectory hfound =>
        split at h
        · obtain ⟨rfl, rfl⟩ := Prod.mk.inj (Except.ok.inj h)
          have hat := Disk.at?_of_found (Disk.walk_of_locate hfound hslash).2
          have hlink := Disk.not_link_of_locate hfound hslash hat
          have hpourable : old.Pourable := by
            cases old with
            | file contents access => exact .file contents access
            | directory entries access => exact absurd rfl (hdirectory entries access)
            | link target access => simp [Entry.isLink] at hlink
            | pipe contents access => exact .pipe contents access
            | device answer access => exact .device answer access
          exact ⟨⟨hpourable, .inl hat⟩, bytes, _, hbytes, hslash, hfound, rfl, rfl⟩
        · simp at h

theorem pathBytes_ne_bare {f : Disk.Fault} : pathBytes path ≠ .error (.bare f) := by
  unfold pathBytes
  split
  · simp
  · split <;> simp

/-- A path that may not be written to is refused by the disk, or it is no path. So an error that comes without a path
is one that came later. -/
theorem writable_ne_bare {f : Disk.Fault} : host.writable path ≠ .error (.bare f) := by
  unfold writable
  split
  · next e hbytes =>
    intro h
    obtain rfl := Except.error.inj h
    exact pathBytes_ne_bare hbytes
  · repeat' split
    all_goals simp

theorem place_of_entry {bytes : Bytes} {target : Disk.Target} {q : List Bytes} {old : Entry}
    (hbytes : pathBytes path = .ok bytes) (hlocate : host.disk.locate host.cwd true bytes = .ok target)
    (h : host.entry true path = .ok (q, old)) : q = target.place := by
  rw [Host.entry, hbytes] at h
  cases target with
  | free place s => simp [Disk.entry, hlocate] at h
  | found place e s =>
    simp only [Disk.entry, hlocate] at h
    split at h
    · next found hfound =>
      obtain rfl := Except.ok.inj h
      split at hfound
      · simp at hfound
      · exact (Prod.mk.inj (Except.ok.inj hfound)).1.symm
    · simp at h

/-- Some contents have been put where a path leads to, into what was there or into a new file, and nothing else on
the machine has changed. -/
structure Written (host : Host) (path : Text) (place : List Bytes) (entry : Entry) (contents : Bytes) (after : Host) :
    Prop where
  /-- Nothing but the disk has changed. -/
  frame : after = host.withDisk after.disk
  /-- What was there, or the new file. -/
  offered : host.Offers place entry
  /-- The path leads to the place. -/
  there : after.entry true path = .ok (place, entry.refill contents)
  /-- It led there before, if anywhere. -/
  before : ∀ q old, host.entry true path = .ok (q, old) → q = place
  /-- No other place has changed. -/
  same : Disk.SameBut place host.disk after.disk

/-- A file that may be read gives what was put into it. -/
theorem Written.read {bytes : Bytes} {access : Access} (h : Written host path place entry contents after)
    (hfile : entry = .file bytes access) (hread : access.read = true) : after.read path = .ok contents := by
  subst hfile
  rw [Host.read, h.there]
  simp [Entry.refill, readEntry, hread]

/-- **Putting contents where a path leads to** changes that place and nothing else. -/
theorem written_set (h : host.writable path = .ok (place, entry)) (contents : Bytes) :
    Written host path place entry contents (host.withDisk (host.disk.set place (entry.refill contents))) := by
  obtain ⟨hoffers, bytes, target, hbytes, hslash, hlocate, rfl, hwant⟩ := of_writable h
  have hnew := hoffers.1.refill contents
  obtain ⟨above, name, entries, access, hplace, hdir⟩ :=
    Disk.exists_parent hlocate hslash fun old hat => (hoffers.pourable hat).isDirectory
  have hold : ∀ old, host.disk.at? (above ++ [name]) = some old → old.Pourable := fun old hat =>
    hoffers.pourable (hplace ▸ hat)
  obtain ⟨hat, hsame⟩ := Disk.set_concat hdir hnew.isDirectory fun old h => (hold old h).isDirectory
  -- The path leads to the new file: all on the way to it is as it was.
  have hwalk := hsame.walk_eq hat hnew.isLink
    (fun old h => ⟨(hold old h).isDirectory, (hold old h).isLink⟩)
    (hslash ▸ (Disk.walk_of_locate hlocate hslash).2) hplace
  refine ⟨rfl, hoffers, ?_, fun q old hentry => place_of_entry hbytes hlocate hentry, hplace ▸ hsame⟩
  have := Disk.locate_of_walk hlocate hwalk
  simp [Host.entry, hbytes, Disk.entry, withDisk, this, hwant, hplace]

theorem write_eq_pour (h : host.writable path = .ok (place, entry)) (contents : Bytes) :
    host.write path contents = host.pour place entry [] contents := by
  rw [write, h]

/-- **How a write ends.** It is refused and changes nothing; or there is no room for all of the contents, and what
there is room for is put where the path leads to; or all of them are put there. -/
theorem write_cases (host : Host) (path : Text) (contents : Bytes) :
    (∃ e, host.write path contents = (host, .error e) ∧ host.writable path = .error e) ∨
      (∃ after place entry room, host.write path contents = (after, .error (.bare .noSpace)) ∧
        host.writable path = .ok (place, entry) ∧ host.room place = some room ∧ room < contents.length ∧
        Written host path place entry (contents.take room) after) ∨
      ∃ after place entry, host.write path contents = (after, .ok ()) ∧
        Written host path place entry contents after := by
  rcases hwritable : host.writable path with e | ⟨place, entry⟩
  · exact .inl ⟨e, by rw [write, hwritable], rfl⟩
  · rw [write_eq_pour hwritable, pour, fitting]
    cases hroom : host.room place with
    | none => exact .inr (.inr ⟨_, place, entry, by simp, written_set hwritable contents⟩)
    | some room =>
      by_cases hfits : contents.length ≤ room
      · exact .inr (.inr ⟨_, place, entry, by simp [hfits], written_set hwritable contents⟩)
      · have hshort := Nat.not_le.1 hfits
        refine .inr (.inl ⟨_, place, entry, room, ?_, rfl, hroom, hshort, written_set hwritable _⟩)
        simp [hshort, Nat.min_eq_right hshort.le]

/-- **What was written is there** if all went well. -/
theorem written_of_write (h : host.write path contents = (after, .ok ())) :
    ∃ place entry, Written host path place entry contents after := by
  rcases host.write_cases path contents with ⟨e, hwrite, _⟩ | ⟨_, _, _, _, hwrite, _⟩ |
    ⟨made, place, entry, hwrite, hwritten⟩
  · simp [hwrite] at h
  · simp [hwrite] at h
  · rw [hwrite, Prod.mk.injEq] at h
    obtain ⟨rfl, _⟩ := h
    exact ⟨place, entry, hwritten⟩

end Host

end HeaderAtlas
