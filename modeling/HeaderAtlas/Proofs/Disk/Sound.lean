import HeaderAtlas.Proofs.Disk.Beneath
import Mathlib.Data.List.Basic
/-!
# Sound disks

Names on a disk are not empty, hold no slash and no byte zero, and are not the names for a directory and the one above
it; no two entries of a directory have the same name; and the target of a link holds no byte zero. On such a disk
nothing goes wrong with a path but what the disk itself refuses: every look-up that fails is a fault of the disk
(`Host.exists_fault`), and a directory has a canonical path unless the way to it meets a link that does not show its
target (`Host.canonical_cases`).

## Why this has to be said

The model's disks are plain trees, and a tree can hold what no file system can: an entry named `a/b`, or a link whose
target has a zero in it. Following such a link makes a text that is no path at all, and the error is then not one that
a disk gives. Soundness rules these trees out, and nothing else. It says nothing about access, about links that lead
nowhere or in circles, or about how deep the tree is, so what is proved about sound disks holds on every disk that a
machine can have.

## The argument

Zeros are the only thing to keep track of. They can come from three places: the path that was asked for, the working
directory, and the targets of links. `Text.Zeroless` is closed under everything that is done to paths (`join`,
`parent`, `absolute`, taking components), so if none of the three brings a zero in, none comes up later.
`Sound.walkable` says this in the form that the induction over a canonical path wants.
-/

set_option autoImplicit false

namespace HeaderAtlas

open HeaderAtlas.Path

/-! ## Texts without zeros -/

namespace Text

/-- No code point of the text is zero. Together with `Text.Decoded` this is what a text needs to be a path: it has
bytes, and a system call can take them. -/
def Zeroless (t : Text) : Prop := CodePoint.ofNat 0 ∉ t

instance (t : Text) : Decidable t.Zeroless :=
  decidable_of_iff (t.contains (CodePoint.ofNat 0) = false) (by simp [Zeroless])

/-- Decoding brings no zero in. A byte that is not part of UTF-8 is decoded to a code point of its own, which is never
zero. -/
theorem zeroless_toText {b : Bytes} (h : 0 ∉ b) : b.toText.Zeroless := fun hmem =>
  h (Bytes.mem_of_mem_toText (by decide) hmem)

theorem Zeroless.of_subset {s t : Text} (h : t.Zeroless) (hst : s ⊆ t) : s.Zeroless := fun hmem => h (hst hmem)

theorem Zeroless.append {s t : Text} (hs : s.Zeroless) (ht : t.Zeroless) : Zeroless (s ++ t) := by
  intro hmem
  rcases List.mem_append.1 hmem with hmem | hmem
  · exact hs hmem
  · exact ht hmem

/-- What stands in a joined text comes from the separator or from one of its parts. -/
theorem mem_join {c : CodePoint} {sep : Text} {names : List Text} (h : c ∈ join sep names) :
    c ∈ sep ∨ ∃ n ∈ names, c ∈ n := by
  induction names with
  | nil => simp at h
  | cons n rest ih =>
    by_cases hne : rest = []
    · subst hne
      exact .inr ⟨n, List.mem_cons_self, h⟩
    · rw [join_cons hne, List.mem_append, List.mem_append] at h
      rcases h with (h | h) | h
      · exact .inr ⟨n, List.mem_cons_self, h⟩
      · exact .inl h
      · rcases ih h with h | ⟨m, hm, h⟩
        · exact .inl h
        · exact .inr ⟨m, List.mem_cons_of_mem _ hm, h⟩

end Text

/-! ## Disks -/

namespace Disk

/-- A name that an entry of a disk can have. The names for a directory and the one above it are `Downward`'s business,
since a walk treats them apart. -/
structure IsName (name : Bytes) : Prop extends Downward name where
  ne_nil : name ≠ []
  zeroless : 0 ∉ name
  slashless : slashByte ∉ name

/-- Whether an entry of a disk can have the name. Its length is not asked about: a name that is too long is refused
when it is looked up. -/
def isName (name : Bytes) : Bool :=
  name != dot && name != dotDot && !name.isEmpty && !name.contains 0 && !name.contains slashByte

theorem isName_of_isName {name : Bytes} (h : isName name = true) : IsName name := by
  simp only [isName, Bool.and_eq_true, bne_iff_ne, Bool.not_eq_true', List.isEmpty_eq_false_iff,
    List.contains_eq_mem, decide_eq_false_iff_not] at h
  -- The conjunction comes out nested to the left, one pair for each `&&`.
  obtain ⟨⟨⟨⟨hdot, hdotDot⟩, hne⟩, hzero⟩, hslash⟩ := h
  exact ⟨⟨hdot, hdotDot⟩, hne, hzero, hslash⟩

end Disk

namespace Entry

/-- An entry that a disk can hold. Only directories and links can fail to be one, so soundness is about the tree and
never about what its files say. -/
inductive Sound : Entry → Prop
  | file {contents : Bytes} {access : Access} : Sound (.file contents access)
  | pipe {contents : Bytes} {access : Access} : Sound (.pipe contents access)
  | device {answer : Bytes} {access : Access} : Sound (.device answer access)
  | link {target : Bytes} {access : Access} : 0 ∉ target → Sound (.link target access)
  | directory {entries : List (Bytes × Entry)} {access : Access} :
      (∀ entry ∈ entries, Disk.IsName entry.1) → (∀ entry ∈ entries, Sound entry.2) →
        (entries.map (·.1)).Nodup → Sound (.directory entries access)

mutual

/-- Whether a disk can hold the entry. -/
def isSound : Entry → Bool
  | .link target _ => !target.contains 0
  | .directory entries _ => areSound entries && decide (entries.map (·.1)).Nodup
  | _ => true

/-- Whether a directory can hold the entries one by one. That their names differ is not a property of each and is
asked for by `isSound`. -/
def areSound : List (Bytes × Entry) → Bool
  | [] => true
  | (name, e) :: rest => Disk.isName name && isSound e && areSound rest

end

mutual

/-- **Soundness can be checked**, so that a given disk is shown to be sound by evaluation. Only this direction is
needed for that. -/
theorem sound_of_isSound : ∀ e : Entry, e.isSound = true → e.Sound
  | .file _ _, _ => .file
  | .pipe _ _, _ => .pipe
  | .device _ _, _ => .device
  | .link target _, h => by
    simp only [isSound, Bool.not_eq_true', List.contains_eq_mem, decide_eq_false_iff_not] at h
    exact .link h
  | .directory entries _, h => by
    simp only [isSound, Bool.and_eq_true, decide_eq_true_eq] at h
    have hentries := sound_of_areSound entries h.1
    exact .directory (fun entry hentry => (hentries entry hentry).1)
      (fun entry hentry => (hentries entry hentry).2) h.2

theorem sound_of_areSound : ∀ entries : List (Bytes × Entry), areSound entries = true →
    ∀ entry ∈ entries, Disk.IsName entry.1 ∧ entry.2.Sound
  | [], _ => by simp
  | (name, e) :: rest, h => by
    simp only [areSound, Bool.and_eq_true] at h
    exact List.forall_mem_cons.2 ⟨⟨Disk.isName_of_isName h.1.1, sound_of_isSound e h.1.2⟩,
      sound_of_areSound rest h.2⟩

end

variable {e found : Entry} {entries : List (Bytes × Entry)} {name : Bytes} {access : Access}

theorem mem_of_find? (h : find? name entries = some e) : (name, e) ∈ entries := by
  obtain ⟨⟨n, e'⟩, hfind, rfl⟩ := Option.map_eq_some_iff.1 h
  have hname : n = name := by simpa using List.find?_some hfind
  exact hname ▸ List.mem_of_find?_eq_some hfind

/-- A place can be reached in two steps. Walks lengthen a place at its end, while `at?` goes down it from its
beginning. -/
theorem at?_append (e : Entry) (place rest : List Bytes) :
    e.at? (place ++ rest) = (e.at? place).bind (·.at? rest) := by
  induction place generalizing e with
  | nil => rfl
  | cons name place ih =>
    rw [List.cons_append, at?, at?]
    cases e.child? name with
    | none => rfl
    | some below => exact ih below

namespace Sound

/-- What a directory holds has a name and is sound itself. -/
theorem of_mem (h : (Entry.directory entries access).Sound) (hmem : (name, e) ∈ entries) :
    Disk.IsName name ∧ e.Sound := by
  cases h with
  | directory hnames hbelow _ => exact ⟨hnames _ hmem, hbelow _ hmem⟩

/-- Who may use a directory says nothing about what is in it. -/
theorem directory_of (h : (Entry.directory entries access).Sound) (other : Access) :
    (Entry.directory entries other).Sound := by
  cases h with
  | directory hnames hbelow hnodup => exact .directory hnames hbelow hnodup

/-- The one fact about links that the induction over canonical paths needs. -/
theorem zeroless_target {target : Bytes} (h : (Entry.link target access).Sound) : target.toText.Zeroless := by
  cases h with
  | link hzero => exact Text.zeroless_toText hzero

/-- Soundness goes down the tree. Only a directory can be gone down, so the other cases end at once. -/
theorem of_at? {place : List Bytes} (h : e.Sound) (hat : e.at? place = some found) : found.Sound := by
  induction place generalizing e with
  | nil =>
    obtain rfl := Option.some.inj hat
    exact h
  | cons name place ih =>
    obtain ⟨below, hbelow, hrest⟩ := Option.bind_eq_some_iff.1 hat
    cases h with
    | directory hnames hsound hnodup => exact ih (hsound _ (mem_of_find? hbelow)) hrest
    | file => simp [child?] at hbelow
    | pipe => simp [child?] at hbelow
    | device => simp [child?] at hbelow
    | link => simp [child?] at hbelow

end Sound

end Entry

namespace Disk

/-- **What a walk finds** lies at the place that it gives. Of the fourteen ways in which a walk goes on, only two end
with an entry; the others fail, find a free place, or go on from a place about which nothing need be known. -/
theorem at?_of_found {disk : Disk} {follow want s : Bool} {links : Nat} {place names q : List Bytes}
    {e : Entry} (h : walk disk follow want links place names = .ok (.found q e s)) :
    disk.at? q = some e := by
  fun_induction walk disk follow want links place names with
  | case1 => simp at h
  | case2 want links place entry hentry =>
    obtain ⟨rfl, rfl, _⟩ := Target.found.inj (Except.ok.inj h)
    exact hentry
  | case3 => simp at h
  | case4 want links place rest entries access _ _ ih => exact ih h
  | case5 want links place rest entries access _ _ _ ih => exact ih h
  | case6 => simp at h
  | case7 => simp at h
  | case8 => simp at h
  | case9 want links place name rest entries access hdir _ _ _ _ target _ hlink =>
    -- The walk ends at a link that is not followed.
    obtain ⟨rfl, rfl, _⟩ := Target.found.inj (Except.ok.inj h)
    rw [at?] at hdir ⊢
    rw [Entry.at?_append, hdir]
    simp [Entry.at?, Entry.child?, hlink]
  | case10 => simp at h
  | case11 => simp at h
  | case12 want place name rest entries access _ _ _ _ _ target _ _ _ links _ _ _ ih => exact ih (by simpa using h)
  | case13 want links place name rest entries access _ _ _ _ _ below _ _ ih => exact ih h
  | case14 => simp at h

end Disk

/-! ## Paths without zeros -/

namespace Path

variable {p q : Text} {names : List Text}

/-- Components are cut out of a path, so they hold nothing that it does not. -/
theorem zeroless_components (h : p.Zeroless) : ∀ n ∈ components p, n.Zeroless := by
  intro n hn
  have hpart : n ∈ splitList slash p := (List.mem_filter.1 hn).1
  exact h.of_subset (subset_of_mem_splitList hpart)

theorem zeroless_slash : Text.Zeroless [slash] := by decide

/-- A path made of names holds only them and slashes. -/
theorem zeroless_ofNames {start : Text} (hs : IsAnchor start) (h : ∀ n ∈ names, n.Zeroless) :
    (ofNames start names).Zeroless := by
  -- An anchor is one slash or two; the names are joined by single ones.
  refine Text.Zeroless.append ?_ fun hmem => ?_
  · rcases hs with rfl | rfl
    · exact zeroless_slash
    · exact zeroless_slash.append zeroless_slash
  · rcases Text.mem_join hmem with hmem | ⟨n, hn, hmem⟩
    · exact zeroless_slash hmem
    · exact h n hn hmem

theorem zeroless_join (hp : p.Zeroless) (hq : q.Zeroless) : (join p q).Zeroless := by
  rw [join]
  split
  · exact hq
  · split
    · exact hp.append hq
    · exact hp.append (zeroless_slash.append hq)

/-- The parent of a clean path is made of its components again, all but the last. -/
theorem zeroless_parent (hp : Clean p) (hz : p.Zeroless) : (parent p).Zeroless := by
  rcases hp.normal.parent_eq with ⟨_, heq⟩ | ⟨init, last, hcomponents, heq⟩
  · rwa [heq]
  · rw [heq]
    refine zeroless_ofNames hp.normal.anchored fun n hn => zeroless_components hz n ?_
    rw [hcomponents]
    exact List.mem_append_left _ hn

/-- Making a path absolute may drop components, but it takes none from anywhere but the path and the working
directory. -/
theorem zeroless_absolute {cwd : Text} (hcwd : isAbsolute cwd = true) (hc : cwd.Zeroless) (hp : p.Zeroless) :
    (absolute cwd p).Zeroless := by
  obtain ⟨hnormal, hmem⟩ := isNormal_normalize (isAbsolute_join hcwd p)
  rw [absolute, hnormal.eq]
  exact zeroless_ofNames hnormal.anchored fun n hn =>
    zeroless_components (zeroless_join hc hp) n (hmem n hn)

end Path

/-! ## Hosts -/

namespace Host

variable {host : Host} {path : Text}

/-- A machine with a sound disk, whose working directory has a name. Nothing is said about the working directory being
there: it may have been removed, and then a path that starts from it fails as any other. -/
structure Sound (host : Host) : Prop where
  disk : host.disk.root.Sound
  cwd : ∀ name ∈ host.cwd, Disk.IsName name

theorem Sound.zeroless_cwdText (h : host.Sound) : host.cwdText.Zeroless := by
  refine zeroless_ofNames (.inl rfl) fun n hn => ?_
  obtain ⟨name, hname, rfl⟩ := List.mem_map.1 hn
  exact Text.zeroless_toText (h.cwd name hname).zeroless

theorem Sound.zeroless_absolute (h : host.Sound) (hz : path.Zeroless) : (host.absolute path).Zeroless :=
  Path.zeroless_absolute (isAbsolute_cwdText host) h.zeroless_cwdText hz

/-- **A look-up that fails** is a fault of the disk. Two things could fail before a disk is asked, a path without
bytes and one with a zero in it, and the hypotheses rule out both. -/
theorem exists_fault {follow : Bool} {e : PathError} (hd : path.Decoded) (hz : path.Zeroless)
    (h : host.entry follow path = .error e) : ∃ f, e = .fault f := by
  have hzero : path.key.contains 0 = false := by
    rw [List.contains_eq_mem, decide_eq_false_iff_not]
    exact fun hmem => hz (Text.mem_of_mem_key (s := 0) (by decide) hmem)
  -- The text has bytes, and no zero is among them, so the disk is asked.
  rw [entry, pathBytes, hd.encode_eq] at h
  simp only [hzero, Bool.false_eq_true, if_false] at h
  split at h
  · simp at h
  · next f _ => exact ⟨f, (Except.error.inj h).symm⟩

/-- What a path leads to is on the disk, at the place that comes with it. This is `Disk.at?_of_found` with the tests
around the walk taken away. -/
theorem at?_of_entry {follow : Bool} {place : List Bytes} {e : Entry}
    (h : host.entry follow path = .ok (place, e)) : host.disk.at? place = some e := by
  unfold entry at h
  split at h
  · simp at h
  · next bytes _ =>
    split at h
    · next found hfound =>
      obtain rfl := Except.ok.inj h
      unfold Disk.entry at hfound
      split at hfound
      · next q entry slash hlocate =>
        split at hfound
        · simp at hfound
        · obtain ⟨rfl, rfl⟩ := Prod.mk.inj (Except.ok.inj hfound)
          unfold Disk.locate at hlocate
          split at hlocate
          · simp at hlocate
          · exact Disk.at?_of_found hlocate
      · simp at hfound
      · simp at hfound
    · simp at h

theorem Sound.entry {follow : Bool} {place : List Bytes} {e : Entry} (hhost : host.Sound)
    (h : host.entry follow path = .ok (place, e)) : e.Sound :=
  hhost.disk.of_at? (at?_of_entry h)

/-- A directory is listed if it may be read. Nothing else that could be at the end of a path has entries. -/
theorem list_eq_ok {entries : List (Bytes × Entry)} : host.list path = .ok entries ↔
    ∃ place access, host.entry true path = .ok (place, .directory entries access) ∧ access.read = true := by
  unfold list
  rcases host.entry true path with e | ⟨place, entry⟩
  · simp
  · cases entry with
    | directory inner access => cases hread : access.read <;> simp [hread]
    | _ => simp

/-! ## Canonical paths -/

/-- Both halves of a path that is cut at its first slash are parts of it. -/
theorem zeroless_firstComponent {rest : Text} (h : rest.Zeroless) :
    (firstComponent rest).1.Zeroless ∧ (firstComponent rest).2.Zeroless := by
  have hrest : (rest.dropWhile (· != slash)).drop 1 ⊆ rest :=
    ((List.drop_sublist _ _).trans (List.dropWhile_sublist _)).subset
  exact ⟨h.of_subset (List.takeWhile_subset _), h.of_subset hrest⟩

/-- On a sound disk no zero comes up on the way to a canonical path, since no target of a link holds one. -/
theorem Sound.walkable (hhost : host.Sound) : Walkable host fun t => t.Decoded ∧ t.Zeroless where
  decoded h := h.1
  root := ⟨clean_root.decoded, zeroless_slash⟩
  parent hp h := ⟨hp.parent.decoded, zeroless_parent hp h.2⟩
  join hp hq := ⟨decoded_join hp.1 hq.1, zeroless_join hp.2 hq.2⟩
  first h := by
    obtain ⟨hname, _, hlater⟩ := decoded_firstComponent h.1
    obtain ⟨hnameZero, hlaterZero⟩ := zeroless_firstComponent h.2
    exact ⟨⟨hname, hnameZero⟩, hlater, hlaterZero⟩
  target hentry := ⟨Text.decoded_toText _, (hhost.entry hentry).zeroless_target⟩

/-- **A directory has a canonical path** on a sound disk, unless a link on the way to it does not show its
target, or the path starts from a working directory that is not there. -/
theorem canonical_cases (hhost : host.Sound) (hd : path.Decoded) (hz : path.Zeroless) :
    (∃ t, host.canonical path = .ok t) ∨
      (∃ link f, host.canonical path = .error (.fault f, link) ∧ host.linkTarget? link = some (.error f)) ∨
      host.isAdrift path = true ∧ host.canonical path = .error (noWorkingDirectory, path) := by
  rw [canonical]
  split
  · next hadrift => exact .inr (.inr ⟨hadrift, rfl⟩)
  · have hstart : (host.absolute path).Decoded ∧ (host.absolute path).Zeroless :=
      ⟨decoded_absolute (isAbsolute_cwdText host) (decoded_cwdText host) hd, hhost.zeroless_absolute hz⟩
    -- The induction runs over the components that are left and carries the two conditions along. How it can end is a
    -- matter of three cases, and soundness excludes the last.
    have hends := @Walkable.follow host _ hhost.walkable
      ((host.disk.root.linkCount + 1) * ((host.absolute path).length + 1)) _ _ _ clean_root hhost.walkable.root
      hstart (.nil _)
    dsimp only
    generalize host.follow _ Path.root (host.absolute path) [] = walked at hends ⊢
    cases hends with
    | trail => exact .inl ⟨_, rfl⟩
    | unreadable hlink => exact .inr (.inl ⟨_, _, rfl, hlink⟩)
    | noPath hstep hentry hfault =>
      -- What is wrong with such a text is a zero, or a character without bytes.
      obtain ⟨f, rfl⟩ := exists_fault hstep.1 hstep.2 hentry
      exact absurd rfl (hfault f)

/-- A path with a canonical form does not hang on a working directory that is gone. -/
theorem isAdrift_of_canonical {t : Text} (h : host.canonical path = .ok t) : host.isAdrift path = false := by
  rw [canonical] at h
  split at h
  · simp at h
  · next hadrift => simpa using hadrift

end Host

end HeaderAtlas
