import HeaderAtlas.Disk.Host
import HeaderAtlas.Proofs.Path.Normal
/-!
# Paths without links and the places they name

A normal path is looked up by the bytes of its components. If no part of it is a link, then the look-up
meets no link and ends at the place with these very names. So a file that is found by such a path lies at
that place, and every directory above it is a plain directory (`Host.at?_of_isFile`).
-/

set_option autoImplicit false

namespace HeaderAtlas

open HeaderAtlas.Path

/-! ## The bytes of a path -/

namespace Disk

theorem pathNames_append (a b : Bytes) :
    pathNames (a ++ slashByte :: b) = pathNames a ++ pathNames b := by
  rw [pathNames, splitList_append, List.filter_append]
  rfl

theorem pathNames_cons (a : Bytes) : pathNames (slashByte :: a) = pathNames a := pathNames_append [] a

theorem pathNames_free {a : Bytes} (hne : a ≠ []) (hfree : slashByte ∉ a) : pathNames a = [a] := by
  rw [pathNames, splitList_free hfree]
  simp [hne]

end Disk

namespace Path

variable {name : Text} {names : List Text} {start : Text}

theorem key_cons_slash (t : Text) : Text.key (slash :: t) = Disk.slashByte :: t.key :=
  Text.key_cons_ascii (by decide) t

theorem slashByte_notMem_key (h : slash ∉ name) : Disk.slashByte ∉ name.key :=
  fun hmem => h (Text.mem_of_mem_key (by decide) hmem)

/-- **The bytes of a path name the bytes of its components.** -/
theorem pathNames_key_join (hnames : ∀ n ∈ names, Proper n ∧ n.Decoded) :
    Disk.pathNames (Text.key (Text.join [slash] names)) = names.map Text.key := by
  induction names with
  | nil => rfl
  | cons n rest ih =>
    obtain ⟨hproper, hd⟩ := hnames n List.mem_cons_self
    have hn := Disk.pathNames_free (hd.hasBytes.key_ne_nil hproper.ne_nil) (slashByte_notMem_key hproper.slashless)
    have hrest := ih fun m hm => hnames m (List.mem_cons_of_mem _ hm)
    by_cases hne : rest = []
    · rw [hne, Text.join_singleton, hn]
      rfl
    · rw [Text.join_cons hne, List.append_assoc, List.singleton_append, Text.key_append, key_cons_slash,
        Disk.pathNames_append, hn, hrest]
      rfl

theorem pathNames_key (hs : IsAnchor start) (hnames : ∀ n ∈ names, Proper n ∧ n.Decoded) :
    Disk.pathNames (Text.key (ofNames start names)) = names.map Text.key := by
  rw [← pathNames_key_join hnames]
  rcases hs with rfl | rfl
  · rw [ofNames, List.singleton_append, key_cons_slash, Disk.pathNames_cons]
  · rw [ofNames, List.cons_append, List.singleton_append, key_cons_slash, key_cons_slash,
      Disk.pathNames_cons, Disk.pathNames_cons]

/-- A path with names does not end with a slash. -/
theorem endsWithSlash_key (hne : names ≠ []) (hnames : ∀ n ∈ names, Proper n ∧ n.Decoded) :
    Disk.endsWithSlash (Text.key (ofNames start names)) = false := by
  obtain ⟨last, hmem, before, hbefore⟩ := exists_ofNames_eq_append start hne
  obtain ⟨hproper, hd⟩ := hnames last hmem
  have hkey := hd.hasBytes.key_ne_nil hproper.ne_nil
  have hfree := slashByte_notMem_key hproper.slashless
  rw [hbefore, Text.key_append, Disk.endsWithSlash, List.getLast?_append,
    List.getLast?_eq_some_getLast hkey, Option.some_or]
  have hlast : last.key.getLast hkey ≠ Disk.slashByte := fun h => hfree (h ▸ List.getLast_mem hkey)
  simpa using hlast

/-- A path begins with the paths above it. -/
theorem ofNames_initial {pre : List Text} (h : pre <+: names) : ofNames start pre <+: ofNames start names := by
  obtain ⟨rest, rfl⟩ := h
  induction rest generalizing pre with
  | nil =>
    refine ⟨[], ?_⟩
    rw [List.append_nil, List.append_nil]
  | cons n rest ih =>
    have hstep : ofNames start pre <+: ofNames start (pre ++ [n]) := by
      by_cases hpre : pre = []
      · exact ⟨n, by rw [hpre]; simp [ofNames]⟩
      · exact ⟨slash :: n, (ofNames_concat hpre).symm⟩
    rw [List.append_cons]
    exact hstep.trans ih

end Path

/-! ## Walking without links -/

namespace Disk

variable {disk : Disk} {place : List Bytes} {name : Bytes} {rest : List Bytes}

/-- A name that leads down, as bytes. -/
structure Downward (name : Bytes) : Prop where
  ne_dot : name ≠ dot
  ne_dotDot : name ≠ dotDot

/-- There is a directory at the place, with these entries, that may be passed through. Whether it may also be
listed is another question, which no look-up asks. -/
def Passable (disk : Disk) (place : List Bytes) (entries : List (Bytes × Entry)) : Prop :=
  ∃ access, disk.at? place = some (.directory entries access) ∧ access.search = true

variable {entries : List (Bytes × Entry)} {access : Access}

theorem passable (hdir : disk.at? place = some (.directory entries access)) (hsearch : ¬ access.search = false) :
    disk.Passable place entries :=
  ⟨access, hdir, Bool.not_eq_false _ |>.mp hsearch⟩

/-- A step down to something that is no link. -/
theorem walk_down {follow want : Bool} {links : Nat} {below : Entry}
    (hdir : disk.Passable place entries) (hname : Downward name)
    (hlen : name.length ≤ maxName) (hbelow : Entry.find? name entries = some below)
    (hlink : ∀ target access, below ≠ .link target access) :
    walk disk follow want links place (name :: rest) =
      walk disk follow want links (place ++ [name]) rest := by
  obtain ⟨access, hat, hsearch⟩ := hdir
  rw [walk, hat]
  simp only [hsearch, Bool.true_eq_false, if_false, if_neg hname.ne_dot, if_neg hname.ne_dotDot,
    if_neg (Nat.not_lt.2 hlen), hbelow]

/-- A link that is asked for itself. Its target need not be readable for that. -/
theorem walk_link {links : Nat} {target : Bytes} (hdir : disk.Passable place entries) (hname : Downward name)
    (hlen : name.length ≤ maxName) (hlink : Entry.find? name entries = some (.link target access)) :
    walk disk false false links place [name] = .ok (.found (place ++ [name]) (.link target access) false) := by
  obtain ⟨_, hat, hsearch⟩ := hdir
  rw [walk, hat]
  simp [hsearch, if_neg hname.ne_dot, if_neg hname.ne_dotDot, if_neg (Nat.not_lt.2 hlen), hlink]

/-- **What a walk that finds something needs** for its first step: an open directory that has the name. -/
theorem exists_of_walk_cons {follow want : Bool} {links : Nat} {q : List Bytes} {e : Entry} {s : Bool}
    (hname : Downward name) (h : walk disk follow want links place (name :: rest) = .ok (.found q e s)) :
    ∃ entries below, disk.Passable place entries ∧ name.length ≤ maxName ∧
      Entry.find? name entries = some below := by
  rw [walk] at h
  split at h
  · next entries access hdir =>
    split at h
    · simp at h
    · next hsearch =>
      rw [if_neg hname.ne_dot, if_neg hname.ne_dotDot] at h
      split at h
      · simp at h
      · next hlen =>
        refine ⟨entries, ?_⟩
        cases hfind : Entry.find? name entries with
        | none =>
          rw [hfind] at h
          simp only at h
          split at h <;> simp at h
        | some below => exact ⟨below, passable hdir hsearch, by omega, rfl⟩
  · simp at h

/-- **A walk that meets no link ends where its names say.** The induction is over the names still to
come; `done` is where the walk stands, and a walk from the root that does not follow a last link passes
by the same way. -/
theorem at?_of_walk {want : Bool} {done : List Bytes} {q : List Bytes} {e : Entry} {s : Bool}
    (hnames : ∀ name ∈ rest, Downward name)
    (hway : ∀ more, walk disk false false maxLinks [] (done ++ more) =
      walk disk false false maxLinks done more)
    (hfree : ∀ pre, pre ≠ [] → pre <+: rest → ∀ q target access,
      walk disk false false maxLinks [] (done ++ pre) ≠ .ok (.found q (.link target access) false))
    (h : walk disk true want maxLinks done rest = .ok (.found q e s)) :
    disk.at? (done ++ rest) = some e := by
  induction rest generalizing done with
  | nil =>
    rw [walk] at h
    cases hat : disk.at? done with
    | none => rw [hat] at h; simp at h
    | some entry =>
      rw [hat] at h
      simp only [Except.ok.injEq, Target.found.injEq] at h
      rw [List.append_nil, hat, h.2.1]
  | cons name rest ih =>
    have hname := hnames name List.mem_cons_self
    obtain ⟨entries, below, hdir, hlen, hfind⟩ := exists_of_walk_cons hname h
    -- A link here would be what a walk up to this name finds, and that was ruled out.
    have hlink : ∀ target access, below ≠ .link target access := by
      rintro target access rfl
      refine hfree [name] (by simp) (by simp) (done ++ [name]) target access ?_
      rw [hway, walk_link hdir hname hlen hfind]
    rw [walk_down hdir hname hlen hfind hlink] at h
    rw [List.append_cons]
    refine ih (fun n hn => hnames n (List.mem_cons_of_mem _ hn)) (fun more => ?_) ?_ h
    · rw [← List.append_cons, hway, walk_down hdir hname hlen hfind hlink]
    · intro pre _ hpre q target access
      rw [← List.append_cons]
      exact hfree (name :: pre) (by simp) (by simpa using hpre) q target access

end Disk

/-! ## Hosts -/

namespace Path

/-- A proper name leads down as bytes too. -/
theorem Proper.downward {name : Text} (h : Proper name) (hd : name.Decoded) : Disk.Downward name.key where
  ne_dot hkey := h.ne_here (hd.eq_of_key_eq (by decide) hkey)
  ne_dotDot hkey := h.ne_up (hd.eq_of_key_eq (by decide) hkey)

end Path

namespace Host

variable {host : Host} {start : Text} {names : List Text}

/-- The bytes of a path that a disk takes at all: none is zero, and there are not too many. -/
structure Usable (bytes : Bytes) : Prop where
  nonzero : bytes.contains 0 = false
  short : bytes.length < Disk.maxPath

theorem Usable.of_initial {x y : Bytes} (h : Usable y) (hxy : x <+: y) : Usable x where
  nonzero := by
    rw [List.contains_eq_mem, decide_eq_false_iff_not]
    intro hmem
    have := h.nonzero
    rw [List.contains_eq_mem, decide_eq_false_iff_not] at this
    exact this (hxy.subset hmem)
  short := Nat.lt_of_le_of_lt hxy.length_le h.short

/-- **What is found at an absolute path** is what a walk over its names finds. -/
theorem entry_eq_ok {p : Text} (habs : isAbsolute p = true) {follow : Bool} {q : List Bytes} {e : Entry} :
    host.entry follow p = .ok (q, e) ↔ p.HasBytes ∧ Usable p.key ∧ ∃ s, (s && !e.isDirectory) = false ∧
      Disk.walk host.disk follow (Disk.endsWithSlash p.key) Disk.maxLinks [] (Disk.pathNames p.key) =
        .ok (.found q e s) := by
  obtain ⟨rest, rfl⟩ := List.head?_eq_some_iff.1 (beq_iff_eq.1 habs)
  have hrooted : Disk.isRooted (Text.key (slash :: rest)) = true := by rw [key_cons_slash]; rfl
  have hempty : (Text.key (slash :: rest)).isEmpty = false := by rw [key_cons_slash]; rfl
  -- A look-up makes bytes of the path, refuses some of them, and leaves the rest to the disk.
  rw [entry, pathBytes]
  cases hencode : Text.encode (slash :: rest) with
  | error f =>
    simp only [reduceCtorEq, false_iff]
    rintro ⟨hbytes, _⟩
    rw [hbytes.encode_eq] at hencode
    simp at hencode
  | ok bytes =>
    have hbytes := Text.hasBytes_of_encode hencode
    obtain rfl := Except.ok.inj (hbytes.encode_eq.symm.trans hencode)
    generalize hkey : Text.key (slash :: rest) = key at hrooted hempty
    cases hzero : key.contains 0 with
    | true =>
      simp only [hzero, if_true, reduceCtorEq, false_iff]
      rintro ⟨_, husable, _⟩
      exact absurd husable.nonzero (by rw [hzero]; decide)
    | false =>
      simp only [hzero, Bool.false_eq_true, if_false, Disk.entry, Disk.locate, hempty, Bool.false_or, hrooted, if_true,
        decide_eq_true_eq]
      by_cases hlen : Disk.maxPath ≤ key.length
      · simp only [if_pos hlen, reduceCtorEq, false_iff]
        rintro ⟨_, husable, _⟩
        exact absurd husable.short (by omega)
      · rw [if_neg hlen]
        have husable : Usable key := ⟨hzero, by omega⟩
        rcases Disk.walk host.disk follow (Disk.endsWithSlash key) Disk.maxLinks [] (Disk.pathNames key) with
          f | ⟨place, entry, slash⟩ | ⟨place, slash⟩
        · simp
        · simp only [hbytes, husable, true_and, Except.ok.injEq, Disk.Target.found.injEq]
          -- What the walk has found is refused if the path asks for a directory and it is none.
          cases hslash : slash && !entry.isDirectory with
          | true =>
            simp only [if_true, reduceCtorEq, false_iff]
            rintro ⟨s, hs, rfl, rfl, rfl⟩
            rw [hslash] at hs
            exact absurd hs (by decide)
          | false =>
            simp only [Bool.false_eq_true, if_false, Except.ok.injEq, Prod.mk.injEq]
            constructor
            · rintro ⟨rfl, rfl⟩
              exact ⟨slash, hslash, rfl, rfl, rfl⟩
            · rintro ⟨s, _, rfl, rfl, _⟩
              exact ⟨rfl, rfl⟩
        · simp

/-- What is found at a normal path is what a walk over the bytes of its components finds. -/
theorem entry_ofNames_eq_ok (hs : IsAnchor start) (hnames : ∀ n ∈ names, Proper n ∧ n.Decoded)
    {follow : Bool} {q : List Bytes} {e : Entry} :
    host.entry follow (ofNames start names) = .ok (q, e) ↔ Usable (Text.key (ofNames start names)) ∧
      ∃ s, (s && !e.isDirectory) = false ∧
        Disk.walk host.disk follow (Disk.endsWithSlash (Text.key (ofNames start names))) Disk.maxLinks []
          (names.map Text.key) = .ok (.found q e s) := by
  have habs : isAbsolute (ofNames start names) = true := hs.isAbsolute _
  rw [entry_eq_ok habs, pathNames_key hs hnames]
  exact and_iff_right (decoded_ofNames hs fun n hn => (hnames n hn).2).hasBytes

/-- **A file that is found by a path without links** lies at the place with the path's names. -/
theorem at?_of_isFile (hs : IsAnchor start) (hnames : ∀ n ∈ names, Proper n ∧ n.Decoded)
    (hfree : ∀ pre, pre ≠ [] → pre <+: names → host.linkTarget? (ofNames start pre) = none)
    (h : host.isFile (ofNames start names) = true) :
    ∃ contents access, host.disk.at? (names.map Text.key) = some (.file contents access) := by
  obtain ⟨q, contents, access, hentry⟩ : ∃ q contents access,
      host.entry true (ofNames start names) = .ok (q, .file contents access) := by
    unfold isFile entry? at h
    rcases hentry : host.entry true (ofNames start names) with e | ⟨q, entry⟩
    · simp [hentry] at h
    · cases entry with
      | file contents access => exact ⟨q, contents, access, rfl⟩
      | _ => simp [hentry, Entry.isFile] at h
  obtain ⟨husable, s, _, hwalk⟩ := (entry_ofNames_eq_ok hs hnames).1 hentry
  refine ⟨contents, access, @Disk.at?_of_walk _ _ _ [] _ _ _ ?_ (fun _ => rfl) ?_ hwalk⟩
  · intro name hname
    obtain ⟨n, hn, rfl⟩ := List.mem_map.1 hname
    exact (hnames n hn).1.downward (hnames n hn).2
  · -- What a walk over some of the bytes finds is what the path with these names is looked up as.
    intro pre hne hpre q target access hlink
    obtain ⟨ns, hns, rfl⟩ := List.prefix_map_iff.1 hpre
    have hne' : ns ≠ [] := by
      rintro rfl
      exact hne rfl
    have hnames' : ∀ n ∈ ns, Proper n ∧ n.Decoded := fun n hn => hnames n (hns.subset hn)
    have hfound : host.entry false (ofNames start ns) = .ok (q, .link target access) := by
      rw [entry_ofNames_eq_ok hs hnames', endsWithSlash_key hne' hnames']
      obtain ⟨rest, hrest⟩ := @ofNames_initial names start ns hns
      refine ⟨husable.of_initial ⟨Text.key rest, ?_⟩, false, rfl, hlink⟩
      rw [← hrest, Text.key_append]
    have := hfree ns hne' hns
    simp [linkTarget?, entry?, hfound] at this

end Host

end HeaderAtlas
