import HeaderAtlas.Proofs.Disk.Route
/-!
# The canonical path of a directory that can be looked up

To find a canonical path, links are looked up one by one by the paths of the places they lie at. Such a path
may be too long for the disk, where the path that led there was not, and then the link counts as a plain
name. If no link on the route of a look-up lies at a place with too long a path, the canonical path is that
of the place where the look-up ends (`Host.canonical_eq`).

The links that were met are remembered, with the place that they lead to if they are resolved, and without
one as long as they are being followed. `Host.Known` says that what is remembered is right; the induction
goes over the route (`Host.follow_route`).
-/

set_option autoImplicit false

namespace HeaderAtlas

open HeaderAtlas.Path

/-! ## Names of bytes and names of texts -/

namespace Path

/-- A text without a slash is one component, or none if it is empty. -/
theorem components_of_slashless {t : Text} (h : slash ∉ t) : components t = if t = [] then [] else [t] := by
  split
  · next hnil => rw [hnil]; rfl
  · next hne => exact Segments.split_free hne h

/-- A proper name leads away from where it is used. -/
theorem Proper.leads {name : Text} (h : Proper name) : ¬ (name = [] ∨ name = here) :=
  not_or.2 ⟨h.ne_nil, h.ne_here⟩

/-- **The bytes of the components of a text** are the components of its bytes. So it makes no difference whether a
path is taken apart before it is encoded or after. -/
theorem map_key_components {t : Text} (ht : t.HasBytes) :
    (components t).map Text.key = Disk.pathNames t.key := by
  have hfree : ∀ {x : Text}, x.HasBytes → slash ∉ x → (components x).map Text.key = Disk.pathNames x.key := by
    intro x hbytes hx
    rw [components_of_slashless hx]
    split
    · next hnil => rw [hnil]; rfl
    · next hne => exact (Disk.pathNames_free (hbytes.key_ne_nil hne) (slashByte_notMem_key hx)).symm
  induction hn : t.length using Nat.strongRecOn generalizing t with
  | ind n ih =>
    by_cases hmem : slash ∈ t
    · obtain ⟨x, y, rfl, hx⟩ := List.eq_append_cons_of_mem hmem
      have hbefore := ht.of_subset (List.subset_append_left x (slash :: y))
      have hbehind := (ht.of_subset (List.subset_append_right x (slash :: y))).of_subset (List.subset_cons_self _ _)
      have hlen : y.length < n := by
        rw [← hn, List.length_append, List.length_cons]
        omega
      rw [components, Segments.split_append, List.map_append, Text.key_append, key_cons_slash,
        Disk.pathNames_append, ← hfree hbefore hx, ← ih y.length hlen hbehind rfl]
      rfl
    · exact hfree ht hmem

theorem map_key_components_toText (b : Bytes) : (components b.toText).map Text.key = Disk.pathNames b := by
  rw [map_key_components (Text.decoded_toText b).hasBytes, Bytes.key_toText]

theorem isAbsolute_toText (b : Bytes) : isAbsolute b.toText = Disk.isRooted b := by
  have hslash : ∀ {t : Text}, isAbsolute t = true → Disk.isRooted t.key = true := by
    intro t ht
    obtain ⟨rest, rfl⟩ := List.head?_eq_some_iff.1 (beq_iff_eq.1 ht)
    rw [key_cons_slash]
    rfl
  by_cases hb : Disk.isRooted b = true
  · obtain ⟨rest, rfl⟩ := List.head?_eq_some_iff.1 (beq_iff_eq.1 hb)
    have htext : Bytes.toText (Disk.slashByte :: rest) = slash :: Bytes.toText rest :=
      @Bytes.toText_append_ascii Disk.slashByte (by decide) [] rest
    rw [htext, hb]
    rfl
  · by_cases ht : isAbsolute b.toText = true
    · have := hslash ht
      rw [Bytes.key_toText] at this
      exact absurd this hb
    · rw [Bool.not_eq_true _ |>.mp hb, Bool.not_eq_true _ |>.mp ht]

end Path

namespace Disk

theorem IsName.proper {name : Bytes} (h : IsName name) : Proper name.toText where
  ne_nil hnil := h.ne_nil (by rw [← Bytes.key_toText name, hnil]; rfl)
  slashless hmem := h.slashless (Bytes.mem_of_mem_toText (by decide) hmem)
  ne_here heq := h.ne_dot (by rw [← Bytes.key_toText name, heq]; rfl)
  ne_up heq := h.ne_dotDot (by rw [← Bytes.key_toText name, heq]; rfl)

variable {disk : Disk} {place : List Bytes} {name : Bytes} {e : Entry}

/-- On a sound disk whatever can be found was found by names. -/
theorem isName_of_at? (hdisk : disk.root.Sound) (h : disk.at? place = some e) : ∀ n ∈ place, IsName n := by
  obtain ⟨root⟩ := disk
  change root.at? place = some e at h
  induction place generalizing root with
  | nil => simp
  | cons n place ih =>
    obtain ⟨below, hbelow, hrest⟩ := Option.bind_eq_some_iff.1 h
    cases hdisk with
    | @directory entries _ hnames hsound hnodup =>
      have hmem := Entry.mem_of_find? hbelow
      exact List.forall_mem_cons.2 ⟨hnames _ hmem, ih below (hsound _ hmem) hrest⟩
    | file => simp [Entry.child?] at hbelow
    | pipe => simp [Entry.child?] at hbelow
    | device => simp [Entry.child?] at hbelow
    | link => simp [Entry.child?] at hbelow

theorem Holds.isName (h : disk.Holds place name e) (hdisk : disk.root.Sound) :
    ∀ n ∈ place ++ [name], IsName n :=
  isName_of_at? hdisk h.at?

theorem Plain.isName (h : disk.Plain place) (hdisk : disk.root.Sound) : ∀ n ∈ place, IsName n := by
  cases h with
  | root => simp
  | down _ hholds _ => exact hholds.isName hdisk

end Disk

/-! ## The paths of places -/

namespace Host

variable {host : Host} {place : List Bytes} {name : Bytes} {e : Entry}

/-- A name on a sound disk is a proper name of a path. -/
theorem proper_of_isName (h : ∀ n ∈ place, Disk.IsName n) :
    ∀ n ∈ place.map Bytes.toText, Proper n ∧ n.Decoded := by
  intro n hn
  obtain ⟨b, hb, rfl⟩ := List.mem_map.1 hn
  exact ⟨(h b hb).proper, Text.decoded_toText b⟩

theorem map_key_map_toText (place : List Bytes) : (place.map Bytes.toText).map Text.key = place := by
  rw [List.map_map]
  exact List.map_id'' Bytes.key_toText place

/-- The path of a place is clean. This and the lemmas after it say what the operations on paths do to the paths of
places, so that from here on only places are spoken of. -/
theorem clean_placeText (h : ∀ n ∈ place, Disk.IsName n) : Clean (placeText place) :=
  clean_ofNames (.inl rfl) (proper_of_isName h)

theorem components_placeText (h : ∀ n ∈ place, Disk.IsName n) :
    components (placeText place) = place.map Bytes.toText :=
  components_ofNames (.inl rfl) fun n hn => (proper_of_isName h n hn).1

/-- A place can be told from its path, since its names can be told from its components. -/
theorem placeText_inj {place' : List Bytes} (h : ∀ n ∈ place, Disk.IsName n) (h' : ∀ n ∈ place', Disk.IsName n)
    (heq : placeText place = placeText place') : place = place' := by
  rw [← map_key_map_toText place, ← components_placeText h, heq, components_placeText h', map_key_map_toText]

theorem join_placeText (h : ∀ n ∈ place ++ [name], Disk.IsName n) :
    Path.join (placeText place) name.toText = placeText (place ++ [name]) := by
  have hjoin := @join_ofNames (place.map Bytes.toText) name.toText _ (.inl rfl)
    (fun n hn => (proper_of_isName (fun b hb => h b (List.mem_append_left _ hb)) n hn).1)
    (h name (by simp)).proper.slashless
  rw [← List.map_singleton, ← List.map_append] at hjoin
  exact hjoin

theorem parent_placeText (h : ∀ n ∈ place, Disk.IsName n) :
    Path.parent (placeText place) = placeText place.dropLast := by
  obtain rfl | ⟨init, last, rfl⟩ := List.eq_nil_or_concat' place
  · exact parent_ofNames_nil (.inl rfl)
  · have hparent := @parent_ofNames_concat (init.map Bytes.toText) last.toText _ (.inl rfl)
      (fun n hn => (proper_of_isName (fun b hb => h b (List.mem_append_left _ hb)) n hn).1)
      (h last (by simp)).proper.slashless
    rw [← List.map_singleton, ← List.map_append] at hparent
    rw [List.dropLast_concat]
    exact hparent

theorem placeText_concat (hne : place ≠ []) :
    placeText (place ++ [name]) = placeText place ++ slash :: name.toText := by
  have h := @ofNames_concat (place.map Bytes.toText) name.toText [slash] (by simpa using hne)
  rw [← List.map_singleton, ← List.map_append] at h
  exact h

/-- The bytes of the path of a place. -/
theorem key_placeText (hne : place ≠ []) : (placeText place).key = place.flatMap (Disk.slashByte :: ·) := by
  induction place using List.reverseRecOn with
  | nil => exact absurd rfl hne
  | append_singleton place name ih =>
    have hlast : Text.key (slash :: name.toText) = Disk.slashByte :: name := by
      rw [key_cons_slash, Bytes.key_toText]
    rw [List.flatMap_append, List.flatMap_singleton]
    by_cases hnil : place = []
    · subst hnil
      exact hlast
    · rw [placeText_concat hnil, Text.key_append, ih hnil, hlast]

/-- A directory contains what has one more name. -/
theorem contains_placeText (h : ∀ n ∈ place ++ [name], Disk.IsName n) :
    Path.contains host.cwdText (placeText place) (placeText (place ++ [name])) = true := by
  have hproper := fun n hn => (proper_of_isName h n hn).1
  rw [List.map_append] at hproper
  have hcontains := @contains_ofNames_append host.cwdText _ _ _ (.inl rfl) hproper
  rwa [← List.map_append] at hcontains

theorem zeroless_placeText (h : ∀ n ∈ place, Disk.IsName n) : (placeText place).Zeroless := by
  refine zeroless_ofNames (.inl rfl) fun n hn => ?_
  obtain ⟨b, hb, rfl⟩ := List.mem_map.1 hn
  exact Text.zeroless_toText (h b hb).zeroless

/-- The path of a place is not too long for the disk. A place may be reached by another path that is shorter, through
a link, so not every place that can be reached is short. -/
def Short (place : List Bytes) : Prop := (placeText place).key.length < Disk.maxPath

instance (place : List Bytes) : Decidable (Short place) := inferInstanceAs (Decidable (_ < _))

/-- The only thing that can be wrong with the path of a place is its length. -/
theorem usable_placeText (h : ∀ n ∈ place, Disk.IsName n) : Usable (placeText place).key ↔ Short place := by
  refine ⟨fun husable => husable.short, fun hshort => ⟨?_, hshort⟩⟩
  rw [List.contains_eq_mem, decide_eq_false_iff_not]
  exact fun hmem => zeroless_placeText h (Text.mem_of_mem_key (s := 0) (by decide) hmem)

/-- **Looking up a place by its path**, without following a link there. -/
theorem entry_placeText (hdisk : host.disk.root.Sound) (hplain : host.disk.Plain place)
    (hholds : host.disk.Holds place name e) {q : List Bytes} {e' : Entry} :
    host.entry false (placeText (place ++ [name])) = .ok (q, e') ↔
      Short (place ++ [name]) ∧ q = place ++ [name] ∧ e' = e := by
  have hnames := hholds.isName hdisk
  have hproper := proper_of_isName hnames
  have hslash : Disk.endsWithSlash (placeText (place ++ [name])).key = false :=
    @endsWithSlash_key _ [slash] (by simp) hproper
  have hwalk : Disk.walk host.disk false false Disk.maxLinks [] (place ++ [name]) =
      .ok (.found (place ++ [name]) e false) := by
    rw [hplain.walk_eq]
    cases e with
    | link target access =>
      obtain ⟨entries, hdir, hfind⟩ := hholds.listed
      exact Disk.walk_link hdir hholds.toDownward hholds.short hfind
    | _ => rw [hholds.walk_eq rfl, Disk.walk, hholds.at?]
  -- The path has the names of the place, so the look-up is that walk, unless the path is too long.
  have hentry := @entry_ofNames_eq_ok host [slash] ((place ++ [name]).map Bytes.toText) (.inl rfl) hproper
    false q e'
  rw [map_key_map_toText] at hentry
  change host.entry false (placeText (place ++ [name])) = .ok (q, e') ↔ Usable (placeText (place ++ [name])).key ∧
    ∃ s, (s && !e'.isDirectory) = false ∧ Disk.walk host.disk false
      (Disk.endsWithSlash (placeText (place ++ [name])).key) Disk.maxLinks [] (place ++ [name]) =
        .ok (.found q e' s) at hentry
  rw [hentry, hslash, hwalk, usable_placeText hnames]
  constructor
  · rintro ⟨hshort, s, _, hfound⟩
    obtain ⟨rfl, rfl, _⟩ := Disk.Target.found.inj (Except.ok.inj hfound)
    exact ⟨hshort, rfl, rfl⟩
  · rintro ⟨hshort, rfl, rfl⟩
    exact ⟨hshort, false, rfl, rfl⟩

/-- A plain place is no link. If its path is too long it cannot be looked up, and then it is taken for none either. -/
theorem linkTarget?_placeText (hdisk : host.disk.root.Sound) (h : host.disk.Plain place) (hne : place ≠ []) :
    host.linkTarget? (placeText place) = none := by
  cases h with
  | root => exact absurd rfl hne
  | @down place name e hplain hholds he =>
    rw [linkTarget?, entry?]
    rcases hentry : host.entry false (placeText (place ++ [name])) with f | ⟨q, e'⟩
    · rfl
    · obtain ⟨_, _, rfl⟩ := (entry_placeText hdisk hplain hholds).1 hentry
      cases e' with
      | link target access => simp [Entry.isLink] at he
      | _ => rfl

/-- **The path of a plain place** has no link in it. Its parts are the paths of the places above, which are
plain too. -/
theorem linkless_placeText (hdisk : host.disk.root.Sound) (h : host.disk.Plain place) :
    host.Linkless (placeText place) := by
  have hnames := h.isName hdisk
  have hanchor : anchor (placeText place) = [slash] :=
    anchor_ofNames (.inl rfl) fun n hn => (proper_of_isName hnames n hn).1
  rw [Linkless, components_placeText hnames, hanchor]
  intro pre hne hpre
  obtain ⟨above, habove, rfl⟩ := List.prefix_map_iff.1 hpre
  exact linkTarget?_placeText hdisk (h.of_initial habove) (by simpa using hne)

/-! ## The steps of following a path -/

section Steps

variable {path rest : Text} {names : List Bytes} {target : Bytes} {access : Access}

/-- The components of a text are the given names. There may be more slashes than are needed, which come from the
targets of links. -/
structure Spells (t : Text) (names : List Bytes) : Prop where
  decoded : t.Decoded
  names : (components t).map Text.key = names

theorem components_firstComponent (rest : Text) :
    components rest = components (firstComponent rest).1 ++ components (firstComponent rest).2 := by
  by_cases hmem : slash ∈ rest
  · obtain ⟨x, y, rfl, hx⟩ := List.eq_append_cons_of_mem hmem
    rw [firstComponent_append hx]
    exact Segments.split_append x y
  · rw [firstComponent_free hmem]
    exact (List.append_nil _).symm

/-- An empty component, or the one for the directory itself, changes nothing. -/
theorem follow_stay {fuel : Nat} {seen : SeenLinks} (hne : rest ≠ [])
    (hname : (firstComponent rest).1 = [] ∨ (firstComponent rest).1 = here) :
    host.follow fuel path rest seen = host.follow fuel path (firstComponent rest).2 seen := by
  rw [follow, dif_neg hne]
  exact if_pos hname

/-- Slashes alone lead nowhere. -/
theorem follow_nil (h : Spells rest []) (fuel : Nat) (path : Text) (seen : SeenLinks) :
    host.follow fuel path rest seen = .ok ⟨path, true, seen⟩ := by
  induction hn : rest.length using Nat.strongRecOn generalizing rest with
  | ind n ih =>
    by_cases hne : rest = []
    · rw [follow, dif_pos hne]
    · obtain ⟨_, hfree, hlater⟩ := decoded_firstComponent h.decoded
      have hnames := h.names
      rw [components_firstComponent, List.map_append, List.append_eq_nil_iff, components_of_slashless hfree,
        List.map_eq_nil_iff] at hnames
      have hnil : (firstComponent rest).1 = [] := by simpa using hnames.1
      rw [follow_stay hne (.inl hnil)]
      exact ih _ (hn ▸ length_firstComponent_lt hne) ⟨hlater, hnames.2⟩ rfl

/-- Slashes before the first component may be left out. -/
theorem exists_firstComponent (host : Host) (h : Spells rest (name :: names)) : ∃ head : Text, head ≠ [] ∧
    (firstComponent head).1 = name.toText ∧ Spells (firstComponent head).2 names ∧
    ∀ fuel path seen, host.follow fuel path rest seen = host.follow fuel path head seen := by
  induction hn : rest.length using Nat.strongRecOn generalizing rest with
  | ind len ih =>
    have hne : rest ≠ [] := by
      rintro rfl
      simpa [components] using h.names
    obtain ⟨hfirst, hfree, hlater⟩ := decoded_firstComponent h.decoded
    have hnames := h.names
    rw [components_firstComponent, components_of_slashless hfree] at hnames
    by_cases hnil : (firstComponent rest).1 = []
    · rw [if_pos hnil, List.nil_append] at hnames
      obtain ⟨head, hhead, hname, hspells, hfollow⟩ :=
        ih _ (hn ▸ length_firstComponent_lt hne) ⟨hlater, hnames⟩ rfl
      refine ⟨head, hhead, hname, hspells, fun fuel path seen => ?_⟩
      rw [follow_stay hne (.inl hnil), hfollow]
    · rw [if_neg hnil, List.singleton_append, List.map_cons, List.cons.injEq] at hnames
      refine ⟨rest, hne, ?_, ⟨hlater, hnames.2⟩, fun _ _ _ => rfl⟩
      rw [← hnames.1, hfirst.toText_key]

/-- The steps of following a path, one for each kind of name. In each of them some text is left that spells the names
that are left; which text does not matter. -/
theorem exists_follow_dot (host : Host) (h : Spells rest (Disk.dot :: names)) : ∃ later, Spells later names ∧
    ∀ fuel path seen, host.follow fuel path rest seen = host.follow fuel path later seen := by
  obtain ⟨head, hne, hname, hlater, hfollow⟩ := exists_firstComponent host h
  exact ⟨_, hlater, fun fuel path seen => by rw [hfollow, follow_stay hne (.inr hname)]⟩

theorem exists_follow_dotDot (host : Host) (h : Spells rest (Disk.dotDot :: names)) : ∃ later,
    Spells later names ∧
      ∀ fuel path seen, host.follow fuel path rest seen = host.follow fuel (Path.parent path) later seen := by
  obtain ⟨head, hne, hname, hlater, hfollow⟩ := exists_firstComponent host h
  refine ⟨_, hlater, fun fuel path seen => ?_⟩
  have hup : (firstComponent head).1 = up := hname
  have hnot : ¬ ((firstComponent head).1 = [] ∨ (firstComponent head).1 = here) := by
    rw [hup]
    decide
  rw [hfollow, follow, dif_neg hne]
  exact (if_neg hnot).trans (if_pos hup)

/-- **A step down.** A link that lies too deep counts as a plain name, since asking for it by its path fails. -/
theorem exists_follow_down (hdisk : host.disk.root.Sound) (hplain : host.disk.Plain place)
    (hholds : host.disk.Holds place name e) (he : Short (place ++ [name]) → e.isLink = false)
    (h : Spells rest (name :: names)) : ∃ later, Spells later names ∧ ∀ fuel seen,
      host.follow fuel (placeText place) rest seen =
        host.follow fuel (placeText (place ++ [name])) later seen := by
  obtain ⟨head, hne, hname, hlater, hfollow⟩ := exists_firstComponent host h
  have hisName := hholds.isName hdisk
  have hproper : Proper (firstComponent head).1 := hname ▸ (hisName name (by simp)).proper
  refine ⟨_, hlater, fun fuel seen => ?_⟩
  rw [hfollow, follow, dif_neg hne]
  refine (if_neg hproper.leads).trans ((if_neg hproper.ne_up).trans ?_)
  simp only [hname, join_placeText hisName]
  rcases hentry : host.entry false (placeText (place ++ [name])) with e' | ⟨q, e'⟩
  · obtain ⟨f, rfl⟩ := exists_fault (clean_placeText hisName).decoded (zeroless_placeText hisName) hentry
    rfl
  · obtain ⟨hshort, _, rfl⟩ := (entry_placeText hdisk hplain hholds).1 hentry
    cases e' with
    | link target access => exact absurd (he hshort) (by simp [Entry.isLink])
    | _ => rfl

/-- **The names of a plain place** are gone down one after the other. -/
theorem exists_follow_plain (hdisk : host.disk.root.Sound) {more : List Bytes}
    (hplain : host.disk.Plain (place ++ names)) (h : Spells rest (names ++ more)) : ∃ later, Spells later more ∧
      ∀ fuel seen, host.follow fuel (placeText place) rest seen =
        host.follow fuel (placeText (place ++ names)) later seen := by
  induction names generalizing place rest with
  | nil => exact ⟨rest, h, fun _ _ => by rw [List.append_nil]⟩
  | cons name names ih =>
    rw [List.append_cons] at hplain ⊢
    obtain ⟨e, hplace, hholds, he⟩ := (hplain.of_initial (List.prefix_append _ _)).of_concat
    obtain ⟨mid, hmid, hstep⟩ := exists_follow_down hdisk hplace hholds (fun _ => he) h
    obtain ⟨later, hlater, hthen⟩ := ih hplain hmid
    exact ⟨later, hlater, fun fuel seen => by rw [hstep, hthen]⟩

/-- What is remembered of a link: nothing, that it is being followed, or where it leads. -/
def recalled (seen : SeenLinks) (step : Text) : Option (Option Text) :=
  (seen.find? fun entry => entry.1 == step).map (·.2)

/-- The path that a link leads to, from the root or from where it lies. -/
theorem exists_aim (host : Host) (target : Bytes) : ∃ aim, Spells aim (Disk.pathNames target) ∧
    ∀ {fuel path seen},
      (if isAbsolute target.toText then host.follow fuel Path.root (target.toText.drop 1) seen
        else host.follow fuel path target.toText seen) =
      host.follow fuel (if Disk.isRooted target then Path.root else path) aim seen := by
  have hd := Text.decoded_toText target
  have hnames := map_key_components_toText target
  rw [isAbsolute_toText]
  by_cases habs : Disk.isRooted target = true
  · obtain ⟨t, ht⟩ := List.head?_eq_some_iff.1 (beq_iff_eq.1 ((isAbsolute_toText target).trans habs))
    rw [ht] at hd hnames ⊢
    refine ⟨t, ⟨(@Text.Decoded.of_append_ascii [] t _ (by decide) hd).2, ?_⟩, fun {_ _ _} => ?_⟩
    · rwa [components, Segments.split_cons_self] at hnames
    · rw [if_pos habs, if_pos habs]
      rfl
  · refine ⟨target.toText, ⟨hd, hnames⟩, fun {_ _ _} => ?_⟩
    rw [if_neg habs, if_neg habs]

/-- **A link on the way.** If it was resolved before, the walk goes on from there. If it is met for the first
time, its target is followed, and if that comes to an end the walk goes on from there. -/
theorem exists_follow_link (hdisk : host.disk.root.Sound) (hplain : host.disk.Plain place)
    (hholds : host.disk.Holds place name (.link target access)) (hread : access.read = true)
    (hshort : Short (place ++ [name])) (h : Spells rest (name :: names)) :
    ∃ aim later, Spells aim (Disk.pathNames target) ∧ Spells later names ∧
      (∀ {fuel seen resolved}, recalled seen (placeText (place ++ [name])) = some (some resolved) →
        host.follow fuel (placeText place) rest seen = host.follow fuel resolved later seen) ∧
      ∀ {fuel seen reached met}, recalled seen (placeText (place ++ [name])) = none →
        host.follow fuel (placeText (if Disk.isRooted target then [] else place)) aim
          ((placeText (place ++ [name]), none) :: seen) = .ok ⟨reached, true, met⟩ →
        host.follow (fuel + 1) (placeText place) rest seen =
          host.follow (fuel + 1) reached later ((placeText (place ++ [name]), some reached) :: met) := by
  obtain ⟨head, hne, hname, hlater, hfollow⟩ := exists_firstComponent host h
  obtain ⟨aim, haim, hif⟩ := exists_aim host target
  have hisName := hholds.isName hdisk
  have hproper : Proper (firstComponent head).1 := hname ▸ (hisName name (by simp)).proper
  have hentry := (entry_placeText hdisk hplain hholds).2 ⟨hshort, rfl, rfl⟩
  have hstay := hproper.leads
  have hup := hproper.ne_up
  rw [hname] at hstay hup
  refine ⟨aim, _, haim, hlater, fun hrecalled => ?_, fun hrecalled htrail => ?_⟩
  · unfold recalled at hrecalled
    rw [hfollow, follow, dif_neg hne]
    simp only [hname, if_neg hstay, if_neg hup, join_placeText hisName, hentry, hrecalled]
  · unfold recalled at hrecalled
    have hstart : placeText (if Disk.isRooted target then [] else place) =
        if Disk.isRooted target then Path.root else placeText place := apply_ite placeText _ _ _
    rw [hstart, ← hif] at htrail
    rw [hfollow, follow, dif_neg hne]
    simp only [hname, if_neg hstay, if_neg hup, join_placeText hisName, hentry, hrecalled, hread,
      Bool.true_eq_false, if_false, htrail]

end Steps

/-! ## Links that were met -/

variable {seen : SeenLinks} {links : List (List Bytes)}

/-- What is remembered is right: a link with an answer leads to the place with that path, and a link without one is
among those that are being followed. -/
def Known (disk : Disk) (links : List (List Bytes)) (seen : SeenLinks) : Prop :=
  ∀ step answer, recalled seen step = some answer →
    (∃ link inner q, disk.Resolves link inner q ∧ step = placeText link ∧ answer = some (placeText q)) ∨
      answer = none ∧ ∃ link ∈ links, step = placeText link

theorem recalled_cons (step : Text) (answer : Option Text) (seen : SeenLinks) (other : Text) :
    recalled ((step, answer) :: seen) other = if step = other then some answer else recalled seen other := by
  unfold recalled
  by_cases h : step = other
  · simp [h]
  · simp [h]

namespace Known

variable {disk : Disk} {link q : List Bytes} {inner : List (List Bytes)}

theorem nil : Known disk [] [] := by
  rintro step answer ⟨⟩

/-- A link that is entered has no answer yet. -/
theorem entering (h : Known disk links seen) (link : List Bytes) :
    Known disk (link :: links) ((placeText link, none) :: seen) := by
  intro step answer hrecalled
  rw [recalled_cons] at hrecalled
  split at hrecalled
  · next hstep => exact .inr ⟨(Option.some.inj hrecalled).symm, link, List.mem_cons_self, hstep.symm⟩
  · rcases h step answer hrecalled with hknown | ⟨hnone, other, hmem, hstep⟩
    · exact .inl hknown
    · exact .inr ⟨hnone, other, List.mem_cons_of_mem _ hmem, hstep⟩

/-- A link that was followed to its end gets its answer and is no longer among those being followed. -/
theorem leaving (h : Known disk (link :: links) seen) (hresolves : disk.Resolves link inner q) :
    Known disk links ((placeText link, some (placeText q)) :: seen) := by
  intro step answer hrecalled
  rw [recalled_cons] at hrecalled
  split at hrecalled
  · next hstep => exact .inl ⟨link, inner, q, hresolves, hstep.symm, (Option.some.inj hrecalled).symm⟩
  · next hstep =>
    rcases h step answer hrecalled with hknown | ⟨hnone, other, hmem, hother⟩
    · exact .inl hknown
    · rcases List.mem_cons.1 hmem with rfl | hmem
      · exact absurd hother.symm hstep
      · exact .inr ⟨hnone, other, hmem, hother⟩

/-- What is remembered of a link that is not being followed. Either it was never met, or it has been resolved and its
answer is the place that the route says. -/
theorem answer (hdisk : disk.root.Sound) (h : Known disk links seen) (hresolves : disk.Resolves link inner q)
    (hpending : ∀ other ∈ links, ∃ inner q, disk.Resolves other inner q) (hnot : link ∉ links) :
    recalled seen (placeText link) = none ∨ recalled seen (placeText link) = some (some (placeText q)) := by
  have hname : ∀ {link inner q}, disk.Resolves link inner q → ∀ n ∈ link, Disk.IsName n := by
    rintro _ _ _ ⟨place, name, target, _, rfl, hholds, _⟩
    exact hholds.isName hdisk
  cases hrecalled : recalled seen (placeText link) with
  | none => exact .inl rfl
  | some answer =>
    rcases h _ _ hrecalled with ⟨other, inner', q', hresolves', hstep, rfl⟩ | ⟨_, other, hmem, hstep⟩
    · obtain rfl := placeText_inj (hname hresolves) (hname hresolves') hstep
      obtain ⟨_, rfl⟩ := hresolves.unique hresolves'
      exact .inr rfl
    · obtain ⟨_, _, hresolves'⟩ := hpending other hmem
      obtain rfl := placeText_inj (hname hresolves) (hname hresolves') hstep
      exact absurd hmem hnot

end Known

/-! ## Following a route -/

/-- **Following a route leads to its end**, if the links on it have short paths. The induction is on the
route. A link that is met is not one of those being followed, so it was resolved before or is now, and the
fuel lasts, for it is as deep as the links on the disk. -/
theorem follow_route (hdisk : host.disk.root.Sound) {place names q : List Bytes} {met : List (List Bytes)}
    (hroute : host.disk.Route place names met q) (hplain : host.disk.Plain place)
    (hshort : ∀ link ∈ met, Short link) {fuel : Nat} {rest : Text} (hrest : Spells rest names)
    (hpending : host.disk.Pending links met.length)
    (hfuel : host.disk.root.linkCount ≤ fuel + links.length) (hseen : Known host.disk links seen) :
    ∃ later, host.follow fuel (placeText place) rest seen = .ok ⟨placeText q, true, later⟩ ∧
      Known host.disk links later := by
  induction hroute generalizing fuel rest links seen with
  | here => exact ⟨seen, follow_nil hrest _ _ _, hseen⟩
  | stay _ _ ih =>
    obtain ⟨later, hlater, hfollow⟩ := exists_follow_dot host hrest
    rw [hfollow]
    exact ih hplain hshort hlater hpending hfuel hseen
  | up _ _ ih =>
    obtain ⟨later, hlater, hfollow⟩ := exists_follow_dotDot host hrest
    rw [hfollow, parent_placeText (hplain.isName hdisk)]
    exact ih hplain.dropLast hshort hlater hpending hfuel hseen
  | down hholds he _ ih =>
    obtain ⟨later, hlater, hfollow⟩ := exists_follow_down hdisk hplain hholds (fun _ => he) hrest
    rw [hfollow]
    exact ih (hplain.down hholds he) hshort hlater hpending hfuel hseen
  | @link place rest' mid q name target access inner outer hholds hread hinner _ ihInner ihOuter =>
    obtain ⟨aim, later, haim, hlater, hrecalled, hfirst⟩ := exists_follow_link hdisk hplain hholds hread
      (hshort _ List.mem_cons_self) hrest
    have hresolves : host.disk.Resolves (place ++ [name]) inner mid := ⟨_, _, _, _, rfl, hholds, hinner⟩
    have hlength : ((place ++ [name]) :: inner ++ outer).length = inner.length + 1 + outer.length := by
      rw [List.length_append, List.length_cons]
    have hlt : inner.length < ((place ++ [name]) :: inner ++ outer).length := by omega
    have houter : outer.length ≤ ((place ++ [name]) :: inner ++ outer).length := by omega
    have hstart := hplain.start target
    have hthen : ∀ {seen}, Known host.disk links seen → ∃ met,
        host.follow fuel (placeText mid) later seen = .ok ⟨placeText q, true, met⟩ ∧
          Known host.disk links met := fun hseen =>
      ihOuter (hinner.plain hstart) (fun link hlink => hshort link (List.mem_append_right _ hlink)) hlater
        (hpending.mono houter) hfuel hseen
    have hresolved : ∀ other ∈ links, ∃ inner q, host.disk.Resolves other inner q := by
      intro other hother
      obtain ⟨inner', q', hresolves', _⟩ := hpending.resolves other hother
      exact ⟨inner', q', hresolves'⟩
    rcases hseen.answer hdisk hresolves hresolved (hpending.notMem hresolves hlt) with hnone | hsome
    · -- The link is met for the first time: it is followed with one more link pending.
      have hcons := hpending.cons hresolves hlt
      obtain ⟨fuel, rfl⟩ : ∃ n, fuel = n + 1 := by
        have hdepth := hcons.length_le
        rw [List.length_cons] at hdepth
        exact Nat.exists_eq_succ_of_ne_zero (by omega)
      have hinside : host.disk.root.linkCount ≤ fuel + ((place ++ [name]) :: links).length := by
        rw [List.length_cons]
        omega
      obtain ⟨met, htrail, hknown⟩ := ihInner hstart
        (fun link hlink => hshort link (List.mem_cons_of_mem _ (List.mem_append_left _ hlink))) haim hcons
        hinside (hseen.entering (place ++ [name]))
      rw [hfirst hnone htrail]
      exact hthen (hknown.leaving hresolves)
    · -- It was resolved before, and what is remembered is its end.
      rw [hrecalled hsome]
      exact hthen hseen

/-! ## Canonical paths -/

/-- A link that is met on the route of a path. Links in the targets of links count as well. -/
def Crosses (host : Host) (path : Text) (link : List Bytes) : Prop :=
  ∃ met q, host.disk.Route [] ((components (host.absolute path)).map Text.key) met q ∧ link ∈ met

/-- What a path leads to is at the end of its route. -/
theorem route_of_entry {path : Text} {q : List Bytes} (hd : path.Decoded)
    (h : host.entry true (host.absolute path) = .ok (q, e)) :
    ∃ met, host.disk.Route [] ((components (host.absolute path)).map Text.key) met q := by
  have hclean : Clean (host.absolute path) :=
    ⟨isNormal_absolute (isAbsolute_cwdText host) path,
      decoded_absolute (isAbsolute_cwdText host) (decoded_cwdText host) hd⟩
  rw [hclean.normal.eq] at h
  obtain ⟨_, s, _, hwalk⟩ := (entry_ofNames_eq_ok hclean.normal.anchored hclean.of_mem).1 h
  obtain ⟨met, hroute, _⟩ := Disk.route_of_walk hwalk
  exact ⟨met, hroute⟩

section Found

variable {path : Text} {names q : List Bytes} {met : List (List Bytes)} (hclean : Clean path)
  (husable : Usable path.key) (hlinks : met.length ≤ Disk.maxLinks)

include hclean husable hlinks

/-- A path with a route to a directory that may be read lists it. -/
theorem list_of_route {entries : List (Bytes × Entry)} {access : Access}
    (hroute : host.disk.Route [] ((components path).map Text.key) met q)
    (hat : host.disk.at? q = some (.directory entries access)) (hread : access.read = true) :
    host.list path = .ok entries := by
  refine list_eq_ok.2 ⟨q, access, ?_, hread⟩
  rw [hclean.normal.eq, entry_ofNames_eq_ok hclean.normal.anchored hclean.of_mem, ← hclean.normal.eq]
  obtain ⟨want, _, hwalk⟩ := @Disk.Route.walk_eq _ _ _ _ _ (Disk.endsWithSlash path.key) _ hroute hlinks []
  rw [List.append_nil] at hwalk
  refine ⟨husable, want, by simp [Entry.isDirectory], ?_⟩
  rw [hwalk, Disk.walk, hat]

/-- A path with a route to where it has one more name leads to what has that name there. -/
theorem entry_of_route (hnames : (components path).map Text.key = names ++ [name])
    (hroute : host.disk.Route [] names met q) (hholds : host.disk.Holds q name e) (he : e.isLink = false) :
    host.entry true path = .ok (q ++ [name], e) := by
  have hne : components path ≠ [] := by
    intro hnil
    simp [hnil] at hnames
  have hslash : Disk.endsWithSlash path.key = false := by
    rw [hclean.normal.eq]
    exact endsWithSlash_key hne hclean.of_mem
  obtain ⟨want, hwant, hwalk⟩ := @Disk.Route.walk_eq _ _ _ _ _ false _ hroute hlinks [name]
  rw [hclean.normal.eq, entry_ofNames_eq_ok hclean.normal.anchored hclean.of_mem, ← hclean.normal.eq, hslash,
    hnames]
  refine ⟨husable, false, rfl, ?_⟩
  rw [hwalk, hwant (by simp), hholds.walk_eq he, Disk.walk, hholds.at?]

end Found

/-- **The canonical path of what can be looked up** is the path of its place, if no link on the route lies too deep.
Without that condition it may be the path of another place. -/
theorem canonical_eq (hhost : host.Sound) {path : Text} (hd : path.Decoded) (hadrift : host.isAdrift path = false)
    (hshort : ∀ link, host.Crosses path link → Short link) {q : List Bytes}
    (h : host.entry true (host.absolute path) = .ok (q, e)) : host.canonical path = .ok (placeText q) := by
  obtain ⟨met, hroute⟩ := route_of_entry hd h
  have hdecoded : (host.absolute path).Decoded :=
    decoded_absolute (isAbsolute_cwdText host) (decoded_cwdText host) hd
  have hfuel : host.disk.root.linkCount ≤
      (host.disk.root.linkCount + 1) * ((host.absolute path).length + 1) +
        List.length ([] : List (List Bytes)) := by
    have hmul : host.disk.root.linkCount + 1 ≤
        (host.disk.root.linkCount + 1) * ((host.absolute path).length + 1) :=
      Nat.le_mul_of_pos_right _ (Nat.succ_pos _)
    simp only [List.length_nil]
    omega
  obtain ⟨later, hfollow, _⟩ := follow_route hhost.disk hroute .root
    (fun link hlink => hshort link ⟨met, q, hroute, hlink⟩) ⟨hdecoded, rfl⟩ ⟨List.nodup_nil, by simp⟩ hfuel .nil
  have hnormal := (clean_placeText ((hroute.plain .root).isName hhost.disk)).normal
  rw [canonical, hadrift, if_neg (by decide)]
  change (host.follow _ (placeText []) (host.absolute path) []).map _ = _
  rw [hfollow]
  exact congrArg Except.ok (absolute_eq_self hnormal)

end Host

end HeaderAtlas
