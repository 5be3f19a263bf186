import HeaderAtlas.Proofs.Disk.Canonical
import Mathlib.Data.List.Permutation
/-!
# Peeling goes where the disk goes

Peeling a path resolves it by looking at one name after the other; a disk resolves it in one look-up. Where the
look-up finds something, both come to the same place, and what peeling gives is the path of that place, the only one
without links (`Host.peel_eq`).

The proof goes along the route of the look-up (`Host.peelFrom_route`). At each step the path that was peeled so far
denotes the place that the look-up has come to, and as many links have been met. Only a link at a place with too long
a path would be missed, because peeling looks at it by that path.
-/

set_option autoImplicit false

namespace HeaderAtlas

open HeaderAtlas.Path

/-! ## Joined paths -/

namespace Path

variable {p q name : Text} {names : List Text}

theorem components_join (h : isAbsolute q = false) : components (join p q) = components p ++ components q := by
  rw [join, h, if_neg (by decide)]
  split
  · next hlast =>
    rw [Bool.or_eq_true] at hlast
    rcases hlast with hempty | hlast
    · rw [List.isEmpty_iff.1 hempty]
      rfl
    · obtain ⟨front, rfl⟩ := List.getLast?_eq_some_iff.1 (beq_iff_eq.1 hlast)
      rw [List.append_assoc, List.singleton_append]
      exact (Segments.split_append front q).trans (by rw [← Segments.split_append_self front]; rfl)
  · exact Segments.split_append p q

/-- A path that is not absolute is put behind the other. -/
theorem initial_join (h : isAbsolute q = false) : p <+: join p q ∧ q ⊆ join p q := by
  rw [join, h, if_neg (by decide)]
  split
  · exact ⟨List.prefix_append _ _, List.subset_append_right _ _⟩
  · exact ⟨List.prefix_append _ _, fun c hc => List.mem_append_right _ (List.mem_cons_of_mem _ hc)⟩

theorem hasBytes_components (h : p.HasBytes) : ∀ n ∈ components p, n ≠ [] ∧ slash ∉ n ∧ n.HasBytes := by
  intro n hn
  have hpart : n ∈ splitList slash p := (List.mem_filter.1 hn).1
  exact ⟨(Segments.mem_split hn).1, (Segments.mem_split hn).2, h.of_subset (subset_of_mem_splitList hpart)⟩

theorem hasBytes_ofNames (h : ∀ n ∈ names, n.HasBytes) : (ofNames [slash] names).HasBytes := by
  intro c hc
  have hslash : slash.nameBytes? ≠ none := by decide
  rcases List.mem_append.1 hc with hc | hc
  · rwa [List.mem_singleton.1 hc]
  · rcases Text.mem_join hc with hc | ⟨n, hn, hc⟩
    · rwa [List.mem_singleton.1 hc]
    · exact h n hn c hc

end Path

namespace Disk

variable {disk : Disk} {place names q : List Bytes} {name : Bytes} {met : List (List Bytes)}

/-- A path of slashes ends with one. -/
theorem endsWithSlash_of_pathNames_eq_nil {b : Bytes} (hne : b ≠ []) (h : pathNames b = []) :
    endsWithSlash b = true := by
  induction b with
  | nil => exact absurd rfl hne
  | cons c rest ih =>
    by_cases hc : c = slashByte
    · by_cases hrest : rest = []
      · rw [hrest, hc]
        rfl
      · rw [hc, pathNames_cons] at h
        obtain ⟨d, more, rfl⟩ := List.exists_cons_of_ne_nil hrest
        rw [endsWithSlash, List.getLast?_cons_cons]
        exact ih hrest h
    · obtain ⟨part, parts, _, hsplit⟩ := splitList_cons_of_ne hc rest
      rw [pathNames, hsplit] at h
      simp at h

/-- A route leaves an open directory. -/
theorem Route.isOpen (h : disk.Route place (name :: names) met q) : disk.IsOpen place := by
  have hlisted : ∀ {e}, disk.Holds place name e → disk.IsOpen place := fun hholds => by
    obtain ⟨entries, hdir, _⟩ := hholds.listed
    exact ⟨entries, hdir⟩
  cases h with
  | stay hopen _ => exact hopen
  | up hopen _ => exact hopen
  | down hholds _ _ => exact hlisted hholds
  | link hholds _ _ _ => exact hlisted hholds

/-- What a route meets are links of the disk. -/
theorem Route.mem_linkPlaces {link : List Bytes} (h : disk.Route place names met q) (hlink : link ∈ met) :
    link ∈ disk.root.linkPlaces := by
  induction h with
  | here => exact absurd hlink List.not_mem_nil
  | stay _ _ ih => exact ih hlink
  | up _ _ ih => exact ih hlink
  | down _ _ _ ih => exact ih hlink
  | link hholds _ _ _ ihinner ihouter =>
    rcases List.mem_append.1 hlink with hlink | hlink
    · rcases List.mem_cons.1 hlink with rfl | hlink
      · exact Entry.mem_linkPlaces hholds.at?
      · exact ihinner hlink
    · exact ihouter hlink

end Disk

namespace Host

variable {host : Host} {p path name : Text} {place q : List Bytes} {e : Entry}

/-! ## Paths that denote places -/

/-- The path is one slash, and names with the bytes of a place. -/
def Denotes (p : Text) (place : List Bytes) : Prop :=
  ∃ names, p = ofNames [slash] names ∧ (∀ n ∈ names, Proper n ∧ n.HasBytes) ∧ names.map Text.key = place

namespace Denotes

theorem root : Denotes Path.root [] := ⟨[], rfl, by simp, rfl⟩

theorem of_normal (hp : IsNormal p) (hone : anchor p = [slash]) (hbytes : p.HasBytes) :
    Denotes p (Disk.pathNames p.key) := by
  refine ⟨components p, ?_, fun n hn => ⟨hp.proper n hn, (hasBytes_components hbytes n hn).2.2⟩,
    map_key_components hbytes⟩
  rw [← hone]
  exact hp.eq

theorem normal (h : Denotes p place) : IsNormal p ∧ anchor p = [slash] := by
  obtain ⟨names, rfl, hnames, _⟩ := h
  have hproper := fun n hn => (hnames n hn).1
  exact ⟨isNormal_ofNames (.inl rfl) hproper, anchor_ofNames (.inl rfl) hproper⟩

theorem hasBytes (h : Denotes p place) : p.HasBytes := by
  obtain ⟨names, rfl, hnames, _⟩ := h
  exact hasBytes_ofNames fun n hn => (hnames n hn).2

/-- The path has the bytes of the path of the place. -/
theorem key_eq (h : Denotes p place) : p.key = (placeText place).key := by
  obtain ⟨names, rfl, _, rfl⟩ := h
  have hjoin := @Text.key_join_congr [slash] names ((names.map Text.key).map Bytes.toText)
    (map_key_map_toText _).symm
  rw [ofNames, List.singleton_append, placeText, key_cons_slash, key_cons_slash, hjoin]

/-- So a look-up cannot tell the two. -/
theorem entry_eq (h : Denotes p place) (follow : Bool) : host.entry follow p = host.entry follow (placeText place) := by
  rw [entry, entry, pathBytes, pathBytes, h.hasBytes.encode_eq, (decoded_placeText place).encode_eq, h.key_eq]

theorem linkTarget?_eq (h : Denotes p place) : host.linkTarget? p = host.linkTarget? (placeText place) := by
  rw [linkTarget?, linkTarget?, Host.entry?, Host.entry?, h.entry_eq]

protected theorem join (h : Denotes p place) (hname : Proper name) (hbytes : name.HasBytes) :
    Denotes (Path.join p name) (place ++ [name.key]) := by
  obtain ⟨names, rfl, hnames, rfl⟩ := h
  have hproper := fun n hn => (hnames n hn).1
  refine ⟨names ++ [name], join_ofNames (.inl rfl) hproper hname.slashless, fun n hn => ?_, by simp⟩
  rcases List.mem_append.1 hn with hn | hn
  · exact hnames n hn
  · rw [List.mem_singleton.1 hn]
    exact ⟨hname, hbytes⟩

protected theorem parent (h : Denotes p place) : Denotes (Path.parent p) place.dropLast := by
  obtain ⟨names, rfl, hnames, rfl⟩ := h
  obtain rfl | ⟨init, last, rfl⟩ := List.eq_nil_or_concat' names
  · exact ⟨[], parent_ofNames_nil (.inl rfl), by simp, rfl⟩
  · have hinit : ∀ n ∈ init, Proper n ∧ n.HasBytes := fun n hn => hnames n (List.mem_append_left _ hn)
    refine ⟨init, parent_ofNames_concat (.inl rfl) (fun n hn => (hinit n hn).1) ?_, hinit, by simp⟩
    exact (hnames last (by simp)).1.slashless

/-- Where the target of a link is resolved. -/
protected theorem start (h : Denotes p place) (target : Bytes) :
    Denotes (if isAbsolute target.toText then Path.root else p) (if Disk.isRooted target then [] else place) := by
  rw [isAbsolute_toText]
  split
  · exact .root
  · exact h

/-- The path of a plain place has no link in it. -/
theorem linkless (h : Denotes p place) (hdisk : host.disk.root.Sound) (hplain : host.disk.Plain place) :
    host.Linkless p := by
  obtain ⟨names, rfl, hnames, rfl⟩ := h
  have hproper := fun n hn => (hnames n hn).1
  rw [Linkless, anchor_ofNames (.inl rfl) hproper, components_ofNames (.inl rfl) hproper]
  intro pre hne hpre
  have hdenotes : Denotes (ofNames [slash] pre) (pre.map Text.key) :=
    ⟨pre, rfl, fun n hn => hnames n (hpre.subset hn), rfl⟩
  rw [hdenotes.linkTarget?_eq]
  exact linkTarget?_placeText hdisk (hplain.of_initial (hpre.map Text.key)) (by simpa using hne)

end Denotes

theorem linkTarget?_link {name target : Bytes} {access : Access} (hdisk : host.disk.root.Sound)
    (hplain : host.disk.Plain place) (hholds : host.disk.Holds place name (.link target access))
    (hshort : Short (place ++ [name])) : host.linkTarget? (placeText (place ++ [name])) =
      some (if access.read then .ok target.toText else .error .denied) := by
  rw [linkTarget?, Host.entry?, (entry_placeText hdisk hplain hholds).2 ⟨hshort, rfl, rfl⟩]

/-! ## Steps -/

section Steps

variable {links : Nat} {rest : List Text}

theorem peelFrom_here : host.peelFrom links p (here :: rest) = host.peelFrom links p rest := by
  rw [peelFrom, if_pos rfl]

theorem peelFrom_up : host.peelFrom links p (up :: rest) = host.peelFrom links (Path.parent p) rest := by
  rw [peelFrom, if_neg (by decide), if_pos rfl]

theorem peelFrom_down (hname : Proper name) (hlink : host.linkTarget? (Path.join p name) = none) :
    host.peelFrom links p (name :: rest) = host.peelFrom links (Path.join p name) rest := by
  rw [peelFrom, if_neg hname.ne_here, if_neg hname.ne_up, hlink]

theorem peelFrom_link {target : Text} (hname : Proper name)
    (hlink : host.linkTarget? (Path.join p name) = some (.ok target)) :
    host.peelFrom (links + 1) p (name :: rest) =
      host.peelFrom links (if isAbsolute target then Path.root else p) (components target ++ rest) := by
  rw [peelFrom, if_neg hname.ne_here, if_neg hname.ne_up, hlink]

end Steps

/-- A name that leads down as bytes leads down. -/
theorem proper_of_downward (hname : name ≠ [] ∧ slash ∉ name ∧ name.HasBytes) (h : Disk.Downward name.key) :
    Proper name where
  ne_nil := hname.1
  slashless := hname.2.1
  ne_here := by
    rintro rfl
    exact h.ne_dot rfl
  ne_up := by
    rintro rfl
    exact h.ne_dotDot rfl

/-- **Peeling follows the route of the look-up.** The induction is on the route. The names still to be peeled have the
bytes of those on the route, and where a link is met the names of its target come before them on both sides. -/
theorem peelFrom_route (hdisk : host.disk.root.Sound) {names : List Bytes} {met : List (List Bytes)}
    (hroute : host.disk.Route place names met q) (hplain : host.disk.Plain place)
    (hshort : ∀ link ∈ met, Short link) (hp : Denotes p place) {parts : List Text}
    (hparts : ∀ n ∈ parts, n ≠ [] ∧ slash ∉ n ∧ n.HasBytes) (hnames : parts.map Text.key = names) {links : Nat}
    (hlinks : met.length ≤ links) (more : List Text) : ∃ p', Denotes p' q ∧
      host.peelFrom links p (parts ++ more) = host.peelFrom (links - met.length) p' more := by
  induction hroute generalizing p parts links more with
  | here =>
    obtain rfl := List.map_eq_nil_iff.1 hnames
    exact ⟨p, hp, rfl⟩
  | stay _ _ ih =>
    -- Only the text of ASCII characters has these bytes, so that the name is told alike on both sides.
    obtain ⟨n, rest, rfl, hkey, hrest⟩ := List.map_eq_cons_iff.1 hnames
    obtain ⟨hn, hlater⟩ := List.forall_mem_cons.1 hparts
    obtain rfl : n = here := hn.2.2.eq_of_key_eq (by decide) hkey
    rw [List.cons_append, peelFrom_here]
    exact ih hplain hshort hp hlater hrest hlinks more
  | up _ _ ih =>
    obtain ⟨n, rest, rfl, hkey, hrest⟩ := List.map_eq_cons_iff.1 hnames
    obtain ⟨hn, hlater⟩ := List.forall_mem_cons.1 hparts
    obtain rfl : n = up := hn.2.2.eq_of_key_eq (by decide) hkey
    rw [List.cons_append, peelFrom_up]
    exact ih hplain.dropLast hshort hp.parent hlater hrest hlinks more
  | down hholds he _ ih =>
    obtain ⟨n, rest, rfl, rfl, hrest⟩ := List.map_eq_cons_iff.1 hnames
    obtain ⟨hn, hlater⟩ := List.forall_mem_cons.1 hparts
    have hproper := proper_of_downward hn hholds.toDownward
    have hdown := hplain.down hholds he
    have hjoin := hp.join hproper hn.2.2
    have hlink : host.linkTarget? (Path.join p n) = none := by
      rw [hjoin.linkTarget?_eq]
      exact linkTarget?_placeText hdisk hdown (by simp)
    rw [List.cons_append, peelFrom_down hproper hlink]
    exact ih hdown hshort hjoin hlater hrest hlinks more
  | @link place rest' mid q name target access inner outer hholds hread hinner _ ihInner ihOuter =>
    obtain ⟨n, rest, rfl, rfl, hrest⟩ := List.map_eq_cons_iff.1 hnames
    obtain ⟨hn, hlater⟩ := List.forall_mem_cons.1 hparts
    have hproper := proper_of_downward hn hholds.toDownward
    have hlink : host.linkTarget? (Path.join p n) = some (.ok target.toText) := by
      rw [(hp.join hproper hn.2.2).linkTarget?_eq,
        linkTarget?_link hdisk hplain hholds (hshort _ List.mem_cons_self), if_pos hread]
    simp only [List.cons_append, List.length_cons, List.length_append] at hlinks
    obtain ⟨links, rfl⟩ : ∃ n, links = n + 1 := Nat.exists_eq_succ_of_ne_zero (by omega)
    -- First the names of the target are peeled, with all others still behind them, and then those.
    obtain ⟨p₁, hp₁, hpeel₁⟩ := ihInner (hplain.start target)
      (fun link hlink => hshort link (List.mem_cons_of_mem _ (List.mem_append_left _ hlink))) (hp.start target)
      (hasBytes_components (Text.decoded_toText target).hasBytes) (map_key_components_toText target)
      (show inner.length ≤ links by omega) (rest ++ more)
    obtain ⟨p₂, hp₂, hpeel₂⟩ := ihOuter (hinner.plain (hplain.start target))
      (fun link hlink => hshort link (List.mem_append_right _ hlink)) hp₁ hlater hrest
      (show outer.length ≤ links - inner.length by omega) more
    refine ⟨p₂, hp₂, ?_⟩
    have hleft : links + 1 - ((place ++ [n.key]) :: inner ++ outer).length = links - inner.length - outer.length := by
      simp only [List.cons_append, List.length_cons, List.length_append]
      omega
    rw [List.cons_append, peelFrom_link hproper hlink, hpeel₁, hpeel₂, hleft]

/-! ## Looking up -/

theorem Short.of_initial {above : List Bytes} (h : Short place) (habove : above <+: place) : Short above := by
  obtain ⟨rest, hrest⟩ := @ofNames_initial _ [slash] _ (habove.map Bytes.toText)
  have hkey : (placeText above).key ++ Text.key rest = (placeText place).key := by
    rw [← Text.key_append]
    exact congrArg Text.key hrest
  have hlen := congrArg List.length hkey
  rw [List.length_append] at hlen
  exact Nat.lt_of_le_of_lt (by omega) h

/-- The root that a path leads to is a directory. -/
theorem isDirectory_of_root (habs : isAbsolute p = true) (h : host.entry true p = .ok ([], e)) :
    e.isDirectory = true := by
  obtain ⟨_, _, s, hs, hwalk⟩ := (entry_eq_ok habs).1 h
  obtain ⟨rest, rfl⟩ := List.head?_eq_some_iff.1 (beq_iff_eq.1 habs)
  have hat := at?_of_entry h
  cases hnames : Disk.pathNames (Text.key (slash :: rest)) with
  | nil =>
    -- With no names the path is slashes, and the last of them asks for a directory.
    have hslash := Disk.endsWithSlash_of_pathNames_eq_nil (by rw [key_cons_slash]; simp) hnames
    rw [hnames, hslash, Disk.walk, hat] at hwalk
    obtain ⟨_, _, rfl⟩ := Disk.Target.found.inj (Except.ok.inj hwalk)
    simpa using hs
  | cons name names =>
    rw [hnames] at hwalk
    obtain ⟨met, hroute, _⟩ := Disk.route_of_walk hwalk
    obtain ⟨entries, _, hdir, _⟩ := hroute.isOpen
    obtain rfl := Option.some.inj (hat.symm.trans hdir)
    rfl

/-- What is at a plain place is found by the path of the place, if that is not too long. -/
theorem entry_of_plain (hdisk : host.disk.root.Sound) (hplain : host.disk.Plain q) (hat : host.disk.at? q = some e)
    (hroot : q = [] → e.isDirectory = true) (hshort : Short q) : host.entry true (placeText q) = .ok (q, e) := by
  have hnames := hplain.isName hdisk
  have hwalk : ∀ want, Disk.walk host.disk true want Disk.maxLinks [] q = .ok (.found q e want) := fun want => by
    have := @Disk.Plain.walk_eq _ _ true want Disk.maxLinks hplain []
    rw [List.append_nil] at this
    rw [this, Disk.walk, hat]
  have hkey : Disk.pathNames (placeText q).key = q := by
    have := @pathNames_key (q.map Bytes.toText) [slash] (.inl rfl) (proper_of_isName hnames)
    rwa [map_key_map_toText] at this
  refine (entry_eq_ok rfl).2 ⟨(decoded_placeText q).hasBytes, (usable_placeText hnames).2 hshort, _, ?_,
    by rw [hkey, hwalk]⟩
  by_cases hq : q = []
  · rw [hroot hq, Bool.not_true, Bool.and_false]
  · have hslash : Disk.endsWithSlash (placeText q).key = false :=
      @endsWithSlash_key (q.map Bytes.toText) [slash] (by simpa using hq) (proper_of_isName hnames)
    rw [hslash, Bool.false_and]

/-- What is at the end of a path that is no link. -/
theorem isLink_of_free (hdisk : host.disk.root.Sound) {names : List Text} {e : Entry}
    (hnames : ∀ n ∈ names ++ [name], Proper n ∧ n.HasBytes) (hplain : host.disk.Plain (names.map Text.key))
    (hholds : host.disk.Holds (names.map Text.key) name.key e) (hshort : Short ((names ++ [name]).map Text.key))
    (hfree : host.linkTarget? (ofNames [slash] (names ++ [name])) = none) : e.isLink = false := by
  have hconcat : (names ++ [name]).map Text.key = names.map Text.key ++ [name.key] := by simp
  cases e with
  | link target access =>
    have hdenotes : Denotes (ofNames [slash] (names ++ [name])) (names.map Text.key ++ [name.key]) :=
      ⟨names ++ [name], rfl, hnames, hconcat⟩
    have hsome := linkTarget?_link hdisk hplain hholds (hconcat ▸ hshort)
    rw [hdenotes.linkTarget?_eq, hsome] at hfree
    simp at hfree
  | _ => rfl

/-- **A path without links leads straight to its place.** The names of the path are `done`, which are gone down
already, and `rest`. -/
theorem route_of_linkless (hdisk : host.disk.root.Sound) {done rest : List Text} {more : List Bytes}
    {met : List (List Bytes)} (hnames : ∀ n ∈ done ++ rest, Proper n ∧ n.HasBytes)
    (hfree : ∀ pre, pre ≠ [] → pre <+: done ++ rest → host.linkTarget? (ofNames [slash] pre) = none)
    (hshort : Short ((done ++ rest).map Text.key)) (hplain : host.disk.Plain (done.map Text.key))
    (hroute : host.disk.Route (done.map Text.key) (rest.map Text.key ++ more) met q) :
    host.disk.Plain ((done ++ rest).map Text.key) ∧ host.disk.Route ((done ++ rest).map Text.key) more met q := by
  induction rest generalizing done with
  | nil =>
    rw [List.append_nil]
    exact ⟨hplain, hroute⟩
  | cons n rest ih =>
    obtain ⟨hproper, hbytes⟩ := hnames n (by simp)
    have hconcat : (done ++ [n]).map Text.key = done.map Text.key ++ [n.key] := by simp
    have hinitial : done ++ [n] <+: done ++ n :: rest := by
      rw [List.append_cons done n rest]
      exact List.prefix_append _ _
    rw [List.map_cons, List.cons_append] at hroute
    generalize hkey : n.key = key at hroute
    cases hroute with
    | stay _ _ => exact absurd (hbytes.eq_of_key_eq (s := here) (by decide) hkey) hproper.ne_here
    | up _ _ => exact absurd (hbytes.eq_of_key_eq (s := up) (by decide) hkey) hproper.ne_up
    | down hholds he hroute =>
      subst hkey
      rw [List.append_cons] at hnames hfree hshort ⊢
      exact ih hnames hfree hshort (hconcat ▸ hplain.down hholds he) (hconcat ▸ hroute)
    | link hholds _ _ _ =>
      -- The path up to this name would be that of a link.
      subst hkey
      have hlink := isLink_of_free hdisk (fun m hm => hnames m (hinitial.subset hm)) hplain hholds
        (hshort.of_initial (hinitial.map Text.key)) (hfree _ (by simp) hinitial)
      simp [Entry.isLink] at hlink

theorem Denotes.route (hp : Denotes p place) (hdisk : host.disk.root.Sound) (hfree : host.Linkless p)
    (husable : Usable p.key) {more : List Bytes} {met : List (List Bytes)}
    (hroute : host.disk.Route [] (place ++ more) met q) :
    host.disk.Plain place ∧ host.disk.Route place more met q := by
  have hshort : Short place := by
    rw [Short, ← hp.key_eq]
    exact husable.short
  obtain ⟨names, rfl, hnames, rfl⟩ := hp
  have hproper := fun n hn => (hnames n hn).1
  rw [Linkless, anchor_ofNames (.inl rfl) hproper, components_ofNames (.inl rfl) hproper] at hfree
  exact @route_of_linkless _ _ hdisk [] names _ _ hnames hfree hshort .root hroute

/-- **The path without links is unique.** Two normal paths without links that lead to one place have the same
bytes. -/
theorem key_eq_of_linkless (hdisk : host.disk.root.Sound) (hp : IsNormal p) (hone : anchor p = [slash])
    (hfree : host.Linkless p) (h : host.entry true p = .ok (q, e)) : p.key = (placeText q).key := by
  obtain ⟨hbytes, husable, s, _, hwalk⟩ := (entry_eq_ok hp.isAbsolute).1 h
  obtain ⟨met, hroute, _⟩ := Disk.route_of_walk hwalk
  have hdenotes := Denotes.of_normal hp hone hbytes
  rw [← List.append_nil (Disk.pathNames p.key)] at hroute
  obtain ⟨_, hroute⟩ := hdenotes.route hdisk hfree husable hroute
  cases hroute
  exact hdenotes.key_eq

/-! ## Peeling -/

/-- A link that the disk meets in looking up a path. -/
def Meets (host : Host) (path : Text) (link : List Bytes) : Prop :=
  ∃ met q, host.disk.Route [] (Disk.pathNames path.key) met q ∧ link ∈ met

theorem Meets.mem_linkPlaces {link : List Bytes} (h : host.Meets path link) : link ∈ host.disk.root.linkPlaces := by
  obtain ⟨met, q, hroute, hlink⟩ := h
  exact hroute.mem_linkPlaces hlink

/-- Where peeling starts, and the route from there. -/
theorem exists_start (hdisk : host.disk.root.Sound) {base : Text} (hbase : IsNormal base) (hone : anchor base = [slash])
    (hfree : host.Linkless base) {met : List (List Bytes)} (hbytes : (Path.join base path).HasBytes)
    (husable : Usable (Path.join base path).key)
    (hroute : host.disk.Route [] (Disk.pathNames (Path.join base path).key) met q) :
    ∃ place, Denotes (if isAbsolute path then Path.root else base) place ∧ host.disk.Plain place ∧ path.HasBytes ∧
      host.disk.Route place ((components path).map Text.key) met q := by
  by_cases habs : isAbsolute path = true
  · have hjoin : Path.join base path = path := by rw [Path.join, if_pos habs]
    rw [hjoin] at hbytes hroute
    rw [if_pos habs]
    exact ⟨[], .root, .root, hbytes, by rwa [map_key_components hbytes]⟩
  · rw [if_neg habs]
    have hrelative : isAbsolute path = false := Bool.not_eq_true _ |>.mp habs
    obtain ⟨hinitial, hsubset⟩ := @initial_join base path hrelative
    have hbaseBytes := hbytes.of_subset hinitial.subset
    have hdenotes := Denotes.of_normal hbase hone hbaseBytes
    rw [← map_key_components hbytes, components_join hrelative, List.map_append,
      map_key_components hbaseBytes] at hroute
    have hbaseUsable : Usable base.key := by
      obtain ⟨rest, hrest⟩ := hinitial
      rw [← hrest, Text.key_append] at husable
      exact husable.of_initial (List.prefix_append _ _)
    obtain ⟨hplain, hroute⟩ := hdenotes.route hdisk hfree hbaseUsable hroute
    exact ⟨_, hdenotes, hplain, hbytes.of_subset hsubset, hroute⟩

/-- **Peeling agrees with the disk.** Let `base` be a normal path with one slash at its beginning and no link in it. If
the disk resolves a path against it, and the links that are met on the way have paths which are not too long, then
peeling gives the path of the place that the disk comes to: a normal path with no link in it, which leads to what the
disk has found if it is not too long itself, and has the bytes of every other such path. -/
theorem peel_eq (hdisk : host.disk.root.Sound) {base : Text} (hbase : IsNormal base) (hone : anchor base = [slash])
    (hfree : host.Linkless base) (h : host.entry true (Path.join base path) = .ok (q, e))
    (hshort : ∀ link, host.Meets (Path.join base path) link → Short link) :
    ∃ p, host.peel base path = .ok p ∧ IsNormal p ∧ anchor p = [slash] ∧ host.Linkless p ∧
      p.key = (placeText q).key ∧ (base.Decoded → path.Decoded → p = placeText q) ∧
      (Short q → host.entry true p = .ok (q, e)) ∧
      ∀ other e', IsNormal other → anchor other = [slash] → host.Linkless other →
        host.entry true other = .ok (q, e') → other.key = p.key := by
  have habs := isAbsolute_join hbase.isAbsolute path
  obtain ⟨hbytes, husable, s, _, hwalk⟩ := (entry_eq_ok habs).1 h
  obtain ⟨met, hroute, hmet⟩ := Disk.route_of_walk hwalk
  obtain ⟨place, hstart, hplace, hpath, hroute'⟩ := exists_start hdisk hbase hone hfree hbytes husable hroute
  have hplain := hroute'.plain hplace
  obtain ⟨p, hp, hpeel⟩ := peelFrom_route hdisk hroute' hplace (fun link hlink => hshort link ⟨met, q, hroute, hlink⟩)
    hstart (hasBytes_components hpath) rfl hmet []
  rw [List.append_nil, Host.peelFrom] at hpeel
  have hpeel : host.peel base path = .ok p := hpeel
  refine ⟨p, hpeel, hp.normal.1, hp.normal.2, hp.linkless hdisk hplain, hp.key_eq, fun hbaseDecoded hdecoded => ?_,
    fun hq => ?_, fun other e' hother hanchor hfree' hentry => ?_⟩
  · have hclean := (peelable_clean host).peel ⟨hbase, hbaseDecoded⟩ hdecoded hpeel
    exact hclean.decoded.eq_of_key_eq (decoded_placeText q) hp.key_eq
  · rw [hp.entry_eq]
    refine entry_of_plain hdisk hplain (at?_of_entry h) (fun hroot => ?_) hq
    subst hroot
    exact isDirectory_of_root habs h
  · rw [key_eq_of_linkless hdisk hother hanchor hfree' hentry, hp.key_eq]

/-- A link `l` in `b` to a link `d` in `c`, which leads to a file in `e`. -/
def chainHost : Host where
  disk := ⟨.directory
    [(Text.key "b", .directory [(Text.key "l", .link (Text.key "../c//d") .full)] .full),
      (Text.key "c", .directory [(Text.key "d", .link (Text.key "/e/./f") .full)] .full),
      (Text.key "e", .directory [(Text.key "f", .file [] .full)] .full)] .full⟩
  cwd := []
  env := []

/-- A relative link that leads to an absolute one. -/
theorem peel_eq_chain :
    chainHost.entry true "/b/l" = .ok ([Text.key "e", Text.key "f"], .file [] .full) ∧
      chainHost.peel "/b" "l" = .ok "/e/f" ∧
      chainHost.entry true "/e/f" = .ok ([Text.key "e", Text.key "f"], .file [] .full) := by
  have hdown : chainHost.peel Path.root "b" = .ok "/b" := by cbv
  have hbase := (peelable_linkFree chainHost).peel LinkFree.root (by decide) hdown
  have hentry : chainHost.entry true (Path.join "/b" "l") = .ok ([Text.key "e", Text.key "f"], .file [] .full) := by cbv
  have hshort : ∀ link ∈ chainHost.disk.root.linkPlaces, Short link := by decide
  have hdisk : chainHost.disk.root.Sound := Entry.sound_of_isSound _ (by decide)
  obtain ⟨p, hpeel, _, _, _, _, hplace, hfound, _⟩ := peel_eq hdisk hbase.normal (by decide) hbase.free hentry
    fun link hmeets => hshort link hmeets.mem_linkPlaces
  obtain rfl : p = "/e/f" := hplace (by decide) (by decide)
  exact ⟨hentry, hpeel, hfound (by decide)⟩

/-- A file in a directory. -/
def plainHost : Host where
  disk := ⟨.directory [(Text.key "a", .directory [(Text.key "x", .file [] .full)] .full)] .full⟩
  cwd := []
  env := []

/-- **Two slashes at the beginning of a path stay.** Such a path can be normal and have no link in it, and then what is
peeled from it is one of two paths without links to one place. -/
theorem peel_double_slash :
    LinkFree plainHost "//a" ∧ LinkFree plainHost "/a/x" ∧ plainHost.peel "//a" "x" = .ok "//a/x" ∧
      plainHost.entry true (Path.join "//a" "x") = .ok ([Text.key "a", Text.key "x"], .file [] .full) ∧
      plainHost.entry true "/a/x" = .ok ([Text.key "a", Text.key "x"], .file [] .full) ∧
      placeText [Text.key "a", Text.key "x"] = "/a/x" := by
  have hdouble : LinkFree plainHost (ofNames "//" []) :=
    linkFree_ofNames (.inr rfl) (by simp) fun pre hne hpre => absurd (List.prefix_nil.1 hpre) hne
  have hbase : plainHost.peel (ofNames "//" []) "a" = .ok "//a" := by cbv
  have hpath : plainHost.peel Path.root "a/x" = .ok "/a/x" := by cbv
  have hfree := peelable_linkFree plainHost
  exact ⟨hfree.peel hdouble (by decide) hbase, hfree.peel LinkFree.root (by decide) hpath, by cbv, by cbv, by cbv,
    by decide⟩

end Host

end HeaderAtlas
