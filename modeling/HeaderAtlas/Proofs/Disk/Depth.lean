import HeaderAtlas.Proofs.Disk.Peel
/-!
# How deep links are followed

Following a path goes into a link only if the link was not met before, so the links that are being followed, one
inside the other, are different links of the disk. The depth that `Host.follow` is given is therefore never used up if
it is the number of links on the disk, and any greater depth gives the same canonical path (`Host.canonical_eq_follow`).

Two different texts could be the path of one link, if one of them led through another link. They do not, because a walk
stands at a path without links at all times (`Host.Direct`), and such a path is the only one to its place.
-/

set_option autoImplicit false

namespace HeaderAtlas

open HeaderAtlas.Path

namespace Host

variable {host : Host} {path rest name : Text} {seen : SeenLinks} {links : List Text}

/-! ## Paths without links -/

/-- A clean path that begins with one slash and has no link in it. Two slashes would be another text for the same
place. -/
structure Direct (host : Host) (p : Text) : Prop extends LinkFree host p where
  single : anchor p = [slash]

theorem peelable_direct (host : Host) : Peelable host (Direct host) where
  root := ⟨LinkFree.root, rfl⟩
  parent {p} h := by
    refine ⟨h.toLinkFree.parent, ?_⟩
    rcases h.normal.parent_eq with ⟨_, heq⟩ | ⟨init, last, hcomponents, heq⟩
    · rw [heq, h.single]
    · have hinit : ∀ n ∈ init, Proper n := fun n hn => h.normal.proper n (by simp [hcomponents, hn])
      rw [heq, anchor_ofNames h.normal.anchored hinit, h.single]
  join {p name} h hname hd hlink := by
    refine ⟨h.toLinkFree.join hname hd hlink, ?_⟩
    have hnames : ∀ n ∈ components p ++ [name], Proper n := by
      intro n hn
      rcases List.mem_append.1 hn with hn | hn
      · exact h.normal.proper n hn
      · rwa [List.mem_singleton.1 hn]
    rw [h.normal.join_eq hname.slashless, anchor_ofNames h.normal.anchored hnames, h.single]

/-- **A name at the end of a path without links** is looked up in the place with that path. The induction is over the
names `rest` that are still to be gone down before the last one. -/
theorem holds_of_walk (hdisk : host.disk.root.Sound) {done rest : List Text} {last : Bytes} {q : List Bytes} {e : Entry}
    {want s : Bool} {n : Nat} (hnames : ∀ n ∈ done ++ rest, Proper n ∧ n.Decoded) (hlast : Disk.Downward last)
    (hfree : ∀ pre, pre ≠ [] → pre <+: done ++ rest → host.linkTarget? (ofNames [slash] pre) = none)
    (hshort : Short ((done ++ rest).map Text.key)) (hplain : host.disk.Plain (done.map Text.key))
    (h : Disk.walk host.disk false want n (done.map Text.key) (rest.map Text.key ++ [last]) = .ok (.found q e s)) :
    host.disk.Plain ((done ++ rest).map Text.key) ∧ ∃ e', host.disk.Holds ((done ++ rest).map Text.key) last e' := by
  induction rest generalizing done with
  | nil =>
    obtain ⟨entries, below, hdir, hlen, hfind⟩ := Disk.exists_of_walk_cons hlast h
    rw [List.append_nil]
    exact ⟨hplain, below, hlast, ⟨entries, hdir, hfind⟩, hlen⟩
  | cons m rest ih =>
    obtain ⟨hproper, hd⟩ := hnames m (by simp)
    obtain ⟨entries, below, hdir, hlen, hfind⟩ := Disk.exists_of_walk_cons (hproper.downward hd) h
    have hholds : host.disk.Holds (done.map Text.key) m.key below :=
      ⟨hproper.downward hd, ⟨entries, hdir, hfind⟩, hlen⟩
    have hconcat : (done ++ [m]).map Text.key = done.map Text.key ++ [m.key] := by simp
    rw [List.append_cons] at hnames hfree hshort ⊢
    have hinitial : done ++ [m] <+: done ++ [m] ++ rest := List.prefix_append _ _
    -- The names before the last one lead past no link, so each of them is a step down.
    have hbelow : below.isLink = false := by
      refine isLink_of_free hdisk (fun n hn => ?_) hplain hholds (hshort.of_initial (hinitial.map Text.key))
        (hfree _ (by simp) hinitial)
      obtain ⟨hn, hnd⟩ := hnames n (hinitial.subset hn)
      exact ⟨hn, hnd.hasBytes⟩
    refine ih hnames hfree hshort (hconcat ▸ hplain.down hholds hbelow) ?_
    rw [hconcat, ← hholds.walk_eq hbelow]
    exact h

/-- **A link that is met lies at the place with its path**, because the walk came there by a path without links. -/
theorem Direct.placed (h : Direct host path) (hdisk : host.disk.root.Sound) (hname : Proper name) (hd : name.Decoded)
    {q : List Bytes} {target : Bytes} {access : Access}
    (hentry : host.entry false (Path.join path name) = .ok (q, .link target access)) :
    Path.join path name ∈ host.disk.root.linkPlaces.map placeText := by
  have hnames := h.toClean.of_mem
  have hjoin : Path.join path name = ofNames [slash] (components path ++ [name]) := by
    rw [h.normal.join_eq hname.slashless, h.single]
  have hall : ∀ n ∈ components path ++ [name], Proper n ∧ n.Decoded := by
    intro n hn
    rcases List.mem_append.1 hn with hn | hn
    · exact hnames n hn
    · rw [List.mem_singleton.1 hn]
      exact ⟨hname, hd⟩
  have hdenotes : Denotes (Path.join path name) ((components path ++ [name]).map Text.key) :=
    ⟨_, hjoin, fun n hn => ⟨(hall n hn).1, (hall n hn).2.hasBytes⟩, rfl⟩
  have hfree := h.free
  rw [Linkless, h.single] at hfree
  -- The look-up came to the directory by its names alone, and found the link in it.
  have hlookup := hentry
  rw [hjoin] at hlookup
  obtain ⟨husable, s, _, hwalk⟩ := (entry_ofNames_eq_ok (.inl rfl) hall).1 hlookup
  have hshort : Short ((components path ++ [name]).map Text.key) := by
    rw [Short, ← hdenotes.key_eq, hjoin]
    exact husable.short
  rw [List.map_append, List.map_singleton] at hwalk hshort hdenotes
  obtain ⟨hplain, e, hholds⟩ := @holds_of_walk _ hdisk [] (components path) _ _ _ _ _ _ hnames (hname.downward hd) hfree
    (hshort.of_initial (List.prefix_append _ _)) .root hwalk
  rw [hdenotes.entry_eq] at hentry
  obtain ⟨_, rfl, rfl⟩ := (entry_placeText hdisk hplain hholds).1 hentry
  refine List.mem_map.2 ⟨_, Entry.mem_linkPlaces hholds.at?, ?_⟩
  exact (decoded_placeText _).eq_of_key_eq (decoded_join h.decoded hd) hdenotes.key_eq.symm

/-! ## Links inside links -/

/-- The links that are being followed are different links of the disk, and were all met. The paths of links that were
resolved have no links in them. -/
structure Entered (host : Host) (links : List Text) (seen : SeenLinks) : Prop where
  nodup : links.Nodup
  placed : links ⊆ host.disk.root.linkPlaces.map placeText
  met : ∀ link ∈ links, recalled seen link ≠ none
  direct : ∀ link resolved, recalled seen link = some (some resolved) → Direct host resolved

namespace Entered

variable {step resolved : Text}

theorem nil : Entered host [] [] where
  nodup := List.nodup_nil
  placed := List.nil_subset _
  met := by simp
  direct := by simp [recalled]

/-- Links inside one another are not more than the links on the disk, since they are different. -/
theorem length_le (h : Entered host links seen) : links.length ≤ host.disk.root.linkCount := by
  rw [← Entry.length_linkPlaces, ← List.length_map (f := placeText)]
  exact (List.subperm_of_subset h.nodup h.placed).length_le

/-- A link that was not met before is a new one among those being followed. -/
theorem entering (h : Entered host links seen) (hplaced : step ∈ host.disk.root.linkPlaces.map placeText)
    (hnew : recalled seen step = none) : Entered host (step :: links) ((step, none) :: seen) where
  nodup := List.nodup_cons.2 ⟨fun hmem => h.met step hmem hnew, h.nodup⟩
  placed := List.cons_subset.2 ⟨hplaced, h.placed⟩
  met link hlink := by
    rw [recalled_cons]
    split
    · simp
    · next hne => exact h.met link ((List.mem_cons.1 hlink).resolve_left fun heq => hne heq.symm)
  direct link resolved hrecalled := by
    rw [recalled_cons] at hrecalled
    split at hrecalled
    · simp at hrecalled
    · exact h.direct link resolved hrecalled

/-- A link that was resolved is remembered with its path, and the ones around it are still being followed. -/
theorem leaving (h : Entered host (step :: links) seen) (hresolved : Direct host resolved) :
    Entered host links ((step, some resolved) :: seen) where
  nodup := (List.nodup_cons.1 h.nodup).2
  placed := (List.cons_subset.1 h.placed).2
  met link hlink := by
    rw [recalled_cons]
    split
    · simp
    · exact h.met link (List.mem_cons_of_mem _ hlink)
  direct link reached hrecalled := by
    rw [recalled_cons] at hrecalled
    split at hrecalled
    · rwa [← Option.some.inj (Option.some.inj hrecalled)]
    · exact h.direct link reached hrecalled

end Entered

/-- A walk that comes to its end stands at a path without links, and inside the same links as before. Of one that does
not come to its end nothing is asked. -/
def Arrives (host : Host) (links : List Text) (walked : Except (PathError × Text) Trail) : Prop :=
  ∀ path seen, walked = .ok ⟨path, true, seen⟩ → Direct host path ∧ Entered host links seen

namespace Arrives

theorem error (links : List Text) (e : PathError × Text) : host.Arrives links (.error e) := by simp [Arrives]

theorem stopped (links : List Text) (path : Text) (seen : SeenLinks) :
    host.Arrives links (.ok ⟨path, false, seen⟩) := by simp [Arrives]

theorem complete (hpath : Direct host path) (hseen : Entered host links seen) :
    host.Arrives links (.ok ⟨path, true, seen⟩) := by
  intro reached met heq
  obtain ⟨rfl, _, rfl⟩ := Trail.mk.inj (Except.ok.inj heq)
  exact ⟨hpath, hseen⟩

end Arrives

/-- **More depth than there are links changes nothing.** The walk with more depth takes the same steps. Where the other
one goes into a link there is depth left, since otherwise there would be more links inside one another than on the
disk. -/
theorem follow_deeper (hdisk : host.disk.root.Sound) {fuel more : Nat} {path rest : Text} {seen : SeenLinks}
    {links : List Text} (hpath : Direct host path) (hrest : rest.Decoded) (hseen : Entered host links seen)
    (hfuel : host.disk.root.linkCount ≤ fuel + links.length) (hmore : fuel ≤ more) :
    host.follow more path rest seen = host.follow fuel path rest seen ∧
      host.Arrives links (host.follow fuel path rest seen) := by
  rw [follow.eq_1 host more, follow.eq_1 host fuel]
  by_cases hne : rest = []
  · rw [dif_pos hne, dif_pos hne]
    exact ⟨rfl, .complete hpath hseen⟩
  have hshorter := length_firstComponent_lt hne
  obtain ⟨hd, hfree, hafter⟩ := decoded_firstComponent hrest
  have hlater := fun {path seen} (hpath : Direct host path) (hseen : Entered host links seen) =>
    follow_deeper hdisk hpath hafter hseen hfuel hmore
  rw [dif_neg hne, dif_neg hne]
  dsimp only
  generalize (firstComponent rest).1 = name at hd hfree
  by_cases hstay : name = [] ∨ name = here
  · simp only [if_pos hstay]
    exact hlater hpath hseen
  simp only [if_neg hstay]
  by_cases hup : name = up
  · simp only [if_pos hup]
    exact hlater ((peelable_direct host).parent hpath) hseen
  simp only [if_neg hup]
  have hproper : Proper name := ⟨fun heq => hstay (.inl heq), hfree, fun heq => hstay (.inr heq), hup⟩
  have hdown : host.linkTarget? (Path.join path name) = none → Direct host (Path.join path name) :=
    (peelable_direct host).join hpath hproper hd
  unfold linkTarget? entry? at hdown
  rcases hentry : host.entry false (Path.join path name) with
      (f | f | _ | e) | ⟨place, _ | _ | ⟨target, access⟩ | _ | _⟩ <;>
    rw [hentry] at hdown
  · exact hlater (hdown rfl) hseen
  · exact hlater (hdown rfl) hseen
  · exact ⟨rfl, .error _ _⟩
  · exact ⟨rfl, .error _ _⟩
  · exact hlater (hdown rfl) hseen
  · exact hlater (hdown rfl) hseen
  · simp only [← recalled.eq_1 seen]
    rcases hfind : recalled seen (Path.join path name) with _ | _ | resolved
    · by_cases hread : access.read = false
      · simp only [if_pos hread, true_and]
        exact .error _ _
      simp only [if_neg hread]
      -- The link is new, so there is one more inside the others, and depth is left for it.
      have hinside := hseen.entering (hpath.placed hdisk hproper hd hentry) hfind
      have hdepth := hinside.length_le
      rw [List.length_cons] at hdepth
      obtain ⟨fuel, rfl⟩ : ∃ n, fuel = n + 1 := Nat.exists_eq_succ_of_ne_zero (by omega)
      obtain ⟨more, rfl⟩ : ∃ n, more = n + 1 := Nat.exists_eq_succ_of_ne_zero (by omega)
      obtain ⟨aim, haim, hif⟩ := exists_aim host target
      have hstart : Direct host (if Disk.isRooted target then Path.root else path) := by
        split
        · exact (peelable_direct host).root
        · exact hpath
      have hleft : host.disk.root.linkCount ≤ fuel + (Path.join path name :: links).length := by
        rw [List.length_cons]
        omega
      obtain ⟨hinner, harrives⟩ := @follow_deeper hdisk fuel more _ _ _ _ hstart haim.decoded hinside hleft
        (by omega)
      simp only [hif, hinner]
      rcases htrail : host.follow fuel (if Disk.isRooted target then Path.root else path) aim
        ((Path.join path name, none) :: seen) with e | ⟨reached, _ | _, met⟩
      · exact ⟨rfl, .error _ _⟩
      · exact ⟨rfl, .stopped _ _ _⟩
      · obtain ⟨hreached, hmet⟩ := harrives reached met htrail
        exact hlater hreached (hmet.leaving hreached)
    · exact ⟨rfl, .stopped _ _ _⟩
    · exact hlater (hseen.direct _ _ hfind) hseen
  · exact hlater (hdown rfl) hseen
  · exact hlater (hdown rfl) hseen
termination_by (fuel, rest.length)

/-! ## Canonical paths -/

/-- **The depth is never used up.** Every depth from the number of links on the disk up gives the canonical path. -/
theorem canonical_eq_follow (hdisk : host.disk.root.Sound) (hd : path.Decoded) (hadrift : host.isAdrift path = false)
    {depth : Nat} (hdepth : host.disk.root.linkCount ≤ depth) : host.canonical path =
      (host.follow depth Path.root (host.absolute path) []).map fun trail => host.absolute trail.path := by
  have hrest : (host.absolute path).Decoded := decoded_absolute (isAbsolute_cwdText host) (decoded_cwdText host) hd
  have henough : ∀ more, host.disk.root.linkCount ≤ more →
      host.follow more Path.root (host.absolute path) [] =
        host.follow host.disk.root.linkCount Path.root (host.absolute path) [] := fun more hmore =>
    (follow_deeper hdisk (peelable_direct host).root hrest .nil (Nat.le_refl _) hmore).1
  have hgiven : host.disk.root.linkCount ≤ (host.disk.root.linkCount + 1) * ((host.absolute path).length + 1) :=
    (Nat.le_succ _).trans (Nat.le_mul_of_pos_right _ (Nat.succ_pos _))
  rw [canonical, hadrift, if_neg (by decide)]
  dsimp only
  rw [henough _ hgiven, henough _ hdepth]

/-- **A path that is followed to its end** has a canonical path with no link in it. -/
theorem direct_canonical (hdisk : host.disk.root.Sound) (hd : path.Decoded) (hadrift : host.isAdrift path = false)
    {reached : Text}
    (h : host.follow host.disk.root.linkCount Path.root (host.absolute path) [] = .ok ⟨reached, true, seen⟩) :
    host.canonical path = .ok reached ∧ Direct host reached := by
  have hrest : (host.absolute path).Decoded := decoded_absolute (isAbsolute_cwdText host) (decoded_cwdText host) hd
  obtain ⟨_, harrives⟩ := follow_deeper hdisk (peelable_direct host).root hrest .nil (Nat.le_refl _) (Nat.le_refl _)
  obtain ⟨hdirect, _⟩ := harrives reached seen h
  refine ⟨?_, hdirect⟩
  rw [canonical_eq_follow hdisk hd hadrift (Nat.le_refl _), h]
  exact congrArg Except.ok (absolute_eq_self hdirect.normal)

end Host

end HeaderAtlas
