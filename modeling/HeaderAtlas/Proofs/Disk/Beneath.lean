import HeaderAtlas.Disk.Links
import HeaderAtlas.Proofs.Disk.Places
import Mathlib.Data.List.Infix
import Mathlib.Data.List.TakeWhile
/-!
# What resolving a path preserves

Peeling starts from a directory without links and keeps to paths without links: a name that is a link is
never entered, its target is followed instead, from the same directory or from the root. So whatever the
path, with `..`, absolute or made of links, the result has no link in it (`Host.Peelable.peel`).

Canonical paths need not be free of links, since a link that leads back to itself stays in them, but they
are always normal, and decoded if they come from a decoded path (`Host.clean_canonical`). What the texts on the
way to a canonical path have in common, and how the way can end, is shown once for every property of texts
that the steps keep (`Host.Walkable.follow`). That a path is decoded is one of them, that it holds no zero
another.
-/

set_option autoImplicit false

namespace HeaderAtlas

open HeaderAtlas.Path

namespace Host

variable {host : Host} {p : Text} {name : Text}

/-- No part of the path is a link. The parts of a path are its beginnings up to a slash, since those are what a
look-up passes through. -/
def Linkless (host : Host) (p : Text) : Prop :=
  ∀ pre, pre ≠ [] → pre <+: components p → host.linkTarget? (ofNames (anchor p) pre) = none

instance (host : Host) (p : Text) : Decidable (host.Linkless p) :=
  decidable_of_iff
    (∀ pre ∈ (components p).inits, pre ≠ [] → host.linkTarget? (ofNames (anchor p) pre) = none)
    ⟨fun h pre hne hpre => h pre ((List.mem_inits _ _).2 hpre) hne,
      fun h pre hpre hne => h pre hne ((List.mem_inits _ _).1 hpre)⟩

/-- For a path that is made of names the parts are known: they are made of the first of them. -/
theorem linkless_ofNames {start : Text} {names : List Text} (hs : IsAnchor start) (hproper : ∀ n ∈ names, Proper n)
    (hfree : ∀ pre, pre ≠ [] → pre <+: names → host.linkTarget? (ofNames start pre) = none) :
    host.Linkless (ofNames start names) := by
  rwa [Linkless, anchor_ofNames hs hproper, components_ofNames hs hproper]

/-- Going up keeps to paths without links. -/
protected theorem Linkless.parent (h : host.Linkless p) (hp : IsNormal p) : host.Linkless (Path.parent p) := by
  rcases hp.parent_eq with ⟨_, heq⟩ | ⟨init, last, hcomponents, heq⟩
  · rwa [heq]
  · have hinit : init <+: components p := ⟨[last], hcomponents.symm⟩
    rw [heq]
    exact linkless_ofNames hp.anchored (fun n hn => hp.proper n (hinit.subset hn))
      fun pre hne hpre => h pre hne (hpre.trans hinit)

/-- Going down keeps to paths without links, if the name is no link. -/
protected theorem Linkless.join (h : host.Linkless p) (hp : IsNormal p) (hname : Proper name)
    (hlink : host.linkTarget? (Path.join p name) = none) : host.Linkless (Path.join p name) := by
  rw [hp.join_eq hname.slashless] at hlink ⊢
  refine linkless_ofNames hp.anchored (fun n hn => ?_) fun pre hne hpre => ?_
  · rcases List.mem_append.1 hn with hn | hn
    · exact hp.proper n hn
    · rwa [List.mem_singleton.1 hn]
  · rcases List.prefix_concat_iff.1 hpre with rfl | hpre
    · exact hlink
    · exact h pre hne hpre

/-- A clean path none of whose parts is a link. Peeling starts from such a path and ends at one. -/
structure LinkFree (host : Host) (p : Text) : Prop extends Clean p where
  free : host.Linkless p

theorem linkFree_ofNames {start : Text} {names : List Text} (hs : IsAnchor start)
    (hnames : ∀ n ∈ names, Proper n ∧ n.Decoded)
    (hfree : ∀ pre, pre ≠ [] → pre <+: names → host.linkTarget? (ofNames start pre) = none) :
    LinkFree host (ofNames start names) :=
  ⟨clean_ofNames hs hnames, linkless_ofNames hs (fun n hn => (hnames n hn).1) hfree⟩

namespace LinkFree

/-- The root has no parts that could be links. -/
theorem root : LinkFree host Path.root := by
  refine @linkFree_ofNames host _ [] (.inl rfl) (by simp) fun pre hne hpre => ?_
  exact absurd (List.prefix_nil.1 hpre) hne

protected theorem parent (h : LinkFree host p) : LinkFree host (Path.parent p) :=
  ⟨h.toClean.parent, h.free.parent h.normal⟩

protected theorem join (h : LinkFree host p) (hname : Proper name) (hd : name.Decoded)
    (hlink : host.linkTarget? (Path.join p name) = none) : LinkFree host (Path.join p name) :=
  ⟨h.toClean.join hname hd, h.free.join h.normal hname hlink⟩

end LinkFree

/-- A target comes from the disk as bytes, so its text is decoded. -/
theorem decoded_linkTarget? {target : Text} (h : host.linkTarget? p = some (.ok target)) : target.Decoded := by
  unfold linkTarget? at h
  split at h
  · next b access _ =>
    cases hread : access.read with
    | false => simp [hread] at h
    | true =>
      simp only [hread, if_true, Option.some.injEq, Except.ok.injEq] at h
      exact h ▸ Text.decoded_toText b
  · simp at h

/-- The components of a decoded text, as a walk meets them. -/
theorem names_components {t : Text} (ht : t.Decoded) :
    ∀ n ∈ components t, n ≠ [] ∧ slash ∉ n ∧ n.Decoded := fun n hn =>
  ⟨(Segments.mem_split hn).1, (Segments.mem_split hn).2, decoded_components ht n hn⟩

/-- A property of paths that the steps of peeling keep: it goes up, goes down by a name that is no link, and begins
again at the root. Two are used, that a path is clean and that it has no links. -/
structure Peelable (host : Host) (Q : Text → Prop) : Prop where
  root : Q Path.root
  parent : ∀ {p}, Q p → Q (Path.parent p)
  join : ∀ {p name}, Q p → Proper name → name.Decoded → host.linkTarget? (Path.join p name) = none →
    Q (Path.join p name)

/-- Being clean is kept whether a name is a link or not. -/
theorem peelable_clean (host : Host) : Peelable host Clean :=
  ⟨clean_root, Clean.parent, fun h hname hd _ => h.join hname hd⟩

theorem peelable_linkFree (host : Host) : Peelable host (LinkFree host) :=
  ⟨LinkFree.root, LinkFree.parent, LinkFree.join⟩

namespace Peelable

variable {Q : Text → Prop}

/-- **Peeling keeps what its steps keep.** The induction follows the walk: a link that is peeled uses up
one of `links`, any other name is one name less. -/
theorem peelFrom {links : Nat} {names : List Text} {file : Text} (hQ : Peelable host Q) (h : Q p)
    (hnames : ∀ n ∈ names, n ≠ [] ∧ slash ∉ n ∧ n.Decoded)
    (hpeel : host.peelFrom links p names = .ok file) : Q file := by
  fun_induction Host.peelFrom host links p names with
  | case1 links current =>
    obtain rfl := Except.ok.inj hpeel
    exact h
  | case2 links current rest ih => exact ih h (fun n hn => hnames n (List.mem_cons_of_mem _ hn)) hpeel
  | case3 links current rest _ ih =>
    exact ih (hQ.parent h) (fun n hn => hnames n (List.mem_cons_of_mem _ hn)) hpeel
  | case4 links current name rest hhere hup hlink ih =>
    obtain ⟨hne, hfree, hd⟩ := hnames name List.mem_cons_self
    exact ih (hQ.join h ⟨hne, hfree, hhere, hup⟩ hd hlink)
      (fun n hn => hnames n (List.mem_cons_of_mem _ hn)) hpeel
  | case5 => simp at hpeel
  | case6 => simp at hpeel
  | case7 current name rest _ _ links target hlink ih =>
    -- The link's target takes its place: the walk goes on from `current`, or from the root.
    refine ih ?_ (fun n hn => ?_) (by simpa using hpeel)
    · split
      · exact hQ.root
      · exact h
    · rcases List.mem_append.1 hn with hn | hn
      · exact names_components (decoded_linkTarget? hlink) n hn
      · exact hnames n (List.mem_cons_of_mem _ hn)

/-- Peeling begins at the directory, or at the root for an absolute path, and the property holds of both. -/
theorem peel {path file : Text} (hQ : Peelable host Q) (h : Q p) (hpath : path.Decoded)
    (hpeel : host.peel p path = .ok file) : Q file := by
  refine hQ.peelFrom ?_ (names_components hpath) hpeel
  split
  · exact hQ.root
  · exact h

end Peelable

/-! ## Canonical paths -/

/-- What a mapped result comes from. -/
theorem exists_of_map_eq_ok {ε α β : Type} {f : α → β} {x : Except ε α} {b : β} (h : x.map f = .ok b) :
    ∃ a, x = .ok a ∧ f a = b := by
  cases x with
  | error e => simp [Except.map] at h
  | ok a => exact ⟨a, rfl, Except.ok.inj h⟩

theorem isAbsolute_cwdText (host : Host) : isAbsolute host.cwdText = true := rfl

theorem decoded_placeText (place : List Bytes) : (placeText place).Decoded := by
  refine decoded_cons_slash (Text.Decoded.join (by decide) fun n hn => ?_)
  obtain ⟨b, _, rfl⟩ := List.mem_map.1 hn
  exact Text.decoded_toText b

theorem decoded_cwdText (host : Host) : host.cwdText.Decoded := decoded_placeText host.cwd

theorem ne_slash_of_slashless {x : Text} (hx : slash ∉ x) : ∀ c ∈ x, (c != slash) = true := by
  intro c hc
  simpa using fun heq : c = slash => hx (heq ▸ hc)

/-- The first component ends at the first slash. -/
theorem firstComponent_append {x : Text} (hx : slash ∉ x) (y : Text) :
    firstComponent (x ++ slash :: y) = (x, y) := by
  have hpass := ne_slash_of_slashless hx
  rw [firstComponent, List.takeWhile_append_of_pos hpass, List.dropWhile_append_of_pos hpass]
  simp

theorem firstComponent_free {x : Text} (hx : slash ∉ x) : firstComponent x = (x, []) := by
  have hpass := ne_slash_of_slashless hx
  rw [firstComponent, List.takeWhile_eq_self_iff.2 hpass, List.dropWhile_eq_nil_iff.2 hpass]
  rfl

/-- Cutting at a slash keeps both halves decoded, as no character is cut. -/
theorem decoded_firstComponent {rest : Text} (h : rest.Decoded) :
    (firstComponent rest).1.Decoded ∧ slash ∉ (firstComponent rest).1 ∧
      (firstComponent rest).2.Decoded := by
  by_cases hmem : slash ∈ rest
  · obtain ⟨x, y, rfl, hx⟩ := List.eq_append_cons_of_mem hmem
    obtain ⟨hdx, hdy⟩ := h.cut_ascii (by decide) hx
    rw [firstComponent_append hx]
    exact ⟨hdx, hx, hdy⟩
  · rw [firstComponent_free hmem]
    exact ⟨h, hmem, Text.Decoded.nil⟩

/-! ## The way to a canonical path -/

/-- The paths of links that were resolved have a property. Links that are being resolved have no path yet, and nothing
is said of them. -/
def Remembered (Q : Text → Prop) (seen : SeenLinks) : Prop := ∀ link resolved, (link, some resolved) ∈ seen → Q resolved

namespace Remembered

variable {Q : Text → Prop} {seen : SeenLinks} {resolved : Text}

theorem nil (Q : Text → Prop) : Remembered Q [] := fun _ _ hmem => absurd hmem List.not_mem_nil

/-- A link that is being followed is remembered without a path. -/
theorem entering (h : Remembered Q seen) (link : Text) : Remembered Q ((link, none) :: seen) :=
  fun _ _ hmem => h _ _ (by simpa using hmem)

/-- Once it is resolved it is remembered with one, which has the property. -/
theorem leaving (h : Remembered Q seen) (link : Text) (hresolved : Q resolved) :
    Remembered Q ((link, some resolved) :: seen) := by
  rintro _ _ (_ | ⟨_, hmem⟩)
  · exact hresolved
  · exact h _ _ hmem

theorem of_find? {step : Text} (h : Remembered Q seen)
    (hfind : (seen.find? fun entry => entry.1 == step).map (·.2) = some (some resolved)) : Q resolved := by
  obtain ⟨⟨link, _⟩, hmem, rfl⟩ := Option.map_eq_some_iff.1 hfind
  exact h link _ (List.mem_of_find?_eq_some hmem)

end Remembered

/-- A property of texts that the steps to a canonical path keep: paths are joined, left for the path above and taken
apart at their first slash, and the targets of links come in from the disk. -/
structure Walkable (host : Host) (P : Text → Prop) : Prop where
  decoded : ∀ {t}, P t → t.Decoded
  root : P Path.root
  parent : ∀ {p}, Clean p → P p → P (Path.parent p)
  join : ∀ {p q}, P p → P q → P (Path.join p q)
  first : ∀ {t}, P t → P (firstComponent t).1 ∧ P (firstComponent t).2
  target : ∀ {link q target access}, host.entry false link = .ok (q, .link target access) → P target.toText

theorem walkable_decoded (host : Host) : Walkable host Text.Decoded where
  decoded h := h
  root := clean_root.decoded
  parent hp _ := hp.parent.decoded
  join := decoded_join
  first h := ⟨(decoded_firstComponent h).1, (decoded_firstComponent h).2.2⟩
  target _ := Text.decoded_toText _

/-- What is true of the end of a way: the path reached has the property, and it is clean if the way was followed to
its end. -/
structure Followed (P : Text → Prop) (trail : Trail) : Prop where
  holds : P trail.path
  clean : trail.complete = true → Clean trail.path
  remembered : Remembered (fun t => Clean t ∧ P t) trail.seen

/-- How a way can end: somewhere, at a link that does not show its target, or at a text that is no path. On a sound
disk the last does not happen. -/
inductive FollowEnds (host : Host) (P : Text → Prop) : Except (PathError × Text) Trail → Prop
  | trail {trail : Trail} : Followed P trail → FollowEnds host P (.ok trail)
  | unreadable {link : Text} {f : Disk.Fault} : host.linkTarget? link = some (.error f) →
      FollowEnds host P (.error (.fault f, link))
  | noPath {step : Text} {e : PathError} : P step → host.entry false step = .error e → (∀ f, e ≠ .fault f) →
      FollowEnds host P (.error (e, step))

/-- A link that does not show its target is one all the same. -/
theorem linkTarget?_of_unreadable {q : List Bytes} {target : Bytes} {access : Access}
    (hentry : host.entry false p = .ok (q, .link target access)) (hread : access.read = false) :
    host.linkTarget? p = some (.error .denied) := by
  simp [linkTarget?, entry?, hentry, hread]

/-- The target of a link is followed from the root or from where the link lies. -/
theorem Walkable.ends_target {P : Text → Prop} (hP : Walkable host P) {aim : Text}
    {fromRoot fromHere : Except (PathError × Text) Trail} (haim : P aim)
    (hroot : P (aim.drop 1) → FollowEnds host P fromRoot) (hhere : P aim → FollowEnds host P fromHere) :
    FollowEnds host P (if isAbsolute aim then fromRoot else fromHere) := by
  split
  · next habs =>
    obtain ⟨t, rfl⟩ := List.head?_eq_some_iff.1 (beq_iff_eq.1 habs)
    exact hroot (hP.first haim).2
  · exact hhere haim

/-- **What following a path keeps, and how it ends.** The cases are those of the walk: nothing is left, the name
stays or goes up, it is a link that was resolved before or is being resolved, a link that is followed now, or a
plain name. -/
theorem Walkable.follow {P : Text → Prop} (hP : Walkable host P) {fuel : Nat} {path rest : Text} {seen : SeenLinks}
    (hpath : Clean path) (h : P path) (hrest : P rest) (hseen : Remembered (fun t => Clean t ∧ P t) seen) :
    FollowEnds host P (host.follow fuel path rest seen) := by
  fun_induction Host.follow host fuel path rest seen with
  | case1 fuel path seen => exact .trail ⟨h, fun _ => hpath, hseen⟩
  | case2 fuel path rest seen hne name _ =>
    rename_i ih
    exact ih hpath h (hP.first hrest).2 hseen
  | case3 fuel path rest seen hne name _ _ =>
    rename_i ih
    exact ih hpath.parent (hP.parent hpath h) (hP.first hrest).2 hseen
  | case4 fuel path rest seen hne name _ _ step hentry =>
    exact .noPath (hP.join h (hP.first hrest).1) hentry (by simp)
  | case5 fuel path rest seen hne name _ _ step e hentry =>
    exact .noPath (hP.join h (hP.first hrest).1) hentry (by simp)
  | case6 fuel path rest seen hne name _ _ step _ _ _ _ resolved hfind =>
    rename_i ih
    obtain ⟨hclean, hresolved⟩ := hseen.of_find? hfind
    exact ih hclean hresolved (hP.first hrest).2 hseen
  | case7 fuel path rest seen hne name _ _ step =>
    -- A loop: the walk ends at the link, and what is left is put after it as it is.
    exact .trail ⟨hP.join (hP.join h (hP.first hrest).1) (hP.first hrest).2, by simp, hseen⟩
  | case8 fuel path rest seen hne name _ _ step _ _ _ hentry _ hread =>
    exact .unreadable (linkTarget?_of_unreadable hentry hread)
  | case9 path rest seen hne name _ _ step =>
    -- The fuel is used up, which ends the walk as a loop does.
    exact .trail ⟨hP.join (hP.join h (hP.first hrest).1) (hP.first hrest).2, by simp, hseen⟩
  | case10 path rest seen hne name _ _ step _ _ _ hentry _ _ fuel aim inner e hinner ihRoot ihHere =>
    have hends : FollowEnds host P inner := hP.ends_target (hP.target hentry)
      (ihRoot clean_root hP.root · (hseen.entering step)) (ihHere hpath h · (hseen.entering step))
    rwa [hinner] at hends
  | case11 path rest seen hne name _ _ step _ _ _ hentry _ _ fuel aim inner reached later hinner ihRoot ihHere =>
    have hends : FollowEnds host P inner := hP.ends_target (hP.target hentry)
      (ihRoot clean_root hP.root · (hseen.entering step)) (ihHere hpath h · (hseen.entering step))
    rw [hinner] at hends
    cases hends with
    | trail hreached =>
      exact .trail ⟨hP.join hreached.holds (hP.first hrest).2, by simp, hreached.remembered⟩
  | case12 path rest seen hne name _ _ step _ _ _ hentry _ _ fuel aim inner reached later hinner ihRoot ihHere ih =>
    have hends : FollowEnds host P inner := hP.ends_target (hP.target hentry)
      (ihRoot clean_root hP.root · (hseen.entering step)) (ihHere hpath h · (hseen.entering step))
    rw [hinner] at hends
    cases hends with
    | trail hreached =>
      have hclean := hreached.clean rfl
      exact ih hclean hreached.holds (hP.first hrest).2
        (hreached.remembered.leaving step ⟨hclean, hreached.holds⟩)
  | case13 fuel path rest seen hne name hname hup step _ _ _ =>
    rename_i ih
    obtain ⟨hempty, hhere⟩ := not_or.1 hname
    have hfree := (decoded_firstComponent (hP.decoded hrest)).2.1
    have hd := (hP.first hrest).1
    exact ih (hpath.join ⟨hempty, hfree, hhere, hup⟩ (hP.decoded hd)) (hP.join h hd) (hP.first hrest).2 hseen

/-- **Canonical paths are clean**, also those of paths that could not be followed to their ends, since a last step
makes every answer absolute. -/
theorem clean_canonical {path t : Text} (hpath : path.Decoded) (h : host.canonical path = .ok t) :
    Clean t := by
  have habsolute : ∀ {q : Text}, q.Decoded → (host.absolute q).Decoded := fun hq =>
    decoded_absolute (isAbsolute_cwdText host) (decoded_cwdText host) hq
  unfold canonical at h
  split at h
  · simp at h
  · -- A walk that stopped early leaves a path that is only decoded; making it absolute normalizes it.
    obtain ⟨trail, htrail, rfl⟩ := exists_of_map_eq_ok h
    have hends := htrail ▸ (walkable_decoded host).follow clean_root clean_root.decoded (habsolute hpath) (.nil _)
    cases hends with
    | trail hfollowed =>
      exact ⟨isNormal_absolute (isAbsolute_cwdText host) _, habsolute hfollowed.holds⟩

end Host

end HeaderAtlas
