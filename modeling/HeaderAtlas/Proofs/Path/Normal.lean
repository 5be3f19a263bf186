import HeaderAtlas.Path.Basic
import HeaderAtlas.Proofs.Text.Utf8
/-!
# Normal paths

A normal absolute path is an anchor of one slash or two and proper names with slashes between them. It is given back
by its anchor and its components, so what an operation does to such a path is said by what it does to the components:
joining a name adds one, the parent has one less, and normalizing changes nothing. Containment of paths with one
anchor is that of lists of components (`Path.contains_iff_of_anchor_eq`).

The operations themselves work on characters: they look for a slash from the end, or cut one off, or compare
beginnings of texts. Other modules do not have to. A path comes from `ofNames`, every operation on it has a lemma that
says what becomes of the list of names, and `IsNormal.eq` turns any normal path into that form.

Two anchors are needed because a path may begin with two slashes and is then not the same as with one. Three or more
count as one; that is a matter of `anchor` and does not occur below.
-/

set_option autoImplicit false

namespace HeaderAtlas

namespace Path

variable {p q : Text} {names : List Text} {name : Text}

/-! ## Anchors and proper names -/

/-- A name that leads down. Empty names do not occur as components, and the other two names are those that normalizing
takes away. -/
structure Proper (name : Text) : Prop where
  ne_nil : name ≠ []
  slashless : slash ∉ name
  ne_here : name ≠ here
  ne_up : name ≠ up

/-- What a normal absolute path begins with. Two slashes are kept and do not become one. -/
def IsAnchor (t : Text) : Prop := t = [slash] ∨ t = [slash, slash]

/-- The path of an anchor and names. The names need not be proper; only then is it normal. -/
def ofNames (start : Text) (names : List Text) : Text := start ++ Text.join [slash] names

/-- An absolute path in normal form. The last field is what makes it one: there is nothing in the path but its anchor
and its components. -/
structure IsNormal (p : Text) : Prop where
  anchored : IsAnchor (anchor p)
  proper : ∀ name ∈ components p, Proper name
  eq : p = ofNames (anchor p) (components p)

/-- The names come back as components. The slashes of the anchor stand before empty components, which do not count. -/
theorem components_ofNames {start : Text} (hs : IsAnchor start) (hnames : ∀ n ∈ names, Proper n) :
    components (ofNames start names) = names := by
  have hjoin : Segments.split slash (Text.join [slash] names) = names :=
    Segments.split_join fun n hn => ⟨(hnames n hn).ne_nil, (hnames n hn).slashless⟩
  rcases hs with rfl | rfl
  · exact (Segments.split_cons_self _).trans hjoin
  · exact (Segments.split_cons_self _).trans ((Segments.split_cons_self _).trans hjoin)

/-- Joined names do not begin with a slash. -/
theorem head?_join_ne (hnames : ∀ n ∈ names, Proper n) : (Text.join [slash] names).head? ≠ some slash := by
  cases names with
  | nil => simp
  | cons n rest =>
    obtain ⟨hne, hfree, _⟩ := hnames n List.mem_cons_self
    obtain ⟨c, tail, rfl⟩ := List.exists_cons_of_ne_nil hne
    have hc : c ≠ slash := fun h => hfree (h ▸ List.mem_cons_self)
    cases rest with
    | nil => simpa using hc
    | cons m rest => simpa [Text.join] using hc

/-- The anchor comes back as well, since the first name does not begin with a slash and so cannot lengthen it. -/
theorem anchor_ofNames {start : Text} (hs : IsAnchor start) (hnames : ∀ n ∈ names, Proper n) :
    anchor (ofNames start names) = start := by
  have hstop : (Text.join [slash] names).takeWhile (· == slash) = [] := by
    have hhead := head?_join_ne hnames
    cases h : Text.join [slash] names with
    | nil => rfl
    | cons c rest =>
      rw [h] at hhead
      have hc : (c == slash) = false := by simpa using hhead
      rw [List.takeWhile_cons, hc]
      rfl
  unfold anchor ofNames
  rcases hs with rfl | rfl
  · rw [List.takeWhile_append_of_pos (by simp), hstop]
    rfl
  · rw [List.takeWhile_append_of_pos (by simp), hstop]
    rfl

/-- **A path of an anchor and proper names is normal.** With `IsNormal.eq` this makes normal paths and lists of proper
names two ways to say the same. -/
theorem isNormal_ofNames {start : Text} (hs : IsAnchor start) (hnames : ∀ n ∈ names, Proper n) :
    IsNormal (ofNames start names) where
  anchored := by rwa [anchor_ofNames hs hnames]
  proper := by rwa [components_ofNames hs hnames]
  eq := by rw [anchor_ofNames hs hnames, components_ofNames hs hnames]

theorem isNormal_root : IsNormal root :=
  isNormal_ofNames (.inl rfl) (show ∀ n ∈ ([] : List Text), Proper n by simp)

/-- Whatever follows an anchor is absolute. -/
theorem IsAnchor.isAbsolute {start : Text} (hs : IsAnchor start) (t : Text) :
    isAbsolute (start ++ t) = true := by
  rcases hs with rfl | rfl <;> rfl

theorem IsNormal.isAbsolute (hp : IsNormal p) : isAbsolute p = true := by
  rw [hp.eq]
  exact hp.anchored.isAbsolute _

/-! ## One name more, one name less -/

/-- Behind names a new one is set off by a slash. Behind the anchor alone it is not, so that case is treated apart
wherever a name is added. -/
theorem ofNames_concat {start : Text} (hne : names ≠ []) :
    ofNames start (names ++ [name]) = ofNames start names ++ slash :: name := by
  rw [ofNames, Text.join_concat hne, ofNames, List.append_assoc, List.append_assoc]
  rfl

/-- A path with names ends with the last of them. -/
theorem exists_ofNames_eq_append (start : Text) (hne : names ≠ []) :
    ∃ last ∈ names, ∃ before, ofNames start names = before ++ last := by
  obtain ⟨init, last, rfl⟩ : ∃ init last, names = init ++ [last] :=
    ⟨names.dropLast, names.getLast hne, (List.dropLast_concat_getLast hne).symm⟩
  refine ⟨last, by simp, ?_⟩
  by_cases hinit : init = []
  · exact ⟨start, by rw [hinit, List.nil_append, ofNames, Text.join_singleton]⟩
  · exact ⟨ofNames start init ++ [slash], by rw [ofNames_concat hinit]; simp⟩

/-- The last character of a path with names is no slash. -/
theorem getLast?_ofNames_ne {start : Text} (hne : names ≠ []) (hnames : ∀ n ∈ names, Proper n) :
    (ofNames start names).getLast? ≠ some slash := by
  obtain ⟨last, hmem, before, hbefore⟩ := exists_ofNames_eq_append start hne
  obtain ⟨hlast, hfree, _⟩ := hnames last hmem
  rw [hbefore, List.getLast?_append, List.getLast?_eq_some_getLast hlast, Option.some_or, ne_eq,
    Option.some.injEq]
  exact fun h => hfree (h ▸ List.getLast_mem hlast)

theorem not_isAbsolute_of_slashless (h : slash ∉ name) : isAbsolute name = false := by
  cases name with
  | nil => rfl
  | cons c rest =>
    have hc : c ≠ slash := fun hc => h (hc ▸ List.mem_cons_self)
    simpa [isAbsolute] using hc

/-- **Joining a name** adds it to the components. -/
theorem join_ofNames {start : Text} (hs : IsAnchor start) (hnames : ∀ n ∈ names, Proper n)
    (hname : slash ∉ name) : join (ofNames start names) name = ofNames start (names ++ [name]) := by
  rw [join, not_isAbsolute_of_slashless hname]
  -- An anchor alone ends with a slash, so only a path with names gets another one.
  by_cases hne : names = []
  · rcases hs with rfl | rfl
    · simp [hne, ofNames]
    · simp [hne, ofNames]
  · have hlast : ((ofNames start names).getLast? == some slash) = false := by
      simpa using getLast?_ofNames_ne hne hnames
    have hempty : (ofNames start names).isEmpty = false := by
      rcases hs with rfl | rfl <;> rfl
    rw [hlast, hempty, ofNames_concat hne]
    rfl

/-- The parent of a path with something after its last slash. Slashes at the end of what is left are dropped, unless
there is nothing else. -/
theorem parent_append {front : Text} (hname : slash ∉ name) :
    parent (front ++ slash :: name) =
      if (Text.dropRightWhile (· == slash) front).isEmpty then front ++ [slash]
      else Text.dropRightWhile (· == slash) front := by
  have hpass : ∀ c ∈ name.reverse, (c != slash) = true := by
    intro c hc
    rw [List.mem_reverse] at hc
    simpa using fun h : c = slash => hname (h ▸ hc)
  have hhead : ((front ++ slash :: name).reverse.dropWhile (· != slash)).reverse = front ++ [slash] := by
    have hreverse : (front ++ slash :: name).reverse = name.reverse ++ (slash :: front.reverse) := by simp
    rw [hreverse, List.dropWhile_append_of_pos hpass]
    simp
  have hshort : Text.dropRightWhile (· == slash) (front ++ [slash]) =
      Text.dropRightWhile (· == slash) front := by
    simp [Text.dropRightWhile]
  rw [parent, hhead, hshort]

/-- Nothing is dropped where there is no slash at the end. -/
theorem dropRightWhile_eq_self {t : Text} (h : t.getLast? ≠ some slash) :
    Text.dropRightWhile (· == slash) t = t := by
  rw [Text.dropRightWhile]
  cases hr : t.reverse with
  | nil => simpa using hr.symm
  | cons c rest =>
    have ht : t = rest.reverse ++ [c] := by rw [← List.reverse_reverse t, hr, List.reverse_cons]
    have hc : (c == slash) = false := by
      rw [ht, List.getLast?_concat] at h
      simpa using h
    rw [List.dropWhile_cons, hc, ht]
    simp

/-- An anchor is its own parent. -/
theorem parent_ofNames_nil {start : Text} (hs : IsAnchor start) :
    parent (ofNames start []) = ofNames start [] := by
  rcases hs with rfl | rfl <;> decide

/-- **The parent** has one component less. -/
theorem parent_ofNames_concat {start : Text} (hs : IsAnchor start) (hnames : ∀ n ∈ names, Proper n)
    (hname : slash ∉ name) : parent (ofNames start (names ++ [name])) = ofNames start names := by
  by_cases hne : names = []
  · subst hne
    rcases hs with rfl | rfl
    · exact @parent_append name [] hname
    · exact @parent_append name [slash] hname
  · have hempty : (ofNames start names).isEmpty = false := by
      rcases hs with rfl | rfl <;> rfl
    rw [ofNames_concat hne, parent_append hname,
      dropRightWhile_eq_self (getLast?_ofNames_ne hne hnames), hempty]
    rfl

/-- The parent of a path: the path itself if it is the anchor alone, else all names but the last. -/
theorem IsNormal.parent_eq (h : IsNormal p) : (components p = [] ∧ parent p = p) ∨
    ∃ init last, components p = init ++ [last] ∧ parent p = ofNames (anchor p) init := by
  have hs := h.anchored
  by_cases hne : components p = []
  · refine .inl ⟨hne, ?_⟩
    have hparent := parent_ofNames_nil hs
    rwa [← hne, ← h.eq] at hparent
  -- All names but the last, and the last, which the parent does without.
  · have heq := (List.dropLast_concat_getLast hne).symm
    have hproper := h.proper
    refine .inr ⟨_, _, heq, ?_⟩
    have hparent := @parent_ofNames_concat _ ((components p).getLast hne) _ hs
      (fun n hn => hproper n ((List.dropLast_sublist _).subset hn)) (hproper _ (List.getLast_mem hne)).slashless
    rwa [← heq, ← h.eq] at hparent

/-- `join_ofNames` for a path that is only known to be normal. -/
theorem IsNormal.join_eq (h : IsNormal p) (hname : slash ∉ name) :
    join p name = ofNames (anchor p) (components p ++ [name]) := by
  have hjoin := join_ofNames h.anchored h.proper hname
  rwa [← h.eq] at hjoin

/-- Going up, or down to a proper name, leads from a normal path to a normal one with the same anchor. -/
protected theorem IsNormal.parent (h : IsNormal p) : IsNormal (parent p) ∧ anchor (Path.parent p) = anchor p := by
  rcases h.parent_eq with ⟨_, heq⟩ | ⟨init, last, hcomponents, heq⟩
  · rw [heq]
    exact ⟨h, rfl⟩
  · have hinit : ∀ n ∈ init, Proper n := fun n hn => h.proper n (by simp [hcomponents, hn])
    rw [heq]
    exact ⟨isNormal_ofNames h.anchored hinit, anchor_ofNames h.anchored hinit⟩

/-- The name has to be proper for the path to be normal again; for the path to be what it is, it only must not hold a
slash. -/
protected theorem IsNormal.join (h : IsNormal p) (hname : Proper name) :
    IsNormal (join p name) ∧ anchor (Path.join p name) = anchor p := by
  have hnames : ∀ n ∈ components p ++ [name], Proper n := by
    intro n hn
    rcases List.mem_append.1 hn with hn | hn
    · exact h.proper n hn
    · rwa [List.mem_singleton.1 hn]
  rw [h.join_eq hname.slashless]
  exact ⟨isNormal_ofNames h.anchored hnames, anchor_ofNames h.anchored hnames⟩

/-! ## Normal forms -/

/-- Empty components do not count. -/
theorem foldl_push_filter (isAbs : Bool) (stack parts : List Text) :
    parts.foldl (push isAbs) stack = (parts.filter (!·.isEmpty)).foldl (push isAbs) stack := by
  induction parts generalizing stack with
  | nil => rfl
  | cons part parts ih =>
    cases part with
    | nil => exact ih stack
    | cons c part => exact ih _

/-- Normalizing is a fold over components, with those that are done on a stack. -/
theorem normalComponents_eq (p : Text) :
    normalComponents p = ((components p).foldl (push (isAbsolute p)) []).reverse := by
  rw [normalComponents, foldl_push_filter]
  rfl

/-- Proper names are pushed one after the other and none is taken away. -/
theorem foldl_push_proper (isAbs : Bool) (stack : List Text) (hnames : ∀ n ∈ names, Proper n) :
    names.foldl (push isAbs) stack = names.reverse ++ stack := by
  induction names generalizing stack with
  | nil => rfl
  | cons n rest ih =>
    obtain ⟨hne, _, hhere, hup⟩ := hnames n List.mem_cons_self
    have hpush : push isAbs stack n = n :: stack := by
      unfold push
      rw [if_neg (by simp [hne, hhere]), if_neg hup]
    rw [List.foldl_cons, hpush, ih _ fun m hm => hnames m (List.mem_cons_of_mem _ hm)]
    simp

/-- What is left of an absolute path's components is proper. The induction is over the components that
are still to come; nothing on the stack goes up, so going up always takes one away. -/
theorem mem_foldl_push {parts stack : List Text} (hparts : ∀ n ∈ parts, n ≠ [] ∧ slash ∉ n)
    (hstack : ∀ n ∈ stack, Proper n) :
    ∀ n ∈ parts.foldl (push true) stack, Proper n ∧ (n ∈ stack ∨ n ∈ parts) := by
  induction parts generalizing stack with
  | nil => exact fun n hn => ⟨hstack n hn, .inl hn⟩
  | cons part parts ih =>
    have hpush : ∀ n ∈ push true stack part, Proper n ∧ (n ∈ stack ∨ n = part) := by
      intro n hn
      unfold push at hn
      split at hn
      · exact ⟨hstack n hn, .inl hn⟩
      · next hhere =>
        split at hn
        · -- Going up from the root of an absolute path stays there.
          cases stack with
          | nil => simp at hn
          | cons top below =>
            dsimp only at hn
            rw [if_neg (hstack top List.mem_cons_self).ne_up] at hn
            exact ⟨hstack n (List.mem_cons_of_mem _ hn), .inl (List.mem_cons_of_mem _ hn)⟩
        · next hup =>
          rcases List.mem_cons.1 hn with rfl | hn
          · obtain ⟨hne, hfree⟩ := hparts n List.mem_cons_self
            exact ⟨⟨hne, hfree, fun h => hhere (.inr h), hup⟩, .inr rfl⟩
          · exact ⟨hstack n hn, .inl hn⟩
    intro n hn
    obtain ⟨hproper, hmem⟩ := ih (fun m hm => hparts m (List.mem_cons_of_mem _ hm))
      (fun m hm => (hpush m hm).1) n hn
    refine ⟨hproper, ?_⟩
    rcases hmem with hmem | hmem
    · rcases (hpush n hmem).2 with h | rfl
      · exact .inl h
      · exact .inr List.mem_cons_self
    · exact .inr (List.mem_cons_of_mem _ hmem)

/-- What is left after normalizing was there before, and is proper. -/
theorem mem_normalComponents (hp : isAbsolute p = true) :
    ∀ n ∈ normalComponents p, Proper n ∧ n ∈ components p := by
  intro n hn
  rw [normalComponents_eq, hp, List.mem_reverse] at hn
  obtain ⟨hproper, hmem⟩ := mem_foldl_push (fun m hm => Segments.mem_split hm) (by simp) n hn
  exact ⟨hproper, hmem.resolve_left (by simp)⟩

/-- Any number of slashes at the beginning of a path makes one of two anchors. -/
theorem isAnchor_anchor (hp : isAbsolute p = true) : IsAnchor (anchor p) := by
  cases p with
  | nil => simp [isAbsolute] at hp
  | cons c rest =>
    have hc : c = slash := by simpa [isAbsolute] using hp
    subst hc
    unfold anchor
    rw [List.takeWhile_cons_of_pos (by simp), List.length_cons]
    split
    · next h => omega
    · exact .inr rfl
    · exact .inl rfl

/-- The normal form of an absolute path is never empty, so the exception for empty ones does not apply. -/
theorem normalize_eq (hp : isAbsolute p = true) :
    normalize p = ofNames (anchor p) (normalComponents p) := by
  have hempty : (ofNames (anchor p) (normalComponents p)).isEmpty = false := by
    rcases isAnchor_anchor hp with h | h <;> rw [ofNames, h] <;> rfl
  rw [ofNames] at hempty
  rw [normalize]
  simp only [hempty]
  rfl

/-- **Normalizing an absolute path** gives a normal one, made of components that were there. -/
theorem isNormal_normalize (hp : isAbsolute p = true) :
    IsNormal (normalize p) ∧ ∀ n ∈ components (normalize p), n ∈ components p := by
  have hproper := fun n hn => (mem_normalComponents hp n hn).1
  -- The components of the normal form are the ones that the fold has left.
  rw [normalize_eq hp]
  refine ⟨isNormal_ofNames (isAnchor_anchor hp) hproper, fun n hn => ?_⟩
  rw [components_ofNames (isAnchor_anchor hp) hproper] at hn
  exact (mem_normalComponents hp n hn).2

/-- A normal path is in normal form already. -/
theorem normalize_eq_self (hp : IsNormal p) : normalize p = p := by
  rw [normalize_eq hp.isAbsolute, normalComponents_eq, foldl_push_proper _ _ hp.proper, List.append_nil,
    List.reverse_reverse]
  exact hp.eq.symm

/-- From an absolute directory every path leads to an absolute one. -/
theorem isAbsolute_join {cwd : Text} (hcwd : isAbsolute cwd = true) (p : Text) :
    isAbsolute (join cwd p) = true := by
  cases cwd with
  | nil => simp [isAbsolute] at hcwd
  | cons c rest =>
    rw [join]
    split
    · next h => exact h
    · split
      · exact hcwd
      · exact hcwd

/-- For a normal path the working directory does not matter. -/
theorem absolute_eq_self {cwd : Text} (hp : IsNormal p) : absolute cwd p = p := by
  rw [absolute, join, if_pos hp.isAbsolute, normalize_eq_self hp]

theorem isNormal_absolute {cwd : Text} (hcwd : isAbsolute cwd = true) (p : Text) :
    IsNormal (absolute cwd p) := (isNormal_normalize (isAbsolute_join hcwd p)).1

/-! ## Containment -/

/-- **What a directory contains** has its components and perhaps more. This direction needs no normal form, since the
paths are made absolute first. -/
theorem prefix_of_contains {cwd outer inner : Text} (h : contains cwd outer inner = true) :
    components (absolute cwd outer) <+: components (absolute cwd inner) := by
  unfold contains at h
  simp only [Bool.or_eq_true, beq_iff_eq] at h
  rcases h with h | h
  · refine ⟨[], ?_⟩
    rw [h, List.append_nil]
  · obtain ⟨rest, hrest⟩ := List.isPrefixOf_iff_prefix.1 h
    refine ⟨components rest, ?_⟩
    rw [← hrest]
    split
    · next hlast =>
      -- The directory ends with a slash: it is the anchor alone.
      obtain ⟨front, hfront⟩ := List.getLast?_eq_some_iff.1 hlast
      unfold components
      rw [hfront, Segments.split_append_self, List.append_assoc]
      exact (Segments.split_append front rest).symm
    · rw [List.append_assoc]
      exact (Segments.split_append _ rest).symm

/-- A path with more names begins with the path of the first of them and a slash. -/
theorem ofNames_append {start : Text} {xs ys : List Text} (hx : xs ≠ []) (hy : ys ≠ []) :
    ofNames start (xs ++ ys) = ofNames start xs ++ [slash] ++ Text.join [slash] ys := by
  rw [ofNames, Text.join_append hx hy, Text.join_cons hy, ofNames]
  simp only [List.append_assoc]

/-- **A directory contains what has its names and more.** -/
theorem contains_ofNames_append {cwd start : Text} {xs ys : List Text} (hs : IsAnchor start)
    (hnames : ∀ n ∈ xs ++ ys, Proper n) : contains cwd (ofNames start xs) (ofNames start (xs ++ ys)) = true := by
  have hx : ∀ n ∈ xs, Proper n := fun n hn => hnames n (List.mem_append_left _ hn)
  rw [contains, absolute_eq_self (isNormal_ofNames hs hx), absolute_eq_self (isNormal_ofNames hs hnames)]
  simp only [Bool.or_eq_true, beq_iff_eq, List.isPrefixOf_iff_prefix]
  by_cases hy : ys = []
  · left
    rw [hy, List.append_nil]
  · right
    -- The anchor ends with a slash already. A path with names does not, and gets one.
    by_cases hxs : xs = []
    · have hlast : (ofNames start []).getLast? = some slash := by rcases hs with rfl | rfl <;> rfl
      rw [hxs, if_pos hlast, ofNames, Text.join_nil, List.append_nil, ofNames]
      exact List.prefix_append _ _
    · rw [if_neg (getLast?_ofNames_ne hxs hx), ofNames_append hxs hy]
      exact List.prefix_append _ _

/-- **Normal paths with one anchor are compared by components.** With different anchors the components are not enough:
`//` does not contain `/a`. -/
theorem contains_iff_of_anchor_eq {cwd : Text} (hp : IsNormal p) (hq : IsNormal q) (h : anchor p = anchor q) :
    contains cwd p q = true ↔ components p <+: components q := by
  constructor
  · intro hcontains
    have hprefix := prefix_of_contains hcontains
    rwa [absolute_eq_self hp, absolute_eq_self hq] at hprefix
  · rintro ⟨rest, hrest⟩
    have hproper := hq.proper
    rw [← hrest] at hproper
    have hcontains := @contains_ofNames_append cwd _ _ _ hp.anchored hproper
    rwa [hrest, ← hp.eq, h, ← hq.eq] at hcontains

theorem contains_self (cwd dir : Text) : contains cwd dir dir = true := by simp [contains]

/-- What a directory contains, the directories that contain it contain too. -/
theorem contains_trans {cwd a b c : Text} (hab : contains cwd a b = true) (hbc : contains cwd b c = true) :
    contains cwd a c = true := by
  simp only [contains, Bool.or_eq_true, beq_iff_eq, List.isPrefixOf_iff_prefix] at hab hbc ⊢
  rcases hab with hab | hab
  · rwa [hab]
  · right
    have hbc' : absolute cwd b <+: absolute cwd c := by
      rcases hbc with hbc | hbc
      · exact hbc ▸ List.prefix_rfl
      · refine List.IsPrefix.trans ?_ hbc
        split
        · exact List.prefix_rfl
        · exact List.prefix_append _ _
    exact hab.trans hbc'

/-- A list has all of itself in common with what begins with it. -/
theorem dropCommon_append (xs ys : List Text) : dropCommon xs (xs ++ ys) = ([], ys) := by
  induction xs with
  | nil => cases ys <;> rfl
  | cons x xs ih => rw [List.cons_append, dropCommon, if_pos rfl, ih]

/-- **A path seen from a directory that contains it** is the rest of its components, or `.` if there is no rest. No
`..` is needed then. -/
theorem relative_eq {cwd start : Text} {rest : List Text}
    (h : components (absolute cwd p) = components (absolute cwd start) ++ rest) :
    relative cwd p start = if rest = [] then here else Text.join [slash] rest := by
  unfold relative
  rw [h, dropCommon_append]
  cases rest <;> rfl

/-! ## Decoded paths -/

/-- A slash is ASCII, so cutting at slashes never cuts a character that was decoded from several bytes. -/
theorem decoded_components (hp : p.Decoded) : ∀ name ∈ components p, name.Decoded :=
  fun _ hname => hp.of_mem_split (by decide) hname

theorem decoded_cons_slash {t : Text} (ht : t.Decoded) : Text.Decoded (slash :: t) :=
  Text.Decoded.append_ascii (show slash.val < 0x80 by decide) Text.Decoded.nil ht

theorem decoded_ofNames {start : Text} (hs : IsAnchor start) (hnames : ∀ n ∈ names, n.Decoded) :
    (ofNames start names).Decoded := by
  have hjoin : (Text.join [slash] names).Decoded := Text.Decoded.join (by decide) hnames
  rcases hs with rfl | rfl
  · exact decoded_cons_slash hjoin
  · exact decoded_cons_slash (decoded_cons_slash hjoin)

/-- Joining puts a slash between two texts, or finds one there. -/
theorem decoded_join (hp : p.Decoded) (hq : q.Decoded) : (join p q).Decoded := by
  rw [join]
  split
  · exact hq
  · split
    · next h =>
      rcases Bool.or_eq_true_iff.1 h with h | h
      · rw [List.isEmpty_iff.1 h]
        exact hq
      · -- Two decoded texts side by side need not be decoded; here a slash keeps them apart.
        obtain ⟨front, rfl⟩ := List.getLast?_eq_some_iff.1 (by simpa using h)
        rw [List.append_assoc]
        exact Text.Decoded.append_ascii (by decide) (hp.of_append_ascii (by decide)).1 hq
    · exact Text.Decoded.append_ascii (by decide) hp hq

theorem decoded_absolute {cwd : Text} (hcwd : isAbsolute cwd = true) (hd : cwd.Decoded)
    (hp : p.Decoded) : (absolute cwd p).Decoded := by
  obtain ⟨hnormal, hmem⟩ := isNormal_normalize (isAbsolute_join hcwd p)
  rw [absolute, hnormal.eq]
  exact decoded_ofNames hnormal.anchored fun n hn =>
    decoded_components (decoded_join hd hp) n (hmem n hn)

/-! ## Clean paths -/

/-- A normal path with a decoded text. This is what a path on the disk is like: it leads down from an anchor, and its
bytes can be told from it. -/
structure Clean (p : Text) : Prop where
  normal : IsNormal p
  decoded : p.Decoded

theorem clean_ofNames {start : Text} (hs : IsAnchor start) (hnames : ∀ n ∈ names, Proper n ∧ n.Decoded) :
    Clean (ofNames start names) :=
  ⟨isNormal_ofNames hs fun n hn => (hnames n hn).1, decoded_ofNames hs fun n hn => (hnames n hn).2⟩

theorem clean_root : Clean root := ⟨isNormal_root, by decide⟩

namespace Clean

/-- The names of a clean path are proper and decoded, one by one. -/
theorem of_mem (h : Clean p) : ∀ n ∈ components p, Proper n ∧ n.Decoded :=
  fun n hn => ⟨h.normal.proper n hn, decoded_components h.decoded n hn⟩

theorem of_mem_concat (h : Clean p) (hname : Proper name) (hd : name.Decoded) :
    ∀ n ∈ components p ++ [name], Proper n ∧ n.Decoded := by
  intro n hn
  rcases List.mem_append.1 hn with hn | hn
  · exact h.of_mem n hn
  · rw [List.mem_singleton.1 hn]
    exact ⟨hname, hd⟩

protected theorem parent (h : Clean p) : Clean (parent p) := by
  rcases h.normal.parent_eq with ⟨_, heq⟩ | ⟨init, last, hcomponents, heq⟩
  · rwa [heq]
  · rw [heq]
    refine clean_ofNames h.normal.anchored fun n hn => h.of_mem n ?_
    rw [hcomponents]
    exact List.mem_append_left _ hn

protected theorem join (h : Clean p) (hname : Proper name) (hd : name.Decoded) : Clean (join p name) := by
  rw [h.normal.join_eq hname.slashless]
  exact clean_ofNames h.normal.anchored (h.of_mem_concat hname hd)

end Clean

end Path

end HeaderAtlas
