import HeaderAtlas.Path.Basic
/-!
# Splitting and joining

A text is cut at every separator, and the empty parts are dropped. Two equations carry everything
that is said about paths later: a separator between two texts splits their pieces apart
(`splitList_append`), and names that hold no separator come back from the text that joins them
(`Segments.split_join`).
-/

set_option autoImplicit false

namespace HeaderAtlas

/-! ## Cutting at every separator -/

section SplitList

variable {α : Type} [DecidableEq α] {sep : α}

theorem splitList_ne_nil (t : List α) : splitList sep t ≠ [] := by
  cases t with
  | nil => simp [splitList]
  | cons c rest =>
    unfold splitList
    repeat' split
    all_goals simp

theorem splitList_cons_self (rest : List α) :
    splitList sep (sep :: rest) = [] :: splitList sep rest := by
  rw [splitList, if_pos rfl]

/-- A first element that is no separator belongs to the first part, of which there always is one. -/
theorem splitList_cons_of_ne {c : α} (hc : c ≠ sep) (rest : List α) :
    ∃ part parts, splitList sep rest = part :: parts ∧
      splitList sep (c :: rest) = (c :: part) :: parts := by
  rw [splitList, if_neg hc]
  cases hr : splitList sep rest with
  | nil => exact absurd hr (splitList_ne_nil rest)
  | cons part parts => exact ⟨part, parts, rfl, rfl⟩

/-- A part holds only what the text holds. -/
theorem subset_of_mem_splitList {t part : List α} (h : part ∈ splitList sep t) : part ⊆ t := by
  induction t generalizing part with
  | nil =>
    obtain rfl := List.mem_singleton.1 h
    exact List.nil_subset _
  | cons c rest ih =>
    by_cases hc : c = sep
    · rw [hc, splitList_cons_self, List.mem_cons] at h
      rcases h with rfl | h
      · exact List.nil_subset _
      · exact List.subset_cons_of_subset c (ih h)
    · obtain ⟨first, parts, hrest, hcons⟩ := splitList_cons_of_ne hc rest
      rw [hrest] at ih
      rw [hcons] at h
      rcases List.mem_cons.1 h with rfl | h
      · exact List.cons_subset_cons c (ih List.mem_cons_self)
      · exact List.subset_cons_of_subset c (ih (List.mem_cons_of_mem _ h))

/-- **A separator splits apart what stands on its two sides.** By induction on the first side; whatever it ends with,
the separator closes its last part. -/
theorem splitList_append (a b : List α) :
    splitList sep (a ++ sep :: b) = splitList sep a ++ splitList sep b := by
  induction a with
  | nil => rw [List.nil_append, splitList_cons_self]; rfl
  | cons c a ih =>
    rw [List.cons_append]
    by_cases hc : c = sep
    · rw [hc, splitList_cons_self, splitList_cons_self, ih, List.cons_append]
    · obtain ⟨part, parts, hp, hcp⟩ := splitList_cons_of_ne hc a
      obtain ⟨part', parts', hp', hcp'⟩ := splitList_cons_of_ne hc (a ++ sep :: b)
      -- by the induction hypothesis both texts begin with the same part, and `c` goes to it
      rw [ih, hp, List.cons_append, List.cons.injEq] at hp'
      rw [hcp, hcp', ← hp'.1, ← hp'.2, List.cons_append]

/-- What holds no separator and stands in front joins the first part. -/
theorem splitList_free_append {a : List α} (ha : sep ∉ a) {b part : List α}
    {parts : List (List α)} (hb : splitList sep b = part :: parts) :
    splitList sep (a ++ b) = (a ++ part) :: parts := by
  induction a with
  | nil => exact hb
  | cons c a ih =>
    rw [List.mem_cons, not_or] at ha
    obtain ⟨part', parts', hp, hcp⟩ := splitList_cons_of_ne (Ne.symm ha.1) (a ++ b)
    rw [ih ha.2, List.cons.injEq] at hp
    rw [List.cons_append, hcp, ← hp.1, ← hp.2, List.cons_append]

/-- Without a separator there is one part, the whole. -/
theorem splitList_free {a : List α} (ha : sep ∉ a) : splitList sep a = [a] := by
  have h : splitList sep (a ++ []) = [a ++ []] := splitList_free_append ha rfl
  rwa [List.append_nil] at h

/-- No part holds the separator, so a part cannot be split again. -/
theorem not_mem_of_mem_splitList {t part : List α} (h : part ∈ splitList sep t) : sep ∉ part := by
  induction t generalizing part with
  | nil =>
    rw [splitList, List.mem_singleton] at h
    simp [h]
  | cons c rest ih =>
    by_cases hc : c = sep
    · rw [hc, splitList_cons_self, List.mem_cons] at h
      rcases h with rfl | h
      · simp
      · exact ih h
    · obtain ⟨first, parts, hr, hcr⟩ := splitList_cons_of_ne hc rest
      rw [hcr, List.mem_cons] at h
      rcases h with rfl | h
      · rw [List.mem_cons, not_or]
        exact ⟨Ne.symm hc, ih (by rw [hr]; exact List.mem_cons_self)⟩
      · exact ih (by rw [hr]; exact List.mem_cons_of_mem _ h)

omit [DecidableEq α] in
/-- Two lists that are cut at the first occurrence of the same element are cut alike. -/
theorem append_cons_inj_of_free {x y x' y' : List α} (hx : sep ∉ x) (hx' : sep ∉ x')
    (h : x ++ sep :: y = x' ++ sep :: y') : x = x' ∧ y = y' := by
  induction x generalizing x' with
  | nil =>
    cases x' with
    | nil => exact ⟨rfl, by simpa using h⟩
    | cons c x' =>
      rw [List.nil_append, List.cons_append, List.cons.injEq] at h
      exact absurd (by rw [h.1]; exact List.mem_cons_self) hx'
  | cons c x ih =>
    rw [List.mem_cons, not_or] at hx
    cases x' with
    | nil =>
      rw [List.nil_append, List.cons_append, List.cons.injEq] at h
      exact absurd h.1.symm hx.1
    | cons c' x' =>
      rw [List.mem_cons, not_or] at hx'
      rw [List.cons_append, List.cons_append, List.cons.injEq] at h
      obtain ⟨h1, h2⟩ := ih hx.2 hx'.2 h.2
      exact ⟨by rw [h.1, h1], h2⟩

end SplitList

/-! ## Joining -/

namespace Text

@[simp] theorem join_nil (sep : Text) : join sep [] = [] := rfl

@[simp] theorem join_singleton (sep t : Text) : join sep [t] = t := rfl

theorem join_cons {sep t : Text} {rest : List Text} (h : rest ≠ []) :
    join sep (t :: rest) = t ++ sep ++ join sep rest := by
  cases rest with
  | nil => exact absurd rfl h
  | cons u rest => rfl

/-- One more name goes after a separator, unless it is the first. -/
theorem join_concat {sep t : Text} {rest : List Text} (h : rest ≠ []) :
    join sep (rest ++ [t]) = join sep rest ++ sep ++ t := by
  induction rest with
  | nil => exact absurd rfl h
  | cons u rest ih =>
    by_cases hr : rest = []
    · rw [hr]; rfl
    · rw [List.cons_append, join_cons (by simp), ih hr, join_cons hr]
      simp only [List.append_assoc]

/-- Joining in two goes is joining at once. The first go has to have something in it, or an empty name would stand in
its place. -/
theorem join_append {sep : Text} {xs ys : List Text} (hx : xs ≠ []) (hy : ys ≠ []) :
    join sep (xs ++ ys) = join sep (join sep xs :: ys) := by
  induction xs with
  | nil => exact absurd rfl hx
  | cons x xs ih =>
    by_cases hxs : xs = []
    · rw [hxs]
      rfl
    · rw [List.cons_append, join_cons (by simp [hxs]), ih hxs, join_cons hy, join_cons hy, join_cons hxs]
      simp only [List.append_assoc]

/-- The parts of a text, joined again. Nothing is lost, since the empty parts are still among them. -/
theorem join_splitList (sep : CodePoint) (t : Text) : join [sep] (splitList sep t) = t := by
  induction t with
  | nil => rfl
  | cons c rest ih =>
    by_cases hc : c = sep
    · rw [hc, splitList_cons_self, join_cons (splitList_ne_nil rest), ih]
      rfl
    · obtain ⟨part, parts, hrest, hcons⟩ := splitList_cons_of_ne hc rest
      rw [hrest] at ih
      rw [hcons, ← ih]
      -- whether a separator follows the first part depends on there being another
      cases parts <;> rfl

end Text

/-! ## Segments -/

namespace Segments

variable {sep : CodePoint}

@[simp] theorem split_nil : split sep [] = [] := rfl

/-- A segment is not empty and holds no separator. -/
theorem mem_split {t name : Text} (h : name ∈ split sep t) : name ≠ [] ∧ sep ∉ name := by
  rw [split, List.mem_filter] at h
  exact ⟨by simpa using h.2, not_mem_of_mem_splitList h.1⟩

/-- **Segments of two texts with a separator between them.** -/
theorem split_append (a b : Text) : split sep (a ++ sep :: b) = split sep a ++ split sep b := by
  unfold split Text.splitOn
  rw [splitList_append, List.filter_append]

/-- A separator at either end makes an empty part, and that is dropped. -/
theorem split_cons_self (t : Text) : split sep (sep :: t) = split sep t := split_append [] t

theorem split_append_self (t : Text) : split sep (t ++ [sep]) = split sep t := by
  rw [split_append, split_nil, List.append_nil]

/-- A name is the only segment of itself. -/
theorem split_free {name : Text} (hne : name ≠ []) (hfree : sep ∉ name) : split sep name = [name] := by
  unfold split Text.splitOn
  rw [splitList_free hfree]
  simp [hne]

/-- **Names come back from the text that joins them**, if they can be names at all: an empty one would be dropped, and
one with a separator would be split. -/
theorem split_join {names : List Text} (h : ∀ n ∈ names, n ≠ [] ∧ sep ∉ n) :
    split sep (Text.join [sep] names) = names := by
  induction names with
  | nil => rfl
  | cons n rest ih =>
    have hn := h n List.mem_cons_self
    have hr := ih fun m hm => h m (List.mem_cons_of_mem _ hm)
    by_cases hne : rest = []
    · rw [hne, Text.join_singleton, split_free hn.1 hn.2]
    · rw [Text.join_cons hne, List.append_assoc, List.singleton_append, split_append, hr,
        split_free hn.1 hn.2, List.singleton_append]

end Segments

end HeaderAtlas
