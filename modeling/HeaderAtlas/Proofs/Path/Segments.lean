import HeaderAtlas.Proofs.Text.Split
import Mathlib.Data.List.Basic
/-!
# Segments of a path

The segments of a path are its non-empty parts between separators. A search that goes from separator to
separator finds the same (`searchFrom`): wherever it begins, it finds the segments of what is left there
(`searchFrom_eq`). Nothing needs to be said about separators at the ends or side by side, as three laws on
whole texts say it all (`IsSplitting`). Segments are names, a separator between two texts keeps their segments
apart, and names that are joined come back. Only one function has these laws (`IsSplitting.unique`).
-/

set_option autoImplicit false

namespace HeaderAtlas

namespace Segments

variable {sep : CodePoint} {path : Text} {pos : Nat}

/-! ## The search -/

/-- The next separator from a position on, or the end of the path. -/
def nextFrom (sep : CodePoint) (path : Text) (pos : Nat) : Nat := pos + (path.drop pos).idxOf sep

/-- What stands between a position and the next separator. -/
def passed (sep : CodePoint) (path : Text) (pos : Nat) : Text := (path.take (nextFrom sep path pos)).drop pos

/-- The segments that a search from a position on finds. It jumps behind the next separator, and what it
passes is a segment unless it is empty. -/
def searchFrom (sep : CodePoint) (path : Text) (pos : Nat) : List Text :=
  if pos < path.length then
    if pos < nextFrom sep path pos then passed sep path pos :: searchFrom sep path (nextFrom sep path pos + 1)
    else searchFrom sep path (nextFrom sep path pos + 1)
  else []
termination_by path.length - pos
decreasing_by
  all_goals
    simp only [nextFrom]
    omega

/-- What is passed holds no separator. Either it is all there was, or a separator stands behind it. -/
theorem passed_spec (sep : CodePoint) (path : Text) (pos : Nat) :
    sep ∉ passed sep path pos ∧ nextFrom sep path pos = pos + (passed sep path pos).length ∧
      (path.drop pos = passed sep path pos ∨
        ∃ after, path.drop pos = passed sep path pos ++ sep :: after) := by
  have hpassed : passed sep path pos = (path.drop pos).take ((path.drop pos).idxOf sep) := List.take_drop.symm
  rw [hpassed, nextFrom]
  by_cases hmem : sep ∈ path.drop pos
  · obtain ⟨part, after, hdrop, hfree⟩ := List.eq_append_cons_of_mem hmem
    have hindex : (part ++ sep :: after).idxOf sep = part.length := by
      rw [List.idxOf_append_of_notMem hfree, List.idxOf_cons_self, Nat.add_zero]
    rw [hdrop, hindex, List.take_left]
    exact ⟨hfree, rfl, .inr ⟨after, rfl⟩⟩
  · rw [List.idxOf_eq_length hmem, List.take_length]
    exact ⟨hmem, rfl, .inl rfl⟩

/-- **One jump** takes off the segments of what is passed. -/
theorem split_drop (sep : CodePoint) (path : Text) (pos : Nat) :
    split sep (path.drop pos) =
      split sep (passed sep path pos) ++ split sep (path.drop (nextFrom sep path pos + 1)) := by
  obtain ⟨_, hnext, hdrop⟩ := passed_spec sep path pos
  rw [hnext, Nat.add_assoc, ← List.drop_drop]
  -- At the last part the search jumps beyond the end, where there is nothing left.
  rcases hdrop with hdrop | ⟨after, hdrop⟩
  · rw [hdrop, List.drop_eq_nil_of_le (Nat.le_succ _), split_nil, List.append_nil]
  · rw [hdrop, split_append, ← List.drop_drop, List.drop_left]
    rfl

/-- What is passed is one segment or none. -/
theorem searchFrom_of_lt (h : pos < path.length) :
    searchFrom sep path pos =
      split sep (passed sep path pos) ++ searchFrom sep path (nextFrom sep path pos + 1) := by
  obtain ⟨hfree, hnext, _⟩ := passed_spec sep path pos
  rw [searchFrom, if_pos h]
  by_cases hempty : passed sep path pos = []
  · rw [if_neg (by simp [hnext, hempty]), hempty, split_nil, List.nil_append]
  · have hlength := List.length_pos_iff.2 hempty
    rw [if_pos (by omega), split_free hempty hfree, List.singleton_append]

/-- **The search finds the segments of what is left where it begins.** The recursion is on the jumps that are
still to come. -/
theorem searchFrom_eq (sep : CodePoint) (path : Text) (pos : Nat) :
    searchFrom sep path pos = split sep (path.drop pos) := by
  by_cases h : pos < path.length
  · rw [searchFrom_of_lt h, split_drop, searchFrom_eq sep path (nextFrom sep path pos + 1)]
  · rw [searchFrom, if_neg h, List.drop_eq_nil_of_le (Nat.le_of_not_lt h), split_nil]
termination_by path.length - pos
decreasing_by
  rw [nextFrom]
  omega

/-! ## The laws -/

/-- What can be a segment. -/
def IsName (sep : CodePoint) (name : Text) : Prop := name ≠ [] ∧ sep ∉ name

/-- The laws of splitting at a separator. -/
structure IsSplitting (sep : CodePoint) (f : Text → List Text) : Prop where
  isName : ∀ path, ∀ name ∈ f path, IsName sep name
  append : ∀ p q, f (p ++ [sep] ++ q) = f p ++ f q
  join : ∀ names, (∀ name ∈ names, IsName sep name) → f (Text.join [sep] names) = names

theorem isSplitting_split (sep : CodePoint) : IsSplitting sep (split sep) where
  isName _ _ := mem_split
  append p q := by rw [List.append_assoc, List.singleton_append, split_append]
  join _ h := split_join h

namespace IsSplitting

variable {f : Text → List Text}

/-- A text without a separator is one segment or none. -/
theorem eq_of_free (h : IsSplitting sep f) {part : Text} (hfree : sep ∉ part) : f part = split sep part := by
  by_cases hempty : part = []
  · subst hempty
    exact h.join [] (by simp)
  · rw [split_free hempty hfree]
    exact h.join [part] (by simp [IsName, hempty, hfree])

/-- **The laws leave no choice.** The induction is on the parts between separators, empty ones included, of
which the text is made. -/
theorem unique (h : IsSplitting sep f) : f = split sep := by
  have hparts : ∀ parts : List Text, (∀ part ∈ parts, sep ∉ part) →
      f (Text.join [sep] parts) = split sep (Text.join [sep] parts) := by
    intro parts
    induction parts with
    | nil =>
      intro _
      exact h.eq_of_free (by simp)
    | cons part parts ih =>
      intro hfree
      have hpart := h.eq_of_free (hfree part List.mem_cons_self)
      by_cases hlast : parts = []
      · rw [hlast, Text.join_singleton, hpart]
      · rw [Text.join_cons hlast, h.append, (isSplitting_split sep).append, hpart,
          ih fun p hp => hfree p (List.mem_cons_of_mem _ hp)]
  funext path
  rw [← Text.join_splitList sep path]
  exact hparts _ fun part hpart => not_mem_of_mem_splitList hpart

end IsSplitting

/-! ## Any separator -/

theorem ofPath_of_length_ne (path : Text) {separator : Text} (h : separator.length ≠ 1) :
    ofPath path separator = .error ⟨separator⟩ := by
  match separator, h with
  | [], _ => rfl
  | [_], h => exact absurd rfl h
  | _ :: _ :: _, _ => rfl

/-- **Splitting a path is the one splitting at its separator.** With a separator of one character every path is
split, into what the search from its beginning finds (1); this has the laws of a splitting (2), and nothing
else has them (3). Any other separator is refused, whatever the path is (4). -/
theorem ofPath_free :
    (∀ sep : CodePoint, ∃ f : Text → List Text,
      (∀ path, ofPath path [sep] = .ok (f path) ∧ f path = searchFrom sep path 0) ∧
      IsSplitting sep f ∧ ∀ g, IsSplitting sep g → g = f) ∧
    ∀ separator : Text, separator.length ≠ 1 → ∀ path, ofPath path separator = .error ⟨separator⟩ := by
  refine ⟨fun sep => ?_, fun separator h path => ofPath_of_length_ne path h⟩
  refine ⟨split sep, fun path => ⟨rfl, ?_⟩, isSplitting_split sep, fun g hg => hg.unique⟩
  rw [searchFrom_eq, List.drop_zero]

/-- By the laws alone, separators at the end add nothing to two names that are joined. -/
theorem ofPath_free_trailing :
    let slash : CodePoint := '/'
    (∀ name ∈ (["a", "b"] : List Text), IsName slash name) ∧
      ofPath "a/b//" [slash] = .ok ["a", "b"] ∧
      (Text.ofString "::").length ≠ 1 ∧ ∀ path, ofPath path "::" = .error ⟨"::"⟩ := by
  intro slash
  have hnames : ∀ name ∈ (["a", "b"] : List Text), IsName slash name := by
    unfold IsName
    decide
  obtain ⟨hsplit, hrefuse⟩ := ofPath_free
  obtain ⟨f, hf, hlaws, -⟩ := hsplit slash
  refine ⟨hnames, ?_, by decide, hrefuse "::" (by decide)⟩
  -- The path is two joined names, a separator, and a path of one separator.
  have hnil : f [] = [] := hlaws.join [] (by simp)
  have hjoin : f "a/b" = ["a", "b"] := hlaws.join ["a", "b"] hnames
  have hslash : f [slash] = [] := by
    have happend := hlaws.append [] []
    rwa [hnil] at happend
  have happend := hlaws.append "a/b" [slash]
  rw [hjoin, hslash] at happend
  rw [(hf _).1]
  exact congrArg _ happend

end Segments

end HeaderAtlas
