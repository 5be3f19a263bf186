import HeaderAtlas.Source.Continuation
import Mathlib.Data.List.Infix
import Mathlib.Data.List.TakeWhile
/-!
# Continuations

A continuation is a stretch of bytes of a certain form (`IsContinuation`). The two tests for one, forward from a
backslash and backward from a line feed, are shown to find exactly these stretches: `continuation?_eq_some_iff` and
`isContinued_iff`.

The program needs both. Where it looks for something that a continuation may break, it meets the backslash first and
looks forward. In a line comment it looks for the end of the line, meets the line feed first and looks back. That the
two are about the same bytes is what lets a comment and a directive agree on where a line ends.
-/

set_option autoImplicit false

namespace HeaderAtlas.Source

variable {t after back blanks : Bytes}

/-- A line feed, or a carriage return and a line feed. -/
def IsLineEnd (t : Bytes) : Prop := t = [lf] ∨ t = [cr, lf]

/-- A backslash, spaces and tabs, and a line end. No other byte may stand between, so a backslash begins at most one
continuation. -/
def IsContinuation (c : Bytes) : Prop :=
  ∃ blanks ending, (∀ b ∈ blanks, isBlank b = true) ∧ IsLineEnd ending ∧ c = backslash :: (blanks ++ ending)

/-- Begins with a continuation, as the forward test sees it. -/
def BeginsContinuation (t : Bytes) : Prop := ∃ c, IsContinuation c ∧ c <+: t

/-- Ends with a continuation, as the backward test sees it. -/
def EndsContinuation (t : Bytes) : Prop := ∃ c, IsContinuation c ∧ c <:+ t

/-! ## Forward -/

theorem afterLf?_eq_some_iff : afterLf? t = some after ↔ t = lf :: after := by
  cases t with
  | nil => simp [afterLf?]
  | cons b rest =>
    rw [afterLf?]
    split
    · next h => simp [h]
    · next h => simp [h]

/-- A line end is one of two forms, and the test finds either. -/
theorem afterLineEnd?_eq_some_iff :
    afterLineEnd? t = some after ↔ ∃ ending, IsLineEnd ending ∧ t = ending ++ after := by
  have hcases : (∃ ending, IsLineEnd ending ∧ t = ending ++ after) ↔
      t = lf :: after ∨ t = cr :: lf :: after := by
    constructor
    · rintro ⟨ending, rfl | rfl, rfl⟩
      · exact .inl rfl
      · exact .inr rfl
    · rintro (rfl | rfl)
      · exact ⟨[lf], .inl rfl, rfl⟩
      · exact ⟨[cr, lf], .inr rfl, rfl⟩
  rw [hcases]
  cases t with
  | nil => simp [afterLineEnd?]
  | cons b rest =>
    rw [afterLineEnd?]
    split
    · next h => simp [h, afterLf?_eq_some_iff, show cr ≠ lf by decide]
    · next h => simp [h, afterLf?_eq_some_iff]

/-- A line end begins with something that is not blank. -/
theorem IsLineEnd.dropWhile_append {ending : Bytes} (h : IsLineEnd ending)
    (hblanks : ∀ b ∈ blanks, isBlank b = true) :
    (blanks ++ (ending ++ after)).dropWhile isBlank = ending ++ after := by
  rw [List.dropWhile_append_of_pos hblanks]
  rcases h with rfl | rfl <;> rfl

/-- **The forward test.** From a backslash it finds the continuation that begins there. The blanks are as many as
there are, since a line end begins with none. -/
theorem continuation?_eq_some_iff :
    continuation? t = some after ↔ ∃ c, IsContinuation (backslash :: c) ∧ t = c ++ after := by
  rw [continuation?, afterLineEnd?_eq_some_iff]
  constructor
  · rintro ⟨ending, hending, hdrop⟩
    refine ⟨t.takeWhile isBlank ++ ending, ⟨_, ending, fun b hb => List.mem_takeWhile_imp hb, hending, rfl⟩, ?_⟩
    rw [List.append_assoc, ← hdrop, List.takeWhile_append_dropWhile]
  · rintro ⟨c, ⟨blanks, ending, hblanks, hending, hc⟩, rfl⟩
    obtain rfl := (List.cons.inj hc).2
    exact ⟨ending, hending, by rw [List.append_assoc, hending.dropWhile_append hblanks]⟩

/-- The form in which a pass asks: the byte is a backslash, and the test behind it succeeds. -/
theorem beginsContinuation_cons_iff {b : UInt8} :
    BeginsContinuation (b :: t) ↔ b = backslash ∧ ∃ after, continuation? t = some after := by
  simp only [continuation?_eq_some_iff]
  constructor
  · rintro ⟨c, hc, after, hafter⟩
    obtain ⟨blanks, ending, hblanks, hending, rfl⟩ := hc
    obtain ⟨rfl, rfl⟩ := List.cons.inj hafter
    exact ⟨rfl, after, _, ⟨blanks, ending, hblanks, hending, rfl⟩, rfl⟩
  · rintro ⟨rfl, after, c, hc, rfl⟩
    exact ⟨_, hc, after, rfl⟩

theorem not_beginsContinuation_nil : ¬ BeginsContinuation [] := by
  rintro ⟨c, ⟨blanks, ending, _, _, rfl⟩, hc⟩
  exact absurd (List.prefix_nil.1 hc) (by simp)

theorem not_beginsContinuation_of_ne {b : UInt8} (hb : b ≠ backslash) (t : Bytes) : ¬ BeginsContinuation (b :: t) :=
  fun h => hb (beginsContinuation_cons_iff.1 h).1

/-- A backslash that begins no continuation has no line feed behind it. -/
theorem ne_lf_of_not_beginsContinuation {b : UInt8} (hb : ¬ BeginsContinuation (backslash :: b :: t)) : b ≠ lf := by
  rintro rfl
  exact hb ⟨[backslash, lf], ⟨[], [lf], by simp, .inl rfl, rfl⟩, t, rfl⟩

theorem IsContinuation.exists_eq_cons {c : Bytes} (h : IsContinuation c) : ∃ tail, c = backslash :: tail := by
  obtain ⟨blanks, ending, _, _, rfl⟩ := h
  exact ⟨_, rfl⟩

instance (t : Bytes) : Decidable (BeginsContinuation t) :=
  match t with
  | [] => .isFalse not_beginsContinuation_nil
  | b :: rest => decidable_of_iff (b = backslash ∧ (continuation? rest).isSome = true)
      (by rw [beginsContinuation_cons_iff, Option.isSome_iff_exists])

theorem continuation?_eq_none (h : ¬ BeginsContinuation (backslash :: t)) : continuation? t = none := by
  cases hc : continuation? t with
  | none => rfl
  | some after => exact absurd (beginsContinuation_cons_iff.2 ⟨rfl, after, hc⟩) h

/-- Nothing is left of a continuation but what follows it. -/
theorem IsContinuation.continuation? {c : Bytes} (h : IsContinuation (backslash :: c)) (after : Bytes) :
    Source.continuation? (c ++ after) = some after := continuation?_eq_some_iff.2 ⟨c, h, rfl⟩

/-- The bytes of a continuation after its backslash are blanks and a line end. -/
theorem IsContinuation.mem {c : Bytes} {b : UInt8} (h : IsContinuation (backslash :: c)) (hb : b ∈ c) :
    isBlank b = true ∨ b = cr ∨ b = lf := by
  obtain ⟨blanks, ending, hblanks, hending, hc⟩ := h
  rw [(List.cons.inj hc).2, List.mem_append] at hb
  rcases hb with hb | hb
  · exact .inl (hblanks b hb)
  · rcases hending with rfl | rfl
    · exact .inr (.inr (List.mem_singleton.1 hb))
    · rcases List.mem_pair.1 hb with rfl | rfl
      · exact .inr (.inl rfl)
      · exact .inr (.inr rfl)

/-! ## Backward -/

theorem dropCr_of_ne {b : UInt8} (h : b ≠ cr) : dropCr (b :: t) = b :: t := by
  rw [dropCr, if_neg h]

/-- Looking back through blanks to a backslash. -/
theorem head?_dropWhile_isBlank_iff : (t.dropWhile isBlank).head? = some backslash ↔
    ∃ blanks before, (∀ b ∈ blanks, isBlank b = true) ∧ t = blanks ++ backslash :: before := by
  constructor
  · intro h
    obtain ⟨before, hbefore⟩ := List.head?_eq_some_iff.1 h
    refine ⟨t.takeWhile isBlank, before, fun b hb => List.mem_takeWhile_imp hb, ?_⟩
    rw [← hbefore, List.takeWhile_append_dropWhile]
  · rintro ⟨blanks, before, hblanks, rfl⟩
    rw [List.dropWhile_append_of_pos hblanks]
    rfl

/-- **The backward test.** From a line feed it finds the continuation that ends there. A carriage return before the
line feed is passed over once, and belongs to the line end. -/
theorem isContinued_iff : isContinued back = true ↔ EndsContinuation (back.reverse ++ [lf]) := by
  have htest : isContinued back = true ↔ ∃ blanks before, (∀ b ∈ blanks, isBlank b = true) ∧
      dropCr back = blanks ++ backslash :: before := by
    rw [isContinued, beq_iff_eq, head?_dropWhile_isBlank_iff]
  rw [htest]
  constructor
  · rintro ⟨blanks, before, hblanks, hback⟩
    have hrev : ∀ b ∈ blanks.reverse, isBlank b = true := fun b hb => hblanks b (List.mem_reverse.1 hb)
    cases back with
    | nil => simp [dropCr] at hback
    | cons b back =>
      rw [dropCr] at hback
      split at hback
      · next hb =>
        refine ⟨_, ⟨blanks.reverse, [cr, lf], hrev, .inr rfl, rfl⟩, before.reverse, ?_⟩
        simp [hb, hback]
      · refine ⟨_, ⟨blanks.reverse, [lf], hrev, .inl rfl, rfl⟩, before.reverse, ?_⟩
        rw [hback]
        simp
  · rintro ⟨_, ⟨blanks, ending, hblanks, hending, rfl⟩, before, hbefore⟩
    have hrev : ∀ b ∈ blanks.reverse, isBlank b = true := fun b hb => hblanks b (List.mem_reverse.1 hb)
    refine ⟨blanks.reverse, before.reverse, hrev, ?_⟩
    rcases hending with rfl | rfl
    · -- Without a carriage return the first byte back is a blank or the backslash.
      have hback : back = blanks.reverse ++ backslash :: before.reverse := by
        have := congrArg List.reverse hbefore
        simpa using this.symm
      rw [hback]
      cases hr : blanks.reverse with
      | nil => rfl
      | cons b rest =>
        refine dropCr_of_ne ?_
        rintro rfl
        have := hrev cr (by rw [hr]; exact List.mem_cons_self)
        exact absurd this (by decide)
    · have hback : back = cr :: (blanks.reverse ++ backslash :: before.reverse) := by
        have := congrArg List.reverse hbefore
        simpa using this.symm
      rw [hback, dropCr, if_pos rfl]

theorem EndsContinuation.mono {s : Bytes} (h : EndsContinuation s) (hs : s <:+ t) : EndsContinuation t := by
  obtain ⟨c, hc, hsuffix⟩ := h
  exact ⟨c, hc, hsuffix.trans hs⟩

/-- The same for bytes that are read forward. -/
theorem endsContinuation_append_lf_iff : EndsContinuation (t ++ [lf]) ↔ isContinued t.reverse = true := by
  rw [isContinued_iff, List.reverse_reverse]

instance (t : Bytes) : Decidable (EndsContinuation (t ++ [lf])) :=
  decidable_of_iff _ endsContinuation_append_lf_iff.symm

/-- The backward test does not look beyond a line feed. So what was read of earlier lines can be forgotten. -/
theorem isContinued_append_lf (u w : Bytes) : isContinued (u ++ lf :: w) = isContinued u := by
  have hhead : ∀ v : Bytes, (((v ++ lf :: w).dropWhile isBlank).head? == some backslash) =
      ((v.dropWhile isBlank).head? == some backslash) := by
    intro v
    induction v with
    | nil => rfl
    | cons b v ih =>
      rw [List.cons_append, List.dropWhile_cons, List.dropWhile_cons]
      split
      · exact ih
      · rfl
  unfold isContinued
  cases u with
  | nil => rfl
  | cons b u =>
    rw [List.cons_append, dropCr, dropCr]
    split
    · exact hhead u
    · exact hhead (b :: u)

end HeaderAtlas.Source
