import HeaderAtlas.Journal.LineFormat
import Mathlib.Data.List.Infix
/-!
# Formats are written to their ends

Reading a slot or a part of a date takes some of a format and leaves an end of it. So a format is written with its
length as fuel as it is with more (`LineFormat.fill_eq_of_le`, `Moment.fillFormat_eq_of_le`), and is never cut off.

Both writers recurse on fuel, because what follows a slot is found by a reader and not by taking a list apart. Running
out of fuel has a result of its own in each of them: no line in the one, the end of the text in the other. Neither
result is a fault that the program knows, so it has to be shown that neither is ever met. What is needed for that is
one fact about each reader, that it leaves an end of what it was given; the steps below go from the smallest reader to
the whole slot.
-/

set_option autoImplicit false

namespace HeaderAtlas

/-- Cutting a text at a character leaves what stands behind the first such character. -/
theorem Text.cut_suffix {t name after : Text} {c : CodePoint} (h : Text.cut c t = some (name, after)) :
    after <:+ t := by
  induction t generalizing name with
  | nil => simp [Text.cut] at h
  | cons d rest ih =>
    rw [Text.cut] at h
    split at h
    · obtain ⟨_, rfl⟩ := Prod.mk.inj (Option.some.inj h)
      exact List.suffix_cons _ _
    · obtain ⟨⟨a, b⟩, hcut, heq⟩ := Option.map_eq_some_iff.1 h
      obtain ⟨_, rfl⟩ := Prod.mk.inj heq
      exact (ih hcut).trans (List.suffix_cons _ _)

namespace Journal

variable {t after : Text}

/-! ## Slots -/

namespace Slot

/-- The field ends behind its closing parenthesis. Without an opening one nothing is taken. -/
theorem fieldName_suffix {field : Option Text} (h : fieldName t = some (field, after)) : after <:+ t := by
  cases t with
  | nil => simp [fieldName] at h
  | cons c rest =>
    rw [fieldName] at h
    split at h
    · obtain ⟨⟨name, left⟩, hcut, heq⟩ := Option.map_eq_some_iff.1 h
      obtain ⟨_, rfl⟩ := Prod.mk.inj heq
      exact (Text.cut_suffix hcut).trans (List.suffix_cons _ _)
    · obtain ⟨_, rfl⟩ := Prod.mk.inj (Option.some.inj h)
      exact List.suffix_rfl

theorem number_suffix (t : Text) : (number t).2 <:+ t := List.drop_suffix _ _

/-- A point is taken together with the digits behind it, which may be none. -/
theorem readPrecision_suffix (t : Text) : (readPrecision t).2 <:+ t := by
  cases t with
  | nil => exact List.suffix_rfl
  | cons c rest =>
    rw [readPrecision]
    split
    · exact (number_suffix rest).trans (List.suffix_cons _ _)
    · exact List.suffix_rfl

theorem skipSize_suffix (t : Text) : skipSize t <:+ t := by
  cases t with
  | nil => exact List.suffix_rfl
  | cons c rest =>
    rw [skipSize]
    split
    · exact List.suffix_cons _ _
    · exact List.suffix_rfl

/-- A slot leaves an end of the text: each of its parts does, and they are read one after the other. -/
theorem read_suffix {slot : Slot} (h : read t = some (slot, after)) : after <:+ t := by
  unfold read at h
  split at h
  · simp at h
  · next field rest hfield =>
    dsimp only at h
    have hflags := List.drop_suffix (rest.takeWhile isFlag).length rest
    -- The signs, the width and the precision, each from where the one before it ended.
    have hprecision := (readPrecision_suffix _).trans ((number_suffix _).trans hflags)
    split at h
    · simp at h
    · next c left hsize =>
      rw [Option.ite_none_left_eq_some] at h
      obtain ⟨conversion, _, heq⟩ := Option.map_eq_some_iff.1 h.2
      obtain ⟨_, rfl⟩ := Prod.mk.inj heq
      have hleft := hsize ▸ skipSize_suffix _
      exact (List.suffix_cons _ _).trans (hleft.trans (hprecision.trans (fieldName_suffix hfield)))

end Slot

/-- **A line is written to the end of its format.** More fuel than the format is long changes nothing. By induction on
the fuel: every character, every pair of percent signs and every slot takes at least one character along with the unit
of fuel it costs. -/
theorem LineFormat.fill_eq_of_le (fields : Fields) {first : Bool} {fuel more : Nat} (hle : fuel ≤ more)
    (h : t.length ≤ fuel) : fill fields first more t = fill fields first fuel t := by
  induction fuel generalizing more t first with
  | zero =>
    obtain rfl := List.length_eq_zero_iff.1 (Nat.le_zero.1 h)
    cases more <;> rfl
  | succ fuel ih =>
    obtain ⟨more, rfl⟩ : ∃ n, more = n + 1 := Nat.exists_eq_succ_of_ne_zero (by omega)
    have hle := Nat.le_of_succ_le_succ hle
    cases t with
    | nil => rfl
    | cons c rest =>
      have hlen : rest.length ≤ fuel := Nat.le_of_succ_le_succ h
      have hdrop : (rest.drop 1).length ≤ fuel := Nat.le_trans (List.drop_suffix _ _).length_le hlen
      rw [fill, fill, ih hle hlen, ih hle hdrop]
      -- The two steps that do not read a slot are settled; a slot that is read leaves no more than was there.
      rcases hread : Slot.read rest with _ | ⟨slot, after⟩
      · rfl
      · have hafter := (Slot.read_suffix hread).length_le
        dsimp only
        rw [ih hle (Nat.le_trans hafter hlen)]

/-! ## Dates -/

/-- The item of a date format leaves an end of the text as well. Reading one never fails: where the text ends before
the letter, all of it is taken. -/
theorem DateItem.read_suffix (room : Nat) (t : Text) : (read room t).2 <:+ t := by
  have hwidth := (List.drop_suffix ((t.drop (t.takeWhile isSign).length).takeWhile CodePoint.isAsciiDigit).length
    (t.drop (t.takeWhile isSign).length)).trans (List.drop_suffix (t.takeWhile isSign).length t)
  unfold read
  dsimp only
  split
  · exact List.nil_suffix
  · next c rest hrest =>
    rw [hrest] at hwidth
    split
    · exact (List.drop_suffix _ _).trans ((List.suffix_cons _ _).trans hwidth)
    · exact (List.drop_suffix _ _).trans hwidth

/-- **A date is written to the end of its format.** More fuel than the format is long changes nothing. The argument is
that for lines, with one way to go on behind a percent sign and not two. -/
theorem Moment.fillFormat_eq_of_le (m : Moment) (room : Nat) {fuel more : Nat} (hle : fuel ≤ more)
    (h : t.length ≤ fuel) : m.fillFormat room more t = m.fillFormat room fuel t := by
  induction fuel generalizing more t with
  | zero =>
    obtain rfl := List.length_eq_zero_iff.1 (Nat.le_zero.1 h)
    cases more <;> rfl
  | succ fuel ih =>
    obtain ⟨more, rfl⟩ : ∃ n, more = n + 1 := Nat.exists_eq_succ_of_ne_zero (by omega)
    have hle := Nat.le_of_succ_le_succ hle
    cases t with
    | nil => rfl
    | cons c rest =>
      have hlen : rest.length ≤ fuel := Nat.le_of_succ_le_succ h
      have hafter := (DateItem.read_suffix room rest).length_le
      rw [fillFormat, fillFormat, ih hle hlen]
      dsimp only
      rw [ih hle (Nat.le_trans hafter hlen)]

end Journal

end HeaderAtlas
