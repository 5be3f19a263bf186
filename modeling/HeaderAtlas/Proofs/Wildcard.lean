import HeaderAtlas.Scan.Basic
import Mathlib.Data.List.Basic
/-!
# Patterns that can be matched

A pattern without `*?` is matched against any name: the pass that looks for a match comes to an answer
(`Wildcard.exists_covers?`). So whether a file is a candidate and a source is always decided for such patterns
(`Scan.Params.exists_selects`).

The pass can break off, since behind a star it looks ahead for a fixed character and a question mark is none. This is
the only way in which it can, and it is excluded by looking at the pattern alone, before any name is known. The
patterns of a configuration are looked at so when it is checked; those of a caller are not, and then the fault comes up
with the first name whose match gets as far as the question mark.
-/

set_option autoImplicit false

namespace HeaderAtlas

theorem Text.occursIn_iff {needle t : Text} : occursIn needle t = true ↔ needle <:+: t := by
  induction t with
  | nil => simp [occursIn]
  | cons c rest ih => simp [occursIn, ih, List.infix_cons_iff]

namespace Wildcard

/-- A pattern can be matched unless a star stands right before a question mark in it. -/
theorem isSupported_iff {pattern : Text} : isSupported pattern = true ↔ ¬ [star, question] <:+: pattern := by
  rw [← Text.occursIn_iff, isSupported, Bool.not_eq_true', Bool.not_eq_true]

theorem check_eq_ok_iff {pattern : Text} : check pattern = .ok () ↔ isSupported pattern = true := by
  unfold check
  split
  · next h => simp [h]
  · next h => simp [h]

/-- Patterns are checked one after the other; the first that cannot be matched is the fault. -/
theorem checkAll_eq_ok_iff {patterns : List Text} :
    checkAll patterns = .ok () ↔ ∀ pattern ∈ patterns, isSupported pattern = true := by
  induction patterns with
  | nil => simp [checkAll]
  | cons pattern rest ih =>
    rw [checkAll, List.forall_mem_cons, ← check_eq_ok_iff, ← ih]
    cases check pattern with
    | ok => simp
    | error e => simp

/-- The rest of a pattern that can be matched can be matched, and a star is not before a question mark. The induction
over a pattern needs just this. -/
theorem isSupported_cons {p : CodePoint} {pattern : Text} (h : isSupported (p :: pattern) = true) :
    isSupported pattern = true ∧ ¬ (p = star ∧ pattern.head? = some question) := by
  unfold isSupported Text.occursIn at h
  simp only [Bool.not_or, Bool.and_eq_true, Bool.not_eq_true'] at h
  refine ⟨by simpa [isSupported] using h.2, ?_⟩
  rintro ⟨rfl, hhead⟩
  obtain ⟨rest, rfl⟩ := List.head?_eq_some_iff.1 hhead
  simp [List.isPrefixOf] at h

mutual

/-- **A pattern that can be matched** has an answer for every name. The recursion is that of the pass: over the
pattern, and behind a star over the name as well. -/
theorem exists_covers? : ∀ (pattern name : Text), isSupported pattern = true →
    ∃ answer, covers? pattern name = some answer
  | [], name, _ => ⟨_, by rw [covers?]⟩
  | p :: pattern, [], _ => ⟨_, by rw [covers?]⟩
  | p :: pattern, c :: name, h => by
    rw [covers?]
    split
    · exact exists_covers? pattern name (isSupported_cons h).1
    · split
      · next hstar => exact exists_coversAfterStar? pattern (c :: name) (hstar ▸ h)
      · split
        · exact exists_covers? pattern name (isSupported_cons h).1
        · exact ⟨_, rfl⟩

/-- The same for what follows a star. What follows is not a question mark, so there is a character to look for. -/
theorem exists_coversAfterStar? : ∀ (pattern name : Text), isSupported (star :: pattern) = true →
    ∃ answer, coversAfterStar? pattern name = some answer
  | [], name, _ => ⟨_, by rw [coversAfterStar?]⟩
  | p :: pattern, name, h => by
    obtain ⟨hrest, hhead⟩ := isSupported_cons h
    rw [coversAfterStar?]
    split
    · next hstar => exact exists_coversAfterStar? pattern name (hstar ▸ hrest)
    · split
      · next hquestion => exact absurd ⟨rfl, by rw [hquestion]; rfl⟩ hhead
      · split
        · exact ⟨_, rfl⟩
        · next rest _ => exact exists_covers? pattern rest (isSupported_cons hrest).1

end

/-- Tests that are all answered are answered together, up to the first that says yes. -/
theorem exists_anyMatch {α ε : Type} {test : α → Except ε Bool} {patterns : List α}
    (h : ∀ pattern ∈ patterns, ∃ answer, test pattern = .ok answer) :
    ∃ answer, anyMatch test patterns = .ok answer := by
  induction patterns with
  | nil => exact ⟨false, rfl⟩
  | cons pattern rest ih =>
    obtain ⟨answer, hanswer⟩ := h pattern List.mem_cons_self
    rw [anyMatch, hanswer]
    cases answer with
    | true => exact ⟨true, rfl⟩
    | false => exact ih fun other hother => h other (List.mem_cons_of_mem _ hother)

/-- The fault of a match is that the pass has no answer, and here it has one. -/
theorem exists_isMatch {pattern : Text} (name : Text) (h : isSupported pattern = true) :
    ∃ answer, isMatch name pattern = .ok answer := by
  obtain ⟨answer, hanswer⟩ := exists_covers? pattern name h
  exact ⟨answer, by rw [isMatch, hanswer]⟩

end Wildcard

namespace Scan

/-- All patterns of a scan can be matched. -/
def Params.Supported (p : Params) : Prop :=
  ∀ pattern ∈ p.whitelist ++ p.blacklist ++ p.sources, Wildcard.isSupported pattern = true

instance (p : Params) : Decidable p.Supported := List.decidableBAll _ _

/-- **Whether a file is parsed** is always decided. Candidates and sources are matched with three lists of patterns,
and all of them can be. -/
theorem Params.exists_selects {p : Params} (h : p.Supported) (path name : Text) :
    ∃ answer, p.selects path name = .ok answer := by
  have hmatch : ∀ patterns, patterns ⊆ p.whitelist ++ p.blacklist ++ p.sources → ∀ n : Text,
      ∃ answer, Wildcard.anyMatch (Wildcard.isMatch n) patterns = .ok answer := fun patterns hsub n =>
    Wildcard.exists_anyMatch fun pattern hpattern => Wildcard.exists_isMatch n (h pattern (hsub hpattern))
  obtain ⟨listed, hlisted⟩ := hmatch p.whitelist (by simp) name
  obtain ⟨banned, hbanned⟩ := hmatch p.blacklist (by simp) name
  obtain ⟨source, hsource⟩ := hmatch p.sources (by simp) (Path.base path)
  have hparsed : FileClass.isParsed path p.sources = .ok (source || FileClass.isHeaderPath path) := by
    rw [FileClass.isParsed, Wildcard.matchesAny, hsource]
    rfl
  have hcandidate : ∃ answer, FileClass.isCandidate name p.whitelist p.blacklist = .ok answer := by
    rw [FileClass.isCandidate, FileClass.passes, hlisted, hbanned]
    cases listed with
    | true => exact ⟨!banned, rfl⟩
    | false => exact ⟨false, rfl⟩
  obtain ⟨candidate, hcandidate⟩ := hcandidate
  rw [selects, hcandidate, hparsed]
  cases candidate with
  | true => exact ⟨_, rfl⟩
  | false => exact ⟨false, rfl⟩

end Scan

end HeaderAtlas
