import HeaderAtlas.Proofs.Wildcard
import Mathlib.Computability.MyhillNerode
import Mathlib.Order.CompletePartialOrder
/-!
# The language of a wildcard

A wildcard stands for a language, which is put together from what each of its characters is read as
(`Wildcard.language`). A star is read in view of what comes after it: at the end it is any text, and before a character
it is any text without that character. Of several stars only the last counts.

Matching goes once over pattern and name, and what it decides is membership in this language
(`Wildcard.covers?_eq_true_iff`). No character of a name leads back in the pattern, since a star gives way to the first
character that can be the one after it. So what is left of the language after a name has been read in part is always
the language of a rest of the pattern, of which there are few, and the language is regular
(`Wildcard.isRegular_language`).
-/

set_option autoImplicit false

namespace HeaderAtlas

namespace Wildcard

/-! ## Languages of patterns -/

/-- The texts of one character. -/
def oneCharacter : Language CodePoint := {t | t.length = 1}

/-- The texts in which a character does not occur. -/
def without (c : CodePoint) : Language CodePoint := {t | c ∉ t}

/-- What a star is read as, by the character that comes after it. -/
def starReading : Option CodePoint → Language CodePoint
  | none => ⊤
  | some q => if q = star then 1 else without q

/-- What a character of a pattern is read as, where `next` comes after it. -/
def reading (p : CodePoint) (next : Option CodePoint) : Language CodePoint :=
  if p = question then oneCharacter else if p = star then starReading next else {[p]}

/-- The names that a pattern stands for. -/
def language : Text → Language CodePoint
  | [] => 1
  | p :: pattern => reading p pattern.head? * language pattern

/-- The names that a pattern would stand for if every star were any text. -/
def glob : Text → Language CodePoint
  | [] => 1
  | p :: pattern => (if p = question then oneCharacter else if p = star then ⊤ else {[p]}) * glob pattern

variable {p q c : CodePoint} {pattern name : Text} {l : Language CodePoint}

/-- **A name that a pattern stands for** is one for which the stars are any texts. -/
theorem language_le_glob (pattern : Text) : language pattern ≤ glob pattern := by
  induction pattern with
  | nil => exact le_rfl
  | cons p pattern ih =>
    rw [language, glob]
    refine mul_le_mul' ?_ ih
    unfold reading
    split
    · exact le_rfl
    split
    · exact le_top
    · exact le_rfl

theorem language_question : language (question :: pattern) = oneCharacter * language pattern := by
  rw [language, reading, if_pos rfl]

theorem language_literal (hq : p ≠ question) (hs : p ≠ star) : language (p :: pattern) = {[p]} * language pattern := by
  rw [language, reading, if_neg hq, if_neg hs]

theorem language_star_nil : language [star] = ⊤ := by
  rw [language, reading, if_neg (by decide), if_pos rfl]
  exact mul_one _

theorem language_star_star : language (star :: star :: pattern) = language (star :: pattern) := by
  rw [language, reading, if_neg (by decide), if_pos rfl, List.head?_cons, starReading, if_pos rfl, one_mul]

theorem language_star_cons (hs : q ≠ star) :
    language (star :: q :: pattern) = without q * language (q :: pattern) := by
  rw [language, reading, if_neg (by decide), if_pos rfl, List.head?_cons, starReading, if_neg hs]

/-! ## One character of a name -/

@[simp]
theorem mem_oneCharacter : name ∈ oneCharacter ↔ name.length = 1 := Iff.rfl

@[simp]
theorem mem_without : name ∈ without c ↔ c ∉ name := Iff.rfl

theorem cons_mem_oneCharacter_mul : c :: name ∈ oneCharacter * l ↔ name ∈ l := by
  rw [Language.mem_mul]
  constructor
  · rintro ⟨x, hx, y, hy, hxy⟩
    obtain ⟨d, rfl⟩ := List.length_eq_one_iff.1 hx
    exact (List.cons.inj hxy).2 ▸ hy
  · exact fun h => ⟨[c], rfl, name, h, rfl⟩

theorem cons_mem_singleton_mul : c :: name ∈ ({[p]} : Language CodePoint) * l ↔ c = p ∧ name ∈ l := by
  rw [Language.mem_mul]
  constructor
  · rintro ⟨x, rfl, y, hy, hxy⟩
    obtain ⟨rfl, rfl⟩ := List.cons.inj hxy
    exact ⟨rfl, hy⟩
  · rintro ⟨rfl, h⟩
    exact ⟨[c], rfl, name, h, rfl⟩

theorem nil_mem_mul {k : Language CodePoint} : [] ∈ k * l ↔ [] ∈ k ∧ [] ∈ l := by
  rw [Language.mem_mul]
  constructor
  · rintro ⟨x, hx, y, hy, hxy⟩
    obtain ⟨rfl, rfl⟩ := List.append_eq_nil_iff.1 hxy
    exact ⟨hx, hy⟩
  · exact fun h => ⟨[], h.1, [], h.2, rfl⟩

/-- A star before a character lets other characters pass, and ends at the first that is this one. -/
theorem cons_mem_without_mul : c :: name ∈ without q * ({[q]} * l) ↔
    if c = q then name ∈ l else name ∈ without q * ({[q]} * l) := by
  split
  · next hc =>
    subst hc
    constructor
    · intro h
      obtain ⟨x, hx, y, hy, hxy⟩ := Language.mem_mul.1 h
      cases x with
      | nil =>
        rw [List.nil_append] at hxy
        exact (cons_mem_singleton_mul.1 (hxy ▸ hy)).2
      | cons d x => exact absurd ((List.cons.inj hxy).1 ▸ List.mem_cons_self) hx
    · exact fun h => Language.mem_mul.2 ⟨[], List.not_mem_nil, _, cons_mem_singleton_mul.2 ⟨rfl, h⟩, rfl⟩
  · next hc =>
    rw [Language.mem_mul, Language.mem_mul]
    constructor
    · rintro ⟨x, hx, y, hy, hxy⟩
      cases x with
      | nil =>
        rw [List.nil_append] at hxy
        exact absurd (cons_mem_singleton_mul.1 (hxy ▸ hy)).1 hc
      | cons d x => exact ⟨x, fun hmem => hx (List.mem_cons_of_mem _ hmem), y, hy, (List.cons.inj hxy).2⟩
    · rintro ⟨x, hx, y, hy, rfl⟩
      refine ⟨c :: x, fun hmem => ?_, y, hy, rfl⟩
      rcases List.mem_cons.1 hmem with hcq | hmem
      · exact hc hcq.symm
      · exact hx hmem

/-! ## Matching -/

theorem nil_mem_starReading (next : Option CodePoint) : [] ∈ starReading next := by
  unfold starReading
  split
  · trivial
  · split
    · rfl
    · simp

/-- The empty name is matched by stars only. -/
theorem nil_mem_language_iff : [] ∈ language pattern ↔ pattern.all (· == star) = true := by
  induction pattern with
  | nil => exact iff_of_true rfl rfl
  | cons p pattern ih =>
    rw [language, nil_mem_mul, ih, reading, List.all_cons, Bool.and_eq_true]
    refine and_congr_left fun _ => ?_
    by_cases hs : p = star
    · subst hs
      exact iff_of_true (nil_mem_starReading _) (by simp)
    · have hchar : [] ∉ ({[p]} : Language CodePoint) := fun h => absurd h.symm (List.cons_ne_nil p [])
      by_cases hq : p = question
      · simp [if_pos hq, hs]
      · simp [if_neg hq, hs, hchar]

/-- **A star before a character** skips to the first place where this character stands. -/
theorem mem_star_literal_iff (hq : q ≠ question) (hs : q ≠ star) : name ∈ language (star :: q :: pattern) ↔
    ∃ first rest, name.dropWhile (· != q) = first :: rest ∧ rest ∈ language pattern := by
  rw [language_star_cons hs]
  induction name with
  | nil =>
    rw [nil_mem_mul, nil_mem_language_iff]
    simp [hs]
  | cons c name ih =>
    rw [language_literal hq hs] at ih ⊢
    rw [cons_mem_without_mul, ih]
    by_cases hc : c = q <;> simp [hc]

mutual

/-- **Matching decides the language of the pattern.** -/
theorem covers?_eq_true_iff : ∀ (pattern name : Text), isSupported pattern = true →
    (covers? pattern name = some true ↔ name ∈ language pattern)
  | [], name, _ => by
    rw [covers?, language, Language.mem_one]
    simp
  | p :: pattern, [], _ => by
    rw [covers?, nil_mem_language_iff, Option.some.injEq]
  | p :: pattern, c :: name, h => by
    have hrest := (isSupported_cons h).1
    rw [covers?]
    split
    · next hq =>
      rw [hq, language_question, cons_mem_oneCharacter_mul]
      exact covers?_eq_true_iff pattern name hrest
    · next hq =>
      split
      · next hs =>
        rw [hs]
        exact coversAfterStar?_eq_true_iff pattern (c :: name) (hs ▸ h)
      · next hs =>
        rw [language_literal hq hs, cons_mem_singleton_mul]
        split
        · next hc =>
          rw [covers?_eq_true_iff pattern name hrest]
          exact (and_iff_right hc.symm).symm
        · next hc => simp [Ne.symm hc]

/-- The same for what follows a star. -/
theorem coversAfterStar?_eq_true_iff : ∀ (pattern name : Text), isSupported (star :: pattern) = true →
    (coversAfterStar? pattern name = some true ↔ name ∈ language (star :: pattern))
  | [], name, _ => by
    rw [coversAfterStar?, language_star_nil]
    exact iff_of_true rfl trivial
  | p :: pattern, name, h => by
    obtain ⟨hrest, hhead⟩ := isSupported_cons h
    rw [coversAfterStar?]
    split
    · next hs =>
      rw [hs, language_star_star]
      exact coversAfterStar?_eq_true_iff pattern name (hs ▸ hrest)
    · next hs =>
      split
      · next hq => exact absurd ⟨rfl, by rw [hq]; rfl⟩ hhead
      · next hq =>
        rw [mem_star_literal_iff hq hs]
        split
        · next hnil => simp [hnil]
        · next rest hcons =>
          rw [covers?_eq_true_iff pattern rest (isSupported_cons hrest).1]
          simp [hcons]

end

/-! ## Regularity -/

/-- **What is left of the language after one character** is nothing, or the language of a rest of the pattern. -/
theorem leftQuotient_language (h : isSupported pattern = true) (c : CodePoint) :
    (language pattern).leftQuotient [c] = 0 ∨
      ∃ rest, rest <:+ pattern ∧ (language pattern).leftQuotient [c] = language rest := by
  induction pattern with
  | nil =>
    left
    ext name
    simp [language]
  | cons p pattern ih =>
    obtain ⟨hrest, hhead⟩ := isSupported_cons h
    by_cases hq : p = question
    · refine .inr ⟨pattern, List.suffix_cons _ _, ?_⟩
      ext name
      rw [Language.mem_leftQuotient, hq, language_question]
      exact cons_mem_oneCharacter_mul
    by_cases hs : p = star
    · subst hs
      cases pattern with
      | nil => exact .inr ⟨[star], List.suffix_rfl, by rw [language_star_nil]; rfl⟩
      | cons q pattern =>
        by_cases hstar : q = star
        · -- Of two stars the second counts.
          subst hstar
          rw [language_star_star]
          obtain hzero | ⟨rest, hsuffix, hquotient⟩ := ih hrest
          · exact .inl hzero
          · exact .inr ⟨rest, hsuffix.trans (List.suffix_cons _ _), hquotient⟩
        have hquestion : q ≠ question := fun hq => hhead ⟨rfl, by rw [hq]; rfl⟩
        have hmem (name : Text) := @cons_mem_without_mul q c name (language pattern)
        by_cases hc : c = q
        · refine .inr ⟨pattern, (List.suffix_cons _ _).trans (List.suffix_cons _ _), ?_⟩
          ext name
          rw [Language.mem_leftQuotient, language_star_cons hstar, language_literal hquestion hstar]
          exact (hmem name).trans (by rw [if_pos hc])
        · refine .inr ⟨_, List.suffix_rfl, ?_⟩
          ext name
          rw [Language.mem_leftQuotient, language_star_cons hstar, language_literal hquestion hstar]
          exact (hmem name).trans (by rw [if_neg hc])
    · by_cases hc : c = p
      · refine .inr ⟨pattern, List.suffix_cons _ _, ?_⟩
        ext name
        rw [Language.mem_leftQuotient, language_literal hq hs]
        exact cons_mem_singleton_mul.trans (and_iff_right hc)
      · left
        ext name
        rw [Language.mem_leftQuotient, language_literal hq hs]
        exact iff_of_false (fun hmem => hc (cons_mem_singleton_mul.1 hmem).1) (Language.notMem_zero _)

theorem isSupported_of_suffix {rest : Text} (h : isSupported pattern = true) (hrest : rest <:+ pattern) :
    isSupported rest = true :=
  isSupported_iff.2 fun hoccurs => isSupported_iff.1 h (hoccurs.trans hrest.isInfix)

/-- The same after any number of characters. -/
theorem leftQuotient_language_append (h : isSupported pattern = true) (read : Text) :
    (language pattern).leftQuotient read = 0 ∨
      ∃ rest, rest <:+ pattern ∧ (language pattern).leftQuotient read = language rest := by
  induction read using List.reverseRecOn with
  | nil => exact .inr ⟨pattern, List.suffix_rfl, Language.leftQuotient_nil _⟩
  | append_singleton read c ih =>
    rw [Language.leftQuotient_append]
    obtain hzero | ⟨rest, hsuffix, hquotient⟩ := ih
    · rw [hzero]
      exact .inl rfl
    · rw [hquotient]
      obtain hzero | ⟨further, hfurther, hlast⟩ := leftQuotient_language (isSupported_of_suffix h hsuffix) c
      · exact .inl hzero
      · exact .inr ⟨further, hfurther.trans hsuffix, hlast⟩

/-- **The language of a pattern is regular**, because there are no more rests of the pattern than it is long. -/
theorem isRegular_language (h : isSupported pattern = true) : (language pattern).IsRegular := by
  have hfinite : {rest | rest <:+ pattern}.Finite := by
    simpa only [List.mem_tails] using pattern.tails.finite_toSet
  refine .of_finite_range_leftQuotient (((hfinite.image language).insert 0).subset ?_)
  rintro _ ⟨read, rfl⟩
  obtain hzero | ⟨rest, hsuffix, hquotient⟩ := leftQuotient_language_append h read
  · exact .inl hzero
  · exact .inr ⟨rest, hsuffix, hquotient.symm⟩

/-! ## Names that match -/

/-- **Matching is exact.** For a pattern that passes the check every name has an answer, and this is yes for the names
of the pattern's language and no for all others. The language is regular, and a name in it is one that the pattern
would stand for if every star were any text. -/
theorem isMatch_exact (h : check pattern = .ok ()) (name : Text) :
    ∃ answer, isMatch name pattern = .ok answer ∧ (answer = true ↔ name ∈ language pattern) ∧
      (language pattern).IsRegular ∧ (answer = true → name ∈ glob pattern) := by
  have hsupported := check_eq_ok_iff.1 h
  obtain ⟨answer, hanswer⟩ := exists_covers? pattern name hsupported
  have hiff : answer = true ↔ name ∈ language pattern := by
    rw [← covers?_eq_true_iff pattern name hsupported, hanswer, Option.some.injEq]
  exact ⟨answer, by rw [isMatch, hanswer], hiff, isRegular_language hsupported,
    fun htrue => language_le_glob pattern (hiff.1 htrue)⟩

/-- Several stars in a row count as one, and a star ends where the character after it stands for the first time. -/
theorem isMatch_exact_stars :
    (check "a**c*" = .ok () ∧ isMatch "abbcc" "a**c*" = .ok true ∧ Text.ofString "abbcc" ∈ language "a**c*") ∧
      check "a*c" = .ok () ∧ isMatch "acbc" "a*c" = .ok false ∧ Text.ofString "acbc" ∉ language "a*c" := by
  have hcheck : check "a**c*" = .ok () ∧ check "a*c" = .ok () := by decide
  have hmatch : isMatch "abbcc" "a**c*" = .ok true ∧ isMatch "acbc" "a*c" = .ok false := by decide
  obtain ⟨yes, hyes, hmem, _⟩ := isMatch_exact hcheck.1 "abbcc"
  obtain ⟨no, hno, hnot, _⟩ := isMatch_exact hcheck.2 "acbc"
  obtain rfl : yes = true := Except.ok.inj (hyes.symm.trans hmatch.1)
  obtain rfl : no = false := Except.ok.inj (hno.symm.trans hmatch.2)
  exact ⟨⟨hcheck.1, hmatch.1, hmem.1 rfl⟩, hcheck.2, hmatch.2, fun h => Bool.false_ne_true (hnot.2 h)⟩

end Wildcard

end HeaderAtlas
