import HeaderAtlas.Proofs.Source.Splice
/-!
# The grammar of an include directive

What stands for a directive after its number sign is said here by what is written, not by how it is read:
blanks, the word, blanks, and a header name between two marks, with continuations anywhere (`Spells`). The
bytes read as a directive are exactly those that spell one, and reading goes on right behind it
(`directive_eq_some_iff`). Whether one is read or not, nothing of a later line is passed over
(`directive_passes`).

A backslash in a header name is the only point where the form depends on what follows: if it begins a
continuation it is part of that, and else it takes the next byte with it.
-/

set_option autoImplicit false

namespace HeaderAtlas.Source

variable {t left rest gap w name word : Bytes} {b mark : UInt8} {d : Directive}

/-! ## What is written -/

/-- Spaces, tabs and continuations, in any order. They may stand wherever a directive has two parts next to each
other. -/
inductive Blanks : Bytes → Prop where
  | nil : Blanks []
  | blank {b : UInt8} {t : Bytes} (hb : isBlank b = true) (h : Blanks t) : Blanks (b :: t)
  | continued {c t : Bytes} (hc : IsContinuation c) (h : Blanks t) : Blanks (c ++ t)

/-- Continuations, one after the other. Inside a word they are all that may stand between two letters. -/
inductive Continuations : Bytes → Prop where
  | nil : Continuations []
  | cons {c t : Bytes} (hc : IsContinuation c) (h : Continuations t) : Continuations (c ++ t)

/-- A word, and how it is written: with any number of continuations before each letter. -/
inductive WordSpelling : Bytes → Bytes → Prop where
  | nil : WordSpelling [] []
  | cons {letter : UInt8} {letters gap t : Bytes} (hgap : Continuations gap) (h : WordSpelling letters t) :
    WordSpelling (letter :: letters) (gap ++ letter :: t)

/-- A header name, and how it is written before the closing mark: bytes that stand for themselves,
continuations, which stand for nothing, and backslashes that begin no continuation, each with the byte after
it. What follows the name, from the mark on, is `after`. -/
inductive NameSpelling (mark : UInt8) (after : Bytes) : Bytes → Bytes → Prop where
  | nil : NameSpelling mark after [] []
  | plain {b : UInt8} {name t : Bytes} (hlf : b ≠ lf) (hmark : b ≠ mark) (hescape : b ≠ backslash)
    (h : NameSpelling mark after name t) : NameSpelling mark after (b :: name) (b :: t)
  | continued {c name t : Bytes} (hc : IsContinuation c) (h : NameSpelling mark after name t) :
    NameSpelling mark after name (c ++ t)
  | escaped {b : UInt8} {name t : Bytes} (hb : ¬ BeginsContinuation (backslash :: b :: (t ++ after)))
    (h : NameSpelling mark after name t) : NameSpelling mark after (backslash :: b :: name) (backslash :: b :: t)

/-- The mark before a header name; for a quoted one it is the same as the mark behind it. -/
def openingMark (angled : Bool) : UInt8 := if angled then 0x3C else doubleQuote

/-- The mark behind a header name. -/
def closingMark (angled : Bool) : UInt8 := if angled then 0x3E else doubleQuote

/-- After a number sign the bytes spell a directive, which `left` follows. -/
def Spells (t : Bytes) (d : Directive) (left : Bytes) : Prop :=
  ∃ before word between name, Blanks before ∧ WordSpelling includeWord word ∧ Blanks between ∧
    NameSpelling (closingMark d.angled) (closingMark d.angled :: left) d.header name ∧
    t = before ++ (word ++ (between ++ openingMark d.angled :: (name ++ closingMark d.angled :: left)))

/-- A name cannot be closed by what ends its line or escapes a byte. -/
theorem closingMark_ne (angled : Bool) : closingMark angled ≠ lf ∧ closingMark angled ≠ backslash := by
  cases angled <;> decide

/-! ## What is written is read -/

theorem Continuations.blanks (h : Continuations gap) : Blanks gap := by
  induction h with
  | nil => exact .nil
  | cons hc _ ih => exact .continued hc ih

/-- Reading passes over all blanks at once. -/
theorem Blanks.skipBlanks_eq (h : Blanks gap) (rest : Bytes) : skipBlanks (gap ++ rest) = skipBlanks rest := by
  induction h with
  | nil => rfl
  | blank hb _ ih => rw [List.cons_append, skipBlanks_blank hb, ih]
  | continued hc _ ih =>
    obtain ⟨tail, rfl⟩ := hc.exists_eq_cons
    rw [List.append_assoc, List.cons_append, skipBlanks_append hc, ih]

theorem Continuations.skipContinuations_eq (h : Continuations gap) (rest : Bytes) :
    skipContinuations (gap ++ rest) = skipContinuations rest := by
  induction h with
  | nil => rfl
  | cons hc _ ih =>
    obtain ⟨tail, rfl⟩ := hc.exists_eq_cons
    rw [List.append_assoc, List.cons_append, skipContinuations_append hc, ih]

/-- A letter is neither blank nor a backslash, so that nothing before it takes it along. -/
def IsLetter (b : UInt8) : Prop := isBlank b = false ∧ b ≠ backslash ∧ b ≠ lf

instance (b : UInt8) : Decidable (IsLetter b) := inferInstanceAs (Decidable (_ ∧ _ ∧ _))

theorem letter_of_mem_includeWord (hb : b ∈ includeWord) : IsLetter b := by
  simp only [includeWord, List.mem_cons, List.not_mem_nil, or_false] at hb
  rcases hb with rfl | rfl | rfl | rfl | rfl | rfl | rfl <;> decide

/-- By induction on the spelling: the continuations before a letter are passed over, and then the letter is there. -/
theorem WordSpelling.afterWord?_eq (h : WordSpelling word w) (hword : ∀ b ∈ word, IsLetter b) (rest : Bytes) :
    afterWord? word (w ++ rest) = some rest := by
  induction h with
  | nil => rfl
  | @cons letter letters gap t hgap _ ih =>
    have hletter := (hword letter List.mem_cons_self).2.1
    rw [List.append_assoc, afterWord?, hgap.skipContinuations_eq, List.cons_append,
      skipContinuations_stop (not_beginsContinuation_of_ne hletter _)]
    dsimp only
    rw [if_pos rfl]
    exact ih fun b hb => hword b (List.mem_cons_of_mem _ hb)

/-- Blanks before a word may be passed over together with the continuations before its first letter. The grammar
leaves it open to which of the two those belong, and this is why it does not matter. -/
theorem WordSpelling.afterWord?_skipBlanks (h : WordSpelling word w) (hword : ∀ b ∈ word, IsLetter b)
    (hne : word ≠ []) (rest : Bytes) : afterWord? word (skipBlanks (w ++ rest)) = some rest := by
  cases h with
  | nil => exact absurd rfl hne
  | @cons letter letters gap t hgap h =>
    -- The gap is gone with the blanks, and the word is read as if it had none.
    obtain ⟨hblank, hescape, _⟩ := hword letter List.mem_cons_self
    have hstop := not_beginsContinuation_of_ne hescape (t ++ rest)
    rw [List.append_assoc, hgap.blanks.skipBlanks_eq, List.cons_append, skipBlanks_stop (by simp [hblank]) hstop]
    exact (WordSpelling.cons .nil h).afterWord?_eq hword rest

theorem headerName_mark (hlf : mark ≠ lf) (hescape : mark ≠ backslash) (left : Bytes) :
    headerName mark (mark :: left) = (some [], left) := by
  rw [headerName, if_neg hescape, if_neg hlf, if_pos rfl]

/-- By induction on the spelling of the name. The mark is the first that no backslash escapes, so it is the one that
ends the name. -/
theorem NameSpelling.headerName_eq (h : NameSpelling mark (mark :: left) name w) (hlf : mark ≠ lf)
    (hescape : mark ≠ backslash) : headerName mark (w ++ mark :: left) = (some name, left) := by
  induction h with
  | nil => exact headerName_mark hlf hescape left
  | plain hb hmark hb' _ ih =>
    rw [List.cons_append, headerName_plain hb' hb hmark, ih]
    rfl
  | continued hc _ ih =>
    obtain ⟨tail, rfl⟩ := hc.exists_eq_cons
    rw [List.append_assoc, List.cons_append, headerName_append hc, ih]
  | escaped hb _ ih =>
    rw [List.cons_append, List.cons_append, headerName_escaped hb, ih]
    rfl

/-- Which of the two marks opens a name settles which one closes it. -/
theorem headerPart_openingMark (angled : Bool) (t : Bytes) : headerPart (openingMark angled :: t) =
    ((headerName (closingMark angled) t).1.map (⟨·, angled⟩), (headerName (closingMark angled) t).2) := by
  cases angled <;> rfl

theorem skipBlanks_openingMark (angled : Bool) (t : Bytes) :
    skipBlanks (openingMark angled :: t) = openingMark angled :: t := by
  have hmark : isBlank (openingMark angled) = false ∧ openingMark angled ≠ backslash := by
    cases angled <;> decide
  exact skipBlanks_stop (by simp [hmark.1]) (not_beginsContinuation_of_ne hmark.2 t)

/-- **What spells a directive is read as that directive.** -/
theorem Spells.directive_eq (h : Spells t d left) : directive t = (some d, left) := by
  obtain ⟨before, word, between, name, hbefore, hword, hbetween, hname, rfl⟩ := h
  obtain ⟨hlf, hescape⟩ := closingMark_ne d.angled
  rw [directive, hbefore.skipBlanks_eq,
    hword.afterWord?_skipBlanks (fun _ => letter_of_mem_includeWord) (by decide)]
  dsimp only
  rw [hbetween.skipBlanks_eq, skipBlanks_openingMark, headerPart_openingMark, hname.headerName_eq hlf hescape]
  rfl

/-! ## What is read was written -/

/-- What was passed over were blanks. -/
theorem exists_blanks (t : Bytes) : ∃ gap, Blanks gap ∧ t = gap ++ skipBlanks t := by
  induction t using splice_induction with
  | nil => exact ⟨[], .nil, by rw [skipBlanks]; rfl⟩
  | drop c rest hc ih =>
    obtain ⟨gap, hgap, hrest⟩ := ih
    refine ⟨backslash :: c ++ gap, .continued hc hgap, ?_⟩
    rw [skipBlanks_append hc, List.append_assoc, ← hrest, List.cons_append]
  | keep b rest hb ih =>
    by_cases hblank : isBlank b = true
    · obtain ⟨gap, hgap, hrest⟩ := ih rest (Nat.le_refl _)
      refine ⟨b :: gap, .blank hblank hgap, ?_⟩
      rw [skipBlanks_blank hblank, List.cons_append, ← hrest]
    · exact ⟨[], .nil, by rw [skipBlanks_stop hblank hb]; rfl⟩

theorem exists_continuations (t : Bytes) : ∃ gap, Continuations gap ∧ t = gap ++ skipContinuations t := by
  induction t using splice_induction with
  | nil => exact ⟨[], .nil, by rw [skipContinuations]; rfl⟩
  | drop c rest hc ih =>
    obtain ⟨gap, hgap, hrest⟩ := ih
    refine ⟨backslash :: c ++ gap, .cons hc hgap, ?_⟩
    rw [skipContinuations_append hc, List.append_assoc, ← hrest, List.cons_append]
  | keep b rest hb _ => exact ⟨[], .nil, by rw [skipContinuations_stop hb]; rfl⟩

/-- A word that was read was spelled, with whatever continuations were passed over on the way. -/
theorem exists_wordSpelling (h : afterWord? word t = some rest) : ∃ w, WordSpelling word w ∧ t = w ++ rest := by
  induction word generalizing t with
  | nil =>
    obtain rfl := Option.some.inj h
    exact ⟨[], .nil, rfl⟩
  | cons letter letters ih =>
    obtain ⟨gap, hgap, hskip⟩ := exists_continuations t
    rw [afterWord?] at h
    split at h
    · simp at h
    · next b after hafter =>
      split at h
      · next hb =>
        subst hb
        obtain ⟨w, hw, rfl⟩ := ih h
        exact ⟨gap ++ b :: w, .cons hgap hw, by rw [hskip, hafter, List.append_assoc, List.cons_append]⟩
      · simp at h

/-- A header name that was read ends with its mark. The induction passes over continuations as a whole; any
other backslash goes with the byte after it. -/
theorem exists_nameSpelling (h : headerName mark t = (some name, left)) :
    ∃ w, NameSpelling mark (mark :: left) name w ∧ t = w ++ mark :: left := by
  induction t using splice_induction generalizing name with
  | nil =>
    rw [headerName] at h
    simp at h
  | drop c rest hc ih =>
    rw [headerName_append hc] at h
    obtain ⟨w, hw, rfl⟩ := ih h
    exact ⟨backslash :: c ++ w, .continued hc hw, by rw [List.append_assoc, List.cons_append]⟩
  | keep b rest hb ih =>
    by_cases hescape : b = backslash
    · subst hescape
      cases rest with
      | nil =>
        -- A backslash at the end of the file escapes nothing, and nothing closes the name.
        rw [headerName] at h
        simp [continuation?, afterLineEnd?] at h
      | cons x rest =>
        rw [headerName_escaped hb, Prod.mk.injEq, Option.map_eq_some_iff] at h
        obtain ⟨⟨tail, htail, rfl⟩, hleft⟩ := h
        obtain ⟨w, hw, rfl⟩ := ih rest (by simp) (Prod.ext htail hleft)
        exact ⟨backslash :: x :: w, .escaped hb hw, rfl⟩
    · by_cases hlf : b = lf
      · rw [headerName, if_neg hescape, if_pos hlf] at h
        simp at h
      · by_cases hmark : b = mark
        · rw [headerName, if_neg hescape, if_neg hlf, if_pos hmark] at h
          obtain ⟨hname, rfl⟩ := Prod.mk.inj h
          obtain rfl := Option.some.inj hname
          exact ⟨[], .nil, by rw [hmark]; rfl⟩
        · rw [headerName_plain hescape hlf hmark, Prod.mk.injEq, Option.map_eq_some_iff] at h
          obtain ⟨⟨tail, htail, rfl⟩, hleft⟩ := h
          obtain ⟨w, hw, rfl⟩ := ih rest (Nat.le_refl _) (Prod.ext htail hleft)
          exact ⟨b :: w, .plain hlf hmark hescape hw, rfl⟩

/-- A header was read, so there was an opening mark before it. -/
theorem exists_of_headerPart (h : headerPart t = (some d, left)) :
    ∃ rest, t = openingMark d.angled :: rest ∧
      headerName (closingMark d.angled) rest = (some d.header, left) := by
  have hmark : ∀ angled, (∃ rest, t = openingMark angled :: rest) → ∃ rest, t = openingMark d.angled :: rest ∧
      headerName (closingMark d.angled) rest = (some d.header, left) := by
    rintro angled ⟨rest, rfl⟩
    rw [headerPart_openingMark, Prod.mk.injEq, Option.map_eq_some_iff] at h
    obtain ⟨⟨header, hheader, rfl⟩, hleft⟩ := h
    exact ⟨rest, rfl, Prod.ext hheader hleft⟩
  cases t with
  | nil => simp [headerPart] at h
  | cons b rest =>
    by_cases hangle : b = 0x3C
    · exact hmark true ⟨rest, by rw [hangle]; rfl⟩
    · by_cases hquote : b = doubleQuote
      · exact hmark false ⟨rest, by rw [hquote]; rfl⟩
      · rw [headerPart, if_neg hangle, if_neg hquote] at h
        simp at h

/-- **What is read as a directive spells it.** The parts that were passed over are put together again, from the last
to the first. -/
theorem spells_of_directive (h : directive t = (some d, left)) : Spells t d left := by
  obtain ⟨before, hbefore, ht⟩ := exists_blanks t
  rw [directive] at h
  split at h
  · simp at h
  · next rest hrest =>
    -- Each part of the spelling is what one reader has passed over.
    obtain ⟨word, hword, hskip⟩ := exists_wordSpelling hrest
    obtain ⟨between, hbetween, hrest'⟩ := exists_blanks rest
    obtain ⟨body, hbody, hname⟩ := exists_of_headerPart h
    obtain ⟨name, hspelling, rfl⟩ := exists_nameSpelling hname
    refine ⟨before, word, between, name, hbefore, hword, hbetween, hspelling, ?_⟩
    rw [← hbody, ← hrest', ← hskip, ← ht]

/-- Both directions together: reading and spelling are the same. -/
theorem directive_eq_some_iff : directive t = (some d, left) ↔ Spells t d left :=
  ⟨spells_of_directive, Spells.directive_eq⟩

/-! ## What is passed over -/

/-- From the first bytes, reading goes on at the second, having passed over bytes of the logical line only:
continuations, backslashes with the byte that each escapes, and other bytes that are no line feeds. -/
inductive Passes : Bytes → Bytes → Prop where
  | refl (t : Bytes) : Passes t t
  | plain {b : UInt8} {t left : Bytes} (hlf : b ≠ lf) (hescape : b ≠ backslash) (h : Passes t left) :
    Passes (b :: t) left
  | continued {c t left : Bytes} (hc : IsContinuation c) (h : Passes t left) : Passes (c ++ t) left
  | escaped {b : UInt8} {t left : Bytes} (hb : ¬ BeginsContinuation (backslash :: b :: t)) (h : Passes t left) :
    Passes (backslash :: b :: t) left
  | lone : Passes [backslash] []

/-- **A line feed that ends no continuation is not passed over.** Where a continuation is passed over, its only line
feed is its last byte. -/
theorem Passes.suffix {x : Bytes} (h : Passes t left) (ht : t = x ++ lf :: rest)
    (hx : ¬ EndsContinuation (x ++ [lf])) : lf :: rest <:+ left := by
  induction h generalizing x with
  | refl t => exact ⟨x, ht.symm⟩
  | plain hlf _ _ ih =>
    rcases List.cons_eq_append_iff.1 ht with ⟨_, hhead⟩ | ⟨x', rfl, ht'⟩
    · exact absurd (List.cons.inj hhead).1.symm hlf
    · exact ih ht' fun hends => hx (hends.mono (List.suffix_cons _ _))
  | continued hc _ ih =>
    rcases hc.append_eq_append_cons ht with ⟨x', rfl, ht'⟩ | rfl
    · refine ih ht' fun hends => hx (hends.mono ?_)
      rw [List.append_assoc]
      exact List.suffix_append _ _
    · exact absurd ⟨_, hc, List.suffix_rfl⟩ hx
  | escaped hb _ ih =>
    rcases List.cons_eq_append_iff.1 ht with ⟨_, hhead⟩ | ⟨x', rfl, ht'⟩
    · exact absurd (List.cons.inj hhead).1 (by decide)
    -- The byte that is escaped is no line feed either: with one, the backslash would begin a continuation.
    rcases List.cons_eq_append_iff.1 ht' with ⟨_, hhead⟩ | ⟨x'', rfl, ht''⟩
    · exact absurd (List.cons.inj hhead).1.symm (ne_lf_of_not_beginsContinuation hb)
    · refine ih ht'' fun hends => hx (hends.mono ?_)
      exact (List.suffix_cons _ _).trans (List.suffix_cons _ _)
  | lone =>
    have hmem : lf ∈ [backslash] := ht ▸ List.mem_append_right x List.mem_cons_self
    exact absurd hmem (by decide)

theorem Blanks.passes (h : Blanks gap) (hrest : Passes rest left) : Passes (gap ++ rest) left := by
  induction h with
  | nil => exact hrest
  | @blank b _ hb _ ih =>
    have hplain : b ≠ lf ∧ b ≠ backslash := by
      constructor <;> rintro rfl <;> exact absurd hb (by decide)
    exact .plain hplain.1 hplain.2 ih
  | continued hc _ ih =>
    rw [List.append_assoc]
    exact .continued hc ih

theorem WordSpelling.passes (h : WordSpelling word w) (hword : ∀ b ∈ word, IsLetter b) (hrest : Passes rest left) :
    Passes (w ++ rest) left := by
  induction h with
  | nil => exact hrest
  | @cons letter _ _ _ hgap _ ih =>
    obtain ⟨_, hescape, hlf⟩ := hword letter List.mem_cons_self
    rw [List.append_assoc]
    exact hgap.blanks.passes (.plain hlf hescape (ih fun b hb => hword b (List.mem_cons_of_mem _ hb)))

/-- A name that is not closed stops before the line feed, so it too passes over bytes of its line only. -/
theorem headerName_passes (mark : UInt8) (t : Bytes) : Passes t (headerName mark t).2 := by
  induction t using splice_induction with
  | nil =>
    rw [headerName]
    exact .refl []
  | drop c rest hc ih =>
    rw [headerName_append hc]
    exact .continued hc ih
  | keep b rest hb ih =>
    by_cases hescape : b = backslash
    · subst hescape
      cases rest with
      | nil =>
        rw [headerName]
        exact .lone
      | cons x rest =>
        rw [headerName_escaped hb]
        exact .escaped hb (ih rest (by simp))
    · by_cases hlf : b = lf
      · rw [headerName, if_neg hescape, if_pos hlf]
        exact .refl _
      · by_cases hmark : b = mark
        · rw [headerName, if_neg hescape, if_neg hlf, if_pos hmark]
          exact .plain hlf hescape (.refl rest)
        · rw [headerName_plain hescape hlf hmark]
          exact .plain hlf hescape (ih rest (Nat.le_refl _))

theorem headerPart_passes (t : Bytes) : Passes t (headerPart t).2 := by
  cases t with
  | nil => exact .refl []
  | cons b rest =>
    rw [headerPart]
    split
    · next hb => exact .plain (by rw [hb]; decide) (by rw [hb]; decide) (headerName_passes 0x3E rest)
    · split
      · next hb => exact .plain (by rw [hb]; decide) (by rw [hb]; decide) (headerName_passes doubleQuote rest)
      · exact .refl _

/-- **Reading stays on the logical line**, whether a directive is read or not. An unclosed name is where it could go
wrong. -/
theorem directive_passes (t : Bytes) : Passes t (directive t).2 := by
  obtain ⟨before, hbefore, ht⟩ := exists_blanks t
  rw [directive]
  split
  · have hpass := hbefore.passes (.refl (skipBlanks t))
    rwa [← ht] at hpass
  · next rest hrest =>
    obtain ⟨word, hword, hskip⟩ := exists_wordSpelling hrest
    obtain ⟨between, hbetween, hrest'⟩ := exists_blanks rest
    have hpart := hbetween.passes (headerPart_passes (skipBlanks rest))
    rw [← hrest'] at hpart
    have hpass := hbefore.passes (hword.passes (fun _ => letter_of_mem_includeWord) hpart)
    rwa [← hskip, ← ht] at hpass

/-- **The grammar of directives is exact.** After a number sign a directive is read, and reading goes on at
`left`, if and only if the bytes spell that directive with `left` behind it. If they spell none, none is read.
In either case only bytes of the logical line are passed over, so a line feed that ends no continuation is
still to come. -/
theorem directive_grammar (t : Bytes) :
    (∀ d left, directive t = (some d, left) ↔ Spells t d left) ∧
    ((∀ d left, ¬ Spells t d left) → (directive t).1 = none) ∧
    Passes t (directive t).2 ∧
    ∀ x rest, t = x ++ lf :: rest → ¬ EndsContinuation (x ++ [lf]) → lf :: rest <:+ (directive t).2 := by
  refine ⟨fun d left => directive_eq_some_iff, fun hnone => ?_, directive_passes t, fun x rest ht hx => ?_⟩
  · cases hfound : (directive t).1 with
    | none => rfl
    | some d => exact absurd (directive_eq_some_iff.1 (Prod.ext hfound rfl)) (hnone d _)
  · exact (directive_passes t).suffix ht hx

/-- A word and a header that continuations break, with an escaped mark in the header; and a header that its
line does not close, before another directive. -/
theorem directive_grammar_broken :
    Spells (Text.key " in\\ \r\nclude\t\\\n<a\\>\\\nb>//") ⟨Text.key "a\\>b", true⟩ (Text.key "//") ∧
    (∀ d left, ¬ Spells (Text.key "include \"a\\\nb\n#include<c>") d left) ∧
    (directive (Text.key "include \"a\\\nb\n#include<c>")).1 = none ∧
    Text.key "\n#include<c>" <:+ (directive (Text.key "include \"a\\\nb\n#include<c>")).2 := by
  obtain ⟨hspells, hnone, _, hlater⟩ := directive_grammar (Text.key "include \"a\\\nb\n#include<c>")
  have hunclosed : ∀ d left, ¬ Spells (Text.key "include \"a\\\nb\n#include<c>") d left := by
    intro d left h
    have hread := (hspells d left).2 h
    have hleft : directive (Text.key "include \"a\\\nb\n#include<c>") = (none, Text.key "\n#include<c>") := by
      decide +kernel
    rw [hleft] at hread
    simp at hread
  exact ⟨((directive_grammar _).1 _ _).1 (by decide +kernel), hunclosed, hnone hunclosed,
    hlater (Text.key "include \"a\\\nb") _ (by decide) (by decide)⟩

end HeaderAtlas.Source
