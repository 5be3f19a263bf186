import HeaderAtlas.Proofs.Source.Grammar
import HeaderAtlas.Proofs.Source.Positions
import Mathlib.Algebra.GroupWithZero.Nat
import Mathlib.Algebra.Order.Group.Nat
/-!
# Where the includes of a file stand

The pass by positions, as a loop of rounds (`iterate`), each of which begins at a byte and says where the next
one begins. A round goes forward, and never beyond the end of the buffer; no part of it looks at a byte that is
not there (`InBounds`).

A round that finds an include has read a span of the buffer, from a number sign to a closing mark, and the span
alone is enough to read the include again (`Span.Reads`). The spans of a pass follow each other without overlap
(`Spans`). Since a span has room for ten bytes besides the header, a file can only have so many includes.
-/

set_option autoImplicit false

namespace HeaderAtlas.Source.Positions

variable {buf t rest left : Bytes} {p q : Nat} {b mark : UInt8} {d : Directive} {lineStart : Bool}

/-! ## One round -/

/-- What a round reports, whether the line has still to begin after it, and where the next round begins. -/
structure Round where
  found : Option Directive
  lineStart : Bool
  pos : Nat

/-- A round at a byte that is no blank and begins neither a continuation nor a comment. -/
def iterateFirm (buf : Bytes) (lineStart : Bool) (b : UInt8) (p : Nat) : Option Round :=
  if b = doubleQuote ∨ b = singleQuote then (literalEnd b buf (p + 1)).map (⟨none, false, ·⟩)
  else if b = numberSign ∧ lineStart then (directiveEnd buf (p + 1)).map fun r => ⟨r.1, false, r.2⟩
  else some ⟨none, false, p + 1⟩

/-- One round of the pass, at a position. -/
def iterate (buf : Bytes) (lineStart : Bool) (p : Nat) : Option Round :=
  match buf[p]? with
  | none => none
  | some b =>
    if b = backslash then
      match continuationEnd buf p with
      | none => none
      | some (some after) => some ⟨none, lineStart, after⟩
      | some none => some ⟨none, false, p + 1⟩
    else if b = lf then some ⟨none, true, p + 1⟩
    else if isSpace b then some ⟨none, lineStart, p + 1⟩
    else if b = slash ∧ p + 1 < buf.length then
      match buf[p + 1]? with
      | none => none
      | some c =>
        if c = slash then (lineCommentEnd buf (p + 2)).map (⟨none, lineStart, ·⟩)
        else if c = star then some ⟨none, lineStart, blockCommentEnd buf (p + 2)⟩
        else iterateFirm buf lineStart b p
    else iterateFirm buf lineStart b p

/-- A round does what a step on bytes does, and the next round begins where the step leaves off. -/
def Round.Meets (buf : Bytes) (r : Round) (a : Advance) : Prop :=
  r.found = a.found ∧ r.lineStart = a.lineStart ∧ At buf r.pos a.left

theorem iterateFirm_at (lineStart : Bool) (h : At buf p (b :: rest)) :
    ∃ r, iterateFirm buf lineStart b p = some r ∧ r.Meets buf (advanceFirm lineStart b rest) := by
  rw [iterateFirm, advanceFirm]
  by_cases hquote : b = doubleQuote ∨ b = singleQuote
  · obtain ⟨q, hq, hat⟩ := literalEnd_at b h.succ
    rw [if_pos hquote, if_pos hquote, hq]
    exact ⟨_, rfl, rfl, rfl, hat⟩
  rw [if_neg hquote, if_neg hquote]
  by_cases hsign : b = numberSign ∧ lineStart = true
  · obtain ⟨q, hq, hat⟩ := directiveEnd_at h.succ
    rw [if_pos hsign, if_pos hsign, hq]
    exact ⟨_, rfl, rfl, rfl, hat⟩
  · rw [if_neg hsign, if_neg hsign]
    exact ⟨_, rfl, rfl, rfl, h.succ⟩

/-- **A round does what a step does.** In particular it has a result: it makes no look outside. -/
theorem iterate_at (lineStart : Bool) (h : At buf p (b :: rest)) :
    ∃ r, iterate buf lineStart p = some r ∧ r.Meets buf (advance lineStart b rest) := by
  simp only [iterate, h.get, advance]
  by_cases hescape : b = backslash
  · simp only [if_pos hescape]
    obtain ⟨hq, hnone⟩ | ⟨q, after, hq, hafter, hat⟩ := continuationEnd_cases h
    · simp only [hq, hnone]
      exact ⟨_, rfl, rfl, rfl, h.succ⟩
    · simp only [hq, hafter]
      exact ⟨_, rfl, rfl, rfl, hat⟩
  simp only [if_neg hescape]
  by_cases hlf : b = lf
  · simp only [if_pos hlf]
    exact ⟨_, rfl, rfl, rfl, h.succ⟩
  simp only [if_neg hlf]
  by_cases hspace : isSpace b = true
  · simp only [if_pos hspace]
    exact ⟨_, rfl, rfl, rfl, h.succ⟩
  simp only [if_neg hspace]
  -- only a slash looks at the byte behind it, and only where there is one
  by_cases hslash : b = slash
  · subst hslash
    cases rest with
    | nil =>
      rw [if_neg fun hs => h.succ.not_lt hs.2]
      exact iterateFirm_at lineStart h
    | cons c rest =>
      rw [if_pos ⟨rfl, h.succ.lt⟩]
      simp only [h.succ.get, true_and, List.head?_cons, Option.some.injEq, List.tail_cons]
      by_cases hline : c = slash
      · obtain ⟨q, hq, hat⟩ := lineCommentEnd_at h.succ.succ
        simp only [if_pos hline, hq]
        exact ⟨_, rfl, rfl, rfl, hat⟩
      by_cases hblock : c = star
      · simp only [if_neg hline, if_pos hblock]
        exact ⟨_, rfl, rfl, rfl, blockCommentEnd_at h.succ.succ⟩
      simp only [if_neg hline, if_neg hblock]
      exact iterateFirm_at lineStart h
  · simp only [hslash, false_and, if_false]
    exact iterateFirm_at lineStart h

/-- **A round goes forward.** -/
theorem iterate_forward (lineStart : Bool) (hp : p < buf.length) :
    ∃ r, iterate buf lineStart p = some r ∧ p < r.pos ∧ r.pos ≤ buf.length := by
  obtain ⟨r, hr, -, -, hpos⟩ := iterate_at lineStart (At.of_lt hp)
  exact ⟨r, hr, (At.of_lt hp).succ.between hpos (advance_suffix _ _ _)⟩

theorem lt_of_iterate {r : Round} (hp : p < buf.length) (h : iterate buf lineStart p = some r) : p < r.pos := by
  obtain ⟨r', hr', hlt, -⟩ := iterate_forward lineStart hp
  rw [Option.some.inj (h.symm.trans hr')]
  exact hlt

/-! ## Spans -/

/-- An include, and the part of the buffer it was read from. -/
structure Span where
  start : Nat
  stop : Nat
  directive : Directive

/-- The spans of the includes that the rounds from a position on find. -/
def spansFrom (buf : Bytes) (lineStart : Bool) (p : Nat) : Option (List Span) :=
  if _hp : p < buf.length then
    match _h : iterate buf lineStart p with
    | none => none
    | some r => (spansFrom buf r.lineStart r.pos).map ((r.found.map (⟨p, r.pos, ·⟩)).toList ++ ·)
  else some []
termination_by buf.length - p
decreasing_by
  have := lt_of_iterate _hp _h
  omega

/-- What an include takes of a file at the least: a number sign, a word of seven letters, two marks and the
header. -/
def room (d : Directive) : Nat := d.header.length + 10

/-- A span that is a part of the buffer, has room for its include and is enough to read it. -/
structure Span.Reads (buf : Bytes) (s : Span) : Prop where
  room_le : s.start + room s.directive ≤ s.stop
  le_length : s.stop ≤ buf.length
  includes_eq : includes ((buf.take s.stop).drop s.start) = [s.directive]

/-- Spans one behind the other, from a position on. -/
inductive Spans (buf : Bytes) : Nat → List Span → Prop where
  | nil {p : Nat} (h : p ≤ buf.length) : Spans buf p []
  | cons {p : Nat} {s : Span} {spans : List Span} (hp : p ≤ s.start) (hs : s.Reads buf)
    (h : Spans buf s.stop spans) : Spans buf p (s :: spans)

namespace Spans

variable {spans : List Span}

theorem mono (h : Spans buf p spans) (hq : q ≤ p) : Spans buf q spans := by
  cases h with
  | nil hp => exact .nil (Nat.le_trans hq hp)
  | cons hp hs h => exact .cons (Nat.le_trans hq hp) hs h

theorem reads (h : Spans buf p spans) {s : Span} (hs : s ∈ spans) : p ≤ s.start ∧ s.Reads buf := by
  induction h with
  | nil => simp at hs
  | @cons p s' spans hp hs' _ ih =>
    rcases List.mem_cons.1 hs with rfl | hs
    · exact ⟨hp, hs'⟩
    · obtain ⟨hstart, hreads⟩ := ih hs
      have := hs'.room_le
      exact ⟨by omega, hreads⟩

theorem pairwise (h : Spans buf p spans) : spans.Pairwise fun s s' => s.stop ≤ s'.start := by
  induction h with
  | nil => exact .nil
  | cons _ _ h ih => exact .cons (fun s hs => (h.reads hs).1) ih

/-- What the includes take is no more than what there is. -/
theorem sum_room_le (h : Spans buf p spans) : p + (spans.map fun s => room s.directive).sum ≤ buf.length := by
  induction h with
  | nil h => simpa using h
  | cons hp hs _ ih =>
    have := hs.room_le
    rw [List.map_cons, List.sum_cons]
    omega

end Spans

/-! ## What spells a directive -/

theorem length_le_of_wordSpelling {word w : Bytes} (h : WordSpelling word w) : word.length ≤ w.length := by
  induction h with
  | nil => exact Nat.le_refl _
  | cons _ _ ih =>
    rw [List.length_append, List.length_cons, List.length_cons]
    omega

theorem length_le_of_nameSpelling {name w : Bytes} (h : NameSpelling mark left name w) : name.length ≤ w.length := by
  induction h with
  | nil => exact Nat.le_refl _
  | plain _ _ _ _ ih => simpa using ih
  | continued _ _ ih =>
    rw [List.length_append]
    omega
  | escaped _ _ ih => simpa using ih

/-- What begins no continuation does not begin one when bytes are missing at its end. -/
theorem nameSpelling_of_append {name w : Bytes} (h : NameSpelling mark (t ++ left) name w) :
    NameSpelling mark t name w := by
  induction h with
  | nil => exact .nil
  | plain hlf hmark hescape _ ih => exact .plain hlf hmark hescape ih
  | continued hc _ ih => exact .continued hc ih
  | escaped hb _ ih =>
    refine .escaped ?_ ih
    rintro ⟨c, hc, hbegins⟩
    refine hb ⟨c, hc, hbegins.trans ?_⟩
    rw [← List.append_assoc]
    exact List.prefix_append _ left

/-- **A directive is in the bytes before the mark that closes it.** They spell it by themselves, and there are
at least the word, the marks and the header. -/
theorem exists_of_spells (h : Spells t d left) :
    ∃ x, t = x ++ left ∧ Spells x d [] ∧ d.header.length + 9 ≤ x.length := by
  obtain ⟨before, word, between, name, hbefore, hword, hbetween, hname, rfl⟩ := h
  refine ⟨before ++ (word ++ (between ++ openingMark d.angled :: (name ++ [closingMark d.angled]))), by simp,
    ⟨before, word, between, name, hbefore, hword, hbetween, nameSpelling_of_append hname, rfl⟩, ?_⟩
  have hletters : 7 ≤ word.length := length_le_of_wordSpelling hword
  have hheader := length_le_of_nameSpelling hname
  simp only [List.length_append, List.length_cons, List.length_nil]
  omega

/-- What is read behind a number sign has been read from a span. -/
theorem reads_of_directive (h : At buf p (numberSign :: rest)) (hd : directive rest = (some d, left))
    (hq : At buf q left) : (Span.mk p q d).Reads buf := by
  obtain ⟨x, hx, hspells, hlength⟩ := exists_of_spells (spells_of_directive hd)
  rw [hx, ← List.cons_append] at h
  have hstop : q = p + (numberSign :: x).length := by
    have := h.skip.add_length
    have := hq.add_length
    omega
  refine ⟨?_, hq.le, ?_⟩
  · simp only [hstop, room, List.length_cons]
    omega
  · have hslice : (buf.take q).drop p = numberSign :: x := by
      rw [hstop, ← List.take_drop, h.drop, List.take_left]
    rw [includes, hslice, includesFrom_numberSign, hspells.directive_eq, includesFrom_nil]
    rfl

/-! ## The whole pass -/

theorem spansFrom_nil (h : At buf p []) : spansFrom buf lineStart p = some [] := by
  rw [spansFrom, dif_neg h.not_lt]

theorem spansFrom_of_iterate {r : Round} (hp : p < buf.length) (h : iterate buf lineStart p = some r) :
    spansFrom buf lineStart p =
      (spansFrom buf r.lineStart r.pos).map ((r.found.map (⟨p, r.pos, ·⟩)).toList ++ ·) := by
  rw [spansFrom, dif_pos hp]
  split
  · next hnone => exact absurd (h.symm.trans hnone) (by simp)
  · next hr => rw [Option.some.inj (h.symm.trans hr)]

/-- Only a number sign leads to an include. -/
theorem advance_found (h : (advance lineStart b rest).found = some d) :
    b = numberSign ∧ directive rest = (some d, (advance lineStart b rest).left) := by
  rw [advance, advanceFirm] at h ⊢
  split at h
  · split at h <;> cases h
  split at h
  · cases h
  split at h
  · cases h
  split at h
  · cases h
  split at h
  · cases h
  split at h
  · cases h
  split at h
  · next hescape hlf hspace hline hblock hquote hsign =>
    rw [if_neg hescape, if_neg hlf, if_neg hspace, if_neg hline, if_neg hblock, if_neg hquote, if_pos hsign]
    exact ⟨hsign.1, Prod.ext h rfl⟩
  · cases h

/-- **The rounds from a position on find what the pass over the bytes there finds**, and each include in a span
of its own. -/
theorem spansFrom_at {buf t : Bytes} {p : Nat} (lineStart : Bool) (h : At buf p t) :
    ∃ spans, spansFrom buf lineStart p = some spans ∧ spans.map (·.directive) = includesFrom lineStart t ∧
      Spans buf p spans := by
  cases ht : t with
  | nil =>
    rw [ht] at h
    rw [spansFrom_nil h, includesFrom_nil]
    exact ⟨[], rfl, rfl, .nil h.le⟩
  | cons b rest =>
    rw [ht] at h
    obtain ⟨r, hr, hfound, hline, hat⟩ := iterate_at lineStart h
    have hshort := (advance_suffix lineStart b rest).length_le
    obtain ⟨spans, hspans, hmap, hchain⟩ := spansFrom_at r.lineStart hat
    rw [spansFrom_of_iterate h.lt hr, hspans, includesFrom_cons, ← hfound, ← hline, ← hmap]
    have hforward : p ≤ r.pos := Nat.le_of_lt (lt_of_iterate h.lt hr)
    cases hd : r.found with
    | none => exact ⟨spans, rfl, rfl, hchain.mono hforward⟩
    | some d =>
      obtain ⟨rfl, hdirective⟩ := advance_found (hfound.symm.trans hd)
      exact ⟨⟨p, r.pos, d⟩ :: spans, rfl, rfl,
        .cons (Nat.le_refl p) (reads_of_directive h hdirective hat) hchain⟩
termination_by t.length
decreasing_by
  rw [ht]
  exact Nat.lt_succ_of_le hshort

/-- No part of the pass makes a look outside of the buffer, wherever in the buffer it begins, and none leads
out of it or back. -/
structure InBounds (buf : Bytes) : Prop where
  continuation : ∀ p < buf.length, ∃ q, continuationEnd buf p = some q ∧ ∀ r ∈ q, p < r ∧ r ≤ buf.length
  continued : ∀ start nl, start ≤ nl → nl ≤ buf.length → ∃ answer, isContinuedAt buf start nl = some answer
  lineComment : ∀ p ≤ buf.length, ∃ q, lineCommentEnd buf p = some q ∧ p ≤ q ∧ q ≤ buf.length
  blockComment : ∀ p ≤ buf.length, p ≤ blockCommentEnd buf p ∧ blockCommentEnd buf p ≤ buf.length
  literal : ∀ quote, ∀ p ≤ buf.length, ∃ q, literalEnd quote buf p = some q ∧ p ≤ q ∧ q ≤ buf.length
  blanks : ∀ p ≤ buf.length, ∃ q, blanksEnd buf p = some q ∧ p ≤ q ∧ q ≤ buf.length
  word : ∀ word, ∀ p ≤ buf.length, ∃ q, wordEnd buf word p = some q ∧ ∀ r ∈ q, p ≤ r ∧ r ≤ buf.length
  name : ∀ closer, ∀ p ≤ buf.length, ∃ name q, nameEnd closer buf [] p = some (name, q) ∧ p ≤ q ∧ q ≤ buf.length
  directive : ∀ p ≤ buf.length, ∃ found q, directiveEnd buf p = some (found, q) ∧ p ≤ q ∧ q ≤ buf.length

theorem inBounds (buf : Bytes) : InBounds buf where
  continuation p hp := by
    obtain ⟨hq, -⟩ | ⟨q, after, hq, hafter, hat⟩ := continuationEnd_cases (At.of_lt hp)
    · exact ⟨none, hq, by simp⟩
    · refine ⟨some q, hq, ?_⟩
      rintro r ⟨⟩
      exact (At.of_lt hp).succ.between hat (suffix_of_continuation? hafter)
  continued start nl hstart hnl := ⟨_, isContinuedAt_before ⟨hstart, hnl, rfl⟩⟩
  lineComment p hp := by
    obtain ⟨q, hq, hat⟩ := lineCommentEnd_at (At.of_le hp)
    exact ⟨q, hq, (At.of_le hp).between hat (afterLineCommentFrom_suffix [] _)⟩
  blockComment p hp := (At.of_le hp).between (blockCommentEnd_at (At.of_le hp)) (afterBlockComment_suffix _)
  literal quote p hp := by
    obtain ⟨q, hq, hat⟩ := literalEnd_at quote (At.of_le hp)
    exact ⟨q, hq, (At.of_le hp).between hat (afterLiteral_suffix quote _)⟩
  blanks p hp := by
    obtain ⟨q, hq, hat⟩ := blanksEnd_at (At.of_le hp)
    exact ⟨q, hq, (At.of_le hp).between hat (skipBlanks_suffix _)⟩
  word word p hp := by
    obtain ⟨q, hq, hmarks⟩ := wordEnd_at word (At.of_le hp)
    refine ⟨q, hq, ?_⟩
    rintro r rfl
    cases hafter : afterWord? word (buf.drop p) with
    | none =>
      rw [hafter] at hmarks
      cases hmarks
    | some rest =>
      rw [hafter] at hmarks
      cases hmarks with
      | some hat => exact (At.of_le hp).between hat (suffix_of_afterWord? hafter)
  name closer p hp := by
    obtain ⟨q, hq, hat⟩ := nameEnd_at closer [] (At.of_le hp)
    exact ⟨_, q, hq, (At.of_le hp).between hat (headerName_suffix closer _)⟩
  directive p hp := by
    obtain ⟨q, hq, hat⟩ := directiveEnd_at (At.of_le hp)
    exact ⟨_, q, hq, (At.of_le hp).between hat (directive_suffix _)⟩

/-- **The pass goes forward, stays in the buffer and reads no byte for two includes.** No part looks outside of
the buffer (1). Each round has a result and goes forward, to the end at most (2). The includes of the file are
those of the rounds, in this order; each has been read from a span that is enough to read it, and no two spans
overlap (3). So the includes take no more than there is (4). -/
theorem pass_in_bounds (buf : Bytes) :
    InBounds buf ∧
    (∀ lineStart, ∀ p < buf.length,
      ∃ r, iterate buf lineStart p = some r ∧ p < r.pos ∧ r.pos ≤ buf.length) ∧
    (∃ spans, spansFrom buf true 0 = some spans ∧ spans.map (·.directive) = includes buf ∧
      (∀ s ∈ spans, s.Reads buf) ∧ spans.Pairwise fun s s' => s.stop ≤ s'.start) ∧
    ((includes buf).map room).sum ≤ buf.length := by
  obtain ⟨spans, hspans, hmap, hchain⟩ := spansFrom_at true (At.start buf)
  refine ⟨inBounds buf, fun lineStart p hp => iterate_forward lineStart hp,
    ⟨spans, hspans, hmap, fun s hs => (hchain.reads hs).2, hchain.pairwise⟩, ?_⟩
  have hsum := hchain.sum_room_le
  rw [Nat.zero_add] at hsum
  rw [includes, ← hmap, List.map_map]
  exact hsum

end HeaderAtlas.Source.Positions
