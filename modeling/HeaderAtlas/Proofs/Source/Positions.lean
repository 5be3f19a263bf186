import HeaderAtlas.Proofs.Source.Boundary
/-!
# Reading by position

A reader that holds a buffer and a position in it, and not the bytes that are left, may look at a byte that is
not there. Here the parts of the pass are written for such a reader: each looks at bytes by their positions,
under the guards it has for that, and a look outside of the buffer has no result at all (`none`).

No part ever makes such a look. Where certain bytes are left at a position (`At`), each part gives the
position at which its counterpart on bytes leaves off: `continuationEnd_at`, `blanksEnd_at` and so on.
-/

set_option autoImplicit false

namespace HeaderAtlas.Source.Positions

/-! ## What is left at a position -/

/-- The bytes from a position in a buffer on. The end of the buffer is such a position, with no bytes left; beyond it
there is none. -/
structure At (buf : Bytes) (p : Nat) (t : Bytes) : Prop where
  le : p ≤ buf.length
  drop : buf.drop p = t

namespace At

variable {buf t u rest : Bytes} {p q : Nat} {b : UInt8}

theorem start (buf : Bytes) : At buf 0 buf := ⟨Nat.zero_le _, rfl⟩

theorem stop (buf : Bytes) : At buf buf.length [] := ⟨Nat.le_refl _, List.drop_length⟩

theorem add_length (h : At buf p t) : p + t.length = buf.length := by
  have := h.le
  rw [← h.drop, List.length_drop]
  omega

theorem get (h : At buf p (b :: rest)) : buf[p]? = some b := by
  rw [← Nat.add_zero p, ← List.getElem?_drop, h.drop, List.getElem?_cons_zero]

theorem lt (h : At buf p (b :: rest)) : p < buf.length := by
  have := h.add_length
  rw [List.length_cons] at this
  omega

theorem not_lt (h : At buf p []) : ¬ p < buf.length := by
  have := h.add_length
  rw [List.length_nil] at this
  omega

/-- A part that leaves some of the bytes has moved on by as many as it took. -/
theorem skip (h : At buf p (t ++ u)) : At buf (p + t.length) u := by
  refine ⟨?_, ?_⟩
  · have := h.add_length
    rw [List.length_append] at this
    omega
  · rw [← List.drop_drop, h.drop, List.drop_left]

theorem succ (h : At buf p (b :: rest)) : At buf (p + 1) rest := skip (t := [b]) h

theorem of_le (h : p ≤ buf.length) : At buf p (buf.drop p) := ⟨h, rfl⟩

/-- A position before the end has a byte, and the ones behind it. -/
theorem of_lt (h : p < buf.length) : At buf p (buf[p] :: buf.drop (p + 1)) :=
  ⟨Nat.le_of_lt h, List.drop_eq_getElem_cons h⟩

/-- Where less is left, the position is further on. -/
theorem between (h : At buf p t) (hq : At buf q u) (hsuffix : u <:+ t) : p ≤ q ∧ q ≤ buf.length := by
  have := h.add_length
  have := hq.add_length
  have := hsuffix.length_le
  omega

end At

variable {buf t : Bytes} {p : Nat}

/-! ## Continuations, forward -/

/-- Where the spaces and tabs from a position on end. The guard comes before the look: at the end of the buffer
nothing is looked at. -/
def runEnd (buf : Bytes) (p : Nat) : Option Nat :=
  if p < buf.length then
    match buf[p]? with
    | none => none
    | some b => if isBlank b then runEnd buf (p + 1) else some p
  else some p
termination_by buf.length - p

/-- The position behind a carriage return, where there is one. -/
def crEnd (buf : Bytes) (p : Nat) : Option Nat :=
  if p < buf.length then
    match buf[p]? with
    | none => none
    | some b => if b = cr then some (p + 1) else some p
  else some p

/-- The position behind a line feed, if there is one. -/
def lfEnd (buf : Bytes) (p : Nat) : Option (Option Nat) :=
  if p < buf.length then
    match buf[p]? with
    | none => none
    | some b => if b = lf then some (some (p + 1)) else some none
  else some none

/-- The position behind the continuation whose backslash is at a position, if there is one. -/
def continuationEnd (buf : Bytes) (p : Nat) : Option (Option Nat) :=
  match runEnd buf (p + 1) with
  | none => none
  | some q =>
    match crEnd buf q with
    | none => none
    | some r => lfEnd buf r

/-- Each of these lemmas has the same form: there is a position, it is given without a look outside of the buffer, and
what is left there is what the counterpart on bytes leaves. -/
theorem runEnd_at (h : At buf p t) : ∃ q, runEnd buf p = some q ∧ At buf q (t.dropWhile isBlank) := by
  induction t generalizing p with
  | nil =>
    rw [runEnd, if_neg h.not_lt]
    exact ⟨p, rfl, h⟩
  | cons b rest ih =>
    rw [runEnd, if_pos h.lt, h.get]
    by_cases hb : isBlank b = true
    · simp only [if_pos hb, List.dropWhile_cons_of_pos hb]
      exact ih h.succ
    · simp only [if_neg hb, List.dropWhile_cons_of_neg hb]
      exact ⟨p, rfl, h⟩

/-- What follows a line end does so with or without a carriage return. -/
theorem afterLineEnd?_eq (t : Bytes) : afterLineEnd? t = afterLf? (dropCr t) := by
  cases t with
  | nil => rfl
  | cons b rest =>
    rw [afterLineEnd?, dropCr]
    split
    · rfl
    · rfl

theorem crEnd_at (h : At buf p t) : ∃ q, crEnd buf p = some q ∧ At buf q (dropCr t) := by
  cases t with
  | nil =>
    rw [crEnd, if_neg h.not_lt]
    exact ⟨p, rfl, h⟩
  | cons b rest =>
    rw [crEnd, if_pos h.lt, h.get, dropCr]
    by_cases hb : b = cr
    · simp only [if_pos hb]
      exact ⟨p + 1, rfl, h.succ⟩
    · simp only [if_neg hb]
      exact ⟨p, rfl, h⟩

/-- A position is where something is left, and there is one if and only if there is something. It compares a part that
may find nothing with its counterpart. -/
inductive Marks (buf : Bytes) : Option Nat → Option Bytes → Prop where
  | none : Marks buf none none
  | some {q : Nat} {left : Bytes} (h : At buf q left) : Marks buf (some q) (some left)

theorem lfEnd_at (h : At buf p t) : ∃ q, lfEnd buf p = some q ∧ Marks buf q (afterLf? t) := by
  cases t with
  | nil =>
    rw [lfEnd, if_neg h.not_lt]
    exact ⟨none, rfl, .none⟩
  | cons b rest =>
    rw [lfEnd, if_pos h.lt, h.get, afterLf?]
    by_cases hb : b = lf
    · simp only [if_pos hb]
      exact ⟨some (p + 1), rfl, .some h.succ⟩
    · simp only [if_neg hb]
      exact ⟨none, rfl, .none⟩

theorem continuationEnd_at {b : UInt8} {rest : Bytes} (h : At buf p (b :: rest)) :
    ∃ q, continuationEnd buf p = some q ∧ Marks buf q (continuation? rest) := by
  obtain ⟨q, hq, hatq⟩ := runEnd_at h.succ
  obtain ⟨r, hr, hatr⟩ := crEnd_at hatq
  rw [continuation?, afterLineEnd?_eq]
  simp only [continuationEnd, hq, hr]
  exact lfEnd_at hatr

/-- A continuation is there, and its end with it, or there is none. The two lemmas after it are these cases, for where
it is known which holds. -/
theorem continuationEnd_cases {b : UInt8} {rest : Bytes} (h : At buf p (b :: rest)) :
    (continuationEnd buf p = some none ∧ continuation? rest = none) ∨
      ∃ q after, continuationEnd buf p = some (some q) ∧ continuation? rest = some after ∧ At buf q after := by
  obtain ⟨q, hq, hmarks⟩ := continuationEnd_at h
  rw [hq]
  generalize continuation? rest = left at hmarks
  cases hmarks with
  | none => exact .inl ⟨rfl, rfl⟩
  | some hat => exact .inr ⟨_, _, rfl, rfl, hat⟩

theorem continuationEnd_of_some {b : UInt8} {rest after : Bytes} (h : At buf p (b :: rest))
    (hafter : continuation? rest = some after) : ∃ q, continuationEnd buf p = some (some q) ∧ At buf q after := by
  obtain ⟨-, hnone⟩ | ⟨q, after', hq, hafter', hat⟩ := continuationEnd_cases h
  · exact absurd (hafter.symm.trans hnone) (by simp)
  · rw [Option.some.inj (hafter.symm.trans hafter')]
    exact ⟨q, hq, hat⟩

theorem continuationEnd_of_none {b : UInt8} {rest : Bytes} (h : At buf p (b :: rest))
    (hnone : continuation? rest = none) : continuationEnd buf p = some none := by
  obtain ⟨hq, -⟩ | ⟨q, after, -, hafter, -⟩ := continuationEnd_cases h
  · exact hq
  · exact absurd (hafter.symm.trans hnone) (by simp)

/-- A continuation ends behind its backslash, so a loop that passes over one comes nearer to the end. -/
theorem lt_of_continuationEnd {q : Nat} (hp : p < buf.length) (h : continuationEnd buf p = some (some q)) : p < q := by
  obtain ⟨hnone, -⟩ | ⟨r, after, hr, hafter, hat⟩ := continuationEnd_cases (At.of_lt hp)
  · rw [hnone] at h
    simp at h
  · rw [hr] at h
    rw [← Option.some.inj (Option.some.inj h)]
    exact ((At.of_lt hp).succ.between hat (suffix_of_continuation? hafter)).1

/-! ## Continuations, backward -/

/-- The bytes before a position and not before `start`, the nearest first. This is the form in which a line is looked
back over. -/
structure Before (buf : Bytes) (start p : Nat) (back : Bytes) : Prop where
  le : start ≤ p
  le_length : p ≤ buf.length
  reverse : ((buf.take p).drop start).reverse = back

/-- The position before a carriage return that ends at a position, where there is one. -/
def crStart (buf : Bytes) (start : Nat) : Nat → Option Nat
  | 0 => some 0
  | p + 1 =>
    if start ≤ p then
      match buf[p]? with
      | none => none
      | some b => if b = cr then some p else some (p + 1)
    else some (p + 1)

/-- Where the spaces and tabs that end at a position begin. -/
def runStart (buf : Bytes) (start : Nat) : Nat → Option Nat
  | 0 => some 0
  | p + 1 =>
    if start ≤ p then
      match buf[p]? with
      | none => none
      | some b => if isBlank b then runStart buf start p else some (p + 1)
    else some (p + 1)

/-- Whether a backslash ends at a position. -/
def backslashBefore (buf : Bytes) (start : Nat) : Nat → Option Bool
  | 0 => some false
  | p + 1 =>
    if start ≤ p then
      match buf[p]? with
      | none => none
      | some b => some (b == backslash)
    else some false

/-- Whether the line feed at a position belongs to a continuation that begins at `start` or later. The bound keeps it
from looking into what stands before the comment. -/
def isContinuedAt (buf : Bytes) (start nl : Nat) : Option Bool :=
  match crStart buf start nl with
  | none => none
  | some p =>
    match runStart buf start p with
    | none => none
    | some q => backslashBefore buf start q

namespace Before

variable {start : Nat} {back : Bytes}

/-- Nothing stands before, or the byte just before is there to be looked at. -/
theorem cases (h : Before buf start p back) :
    (back = [] ∧ p = start) ∨
      ∃ q b rest, p = q + 1 ∧ back = b :: rest ∧ start ≤ q ∧ buf[q]? = some b ∧ Before buf start q rest := by
  by_cases hp : p = start
  · refine .inl ⟨?_, hp⟩
    rw [← h.reverse, hp]
    simp
  · obtain ⟨q, rfl⟩ : ∃ q, p = q + 1 := ⟨p - 1, by have := h.le; omega⟩
    have hq : q < buf.length := h.le_length
    have hstart : start ≤ q := by
      have := h.le
      omega
    refine .inr ⟨q, buf[q], ((buf.take q).drop start).reverse, rfl, ?_, hstart, List.getElem?_eq_getElem hq,
      ⟨hstart, Nat.le_of_lt hq, rfl⟩⟩
    rw [← h.reverse, List.take_succ_eq_append_getElem hq, List.drop_append_of_le_length (by simp; omega),
      List.reverse_append, List.reverse_singleton, List.singleton_append]

/-- The bytes that were read of a line are what stands before the position, backwards. -/
theorem of_at {line rest : Bytes} (h : At buf p (line ++ rest)) : Before buf p (p + line.length) line.reverse := by
  refine ⟨Nat.le_add_right _ _, h.skip.le, ?_⟩
  rw [← List.take_drop, h.drop, List.take_left]

end Before

theorem crStart_before {start : Nat} {back : Bytes} (h : Before buf start p back) :
    ∃ q, crStart buf start p = some q ∧ Before buf start q (dropCr back) := by
  obtain ⟨rfl, rfl⟩ | ⟨q, b, rest, rfl, rfl, hstart, hget, hrest⟩ := h.cases
  · refine ⟨p, ?_, h⟩
    cases p with
    | zero => rfl
    | succ p => rw [crStart, if_neg (by omega)]
  · rw [crStart, if_pos hstart, hget, dropCr]
    by_cases hb : b = cr
    · simp only [if_pos hb]
      exact ⟨q, rfl, hrest⟩
    · simp only [if_neg hb]
      exact ⟨q + 1, rfl, h⟩

theorem runStart_before {start : Nat} {back : Bytes} (h : Before buf start p back) :
    ∃ q, runStart buf start p = some q ∧ Before buf start q (back.dropWhile isBlank) := by
  induction back generalizing p with
  | nil =>
    obtain ⟨-, rfl⟩ | ⟨q, b, rest, -, hcons, -⟩ := h.cases
    · refine ⟨p, ?_, h⟩
      cases p with
      | zero => rfl
      | succ p => rw [runStart, if_neg (by omega)]
    · exact absurd hcons (by simp)
  | cons b rest ih =>
    obtain ⟨hnil, -⟩ | ⟨q, b', rest', rfl, hcons, hstart, hget, hrest⟩ := h.cases
    · exact absurd hnil (by simp)
    · obtain ⟨rfl, rfl⟩ := List.cons.inj hcons
      rw [runStart, if_pos hstart, hget]
      by_cases hb : isBlank b = true
      · simp only [if_pos hb, List.dropWhile_cons_of_pos hb]
        exact ih hrest
      · simp only [if_neg hb, List.dropWhile_cons_of_neg hb]
        exact ⟨q + 1, rfl, h⟩

theorem backslashBefore_before {start : Nat} {back : Bytes} (h : Before buf start p back) :
    backslashBefore buf start p = some (back.head? == some backslash) := by
  obtain ⟨rfl, rfl⟩ | ⟨q, b, rest, rfl, rfl, hstart, hget, -⟩ := h.cases
  · cases p with
    | zero => rfl
    | succ p =>
      rw [backslashBefore, if_neg (by omega)]
      rfl
  · rw [backslashBefore, if_pos hstart, hget]
    rfl

/-- Looking back by positions finds what looking back at the bytes finds: a carriage return, blanks and a backslash,
each under its own guard. -/
theorem isContinuedAt_before {start : Nat} {back : Bytes} (h : Before buf start p back) :
    isContinuedAt buf start p = some (isContinued back) := by
  obtain ⟨q, hq, hbeforeq⟩ := crStart_before h
  obtain ⟨r, hr, hbeforer⟩ := runStart_before hbeforeq
  simp only [isContinuedAt, hq, hr, backslashBefore_before hbeforer]
  rfl

/-! ## Searching -/

/-- Where a word first stands in a byte string. -/
def firstIn (word : Bytes) : Bytes → Option Nat
  | [] => none
  | b :: rest => if word.isPrefixOf (b :: rest) then some 0 else (firstIn word rest).map (· + 1)

/-- The first position from `p` on at which a word stands. -/
def find? (buf word : Bytes) (p : Nat) : Option Nat := (firstIn word (buf.drop p)).map (p + ·)

/-- A line feed is searched for to the end of its line. -/
theorem firstIn_lf (t : Bytes) :
    (firstIn [lf] t = none ∧ lf ∉ t) ∨
      ∃ line rest, t = line ++ lf :: rest ∧ lf ∉ line ∧ firstIn [lf] t = some line.length := by
  induction t with
  | nil => exact .inl ⟨rfl, by simp⟩
  | cons b t ih =>
    by_cases hb : b = lf
    · exact .inr ⟨[], t, by rw [hb]; rfl, by simp, by simp [firstIn, hb]⟩
    · have hskip : firstIn [lf] (b :: t) = (firstIn [lf] t).map (· + 1) := by
        rw [firstIn, if_neg (by simpa [List.isPrefixOf] using Ne.symm hb)]
      rw [hskip]
      obtain ⟨hnone, hnot⟩ | ⟨line, rest, rfl, hline, hsome⟩ := ih
      · exact .inl ⟨by rw [hnone]; rfl, by simp [hnot, Ne.symm hb]⟩
      · exact .inr ⟨b :: line, rest, rfl, by simp [hline, Ne.symm hb], by rw [hsome]; rfl⟩

/-- The closing mark of a block comment is the first one there is. So a search for it does what reading byte by
byte does. -/
theorem afterBlockComment_eq (t : Bytes) :
    afterBlockComment t =
      match firstIn [star, slash] t with
      | none => []
      | some i => t.drop (i + 2) := by
  induction t with
  | nil => rfl
  | cons b t ih =>
    have hmark : (b = star ∧ t.head? = some slash) ↔ [star, slash].isPrefixOf (b :: t) = true := by
      cases t with
      | nil => simp [List.isPrefixOf]
      | cons c t => simp [List.isPrefixOf, @eq_comm _ b, @eq_comm _ c]
    rw [afterBlockComment, firstIn]
    by_cases h : [star, slash].isPrefixOf (b :: t) = true
    · rw [if_pos (hmark.2 h), if_pos h]
      exact List.drop_one.symm
    · rw [if_neg (fun hm => h (hmark.1 hm)), if_neg h, ih]
      cases firstIn [star, slash] t with
      | none => rfl
      | some i => rfl

/-- A word that is found is there in full. -/
theorem length_of_firstIn {word : Bytes} {i : Nat} (h : firstIn word t = some i) : i + word.length ≤ t.length := by
  induction t generalizing i with
  | nil => simp [firstIn] at h
  | cons b t ih =>
    rw [firstIn] at h
    split at h
    · next hword =>
      rw [← Option.some.inj h, Nat.zero_add]
      exact (List.isPrefixOf_iff_prefix.1 hword).length_le
    · obtain ⟨j, hj, rfl⟩ := Option.map_eq_some_iff.1 h
      have := ih hj
      rw [List.length_cons]
      omega

/-- A line feed that is found stands where it was searched for, and before the end. -/
theorem lt_of_find?_lf {nl : Nat} (h : find? buf [lf] p = some nl) : p ≤ nl ∧ nl < buf.length := by
  obtain ⟨hnone, -⟩ | ⟨line, rest, hdrop, -, hsome⟩ := firstIn_lf (buf.drop p)
  · rw [find?, hnone] at h
    simp at h
  · rw [find?, hsome] at h
    have hnl : p + line.length = nl := Option.some.inj h
    have hlength := congrArg List.length hdrop
    rw [List.length_drop, List.length_append, List.length_cons] at hlength
    omega

/-! ## Comments and literals -/

/-- The line feed that ends a line comment, or the end of the buffer. -/
def lineCommentEnd (buf : Bytes) (p : Nat) : Option Nat :=
  match _h : find? buf [lf] p with
  | none => some buf.length
  | some nl =>
    match isContinuedAt buf p nl with
    | none => none
    | some false => some nl
    | some true => lineCommentEnd buf (nl + 1)
termination_by buf.length - p
decreasing_by
  have := lt_of_find?_lf _h
  omega

/-- The position behind the mark that closes a block comment, or the end of the buffer. -/
def blockCommentEnd (buf : Bytes) (p : Nat) : Nat :=
  match find? buf [star, slash] p with
  | none => buf.length
  | some close => close + 2

/-- The position behind the quote that closes a literal, or the end of the buffer. An escape at the very end leads the
position beyond it, and that is brought back to the end before it is used. -/
def literalEnd (quote : UInt8) (buf : Bytes) (p : Nat) : Option Nat :=
  if p < buf.length then
    match buf[p]? with
    | none => none
    | some b =>
      if b = backslash then literalEnd quote buf (p + 2)
      else if b = quote then some (p + 1)
      else literalEnd quote buf (p + 1)
  else some buf.length
termination_by buf.length - p

/-- The two ways in which a search for the end of the line can go. -/
theorem lineCommentEnd_of_none (h : find? buf [lf] p = none) : lineCommentEnd buf p = some buf.length := by
  rw [lineCommentEnd]
  split
  · rfl
  · next nl hnl =>
    rw [h] at hnl
    simp at hnl

theorem lineCommentEnd_of_some {nl : Nat} {continued : Bool} (h : find? buf [lf] p = some nl)
    (hcontinued : isContinuedAt buf p nl = some continued) :
    lineCommentEnd buf p = if continued then lineCommentEnd buf (nl + 1) else some nl := by
  rw [lineCommentEnd]
  split
  · next hnone =>
    rw [h] at hnone
    simp at hnone
  · next nl' hnl =>
    obtain rfl : nl = nl' := Option.some.inj (h.symm.trans hnl)
    rw [hcontinued]
    cases continued with
    | false => rfl
    | true => rfl

/-- A line comment without a line feed runs to the end. -/
theorem afterLineCommentFrom_eq_nil (h : lf ∉ t) : ∀ back, afterLineCommentFrom back t = [] := by
  induction t with
  | nil =>
    intro back
    rfl
  | cons b t ih =>
    intro back
    rw [List.mem_cons, not_or] at h
    rw [afterLineCommentFrom, if_neg (Ne.symm h.1)]
    exact ih h.2 (b :: back)

/-- The recursion is on the lines of the comment, each of which is searched for its line feed. -/
theorem lineCommentEnd_at {buf t : Bytes} {p : Nat} (h : At buf p t) :
    ∃ q, lineCommentEnd buf p = some q ∧ At buf q (afterLineComment t) := by
  obtain ⟨hnone, hnot⟩ | ⟨line, rest, ht, hline, hsome⟩ := firstIn_lf t
  · have hfind : find? buf [lf] p = none := by
      rw [find?, h.drop, hnone]
      rfl
    rw [lineCommentEnd_of_none hfind, afterLineComment, afterLineCommentFrom_eq_nil hnot]
    exact ⟨buf.length, rfl, At.stop buf⟩
  · have hfind : find? buf [lf] p = some (p + line.length) := by
      rw [find?, h.drop, hsome]
      rfl
    rw [ht] at h
    rw [lineCommentEnd_of_some hfind (isContinuedAt_before (Before.of_at h)), ht, afterLineComment,
      afterLineCommentFrom_line hline, List.append_nil]
    by_cases hcontinued : isContinued line.reverse = true
    · rw [if_pos hcontinued, if_pos hcontinued]
      exact lineCommentEnd_at h.skip.succ
    · rw [if_neg hcontinued, if_neg hcontinued]
      exact ⟨p + line.length, rfl, h.skip⟩
termination_by t.length
decreasing_by
  rw [ht, List.length_append, List.length_cons]
  omega

theorem blockCommentEnd_at (h : At buf p t) : At buf (blockCommentEnd buf p) (afterBlockComment t) := by
  rw [blockCommentEnd, find?, h.drop, afterBlockComment_eq]
  cases hfirst : firstIn [star, slash] t with
  | none => exact At.stop buf
  | some i =>
    -- the mark has two bytes, so that its end is no further than the end of the buffer
    have hmark := length_of_firstIn hfirst
    have hskip : At buf (p + (t.take (i + 2)).length) (t.drop (i + 2)) := by
      rw [← List.take_append_drop (i + 2) t] at h
      exact h.skip
    rwa [List.length_take, Nat.min_eq_left (by simpa using hmark)] at hskip

theorem literalEnd_at (quote : UInt8) (h : At buf p t) :
    ∃ q, literalEnd quote buf p = some q ∧ At buf q (afterLiteral quote t) := by
  fun_induction afterLiteral quote t generalizing p with
  | case1 =>
    rw [literalEnd, if_neg h.not_lt]
    exact ⟨buf.length, rfl, At.stop buf⟩
  | case2 =>
    -- the escaped byte is missing: the position is beyond the end now
    have hbeyond : ¬ p + 2 < buf.length := by
      have := h.succ.not_lt
      omega
    rw [literalEnd, if_pos h.lt, h.get]
    simp only [if_true]
    rw [literalEnd, if_neg hbeyond]
    exact ⟨buf.length, rfl, At.stop buf⟩
  | case3 c after ih =>
    rw [literalEnd, if_pos h.lt, h.get]
    simp only [if_true]
    exact ih h.succ.succ
  | case4 rest hescape =>
    rw [literalEnd, if_pos h.lt, h.get]
    simp only [if_neg hescape, if_true]
    exact ⟨p + 1, rfl, h.succ⟩
  | case5 b rest hescape hquote ih =>
    rw [literalEnd, if_pos h.lt, h.get]
    simp only [if_neg hescape, if_neg hquote]
    exact ih h.succ

/-! ## Blanks and words -/

/-- Where continuations end, and bytes of a kind among them. Blanks and continuations are passed over by it, and
continuations alone, with no byte of any kind. -/
def passEnd (passed : UInt8 → Bool) (buf : Bytes) (p : Nat) : Option Nat :=
  if _hp : p < buf.length then
    match buf[p]? with
    | none => none
    | some b =>
      if passed b then passEnd passed buf (p + 1)
      else if b = backslash then
        match _h : continuationEnd buf p with
        | none => none
        | some none => some p
        | some (some after) => passEnd passed buf after
      else some p
  else some p
termination_by buf.length - p
decreasing_by
  · omega
  · have := lt_of_continuationEnd _hp _h
    omega

/-- Where spaces, tabs and continuations end. -/
def blanksEnd (buf : Bytes) (p : Nat) : Option Nat := passEnd isBlank buf p

/-- Where continuations end. -/
def continuationsEnd (buf : Bytes) (p : Nat) : Option Nat := passEnd (fun _ => false) buf p

/-- The position behind a word, before each letter of which there may be continuations. -/
def wordEnd (buf : Bytes) : Bytes → Nat → Option (Option Nat)
  | [], p => some (some p)
  | letter :: letters, p =>
    match continuationsEnd buf p with
    | none => none
    | some q =>
      if q < buf.length then
        match buf[q]? with
        | none => none
        | some b => if b = letter then wordEnd buf letters (q + 1) else some none
      else some none

section

variable {passed : UInt8 → Bool} {b : UInt8} {rest after : Bytes}

/-- The steps of the loop, one for each thing that may stand at the position. -/
theorem passEnd_nil (h : At buf p []) : passEnd passed buf p = some p := by
  rw [passEnd, dif_neg h.not_lt]

theorem passEnd_passed (h : At buf p (b :: rest)) (hb : passed b = true) :
    passEnd passed buf p = passEnd passed buf (p + 1) := by
  rw [passEnd, dif_pos h.lt]
  simp only [h.get, if_pos hb]

theorem passEnd_stop (h : At buf p (b :: rest)) (hb : ¬ passed b = true) (hescape : b ≠ backslash) :
    passEnd passed buf p = some p := by
  rw [passEnd, dif_pos h.lt]
  simp only [h.get, if_neg hb, if_neg hescape]

theorem passEnd_continuation (h : At buf p (backslash :: rest)) (hb : ¬ passed backslash = true)
    (hafter : continuation? rest = some after) : ∃ q, passEnd passed buf p = passEnd passed buf q ∧ At buf q after := by
  obtain ⟨q, hq, hat⟩ := continuationEnd_of_some h hafter
  refine ⟨q, ?_, hat⟩
  rw [passEnd, dif_pos h.lt]
  simp only [h.get, if_neg hb, if_true]
  split
  · next hc => exact absurd (hq.symm.trans hc) (by simp)
  · next hc => exact absurd (hq.symm.trans hc) (by simp)
  · next hc => rw [Option.some.inj (Option.some.inj (hq.symm.trans hc))]

theorem passEnd_backslash (h : At buf p (backslash :: rest)) (hb : ¬ passed backslash = true)
    (hnone : continuation? rest = none) : passEnd passed buf p = some p := by
  have hq := continuationEnd_of_none h hnone
  rw [passEnd, dif_pos h.lt]
  simp only [h.get, if_neg hb, if_true]
  split
  · next hc => exact absurd (hq.symm.trans hc) (by simp)
  · rfl
  · next hc => exact absurd (hq.symm.trans hc) (by simp)

end

theorem blanksEnd_at (h : At buf p t) : ∃ q, blanksEnd buf p = some q ∧ At buf q (skipBlanks t) := by
  rw [blanksEnd]
  fun_induction skipBlanks t generalizing p with
  | case1 => exact ⟨p, passEnd_nil h, h⟩
  | case2 b rest hb ih =>
    rw [passEnd_passed h hb]
    exact ih h.succ
  | case3 rest after hafter hb ih =>
    obtain ⟨q, hq, hat⟩ := passEnd_continuation h hb hafter
    rw [hq]
    exact ih hat
  | case4 rest hnone hb => exact ⟨p, passEnd_backslash h hb hnone, h⟩
  | case5 b rest hb hescape => exact ⟨p, passEnd_stop h hb hescape, h⟩

theorem continuationsEnd_at (h : At buf p t) :
    ∃ q, continuationsEnd buf p = some q ∧ At buf q (skipContinuations t) := by
  fun_induction skipContinuations t generalizing p with
  | case1 => exact ⟨p, passEnd_nil h, h⟩
  | case2 rest after hafter ih =>
    obtain ⟨q, hq, hat⟩ : ∃ q, continuationsEnd buf p = continuationsEnd buf q ∧ At buf q after :=
      passEnd_continuation h Bool.false_ne_true hafter
    rw [hq]
    exact ih hat
  | case3 rest hnone => exact ⟨p, passEnd_backslash h Bool.false_ne_true hnone, h⟩
  | case4 b rest hescape => exact ⟨p, passEnd_stop h Bool.false_ne_true hescape, h⟩

/-- By induction on the word: before each letter the continuations end at a position, and the letter is there to be
looked at or nothing is. -/
theorem wordEnd_at (word : Bytes) (h : At buf p t) :
    ∃ q, wordEnd buf word p = some q ∧ Marks buf q (afterWord? word t) := by
  induction word generalizing p t with
  | nil => exact ⟨some p, rfl, .some h⟩
  | cons letter letters ih =>
    obtain ⟨q, hq, hat⟩ := continuationsEnd_at h
    simp only [wordEnd, afterWord?, hq]
    cases hskip : skipContinuations t with
    | nil =>
      rw [hskip] at hat
      rw [if_neg hat.not_lt]
      exact ⟨none, rfl, .none⟩
    | cons b rest =>
      rw [hskip] at hat
      simp only [if_pos hat.lt, hat.get]
      by_cases hb : b = letter
      · simp only [if_pos hb]
        exact ih hat.succ
      · simp only [if_neg hb]
        exact ⟨none, rfl, .none⟩

/-! ## Directives -/

/-- The header name before `closer`, behind the part of it that has been read, and where reading goes on. The name is
gathered along the way, since a continuation leaves a gap in it. -/
def nameEnd (closer : UInt8) (buf name : Bytes) (p : Nat) : Option (Option Bytes × Nat) :=
  if _hp : p < buf.length then
    match buf[p]? with
    | none => none
    | some b =>
      if b = backslash then
        match _h : continuationEnd buf p with
        | none => none
        | some (some after) => nameEnd closer buf name after
        | some none =>
          if p + 1 < buf.length then
            match buf[p + 1]? with
            | none => none
            | some c =>
              if c ≠ lf then nameEnd closer buf (name ++ [b, c]) (p + 2)
              else nameEnd closer buf (name ++ [b]) (p + 1)
          else nameEnd closer buf (name ++ [b]) (p + 1)
      else if b = lf then some (none, p)
      else if b = closer then some (some name, p + 1)
      else nameEnd closer buf (name ++ [b]) (p + 1)
  else some (none, buf.length)
termination_by buf.length - p
decreasing_by
  · have := lt_of_continuationEnd _hp _h
    omega
  all_goals omega

/-- The header name that begins at a position with one of the opening marks, and where reading goes on. -/
def headerEnd (buf : Bytes) (p : Nat) : Option (Option Directive × Nat) :=
  if p < buf.length then
    match buf[p]? with
    | none => none
    | some b =>
      if b = 0x3C then (nameEnd 0x3E buf [] (p + 1)).map fun r => (r.1.map (⟨·, true⟩), r.2)
      else if b = doubleQuote then (nameEnd doubleQuote buf [] (p + 1)).map fun r => (r.1.map (⟨·, false⟩), r.2)
      else some (none, p)
  else some (none, p)

/-- The directive behind the number sign before a position, if it is an include, and where reading goes on. -/
def directiveEnd (buf : Bytes) (p : Nat) : Option (Option Directive × Nat) :=
  match blanksEnd buf p with
  | none => none
  | some word =>
    match wordEnd buf includeWord word with
    | none => none
    | some none => some (none, word)
    | some (some q) =>
      match blanksEnd buf q with
      | none => none
      | some mark => headerEnd buf mark

section

variable {closer b c : UInt8} {name rest after : Bytes}

/-- The steps of reading a name. At the end of the buffer there is none. -/
theorem nameEnd_nil (h : At buf p []) : nameEnd closer buf name p = some (none, buf.length) := by
  rw [nameEnd, dif_neg h.not_lt]

theorem nameEnd_continuation (h : At buf p (backslash :: rest)) (hafter : continuation? rest = some after) :
    ∃ q, nameEnd closer buf name p = nameEnd closer buf name q ∧ At buf q after := by
  obtain ⟨q, hq, hat⟩ := continuationEnd_of_some h hafter
  refine ⟨q, ?_, hat⟩
  rw [nameEnd, dif_pos h.lt]
  simp only [h.get, if_true]
  split
  · next hc => exact absurd (hq.symm.trans hc) (by simp)
  · next hc => rw [Option.some.inj (Option.some.inj (hq.symm.trans hc))]
  · next hc => exact absurd (hq.symm.trans hc) (by simp)

/-- A backslash that begins no continuation is part of the name, and so is the byte behind it. -/
theorem nameEnd_backslash (h : At buf p (backslash :: rest)) (hnone : continuation? rest = none) :
    nameEnd closer buf name p =
      match rest with
      | [] => some (none, buf.length)
      | c :: _ => nameEnd closer buf (name ++ [backslash, c]) (p + 2) := by
  have hq := continuationEnd_of_none h hnone
  rw [nameEnd, dif_pos h.lt]
  simp only [h.get, if_true]
  split
  · next hc => exact absurd (hq.symm.trans hc) (by simp)
  · next hc => exact absurd (hq.symm.trans hc) (by simp)
  · cases rest with
    | nil => rw [if_neg h.succ.not_lt, nameEnd_nil h.succ]
    | cons c rest =>
      -- a line feed right behind the backslash would make a continuation of the two
      have hbegins : ¬ BeginsContinuation (backslash :: c :: rest) := by
        intro hb
        obtain ⟨-, after, hafter⟩ := beginsContinuation_cons_iff.1 hb
        exact absurd (hafter.symm.trans hnone) (by simp)
      have hc : c ≠ lf := ne_lf_of_not_beginsContinuation hbegins
      simp only [if_pos h.succ.lt, h.succ.get, if_pos hc]

theorem nameEnd_other (h : At buf p (b :: rest)) (hescape : b ≠ backslash) :
    nameEnd closer buf name p =
      if b = lf then some (none, p)
      else if b = closer then some (some name, p + 1)
      else nameEnd closer buf (name ++ [b]) (p + 1) := by
  rw [nameEnd, dif_pos h.lt]
  simp only [h.get, if_neg hescape]

end

/-- What has been read of a name before is put in front of what is read here, and nothing else depends on it. -/
theorem nameEnd_at (closer : UInt8) (name : Bytes) (h : At buf p t) :
    ∃ q, nameEnd closer buf name p = some ((headerName closer t).1.map (name ++ ·), q) ∧
      At buf q (headerName closer t).2 := by
  fun_induction headerName closer t generalizing p name with
  | case1 => exact ⟨buf.length, nameEnd_nil h, At.stop buf⟩
  | case2 rest after hafter ih =>
    obtain ⟨q, hq, hat⟩ := nameEnd_continuation h hafter
    rw [hq]
    exact ih name hat
  | case3 hnone => exact ⟨buf.length, nameEnd_backslash h hnone, At.stop buf⟩
  | case4 c after hnone left name' hn ih =>
    obtain ⟨q, hq, hat⟩ := ih (name ++ [backslash, c]) h.succ.succ
    rw [hn] at hq hat
    refine ⟨q, ?_, hat⟩
    rw [nameEnd_backslash h hnone]
    simp only [hq, Option.map_map]
    cases left <;> simp
  | case5 rest hescape =>
    rw [nameEnd_other h hescape, if_pos rfl]
    exact ⟨p, rfl, h⟩
  | case6 rest hescape hlf =>
    rw [nameEnd_other h hescape, if_neg hlf, if_pos rfl]
    exact ⟨p + 1, by simp, h.succ⟩
  | case7 b rest hescape hlf hclose left name' hn ih =>
    obtain ⟨q, hq, hat⟩ := ih (name ++ [b]) h.succ
    rw [hn] at hq hat
    refine ⟨q, ?_, hat⟩
    rw [nameEnd_other h hescape, if_neg hlf, if_neg hclose, hq]
    cases left <;> simp

theorem headerEnd_at (h : At buf p t) :
    ∃ q, headerEnd buf p = some ((headerPart t).1, q) ∧ At buf q (headerPart t).2 := by
  cases t with
  | nil =>
    rw [headerEnd, if_neg h.not_lt]
    exact ⟨p, rfl, h⟩
  | cons b rest =>
    rw [headerEnd, if_pos h.lt]
    simp only [h.get, headerPart]
    by_cases hangle : b = 0x3C
    · obtain ⟨q, hq, hat⟩ := nameEnd_at 0x3E [] h.succ
      simp only [if_pos hangle, hq]
      exact ⟨q, by simp, hat⟩
    · by_cases hquote : b = doubleQuote
      · obtain ⟨q, hq, hat⟩ := nameEnd_at doubleQuote [] h.succ
        simp only [if_neg hangle, if_pos hquote, hq]
        exact ⟨q, by simp, hat⟩
      · simp only [if_neg hangle, if_neg hquote]
        exact ⟨p, rfl, h⟩

/-- The parts of a directive, one after the other, each from where the last one left off. -/
theorem directiveEnd_at (h : At buf p t) :
    ∃ q, directiveEnd buf p = some ((directive t).1, q) ∧ At buf q (directive t).2 := by
  obtain ⟨word, hword, hatword⟩ := blanksEnd_at h
  obtain ⟨q, hq, hmarks⟩ := wordEnd_at includeWord hatword
  simp only [directiveEnd, directive, hword, hq]
  generalize afterWord? includeWord (skipBlanks t) = left at hmarks
  cases hmarks with
  | none => exact ⟨word, rfl, hatword⟩
  | some hat =>
    obtain ⟨mark, hmark, hatmark⟩ := blanksEnd_at hat
    simp only [hmark]
    exact headerEnd_at hatmark

end HeaderAtlas.Source.Positions
