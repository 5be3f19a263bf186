import HeaderAtlas.Proofs.Source.Splice
/-!
# A pass over two files, one after the other

If the first of two files ends where a line may end, the includes of both, with a line feed between them, are
those of the first and then those of the second (`includes_append`). The first may break off anywhere: in a line
comment, in the word of a directive, in a header, behind half a mark. It must not break off in a block comment
or a literal, which would go on behind the line feed (`EndsOpen`), nor behind what the line feed makes a
continuation.

The pass is taken apart into its steps (`advance`). No step looks behind the byte it begins at, and none looks
past the line feed, so that a step on the first file leaves the second as it is (`advance_append`).
-/

set_option autoImplicit false

namespace HeaderAtlas.Source

variable {t rest q word : Bytes} {b mark : UInt8} {lineStart : Bool}

/-! ## One step -/

/-- What a step of the pass reports, whether the line has still to begin after it, and what is left. -/
structure Advance where
  found : Option Directive
  lineStart : Bool
  left : Bytes

/-- One step of the pass at a byte that is no blank, no backslash and begins no comment. It has a name because a slash
comes here in two ways, with no comment mark behind it or with no byte at all, and the pass by positions tells them
apart. -/
def advanceFirm (lineStart : Bool) (b : UInt8) (rest : Bytes) : Advance :=
  if b = doubleQuote ∨ b = singleQuote then ⟨none, false, afterLiteral b rest⟩
  else if b = numberSign ∧ lineStart then ⟨(directive rest).1, false, (directive rest).2⟩
  else ⟨none, false, rest⟩

/-- One step of the pass: what a byte begins is read to its end. The cases come in the order in which the
pass asks. -/
def advance (lineStart : Bool) (b : UInt8) (rest : Bytes) : Advance :=
  if b = backslash then
    match continuation? rest with
    | some after => ⟨none, lineStart, after⟩
    | none => ⟨none, false, rest⟩
  else if b = lf then ⟨none, true, rest⟩
  else if isSpace b then ⟨none, lineStart, rest⟩
  else if b = slash ∧ rest.head? = some slash then ⟨none, lineStart, afterLineComment rest.tail⟩
  else if b = slash ∧ rest.head? = some star then ⟨none, lineStart, afterBlockComment rest.tail⟩
  else advanceFirm lineStart b rest

/-- **The pass is its first step, and the pass over what that leaves.** All proofs about the whole pass in this module
go by this equation and never unfold the pass itself. -/
theorem includesFrom_cons (lineStart : Bool) (b : UInt8) (rest : Bytes) :
    includesFrom lineStart (b :: rest) = (advance lineStart b rest).found.toList ++
      includesFrom (advance lineStart b rest).lineStart (advance lineStart b rest).left := by
  rw [includesFrom, advance, advanceFirm]
  split
  · split
    · next h => rw [h]; rfl
    · next h => rw [h]; rfl
  · repeat' split
    all_goals rfl

/-- A step reads at least the byte it begins at, so a pass over a file is a finite number of steps. -/
theorem advance_suffix (lineStart : Bool) (b : UInt8) (rest : Bytes) : (advance lineStart b rest).left <:+ rest := by
  have htail : rest.tail <:+ rest := List.tail_suffix rest
  rw [advance, advanceFirm]
  split
  · split
    · next h => exact suffix_of_continuation? h
    · exact List.suffix_rfl
  · split
    · exact List.suffix_rfl
    split
    · exact List.suffix_rfl
    split
    · exact (afterLineCommentFrom_suffix [] _).trans htail
    split
    · exact (afterBlockComment_suffix _).trans htail
    split
    · exact afterLiteral_suffix b rest
    split
    · exact directive_suffix rest
    · exact List.suffix_rfl

/-! ## Where the pass may end -/

/-- Behind the opening mark of a block comment there is the closing one. -/
def BlockClosed (t : Bytes) : Prop := ∃ x rest, BlockBody x ∧ t = x ++ star :: slash :: rest

/-- Behind the opening quote of a literal there is the closing one. -/
def LiteralClosed (quote : UInt8) (t : Bytes) : Prop := ∃ x rest, LiteralBody quote x ∧ t = x ++ quote :: rest

/-- The pass comes to a block comment or a literal that is not closed. Line comments are closed by the line feed that
is to be put behind, and are not meant. -/
inductive EndsOpen : Bool → Bytes → Prop where
  | block {lineStart : Bool} {t : Bytes} (h : ¬ BlockClosed t) : EndsOpen lineStart (slash :: star :: t)
  | literal {lineStart : Bool} {quote : UInt8} {t : Bytes} (hquote : IsQuote quote) (h : ¬ LiteralClosed quote t) :
    EndsOpen lineStart (quote :: t)
  | later {lineStart : Bool} {b : UInt8} {rest : Bytes}
    (h : EndsOpen (advance lineStart b rest).lineStart (advance lineStart b rest).left) :
    EndsOpen lineStart (b :: rest)

/-- What is closed is not changed by what comes behind it. -/
theorem BlockClosed.afterBlockComment_append (h : BlockClosed t) (q : Bytes) :
    afterBlockComment (t ++ q) = afterBlockComment t ++ q := by
  obtain ⟨x, rest, hx, rfl⟩ := h
  rw [List.append_assoc, List.cons_append, List.cons_append, afterBlockComment_body hx, afterBlockComment_body hx]

theorem LiteralClosed.afterLiteral_append {quote : UInt8} (hquote : IsQuote quote) (h : LiteralClosed quote t)
    (q : Bytes) : afterLiteral quote (t ++ q) = afterLiteral quote t ++ q := by
  obtain ⟨x, rest, hx, rfl⟩ := h
  rw [List.append_assoc, List.cons_append, afterLiteral_body hquote hx, afterLiteral_body hquote hx]

/-- A last byte that is no part of a mark is behind it. -/
theorem exists_of_append_eq {x : Bytes} (hb : b ≠ mark) (h : t ++ [b] = x ++ mark :: rest) :
    ∃ left, t = x ++ mark :: left := by
  rcases List.eq_nil_or_concat rest with rfl | ⟨left, last, rfl⟩
  · exact absurd (List.append_inj' h rfl).2 (by simpa using hb)
  · rw [List.concat_eq_append, ← List.cons_append, ← List.append_assoc] at h
    exact ⟨left, (List.append_inj' h rfl).1⟩

/-- Whether a block comment is closed is seen by a byte put behind it: it is left over, or it is not. -/
theorem blockClosed_iff : BlockClosed t ↔ afterBlockComment (t ++ [lf]) ≠ [] := by
  constructor
  · intro h
    rw [h.afterBlockComment_append]
    simp
  · intro h
    obtain ⟨x, rest, hx, ht⟩ := (afterBlockComment_cases (t ++ [lf])).resolve_left h
    -- The closing mark has two bytes; the second of them is enough to tell it from the line feed.
    rw [List.append_cons x] at ht
    obtain ⟨left, rfl⟩ := exists_of_append_eq (show lf ≠ slash by decide) ht
    exact ⟨x, left, hx, by simp⟩

theorem literalClosed_iff {quote : UInt8} (hquote : IsQuote quote) :
    LiteralClosed quote t ↔ afterLiteral quote (t ++ [lf]) ≠ [] := by
  have hlf : lf ≠ quote := by rcases hquote with rfl | rfl <;> decide
  constructor
  · intro h
    rw [h.afterLiteral_append hquote]
    simp
  · intro h
    obtain ⟨x, rest, hx, ht⟩ := (afterLiteral_cases quote (t ++ [lf])).resolve_left h
    obtain ⟨left, rfl⟩ := exists_of_append_eq hlf ht
    exact ⟨x, left, hx, rfl⟩

/-- Computes whether the pass ends open. It takes the steps of the pass and asks of each whether it comes to
its end. -/
def endsOpen (lineStart : Bool) : Bytes → Bool
  | [] => false
  | b :: rest =>
    (b == slash && rest.head? == some star && afterBlockComment (rest.tail ++ [lf]) == []) ||
    ((b == doubleQuote || b == singleQuote) && afterLiteral b (rest ++ [lf]) == []) ||
    endsOpen (advance lineStart b rest).lineStart (advance lineStart b rest).left
termination_by t => t.length
decreasing_by exact Nat.lt_succ_of_le (advance_suffix lineStart b rest).length_le

theorem endsOpen_iff : endsOpen lineStart t = true ↔ EndsOpen lineStart t := by
  fun_induction endsOpen lineStart t with
  | case1 => simpa using (nofun : ¬ EndsOpen _ [])
  | case2 lineStart b rest ih =>
    rw [Bool.or_eq_true, Bool.or_eq_true, ih]
    simp only [Bool.and_eq_true, Bool.or_eq_true, beq_iff_eq]
    constructor
    · rintro ((⟨⟨rfl, hhead⟩, hopen⟩ | ⟨hquote, hopen⟩) | h)
      · obtain ⟨t, rfl⟩ := List.head?_eq_some_iff.1 hhead
        exact .block fun h => blockClosed_iff.1 h hopen
      · exact .literal hquote fun h => (literalClosed_iff hquote).1 h hopen
      · exact .later h
    · intro h
      cases h with
      | block h => exact .inl (.inl ⟨⟨rfl, rfl⟩, not_not.1 (mt blockClosed_iff.2 h)⟩)
      | literal hquote h => exact .inl (.inr ⟨hquote, not_not.1 (mt (literalClosed_iff hquote).2 h)⟩)
      | later h => exact .inr h

instance (lineStart : Bool) (t : Bytes) : Decidable (EndsOpen lineStart t) := decidable_of_iff _ endsOpen_iff

/-! ## Bytes that a line feed ends -/

/-- A line feed behind the bytes ends no continuation. Otherwise the line feed would be swallowed, and a second file
would go on with the last line of the first. -/
def Ended (t : Bytes) : Prop := ¬ EndsContinuation (t ++ [lf])

namespace Ended

/-- The condition is about the last line only, so it holds of every end of the bytes. -/
theorem of_suffix {s : Bytes} (h : Ended t) (hs : s <:+ t) : Ended s := by
  obtain ⟨front, rfl⟩ := hs
  refine fun hends => h (hends.mono ?_)
  rw [List.append_assoc]
  exact List.suffix_append _ _

theorem tail (h : Ended (b :: rest)) : Ended rest := h.of_suffix (List.suffix_cons b rest)

/-- What is behind a continuation. -/
theorem behind {c : Bytes} (h : Ended (backslash :: (c ++ rest))) : Ended rest :=
  h.of_suffix (List.suffix_append (backslash :: c) rest)

/-- The line feed makes no continuation. -/
theorem not_begins (h : Ended t) (ht : ¬ BeginsContinuation t) (q : Bytes) :
    ¬ BeginsContinuation (t ++ lf :: q) := by
  rintro ⟨c, hc, after, heq⟩
  -- A continuation has one line feed, its last byte: it ends before the one that was put behind, or with it.
  rcases hc.append_eq_append_cons heq with ⟨x, rfl, _⟩ | rfl
  · exact ht ⟨c, hc, x, rfl⟩
  · exact h ⟨_, hc, List.suffix_rfl⟩

/-- A backslash at the very end would be made a continuation by the line feed. -/
theorem not_lone : ¬ Ended [backslash] := fun h =>
  h ⟨[backslash, lf], ⟨[], [lf], by simp, .inl rfl, rfl⟩, List.suffix_rfl⟩

end Ended

/-! ## No part looks past the line feed -/

/-- A mark that is looked for behind a byte is found in the first file or not at all. -/
theorem head?_append_lf {x : UInt8} (hx : x ≠ lf) : (t ++ lf :: q).head? = some x ↔ t.head? = some x := by
  cases t with
  | nil => simp [Ne.symm hx]
  | cons b t => rfl

/-- Each part of the pass stops at the line feed, or before it. This and the next six lemmas say so, for a part at a
time, in the same form: the second file is left as it is. -/
theorem skipBlanks_append_lf (h : Ended t) : skipBlanks (t ++ lf :: q) = skipBlanks t ++ lf :: q := by
  induction t using splice_induction with
  | nil =>
    rw [List.nil_append, skipBlanks_stop (by decide) (not_beginsContinuation_of_ne (by decide) q), skipBlanks]
    rfl
  | drop c rest hc ih =>
    rw [List.cons_append, List.append_assoc, skipBlanks_append hc, skipBlanks_append hc, ih h.behind]
  | keep b rest hb ih =>
    have hb' := h.not_begins hb q
    rw [List.cons_append] at hb' ⊢
    by_cases hblank : isBlank b = true
    · rw [skipBlanks_blank hblank, skipBlanks_blank hblank, ih rest (Nat.le_refl _) h.tail]
    · rw [skipBlanks_stop hblank hb', skipBlanks_stop hblank hb, List.cons_append]

theorem skipContinuations_append_lf (h : Ended t) :
    skipContinuations (t ++ lf :: q) = skipContinuations t ++ lf :: q := by
  induction t using splice_induction with
  | nil =>
    rw [List.nil_append, skipContinuations_stop (not_beginsContinuation_of_ne (by decide) q), skipContinuations]
    rfl
  | drop c rest hc ih =>
    rw [List.cons_append, List.append_assoc, skipContinuations_append hc, skipContinuations_append hc, ih h.behind]
  | keep b rest hb _ => rw [skipContinuations_stop (h.not_begins hb q), skipContinuations_stop hb]

theorem afterWord?_append_lf (hword : lf ∉ word) (h : Ended t) :
    afterWord? word (t ++ lf :: q) = (afterWord? word t).map (· ++ lf :: q) := by
  induction word generalizing t with
  | nil => rfl
  | cons letter letters ih =>
    obtain ⟨hletter, hletters⟩ := not_or.1 (mt List.mem_cons.2 hword)
    rw [afterWord?, afterWord?, skipContinuations_append_lf h]
    have hleft := h.of_suffix (skipContinuations_suffix t)
    cases hskip : skipContinuations t with
    | nil => exact if_neg hletter
    | cons b rest =>
      rw [hskip] at hleft
      dsimp only [List.cons_append]
      split
      · exact ih hletters hleft.tail
      · rfl

theorem headerName_append_lf (h : Ended t) :
    headerName mark (t ++ lf :: q) = ((headerName mark t).1, (headerName mark t).2 ++ lf :: q) := by
  induction t using splice_induction with
  | nil =>
    have hstop : headerName mark (lf :: q) = (none, lf :: q) := by rw [headerName, if_neg (by decide), if_pos rfl]
    rw [List.nil_append, hstop, headerName]
    rfl
  | drop c rest hc ih =>
    rw [List.cons_append, List.append_assoc, headerName_append hc, headerName_append hc, ih h.behind]
  | keep b rest hb ih =>
    have hb' := h.not_begins hb q
    by_cases hescape : b = backslash
    · subst hescape
      cases rest with
      | nil =>
        -- The line feed would make a continuation of it.
        exact absurd h Ended.not_lone
      | cons x rest =>
        rw [List.cons_append, List.cons_append] at hb' ⊢
        rw [headerName_escaped hb', headerName_escaped hb, ih rest (by simp) h.tail.tail]
    · rw [List.cons_append]
      by_cases hlf : b = lf
      · rw [headerName, if_neg hescape, if_pos hlf, headerName, if_neg hescape, if_pos hlf, List.cons_append]
      · by_cases hmark : b = mark
        · rw [headerName, if_neg hescape, if_neg hlf, if_pos hmark, headerName, if_neg hescape, if_neg hlf,
            if_pos hmark]
        · rw [headerName_plain hescape hlf hmark, headerName_plain hescape hlf hmark,
            ih rest (Nat.le_refl _) h.tail]

theorem headerPart_append_lf (h : Ended t) :
    headerPart (t ++ lf :: q) = ((headerPart t).1, (headerPart t).2 ++ lf :: q) := by
  cases t with
  | nil => rfl
  | cons b rest =>
    rw [List.cons_append, headerPart, headerPart, headerName_append_lf h.tail, headerName_append_lf h.tail]
    split
    · rfl
    · split <;> rfl

theorem directive_append_lf (h : Ended t) :
    directive (t ++ lf :: q) = ((directive t).1, (directive t).2 ++ lf :: q) := by
  have hblanks := h.of_suffix (skipBlanks_suffix t)
  rw [directive, directive, skipBlanks_append_lf h, afterWord?_append_lf (by decide) hblanks]
  cases hword : afterWord? includeWord (skipBlanks t) with
  | none => rfl
  | some rest =>
    have hrest := hblanks.of_suffix (suffix_of_afterWord? hword)
    dsimp only [Option.map_some]
    rw [skipBlanks_append_lf hrest, headerPart_append_lf (hrest.of_suffix (skipBlanks_suffix rest))]

theorem afterLineComment_append_lf (h : Ended t) : afterLineComment (t ++ lf :: q) = afterLineComment t ++ lf :: q := by
  rw [afterLineComment_eq, afterLineComment_eq]
  induction t using splice_induction with
  | nil =>
    rw [List.nil_append, toLineFeed_lf, toLineFeed]
    rfl
  | drop c rest hc ih =>
    rw [List.cons_append, List.append_assoc, toLineFeed_append hc, toLineFeed_append hc, ih h.behind]
  | keep b rest hb ih =>
    have hb' := h.not_begins hb q
    rw [List.cons_append] at hb' ⊢
    by_cases hlf : b = lf
    · rw [hlf, toLineFeed_lf, toLineFeed_lf, List.cons_append]
    · rw [toLineFeed_cons hb' hlf, toLineFeed_cons hb hlf, ih rest (Nat.le_refl _) h.tail]

/-! ## The pass -/

/-- **A step does not see what is behind the line feed.** One case for each thing that a byte can begin. -/
theorem advance_append (h : Ended (b :: rest)) (hclosed : ¬ EndsOpen lineStart (b :: rest)) (q : Bytes) :
    advance lineStart b (rest ++ lf :: q) = ⟨(advance lineStart b rest).found,
      (advance lineStart b rest).lineStart, (advance lineStart b rest).left ++ lf :: q⟩ := by
  rw [advance, advance, advanceFirm, advanceFirm]
  -- The cases are the branches of the step. The bytes that decide between them are before the line feed, or no byte.
  by_cases hescape : b = backslash
  · subst hescape
    rw [if_pos rfl, if_pos rfl]
    by_cases hbegins : BeginsContinuation (backslash :: rest)
    · obtain ⟨_, after, hafter⟩ := beginsContinuation_cons_iff.1 hbegins
      obtain ⟨c, hc, rfl⟩ := continuation?_eq_some_iff.1 hafter
      rw [List.append_assoc, hc.continuation?, hc.continuation?]
    · have hbegins' := h.not_begins hbegins q
      rw [List.cons_append] at hbegins'
      rw [continuation?_eq_none hbegins, continuation?_eq_none hbegins']
  rw [if_neg hescape, if_neg hescape]
  by_cases hlf : b = lf
  · rw [if_pos hlf, if_pos hlf]
  rw [if_neg hlf, if_neg hlf]
  by_cases hspace : isSpace b = true
  · rw [if_pos hspace, if_pos hspace]
  rw [if_neg hspace, if_neg hspace]
  have hhead : ∀ x, x ≠ lf → (b = slash ∧ (rest ++ lf :: q).head? = some x ↔ b = slash ∧ rest.head? = some x) :=
    fun x hx => and_congr_right fun _ => head?_append_lf hx
  by_cases hline : b = slash ∧ rest.head? = some slash
  · rw [if_pos ((hhead slash (by decide)).2 hline), if_pos hline]
    obtain ⟨more, rfl⟩ := List.head?_eq_some_iff.1 hline.2
    exact congrArg (Advance.mk none lineStart) (afterLineComment_append_lf h.tail.tail)
  rw [if_neg (mt (hhead slash (by decide)).1 hline), if_neg hline]
  by_cases hblock : b = slash ∧ rest.head? = some star
  · rw [if_pos ((hhead star (by decide)).2 hblock), if_pos hblock]
    obtain ⟨rfl, more, rfl⟩ := hblock.imp_right List.head?_eq_some_iff.1
    have hblock := not_not.1 fun h => hclosed (.block h)
    exact congrArg (Advance.mk none lineStart) (hblock.afterBlockComment_append _)
  rw [if_neg (mt (hhead star (by decide)).1 hblock), if_neg hblock]
  by_cases hquote : b = doubleQuote ∨ b = singleQuote
  · have hliteral := not_not.1 fun h => hclosed (.literal hquote h)
    rw [if_pos hquote, if_pos hquote, hliteral.afterLiteral_append hquote]
  -- A directive is the only one that reports something, and it stops at the line feed whether it is one or not.
  rw [if_neg hquote, if_neg hquote, directive_append_lf h.tail]
  split <;> rfl

/-- The same from any state of the pass, by induction on the length of the first file. -/
theorem includesFrom_append_lf (h : Ended t) (hclosed : ¬ EndsOpen lineStart t) (q : Bytes) :
    includesFrom lineStart (t ++ lf :: q) = includesFrom lineStart t ++ includesFrom true q := by
  induction hn : t.length using Nat.strongRecOn generalizing lineStart t with
  | ind n ih =>
    cases t with
    | nil => rw [List.nil_append, includesFrom_lf, includesFrom_nil, List.nil_append]
    | cons b rest =>
      have hsuffix := advance_suffix lineStart b rest
      have hleft := ih _ (by rw [← hn, List.length_cons]; exact Nat.lt_succ_of_le hsuffix.length_le)
        (h.tail.of_suffix hsuffix) (fun hopen => hclosed (.later hopen)) rfl
      rw [List.cons_append, includesFrom_cons, includesFrom_cons, advance_append h hclosed q, hleft,
        List.append_assoc]

/-- **The pass composes at line feeds.** If the pass over the first file does not end in a block comment or a
literal, and a line feed behind it ends no continuation, the includes of the two files with a line feed between
them are those of the first and those of the second. -/
theorem includes_append {p : Bytes} (q : Bytes) (hclosed : ¬ EndsOpen true p) (hends : ¬ EndsContinuation (p ++ [lf])) :
    includes (p ++ lf :: q) = includes p ++ includes q :=
  includesFrom_append_lf hends hclosed q

/-- The first file breaks off in a line comment, behind a block comment, a literal and a directive, which hold
marks of one another; the second begins with what would end a comment. -/
theorem includes_append_comment :
    includes (Text.key "/*'*/#include<a\\>/*>'\"'//\"" ++ lf :: Text.key "#include<b>*/") =
      includes (Text.key "/*'*/#include<a\\>/*>'\"'//\"") ++ includes (Text.key "#include<b>*/") := by
  exact includes_append _ (by decide +kernel) (by decide)

end HeaderAtlas.Source
