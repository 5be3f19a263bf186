import HeaderAtlas.Proofs.Source.Continuation
import HeaderAtlas.Source.Includes
import HeaderAtlas.Text.Utf8
/-!
# Comments and literals hide what is in them

Inside a comment or a literal nothing is a directive, whatever the bytes are: quotes in a comment, the
mark of a comment in a literal, or `#include` in either. What matters is only where the stretch ends, and
that is said here of its contents alone: `BlockBody`, `LineBody` and `LiteralBody` are the contents that
the closing mark after them ends. A pass that meets an opening mark goes on right after the closing one,
with the line begun anew or not as the kind of stretch has it (`includesFrom_stretches`).
-/

set_option autoImplicit false

namespace HeaderAtlas.Source

variable {x rest : Bytes} {quote : UInt8}

/-! ## What a closing mark ends -/

/-- The first asterisk with a slash after it comes right after these bytes, if the mark is put there. It is said with
the mark in place, since an asterisk at the end of the bytes could begin it too early. -/
def BlockBody (x : Bytes) : Prop := ∀ u v, x ++ [star, slash] = u ++ [star, slash] ++ v → v = []

/-- Every line feed in the bytes ends a continuation that begins in them, and one after them does not. Both halves are
about line feeds that are read, the ones inside and the one that is to close. -/
structure LineBody (x : Bytes) : Prop where
  continued : ∀ u v, x = u ++ lf :: v → EndsContinuation (u ++ [lf])
  ends : ¬ EndsContinuation (x ++ [lf])

/-- Bytes that are neither the quote nor a backslash, and backslashes with the byte that each escapes. A line feed is
such a byte: literals do not end with their line. -/
inductive LiteralBody (quote : UInt8) : Bytes → Prop where
  | nil : LiteralBody quote []
  | plain {b : UInt8} {x : Bytes} (hquote : b ≠ quote) (hescape : b ≠ backslash) (h : LiteralBody quote x) :
    LiteralBody quote (b :: x)
  | escaped (b : UInt8) {x : Bytes} (h : LiteralBody quote x) : LiteralBody quote (backslash :: b :: x)

/-- The quotes that literals are written in. -/
def IsQuote (quote : UInt8) : Prop := quote = doubleQuote ∨ quote = singleQuote

theorem IsQuote.ne_backslash (h : IsQuote quote) : quote ≠ backslash := by
  rcases h with rfl | rfl <;> decide

/-! ## Block comments -/

/-- A mark in fewer bytes is one in more, so if it comes first there, it does here. -/
theorem BlockBody.of_cons {b : UInt8} (h : BlockBody (b :: x)) : BlockBody x := by
  intro u v huv
  refine h (b :: u) v ?_
  rw [List.cons_append, huv]
  rfl

/-- The mark does not come before its time. -/
theorem BlockBody.not_closed {b : UInt8} (h : BlockBody (b :: x)) :
    ¬ (b = star ∧ (x ++ star :: slash :: rest).head? = some slash) := by
  rintro ⟨rfl, hhead⟩
  cases x with
  | nil =>
    -- The byte after the asterisk is then the asterisk of the mark itself.
    have : star = slash := by simpa using hhead
    exact absurd this (by decide)
  | cons c x =>
    have hc : c = slash := by simpa using hhead
    have hv := h [] (x ++ [star, slash]) (by rw [hc]; rfl)
    simp at hv

/-- By induction on the contents: at each of their bytes the mark is not there yet. -/
theorem afterBlockComment_body (h : BlockBody x) :
    afterBlockComment (x ++ star :: slash :: rest) = rest := by
  induction x with
  | nil =>
    rw [List.nil_append, afterBlockComment, if_pos ⟨rfl, rfl⟩]
    rfl
  | cons b x ih =>
    rw [List.cons_append, afterBlockComment, if_neg h.not_closed]
    exact ih h.of_cons

/-- A block comment is closed, or nothing is left after it. So the contents that the closing mark ends are all
there are. -/
theorem afterBlockComment_cases (t : Bytes) :
    afterBlockComment t = [] ∨ ∃ x rest, BlockBody x ∧ t = x ++ star :: slash :: rest := by
  induction t with
  | nil => exact .inl rfl
  | cons b t ih =>
    rw [afterBlockComment]
    by_cases hclosed : b = star ∧ t.head? = some slash
    · obtain ⟨rfl, hhead⟩ := hclosed
      obtain ⟨rest, rfl⟩ := List.head?_eq_some_iff.1 hhead
      refine .inr ⟨[], rest, ?_, rfl⟩
      intro u v huv
      have hlen := congrArg List.length huv
      simp only [List.length_append, List.length_cons, List.length_nil] at hlen
      exact List.length_eq_zero_iff.1 (by omega)
    · rw [if_neg hclosed]
      rcases ih with ih | ⟨x, rest, hx, rfl⟩
      · exact .inl ih
      -- One more byte in front. It is not the asterisk of a mark, so the first mark is where it was.
      · refine .inr ⟨b :: x, rest, ?_, rfl⟩
        intro u v huv
        -- A mark in the longer bytes is one in the shorter, unless it begins with the new byte.
        cases u with
        | nil =>
          exfalso
          apply hclosed
          obtain ⟨rfl, htail⟩ := List.cons.inj huv
          refine ⟨rfl, ?_⟩
          cases x with
          | nil =>
            have : star = slash := (List.cons.inj htail).1
            exact absurd this (by decide)
          | cons c x => rw [(List.cons.inj htail).1]; rfl
        | cons c u => exact hx u v (List.cons.inj huv).2

/-- A look at each place where the mark may stand. There are finitely many, so it can be decided. -/
theorem blockBody_iff :
    BlockBody x ↔ ∀ i < x.length, ((x ++ [star, slash]).drop i).take 2 ≠ [star, slash] := by
  constructor
  · intro h i hi heq
    have hlen : (x ++ [star, slash]).length = x.length + 2 := by simp
    unfold BlockBody at h
    -- The bytes with the mark are split at `i`, and the length of the last part is then known to be zero.
    generalize x ++ [star, slash] = y at h heq hlen
    have hsplit : y = y.take i ++ [star, slash] ++ (y.drop i).drop 2 := by
      rw [← heq, List.append_assoc, List.take_append_drop, List.take_append_drop]
    have hv := congrArg List.length (h _ _ hsplit)
    simp only [List.length_drop, List.length_nil] at hv
    omega
  · intro h u v huv
    by_contra hv
    have hlen := congrArg List.length huv
    have hpos := List.length_pos_iff.2 hv
    simp only [List.length_append, List.length_cons, List.length_nil] at hlen
    refine h u.length (by omega) ?_
    rw [huv, List.append_assoc, List.drop_left]
    rfl

instance (x : Bytes) : Decidable (BlockBody x) := decidable_of_iff _ blockBody_iff.symm

/-! ## Line comments -/

theorem reverse_cons_append (b : UInt8) (u back : Bytes) :
    (b :: u).reverse ++ back = u.reverse ++ b :: back := by
  rw [List.reverse_cons, List.append_assoc, List.singleton_append]

/-- The same with a part of the line already read, backwards, in `back`. At a continuation that part is given up, and
rightly so, since no continuation reaches over a line feed. -/
theorem afterLineCommentFrom_body {back : Bytes}
    (hcontinued : ∀ u v, x = u ++ lf :: v → isContinued (u.reverse ++ back) = true)
    (hends : isContinued (x.reverse ++ back) = false) :
    afterLineCommentFrom back (x ++ lf :: rest) = lf :: rest := by
  induction x generalizing back with
  | nil =>
    have hends : isContinued back = false := hends
    rw [List.nil_append, afterLineCommentFrom, if_pos rfl, hends]
    rfl
  | cons b x ih =>
    rw [List.cons_append, afterLineCommentFrom]
    by_cases hb : b = lf
    · -- A new line begins, and the backward test never looks at the one before it.
      subst hb
      have hback : isContinued back = true := hcontinued [] x rfl
      rw [if_pos rfl, hback, if_pos rfl]
      refine ih (fun u v huv => ?_) ?_
      · have hu := hcontinued (lf :: u) v (by rw [huv]; rfl)
        rw [reverse_cons_append, isContinued_append_lf] at hu
        rwa [List.append_nil]
      · rw [reverse_cons_append, isContinued_append_lf] at hends
        rwa [List.append_nil]
    · rw [if_neg hb]
      refine ih (fun u v huv => ?_) ?_
      · have hu := hcontinued (b :: u) v (by rw [huv]; rfl)
        rwa [reverse_cons_append] at hu
      · rwa [reverse_cons_append] at hends

/-- The looking back of the reader is the ending of a continuation, read in the other direction
(`isContinued_iff`). -/
theorem afterLineComment_body (h : LineBody x) : afterLineComment (x ++ lf :: rest) = lf :: rest := by
  refine afterLineCommentFrom_body (fun u v huv => ?_) ?_
  · rw [List.append_nil, isContinued_iff, List.reverse_reverse]
    exact h.continued u v huv
  · have hends := h.ends
    rw [← List.reverse_reverse x, ← isContinued_iff, Bool.not_eq_true] at hends
    rwa [List.append_nil]

/-- The converse of `afterLineCommentFrom_body`, by the recursion of the reader itself. -/
theorem afterLineCommentFrom_cases (back t : Bytes) :
    afterLineCommentFrom back t = [] ∨ ∃ x rest, t = x ++ lf :: rest ∧
      (∀ u v, x = u ++ lf :: v → isContinued (u.reverse ++ back) = true) ∧
      isContinued (x.reverse ++ back) = false := by
  fun_induction afterLineCommentFrom back t with
  | case1 back => exact .inl rfl
  | case2 back rest hback ih =>
    rcases ih with ih | ⟨x, more, rfl, hcontinued, hends⟩
    · exact .inl ih
    · -- Line feeds behind this one are judged by what stands between, since the test looks back no further.
      refine .inr ⟨lf :: x, more, rfl, fun u v huv => ?_, ?_⟩
      · cases u with
        | nil => exact hback
        | cons c u =>
          obtain ⟨rfl, htail⟩ := List.cons.inj huv
          rw [reverse_cons_append, isContinued_append_lf, ← hcontinued u v htail, List.append_nil]
      · rw [reverse_cons_append, isContinued_append_lf, ← hends, List.append_nil]
  | case3 back rest hback =>
    have hends : isContinued back = false := by simpa using hback
    exact .inr ⟨[], rest, rfl, fun u v huv => by simp at huv, hends⟩
  | case4 back b rest hb ih =>
    rcases ih with ih | ⟨x, more, rfl, hcontinued, hends⟩
    · exact .inl ih
    · refine .inr ⟨b :: x, more, rfl, fun u v huv => ?_, ?_⟩
      · cases u with
        | nil => exact absurd (List.cons.inj huv).1 hb
        | cons c u =>
          obtain ⟨rfl, htail⟩ := List.cons.inj huv
          rw [reverse_cons_append]
          exact hcontinued u v htail
      · rwa [reverse_cons_append]

/-- A line comment is closed, or nothing is left after it. -/
theorem afterLineComment_cases (t : Bytes) :
    afterLineComment t = [] ∨ ∃ x rest, LineBody x ∧ t = x ++ lf :: rest := by
  rcases afterLineCommentFrom_cases [] t with h | ⟨x, rest, rfl, hcontinued, hends⟩
  · exact .inl h
  · refine .inr ⟨x, rest, ⟨fun u v huv => ?_, ?_⟩, rfl⟩
    · have hu := hcontinued u v huv
      rwa [List.append_nil, isContinued_iff, List.reverse_reverse] at hu
    · rw [List.append_nil] at hends
      rw [← List.reverse_reverse x, ← isContinued_iff, Bool.not_eq_true]
      exact hends

/-- Both halves at each place, in the form that the reader tests. -/
theorem lineBody_iff : LineBody x ↔
    (∀ i < x.length, x[i]? = some lf → isContinued (x.take i).reverse = true) ∧
      isContinued x.reverse = false := by
  have hends : ¬ EndsContinuation (x ++ [lf]) ↔ isContinued x.reverse = false := by
    rw [← Bool.not_eq_true, isContinued_iff, List.reverse_reverse]
  constructor
  · intro h
    refine ⟨fun i hi hlf => ?_, hends.1 h.ends⟩
    rw [isContinued_iff, List.reverse_reverse]
    refine h.continued (x.take i) (x.drop (i + 1)) ?_
    rw [List.getElem?_eq_getElem hi, Option.some.injEq] at hlf
    rw [← hlf, ← List.drop_eq_getElem_cons hi, List.take_append_drop]
  -- A line feed in the middle is at the place where what stands before it ends.
  · rintro ⟨hcontinued, hlast⟩
    refine ⟨fun u v huv => ?_, hends.2 hlast⟩
    have hu := hcontinued u.length (by rw [huv]; simp) (by rw [huv]; simp)
    rwa [huv, List.take_left, isContinued_iff, List.reverse_reverse] at hu

instance (x : Bytes) : Decidable (LineBody x) := decidable_of_iff _ lineBody_iff.symm

/-! ## Literals -/

/-- The three steps of a literal, as equations: it ends, passes over a byte, or passes over two. -/
theorem afterLiteral_quote (hquote : quote ≠ backslash) (t : Bytes) : afterLiteral quote (quote :: t) = t := by
  rw [afterLiteral.eq_def]
  dsimp only
  rw [if_neg hquote, if_pos rfl]

theorem afterLiteral_plain {b : UInt8} (hquote : b ≠ quote) (hescape : b ≠ backslash) (t : Bytes) :
    afterLiteral quote (b :: t) = afterLiteral quote t := by
  rw [afterLiteral.eq_def]
  dsimp only
  rw [if_neg hescape, if_neg hquote]

theorem afterLiteral_escaped (b : UInt8) (t : Bytes) :
    afterLiteral quote (backslash :: b :: t) = afterLiteral quote t := by
  rw [afterLiteral, if_pos rfl]

/-- Without quotes and backslashes nothing needs care. -/
theorem LiteralBody.of_plain (hquote : quote ∉ x) (hescape : backslash ∉ x) : LiteralBody quote x := by
  induction x with
  | nil => exact .nil
  | cons b x ih =>
    obtain ⟨hne, hquote⟩ := not_or.1 (mt List.mem_cons.2 hquote)
    obtain ⟨hne', hescape⟩ := not_or.1 (mt List.mem_cons.2 hescape)
    exact .plain (Ne.symm hne) (Ne.symm hne') (ih hquote hescape)

theorem afterLiteral_body (hquote : IsQuote quote) (h : LiteralBody quote x) :
    afterLiteral quote (x ++ quote :: rest) = rest := by
  induction h with
  | nil => exact afterLiteral_quote hquote.ne_backslash rest
  | plain hne hescape _ ih => rw [List.cons_append, afterLiteral_plain hne hescape, ih]
  | escaped b _ ih => rw [List.cons_append, List.cons_append, afterLiteral_escaped, ih]

/-- A literal is closed, or nothing is left after it. A backslash at the very end is not closed either, since it waits
for a byte to escape. -/
theorem afterLiteral_cases (quote : UInt8) (t : Bytes) :
    afterLiteral quote t = [] ∨ ∃ x rest, LiteralBody quote x ∧ t = x ++ quote :: rest := by
  fun_induction afterLiteral quote t with
  | case1 => exact .inl rfl
  | case2 => exact .inl rfl
  | case3 b after ih =>
    rcases ih with ih | ⟨x, rest, hx, rfl⟩
    · exact .inl ih
    · exact .inr ⟨backslash :: b :: x, rest, .escaped b hx, rfl⟩
  | case4 rest _ => exact .inr ⟨[], rest, .nil, rfl⟩
  | case5 b rest hescape hquote ih =>
    rcases ih with ih | ⟨x, rest, hx, rfl⟩
    · exact .inl ih
    · exact .inr ⟨b :: x, rest, .plain hquote hescape hx, rfl⟩

/-! ## The pass -/

variable (lineStart : Bool)

/-- The steps of the pass, as equations. This and the six lemmas after it are one for each thing that a byte can
begin; other modules use these and never unfold the pass. -/
theorem includesFrom_lf (t : Bytes) : includesFrom lineStart (lf :: t) = includesFrom true t := by
  rw [includesFrom, if_neg (by decide), if_pos rfl]

theorem includesFrom_space {b : UInt8} (hspace : isSpace b = true) (t : Bytes) :
    includesFrom lineStart (b :: t) = includesFrom lineStart t := by
  have hescape : b ≠ backslash := by
    rintro rfl
    exact absurd hspace (by decide)
  have hlf : b ≠ lf := by
    rintro rfl
    exact absurd hspace (by decide)
  rw [includesFrom, if_neg hescape, if_neg hlf, if_pos hspace]

theorem includesFrom_block (t : Bytes) :
    includesFrom lineStart (slash :: star :: t) = includesFrom lineStart (afterBlockComment t) := by
  rw [includesFrom, if_neg (by decide), if_neg (by decide), if_neg (by decide),
    if_neg (by simp [show star ≠ slash by decide]), if_pos ⟨rfl, rfl⟩]
  rfl

theorem includesFrom_line (t : Bytes) :
    includesFrom lineStart (slash :: slash :: t) = includesFrom lineStart (afterLineComment t) := by
  rw [includesFrom, if_neg (by decide), if_neg (by decide), if_neg (by decide), if_pos ⟨rfl, rfl⟩]
  rfl

theorem includesFrom_literal (hquote : IsQuote quote) (t : Bytes) :
    includesFrom lineStart (quote :: t) = includesFrom false (afterLiteral quote t) := by
  rcases hquote with rfl | rfl
  · rw [includesFrom, if_neg (by decide), if_neg (by decide), if_neg (by decide),
      if_neg (by simp [show doubleQuote ≠ slash by decide]),
      if_neg (by simp [show doubleQuote ≠ slash by decide]), if_pos (.inl rfl)]
  · rw [includesFrom, if_neg (by decide), if_neg (by decide), if_neg (by decide),
      if_neg (by simp [show singleQuote ≠ slash by decide]),
      if_neg (by simp [show singleQuote ≠ slash by decide]), if_pos (.inr rfl)]

theorem includesFrom_numberSign (t : Bytes) :
    includesFrom true (numberSign :: t) = (directive t).1.toList ++ includesFrom false (directive t).2 := by
  rw [includesFrom, if_neg (by decide), if_neg (by decide), if_neg (by decide),
    if_neg (by simp [show numberSign ≠ slash by decide]),
    if_neg (by simp [show numberSign ≠ slash by decide]), if_neg (by decide), if_pos ⟨rfl, rfl⟩]

/-- A byte that begins nothing is passed over, and the line has begun. All that it could begin is excluded by the
hypotheses, in the order in which the pass asks. -/
theorem includesFrom_plain {b : UInt8} {t : Bytes} (hescape : b ≠ backslash) (hlf : b ≠ lf)
    (hspace : ¬ isSpace b = true) (hline : ¬ (b = slash ∧ t.head? = some slash))
    (hblock : ¬ (b = slash ∧ t.head? = some star)) (hquote : ¬ IsQuote b)
    (hsign : ¬ (b = numberSign ∧ lineStart = true)) :
    includesFrom lineStart (b :: t) = includesFrom false t := by
  have hquote : ¬ (b = doubleQuote ∨ b = singleQuote) := hquote
  rw [includesFrom, if_neg hescape, if_neg hlf, if_neg hspace, if_neg hline, if_neg hblock,
    if_neg hquote, if_neg hsign]

theorem includesFrom_nil : includesFrom lineStart [] = [] := by rw [includesFrom]

/-- **Comments and literals are opaque.** From any state of the pass, a block comment leaves the line as it was, a
line comment ends with its line, and after a literal the line has begun; nothing in them is reported. If none of the
contents that could be closed is closed, nothing more is reported at all. -/
theorem includesFrom_stretches :
    (∀ x rest, BlockBody x → includesFrom lineStart (slash :: star :: (x ++ star :: slash :: rest)) =
      includesFrom lineStart rest) ∧
    (∀ x rest, LineBody x → includesFrom lineStart (slash :: slash :: (x ++ lf :: rest)) =
      includesFrom true rest) ∧
    (∀ quote x rest, IsQuote quote → LiteralBody quote x →
      includesFrom lineStart (quote :: (x ++ quote :: rest)) = includesFrom false rest) ∧
    (∀ t, (∀ x rest, BlockBody x → t ≠ x ++ star :: slash :: rest) →
      includesFrom lineStart (slash :: star :: t) = []) ∧
    (∀ t, (∀ x rest, LineBody x → t ≠ x ++ lf :: rest) → includesFrom lineStart (slash :: slash :: t) = []) ∧
    ∀ quote t, IsQuote quote → (∀ x rest, LiteralBody quote x → t ≠ x ++ quote :: rest) →
      includesFrom lineStart (quote :: t) = [] := by
  refine ⟨fun x rest hx => ?_, fun x rest hx => ?_, fun quote x rest hquote hx => ?_, fun t ht => ?_,
    fun t ht => ?_, fun quote t hquote ht => ?_⟩
  · rw [includesFrom_block, afterBlockComment_body hx]
  · rw [includesFrom_line, afterLineComment_body hx, includesFrom_lf]
  · rw [includesFrom_literal lineStart hquote, afterLiteral_body hquote hx]
  · rcases afterBlockComment_cases t with h | ⟨x, rest, hx, htx⟩
    · rw [includesFrom_block, h, includesFrom_nil]
    · exact absurd htx (ht x rest hx)
  · rcases afterLineComment_cases t with h | ⟨x, rest, hx, htx⟩
    · rw [includesFrom_line, h, includesFrom_nil]
    · exact absurd htx (ht x rest hx)
  · rcases afterLiteral_cases quote t with h | ⟨x, rest, hx, htx⟩
    · rw [includesFrom_literal lineStart hquote, h, includesFrom_nil]
    · exact absurd htx (ht x rest hx)

/-- Stretches that hold directives, marks of other stretches, escaped quotes and continued lines. -/
theorem includesFrom_stretches_directive :
    let next := Text.key "#include<b>"
    includesFrom true (slash :: star :: (Text.key "/\"\n#include<a>\n*" ++ star :: slash :: next)) =
      includesFrom true next ∧
    includesFrom false (slash :: slash :: (Text.key "'\\ \r\n#include<a>/*" ++ lf :: next)) =
      includesFrom true next ∧
    includesFrom true (singleQuote :: (Text.key "\\'//\n#include<a>" ++ singleQuote :: next)) =
      includesFrom false next ∧
    includesFrom true (slash :: star :: Text.key "/#include<a>") = [] ∧
    includesFrom true (slash :: slash :: Text.key "\\\n#include<a>") = [] ∧
    includesFrom true (doubleQuote :: Text.key "\\\"\n#include<a>") = [] := by
  obtain ⟨hblock, -, hliteral, hblockOpen, hlineOpen, hliteralOpen⟩ := includesFrom_stretches true
  refine ⟨hblock _ _ (by decide), (includesFrom_stretches false).2.1 _ _ (by decide),
    hliteral _ _ _ (.inr rfl) ?_, hblockOpen _ fun x rest _ h => ?_, hlineOpen _ fun x rest hx h => ?_,
    hliteralOpen _ _ (.inl rfl) fun x rest hx h => ?_⟩
  · exact .escaped singleQuote (.of_plain (by decide) (by decide))
  · have hmem : star ∈ Text.key "/#include<a>" := by rw [h]; simp
    exact absurd hmem (by decide)
  · -- The only line feed is the second byte, and it ends a continuation.
    have ht : Text.key "\\\n#include<a>" = backslash :: lf :: Text.key "#include<a>" := by decide
    rw [ht] at h
    rcases x with _ | ⟨b, _ | ⟨c, x⟩⟩
    · exact absurd (List.cons.inj h).1 (by decide)
    · obtain rfl := (List.cons.inj h).1
      exact absurd hx (by decide)
    · have hmem : lf ∈ Text.key "#include<a>" := by
        rw [(List.cons.inj (List.cons.inj h).2).2]
        simp
      exact absurd hmem (by decide)
  · have ht : Text.key "\\\"\n#include<a>" = backslash :: doubleQuote :: Text.key "\n#include<a>" := by decide
    rw [ht] at h
    cases hx with
    | nil => exact absurd (List.cons.inj h).1 (by decide)
    | plain _ hescape _ => exact hescape (List.cons.inj h).1.symm
    | escaped b hx =>
      have hmem : doubleQuote ∈ Text.key "\n#include<a>" := by
        rw [(List.cons.inj (List.cons.inj h).2).2]
        simp
      exact absurd hmem (by decide)

end HeaderAtlas.Source
