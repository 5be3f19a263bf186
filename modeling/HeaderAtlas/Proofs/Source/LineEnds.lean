import HeaderAtlas.Proofs.Source.Splice
/-!
# Line feeds alone, or with carriage returns

A file may end its lines with a line feed, or with a carriage return and a line feed. The includes are the
same (`includes_withReturns`), although a carriage return is many things to the parts of the pass: white
space between tokens, a part of a continuation, the escaped byte in a literal, a byte like any other in
a comment or a header.

Every part of the pass commutes with `withReturns`, with one exception. A part that stops at a line feed
may have read the carriage return before it, as its own, so what it leaves is known up to that carriage
return only (`Matches`). The pass does not mind, since it takes a carriage return for white space.
-/

set_option autoImplicit false

namespace HeaderAtlas.Source

variable {t rest left : Bytes} {b : UInt8}

/-! ## Putting in the carriage returns -/

/-- A carriage return before every line feed. The file is assumed to have none of its own where this is used: a
carriage return that stood there already would be one too many. -/
def withReturns (t : Bytes) : Bytes := t.flatMap fun b => if b = lf then [cr, lf] else [b]

theorem withReturns_nil : withReturns [] = [] := rfl

theorem withReturns_lf (t : Bytes) : withReturns (lf :: t) = cr :: lf :: withReturns t := by
  rw [withReturns, List.flatMap_cons, if_pos rfl]
  rfl

theorem withReturns_cons (hlf : b ≠ lf) (t : Bytes) : withReturns (b :: t) = b :: withReturns t := by
  rw [withReturns, List.flatMap_cons, if_neg hlf]
  rfl

theorem withReturns_append (s t : Bytes) : withReturns (s ++ t) = withReturns s ++ withReturns t :=
  List.flatMap_append

/-- Within a line nothing changes. Words, blanks and names are of this kind. -/
theorem withReturns_of_notMem (h : lf ∉ t) : withReturns t = t := by
  induction t with
  | nil => rfl
  | cons b t ih =>
    obtain ⟨hne, hrest⟩ := not_or.1 (mt List.mem_cons.2 h)
    rw [withReturns_cons (Ne.symm hne), ih hrest]

/-- A byte other than a line feed comes first if it came first before. So the marks that are looked for behind a slash
or an asterisk are found in both files or in neither. -/
theorem head?_withReturns (hlf : b ≠ lf) (hcr : b ≠ cr) :
    (withReturns t).head? = some b ↔ t.head? = some b := by
  cases t with
  | nil => rfl
  | cons c t =>
    by_cases hc : c = lf
    · subst hc
      rw [withReturns_lf]
      simp [Ne.symm hlf, Ne.symm hcr]
    · rw [withReturns_cons hc]
      rfl

/-! ## Continuations -/

/-- A continuation without a carriage return gets one, and is a continuation still. -/
theorem IsContinuation.withReturns {c : Bytes} (hc : IsContinuation (backslash :: c)) (hcr : cr ∉ c) :
    IsContinuation (backslash :: Source.withReturns c) := by
  obtain ⟨blanks, ending, hblanks, hending, heq⟩ := hc
  obtain rfl := (List.cons.inj heq).2
  have hfree : lf ∉ blanks := fun hmem => absurd (hblanks lf hmem) (by decide)
  rcases hending with rfl | rfl
  · refine ⟨blanks, [cr, lf], hblanks, .inr rfl, ?_⟩
    rw [withReturns_append, withReturns_of_notMem hfree]
    rfl
  · exact absurd (List.mem_append_right blanks List.mem_cons_self) hcr

/-- A continuation takes its carriage return as a whole, at its end. -/
theorem withReturns_continuation (c rest : Bytes) :
    withReturns (backslash :: (c ++ rest)) = backslash :: (withReturns c ++ withReturns rest) := by
  rw [withReturns_cons (by decide), withReturns_append]

/-- Blanks stop before a line end in either form. -/
theorem dropWhile_withReturns (t : Bytes) :
    (withReturns t).dropWhile isBlank = withReturns (t.dropWhile isBlank) := by
  induction t with
  | nil => rfl
  | cons b t ih =>
    by_cases hlf : b = lf
    · subst hlf
      rfl
    · rw [withReturns_cons hlf, List.dropWhile_cons, List.dropWhile_cons, ih]
      split
      · rfl
      · rw [withReturns_cons hlf]

/-- A line end is recognised in both of its forms. Without carriage returns in the file there is one form only, and it
becomes the other. -/
theorem afterLineEnd?_withReturns (hcr : cr ∉ t) :
    afterLineEnd? (withReturns t) = (afterLineEnd? t).map withReturns := by
  cases t with
  | nil => rfl
  | cons b t =>
    by_cases hlf : b = lf
    · subst hlf
      rfl
    · have hb : b ≠ cr := fun hb => hcr (hb ▸ List.mem_cons_self)
      rw [withReturns_cons hlf, afterLineEnd?, if_neg hb, afterLf?, if_neg hlf, afterLineEnd?, if_neg hb,
        afterLf?, if_neg hlf]
      rfl

/-- Whether a continuation begins, and what follows it, is the same in both files. -/
theorem continuation?_withReturns (hcr : cr ∉ t) :
    continuation? (withReturns t) = (continuation? t).map withReturns := by
  rw [continuation?, dropWhile_withReturns, continuation?]
  -- Dropping blanks brings no carriage return in.
  exact afterLineEnd?_withReturns fun hmem => hcr ((List.dropWhile_sublist isBlank).subset hmem)

/-- Carriage returns make no continuation where there was none. -/
theorem not_beginsContinuation_withReturns (hcr : cr ∉ t) (hb : ¬ BeginsContinuation (b :: t)) :
    ¬ BeginsContinuation (b :: withReturns t) := by
  rw [beginsContinuation_cons_iff] at hb ⊢
  rintro ⟨rfl, after, hafter⟩
  rw [continuation?_withReturns hcr] at hafter
  obtain ⟨before, hbefore, -⟩ := Option.map_eq_some_iff.1 hafter
  exact hb ⟨rfl, before, hbefore⟩

/-- **Induction over a file without carriage returns.** It has its continuations, which take carriage returns as a
whole, its other line feeds, and bytes that stay as they are. The proofs below are all by this induction, with one
case for each of the three. -/
theorem withReturns_induction {motive : (t : Bytes) → cr ∉ t → Prop} (nil : ∀ h, motive [] h)
    (continued : ∀ c rest h hrest, IsContinuation (backslash :: c) → IsContinuation (backslash :: withReturns c) →
      motive rest hrest → motive (backslash :: (c ++ rest)) h)
    (lineEnd : ∀ rest h, cr ∉ rest → (∀ u hu, u <:+ rest → motive u hu) → motive (lf :: rest) h)
    (plain : ∀ b rest h, b ≠ lf → cr ∉ rest → ¬ BeginsContinuation (b :: rest) →
      (∀ u hu, u <:+ rest → motive u hu) → motive (b :: rest) h) (t : Bytes) (hcr : cr ∉ t) : motive t hcr := by
  induction t using splice_induction with
  | nil => exact nil hcr
  | drop c rest hc ih =>
    have hfree : cr ∉ c ++ rest := fun hmem => hcr (List.mem_cons_of_mem _ hmem)
    have hrest : cr ∉ rest := fun hmem => hfree (List.mem_append_right _ hmem)
    exact continued c rest hcr hrest hc (hc.withReturns fun hmem => hfree (List.mem_append_left _ hmem)) (ih hrest)
  | keep b rest hb ih =>
    have hrest : cr ∉ rest := fun hmem => hcr (List.mem_cons_of_mem _ hmem)
    have hbelow : ∀ u hu, u <:+ rest → motive u hu := fun u hu hsuffix => ih u hsuffix.length_le hu
    -- A byte that begins no continuation is a line feed of its own or one that stays.
    by_cases hlf : b = lf
    · subst hlf
      exact lineEnd rest hcr hrest hbelow
    · exact plain b rest hcr hlf hrest hb hbelow

/-! ## Up to one carriage return -/

/-- What is left of a file with carriage returns where `t` is left of the file without. If a line feed comes first,
its carriage return may have been read. -/
def Matches (left t : Bytes) : Prop := dropCr left = dropCr (withReturns t)

theorem Matches.refl (t : Bytes) : Matches (withReturns t) t := rfl

/-- The carriage return of the line feed that comes first has been read. -/
theorem Matches.lf (t : Bytes) : Matches (Source.lf :: withReturns t) (Source.lf :: t) := by
  rw [Matches, withReturns_lf]
  rfl

/-- To the pass a carriage return is white space, and does not begin a line. -/
theorem includesFrom_dropCr (lineStart : Bool) (t : Bytes) :
    includesFrom lineStart (dropCr t) = includesFrom lineStart t := by
  cases t with
  | nil => rfl
  | cons b t =>
    rw [dropCr]
    split
    · next hb =>
      subst hb
      rw [includesFrom_space lineStart (by decide)]
    · rfl

/-- The pass goes on in the same way. This is where the carriage return that was read too early is forgiven. -/
theorem Matches.includesFrom_eq (h : Matches left t) (lineStart : Bool) :
    includesFrom lineStart left = includesFrom lineStart (withReturns t) := by
  rw [← includesFrom_dropCr lineStart left, h, includesFrom_dropCr]

/-! ## Comments and literals -/

/-- A block comment ends at two bytes of which none is a line end, so it ends at the same place. -/
theorem afterBlockComment_withReturns (t : Bytes) :
    afterBlockComment (withReturns t) = withReturns (afterBlockComment t) := by
  induction t with
  | nil => rfl
  | cons b t ih =>
    by_cases hlf : b = lf
    · subst hlf
      have hskip : ∀ u, afterBlockComment (lf :: u) = afterBlockComment u := fun u => by
        rw [afterBlockComment, if_neg fun h => absurd h.1 (by decide)]
      rw [withReturns_lf, afterBlockComment, if_neg fun h => absurd h.1 (by decide), hskip, hskip, ih]
    · rw [withReturns_cons hlf, afterBlockComment, afterBlockComment]
      simp only [head?_withReturns (show slash ≠ lf by decide) (show slash ≠ cr by decide)]
      split
      · next hclosed =>
        obtain ⟨more, rfl⟩ := List.head?_eq_some_iff.1 hclosed.2
        rw [withReturns_cons (by decide)]
        rfl
      · exact ih

/-- A line comment has read the carriage return when it stops at the line feed. What is left is therefore a match and
not equal. -/
theorem afterLineComment_withReturns (hcr : cr ∉ t) :
    Matches (afterLineComment (withReturns t)) (afterLineComment t) := by
  rw [afterLineComment_eq, afterLineComment_eq]
  induction t, hcr using withReturns_induction with
  | nil => rw [withReturns_nil, toLineFeed]; rfl
  | continued c rest _ _ hc hc' ih => rwa [withReturns_continuation, toLineFeed_append hc', toLineFeed_append hc]
  | lineEnd rest _ _ _ =>
    rw [withReturns_lf, toLineFeed_cons (not_beginsContinuation_of_ne (by decide) _) (by decide), toLineFeed_lf,
      toLineFeed_lf]
    exact .lf rest
  | plain b rest _ hlf hrest hb ih =>
    rw [withReturns_cons hlf, toLineFeed_cons (not_beginsContinuation_withReturns hrest hb) hlf,
      toLineFeed_cons hb hlf]
    exact ih rest hrest List.suffix_rfl

/-- A literal takes line ends as they come. Only an escaped one could go wrong, where the carriage return would be the
escaped byte; but a backslash before a line end begins a continuation, and that case is dealt with as a whole. -/
theorem afterLiteral_withReturns {quote : UInt8} (hquote : IsQuote quote) (hcr : cr ∉ t) :
    afterLiteral quote (withReturns t) = withReturns (afterLiteral quote t) := by
  induction t, hcr using withReturns_induction with
  | nil => rw [withReturns_nil, afterLiteral, withReturns_nil]
  | continued c rest _ _ hc hc' ih =>
    rw [withReturns_continuation, afterLiteral_continuation hquote hc', afterLiteral_continuation hquote hc, ih]
  | lineEnd rest _ hrest ih =>
    have hne : cr ≠ quote ∧ lf ≠ quote := by rcases hquote with rfl | rfl <;> decide
    rw [withReturns_lf, afterLiteral_plain hne.1 (by decide), afterLiteral_plain hne.2 (by decide),
      afterLiteral_plain hne.2 (by decide), ih rest hrest List.suffix_rfl]
  | plain b rest _ hlf hrest hb ih =>
    rw [withReturns_cons hlf]
    by_cases hescape : b = backslash
    · -- The escaped byte is no line feed, so it is the same in both files.
      subst hescape
      cases rest with
      | nil => rw [withReturns_nil, afterLiteral, if_pos rfl, withReturns_nil]
      | cons x rest =>
        rw [withReturns_cons (ne_lf_of_not_beginsContinuation hb), afterLiteral_escaped, afterLiteral_escaped]
        exact ih rest (fun hmem => hrest (List.mem_cons_of_mem _ hmem)) (List.suffix_cons x rest)
    · by_cases hclose : b = quote
      · rw [hclose, afterLiteral_quote hquote.ne_backslash, afterLiteral_quote hquote.ne_backslash]
      · rw [afterLiteral_plain hclose hescape, afterLiteral_plain hclose hescape]
        exact ih rest hrest List.suffix_rfl

/-! ## Directives -/

/-- Between the parts of a directive a carriage return is no blank, unless it is part of a continuation. So a
directive ends at the end of its line in both files. -/
theorem skipBlanks_withReturns (hcr : cr ∉ t) : skipBlanks (withReturns t) = withReturns (skipBlanks t) := by
  induction t, hcr using withReturns_induction with
  | nil => rw [withReturns_nil, skipBlanks, withReturns_nil]
  | continued c rest _ _ hc hc' ih => rw [withReturns_continuation, skipBlanks_append hc', skipBlanks_append hc, ih]
  | lineEnd rest _ _ _ =>
    rw [withReturns_lf, skipBlanks_stop (by decide) (not_beginsContinuation_of_ne (by decide) _),
      skipBlanks_stop (by decide) (not_beginsContinuation_of_ne (by decide) _), withReturns_lf]
  | plain b rest _ hlf hrest hb ih =>
    rw [withReturns_cons hlf]
    by_cases hblank : isBlank b = true
    · rw [skipBlanks_blank hblank, skipBlanks_blank hblank]
      exact ih rest hrest List.suffix_rfl
    · rw [skipBlanks_stop hblank (not_beginsContinuation_withReturns hrest hb), skipBlanks_stop hblank hb,
        withReturns_cons hlf]

theorem skipContinuations_withReturns (hcr : cr ∉ t) :
    skipContinuations (withReturns t) = withReturns (skipContinuations t) := by
  induction t, hcr using withReturns_induction with
  | nil => rw [withReturns_nil, skipContinuations, withReturns_nil]
  | continued c rest _ _ hc hc' ih =>
    rw [withReturns_continuation, skipContinuations_append hc', skipContinuations_append hc, ih]
  | lineEnd rest _ _ _ =>
    rw [withReturns_lf, skipContinuations_stop (not_beginsContinuation_of_ne (by decide) _),
      skipContinuations_stop (not_beginsContinuation_of_ne (by decide) _), withReturns_lf]
  | plain b rest _ hlf hrest hb _ =>
    rw [withReturns_cons hlf, skipContinuations_stop (not_beginsContinuation_withReturns hrest hb),
      skipContinuations_stop hb, withReturns_cons hlf]

/-- The letters of a word are neither carriage returns nor line feeds, so a word ends at a line end however that is
written. -/
theorem afterWord?_withReturns {word : Bytes} (hword : cr ∉ word ∧ lf ∉ word) (hcr : cr ∉ t) :
    afterWord? word (withReturns t) = (afterWord? word t).map withReturns := by
  induction word generalizing t with
  | nil => rfl
  | cons letter letters ih =>
    obtain ⟨hnocr, hnolf⟩ := hword
    have hletters : cr ∉ letters ∧ lf ∉ letters :=
      ⟨fun h => hnocr (List.mem_cons_of_mem _ h), fun h => hnolf (List.mem_cons_of_mem _ h)⟩
    rw [afterWord?, afterWord?, skipContinuations_withReturns hcr]
    cases hskip : skipContinuations t with
    | nil => rfl
    | cons b rest =>
      have hrest : cr ∉ rest := fun h => hcr <| (skipContinuations_suffix t).subset <| by
        rw [hskip]
        exact List.mem_cons_of_mem _ h
      by_cases hlf : b = lf
      · -- A word does not go on over the end of a line, however that is written.
        subst hlf
        rw [withReturns_lf]
        dsimp only
        have hcr' : cr ≠ letter := fun h => hnocr (h ▸ List.mem_cons_self)
        have hlf' : lf ≠ letter := fun h => hnolf (h ▸ List.mem_cons_self)
        rw [if_neg hcr', if_neg hlf']
        rfl
      · rw [withReturns_cons hlf]
        dsimp only
        split
        · exact ih hletters hrest
        · rfl

/-- Header names are the same, as an unclosed one gives up at the line feed in both files. -/
theorem headerName_withReturns {closer : UInt8} (hclose : closer ≠ cr) (hcr : cr ∉ t) :
    (headerName closer (withReturns t)).1 = (headerName closer t).1 ∧
      Matches (headerName closer (withReturns t)).2 (headerName closer t).2 := by
  induction t, hcr using withReturns_induction with
  | nil =>
    rw [withReturns_nil, headerName]
    exact ⟨rfl, rfl⟩
  | continued c rest _ _ hc hc' ih => rwa [withReturns_continuation, headerName_append hc', headerName_append hc]
  | lineEnd rest _ _ _ =>
    have hstop : ∀ u, headerName closer (lf :: u) = (none, lf :: u) := fun u => by
      rw [headerName, if_neg (by decide), if_pos rfl]
    -- The carriage return is taken as part of a name that is given up right after it.
    rw [withReturns_lf, headerName_plain (by decide) (by decide) (Ne.symm hclose), hstop, hstop]
    exact ⟨rfl, .lf rest⟩
  | plain b rest _ hlf hrest hb ih =>
    have hb' := not_beginsContinuation_withReturns hrest hb
    rw [withReturns_cons hlf]
    by_cases hescape : b = backslash
    · subst hescape
      cases rest with
      | nil =>
        rw [withReturns_nil, headerName]
        exact ⟨rfl, rfl⟩
      | cons c rest =>
        rw [withReturns_cons (ne_lf_of_not_beginsContinuation hb)] at hb' ⊢
        obtain ⟨hname, hleft⟩ := ih rest (fun hmem => hrest (List.mem_cons_of_mem _ hmem)) (List.suffix_cons c rest)
        rw [headerName_escaped hb', headerName_escaped hb, hname]
        exact ⟨rfl, hleft⟩
    · by_cases hclosed : b = closer
      · have hend : ∀ u, headerName closer (b :: u) = (some [], u) := fun u => by
          rw [headerName, if_neg hescape, if_neg hlf, if_pos hclosed]
        rw [hend, hend]
        exact ⟨rfl, .refl rest⟩
      · obtain ⟨hname, hleft⟩ := ih rest hrest List.suffix_rfl
        rw [headerName_plain hescape hlf hclosed, headerName_plain hescape hlf hclosed, hname]
        exact ⟨rfl, hleft⟩

/-- Where no header begins nothing is taken, a carriage return included. -/
theorem headerPart_withReturns (hcr : cr ∉ t) :
    (headerPart (withReturns t)).1 = (headerPart t).1 ∧
      Matches (headerPart (withReturns t)).2 (headerPart t).2 := by
  cases t with
  | nil => exact ⟨rfl, rfl⟩
  | cons b t =>
    by_cases hlf : b = lf
    · subst hlf
      exact ⟨rfl, .refl (lf :: t)⟩
    · have hrest : cr ∉ t := fun hmem => hcr (List.mem_cons_of_mem _ hmem)
      rw [withReturns_cons hlf, headerPart, headerPart]
      split
      · obtain ⟨hname, hleft⟩ := headerName_withReturns (show (0x3E : UInt8) ≠ cr by decide) hrest
        dsimp only
        rw [hname]
        exact ⟨rfl, hleft⟩
      · split
        · obtain ⟨hname, hleft⟩ := headerName_withReturns (show doubleQuote ≠ cr by decide) hrest
          dsimp only
          rw [hname]
          exact ⟨rfl, hleft⟩
        -- No mark, so nothing was read and the whole is left.
        · rw [← withReturns_cons hlf]
          exact ⟨rfl, .refl (b :: t)⟩

/-- The parts of a directive, one after the other. Only the last of them can stop within a line end. -/
theorem directive_withReturns (hcr : cr ∉ t) :
    (directive (withReturns t)).1 = (directive t).1 ∧
      Matches (directive (withReturns t)).2 (directive t).2 := by
  have hblanks : cr ∉ skipBlanks t := fun hmem => hcr ((skipBlanks_suffix t).subset hmem)
  rw [directive, directive, skipBlanks_withReturns hcr, afterWord?_withReturns (by decide) hblanks]
  cases hword : afterWord? includeWord (skipBlanks t) with
  | none => exact ⟨rfl, .refl _⟩
  | some rest =>
    have hrest : cr ∉ rest := fun hmem => hblanks ((suffix_of_afterWord? hword).subset hmem)
    dsimp only [Option.map_some]
    rw [skipBlanks_withReturns hrest]
    exact headerPart_withReturns fun hmem => hrest ((skipBlanks_suffix rest).subset hmem)

/-! ## The pass -/

/-- **One step of the pass in both files.** The cases are those of the pass; where a part of it leaves a match only,
the pass goes on in the same way all the same. -/
theorem includesFrom_withReturns (lineStart : Bool) (hcr : cr ∉ t) :
    includesFrom lineStart (withReturns t) = includesFrom lineStart t := by
  induction t, hcr using withReturns_induction generalizing lineStart with
  | nil => rfl
  | continued c rest _ _ hc hc' ih =>
    rw [withReturns_continuation, includesFrom_append lineStart hc', includesFrom_append lineStart hc, ih]
  | lineEnd rest _ hrest ih =>
    rw [withReturns_lf, includesFrom_space lineStart (by decide), includesFrom_lf, includesFrom_lf,
      ih rest hrest List.suffix_rfl]
  | plain b rest _ hlf hrest hb ih =>
    -- Whatever is read next, the scan goes on behind it, at an end of the same file.
    have hgo : ∀ (flag : Bool) {u : Bytes}, u <:+ rest → includesFrom flag (withReturns u) = includesFrom flag u :=
      fun flag u hu => ih u (fun hmem => hrest (hu.subset hmem)) hu flag
    rw [withReturns_cons hlf]
    by_cases hescape : b = backslash
    · subst hescape
      rw [includesFrom_backslash _ (not_beginsContinuation_withReturns hrest hb), includesFrom_backslash _ hb]
      exact hgo false List.suffix_rfl
    by_cases hspace : isSpace b = true
    · rw [includesFrom_space _ hspace, includesFrom_space _ hspace]
      exact hgo lineStart List.suffix_rfl
    by_cases hline : b = slash ∧ rest.head? = some slash
    · obtain ⟨rfl, hslash⟩ := hline
      obtain ⟨more, rfl⟩ := List.head?_eq_some_iff.1 hslash
      have hmore : cr ∉ more := fun hmem => hrest (List.mem_cons_of_mem _ hmem)
      rw [withReturns_cons (by decide), includesFrom_line, includesFrom_line,
        (afterLineComment_withReturns hmore).includesFrom_eq]
      exact hgo lineStart ((afterLineCommentFrom_suffix [] more).trans (List.suffix_cons _ more))
    by_cases hblock : b = slash ∧ rest.head? = some star
    · obtain ⟨rfl, hstar⟩ := hblock
      obtain ⟨more, rfl⟩ := List.head?_eq_some_iff.1 hstar
      rw [withReturns_cons (by decide), includesFrom_block, includesFrom_block, afterBlockComment_withReturns]
      exact hgo lineStart ((afterBlockComment_suffix more).trans (List.suffix_cons _ more))
    by_cases hquote : IsQuote b
    · rw [includesFrom_literal _ hquote, includesFrom_literal _ hquote, afterLiteral_withReturns hquote hrest]
      exact hgo false (afterLiteral_suffix b rest)
    by_cases hsign : b = numberSign ∧ lineStart = true
    · obtain ⟨rfl, rfl⟩ := hsign
      obtain ⟨hfound, hleft⟩ := directive_withReturns hrest
      rw [includesFrom_numberSign, includesFrom_numberSign, hfound, hleft.includesFrom_eq,
        hgo false (directive_suffix rest)]
    · -- A slash must not become the beginning of a comment by what was put behind it.
      have hline' : ¬ (b = slash ∧ (withReturns rest).head? = some slash) := fun ⟨hb, hs⟩ =>
        hline ⟨hb, (head?_withReturns (by decide) (by decide)).1 hs⟩
      have hblock' : ¬ (b = slash ∧ (withReturns rest).head? = some star) := fun ⟨hb, hs⟩ =>
        hblock ⟨hb, (head?_withReturns (by decide) (by decide)).1 hs⟩
      rw [includesFrom_plain lineStart hescape hlf hspace hline' hblock' hquote hsign,
        includesFrom_plain lineStart hescape hlf hspace hline hblock hquote hsign]
      exact hgo false List.suffix_rfl

/-- **Line ends do not matter.** A file without carriage returns has the same includes as the file with a
carriage return before each of its line feeds. -/
theorem includes_withReturns (hcr : cr ∉ t) : includes (withReturns t) = includes t :=
  includesFrom_withReturns true hcr

/-- A word and a header that are continued, with blanks before the line end; a line comment that is; an
unclosed header; a literal with an escaped line end; and a directive after each. -/
theorem includes_withReturns_mixed :
    includes (Text.key "#inc\\ \r\nlude <a\\\r\nb> // x\\\r\n#include<c>\r\n#include \"d\r\n'\\\r\n'\r\n#include<e>") =
      includes (Text.key "#inc\\ \nlude <a\\\nb> // x\\\n#include<c>\n#include \"d\n'\\\n'\n#include<e>") := by
  have h := includes_withReturns (t := Text.key
    "#inc\\ \nlude <a\\\nb> // x\\\n#include<c>\n#include \"d\n'\\\n'\n#include<e>") (by decide)
  rw [← h]
  congr 1

end HeaderAtlas.Source
