import HeaderAtlas.Proofs.Source.Opaque
/-!
# Continuations are invisible

A file may be broken into physical lines by continuations anywhere: in a directive, in the word
`include`, in a header, in a comment or a literal. Deleting them all gives the file on logical lines, and
the includes of both are the same (`includes_eq_of_spliced`).

The law has a condition, `Apart`. Where a continuation stands right behind a slash, an asterisk or a
backslash, deleting it can bring two bytes together that make a mark, and a mark that is broken by a
continuation is not recognised. Blanks and carriage returns do not separate enough, since they may belong
to a continuation themselves.

Every part of the pass commutes with `splice`, the function that deletes continuations. The proofs go by
induction on the length of what is left; in each step the bytes are empty, begin with a continuation or
begin with a byte that stays (`splice_cases`).
-/

set_option autoImplicit false

namespace HeaderAtlas.Source

variable {s t rest after : Bytes} {b : UInt8}

/-! ## Deleting continuations -/

/-- The second bytes are the first with all continuations deleted. A byte may be kept only where no continuation
begins, so there is no choice in it; `spliced_iff` says so. -/
inductive Spliced : Bytes → Bytes → Prop where
  | nil : Spliced [] []
  | drop {c s t : Bytes} (hc : IsContinuation c) (h : Spliced s t) : Spliced (c ++ s) t
  | keep {b : UInt8} {s t : Bytes} (hb : ¬ BeginsContinuation (b :: s)) (h : Spliced s t) :
    Spliced (b :: s) (b :: t)

/-- Deletes all continuations. What follows one is spliced in turn, so a continuation right behind another goes too;
but what the deletion brings together is not looked at again. -/
def splice : Bytes → Bytes
  | [] => []
  | b :: rest =>
    if b = backslash then
      match _h : continuation? rest with
      | some after => splice after
      | none => b :: splice rest
    else b :: splice rest
termination_by t => t.length
decreasing_by
  · have := length_continuation?_lt _h
    simp only [List.length_cons]
    omega
  · simp
  · simp

theorem splice_nil : splice [] = [] := by rw [splice]

theorem splice_cons (h : ¬ BeginsContinuation (b :: rest)) : splice (b :: rest) = b :: splice rest := by
  rw [splice]
  by_cases hb : b = backslash
  · subst hb
    rw [if_pos rfl, continuation?_eq_none h]
  · rw [if_neg hb]

theorem splice_append {c : Bytes} (h : IsContinuation (backslash :: c)) (rest : Bytes) :
    splice (backslash :: (c ++ rest)) = splice rest := by
  rw [splice, if_pos rfl, h.continuation? rest]

/-- Bytes are none, a continuation and more, or a byte that stays and more. The parts of the pass that know about
continuations make the same distinction. -/
theorem splice_cases (t : Bytes) : t = [] ∨
    (∃ c rest, IsContinuation (backslash :: c) ∧ t = backslash :: (c ++ rest) ∧ splice t = splice rest) ∨
    ∃ b rest, t = b :: rest ∧ ¬ BeginsContinuation (b :: rest) ∧ splice t = b :: splice rest := by
  cases t with
  | nil => exact .inl rfl
  | cons b rest =>
    by_cases hb : BeginsContinuation (b :: rest)
    · obtain ⟨rfl, after, hafter⟩ := beginsContinuation_cons_iff.1 hb
      obtain ⟨c, hc, rfl⟩ := continuation?_eq_some_iff.1 hafter
      exact .inr (.inl ⟨c, after, hc, rfl, splice_append hc after⟩)
    · exact .inr (.inr ⟨b, rest, rfl, hb, splice_cons hb⟩)

/-- An induction over bytes that passes over continuations as a whole. Behind a byte that stays, the hypothesis is
about everything that is no longer than the rest, since the pass may go on anywhere behind it. -/
theorem splice_induction {P : Bytes → Prop} (nil : P [])
    (drop : ∀ c rest, IsContinuation (backslash :: c) → P rest → P (backslash :: (c ++ rest)))
    (keep : ∀ b rest, ¬ BeginsContinuation (b :: rest) → (∀ u, u.length ≤ rest.length → P u) →
      P (b :: rest)) (t : Bytes) : P t := by
  induction hn : t.length using Nat.strongRecOn generalizing t with
  | ind n ih =>
    rcases splice_cases t with rfl | ⟨c, rest, hc, rfl, _⟩ | ⟨b, rest, rfl, hb, _⟩
    · exact nil
    -- A continuation has a byte at least, and so has a byte that stays: what is left is shorter.
    · refine drop c rest hc (ih _ ?_ rest rfl)
      simp only [List.length_cons, List.length_append] at hn
      omega
    · refine keep b rest hb fun u hu => ih _ ?_ u rfl
      simp only [List.length_cons] at hn
      omega

/-- **Deleting continuations** can be done in one way only. -/
theorem spliced_iff : Spliced s t ↔ t = splice s := by
  constructor
  · intro h
    induction h with
    | nil => exact splice_nil.symm
    | drop hc _ ih =>
      obtain ⟨blanks, ending, hblanks, hending, rfl⟩ := hc
      rw [ih, List.cons_append, splice_append ⟨blanks, ending, hblanks, hending, rfl⟩]
    | keep hb _ ih => rw [ih, splice_cons hb]
  · rintro rfl
    induction s using splice_induction with
    | nil =>
      rw [splice_nil]
      exact .nil
    | drop c rest hc ih =>
      rw [splice_append hc]
      exact .drop hc ih
    | keep b rest hb ih =>
      rw [splice_cons hb]
      exact .keep hb (ih rest (Nat.le_refl _))

/-! ## Marks that no continuation breaks -/

/-- What may stand between the backslash and the line feed of a continuation. Such bytes do not hold a backslash and a
continuation apart: without it, they could be its own. -/
def isLoose (b : UInt8) : Bool := isBlank b || b == cr

/-- What may be one half of a mark: of `//`, `/*` or `*/`, or of an escape. The second halves are among them as well,
which costs nothing and keeps the condition simple. -/
def isHalf (b : UInt8) : Bool := b == slash || b == star || b == backslash

/-- The last byte that is not loose. -/
def lastFirm? (t : Bytes) : Option UInt8 := (t.reverse.dropWhile isLoose).head?

/-- No continuation stands behind half a mark, even with blanks and carriage returns between them. The condition is
about the file as it is written, not about what is in a comment or a literal, so it can be checked without a pass. -/
def Apart (s : Bytes) : Prop :=
  ∀ before c after, s = before ++ c ++ after → IsContinuation c →
    ∀ b, lastFirm? before = some b → isHalf b = false

theorem isLoose_of_isHalf (h : isHalf b = true) : isLoose b = false := by
  simp only [isHalf, Bool.or_eq_true, beq_iff_eq] at h
  rcases h with (rfl | rfl) | rfl <;> decide

/-- What stands in front of bytes does not matter to their last byte that is not loose, if there is one. -/
theorem lastFirm?_append (front : Bytes) (h : lastFirm? t = some b) : lastFirm? (front ++ t) = some b := by
  unfold lastFirm? at h ⊢
  obtain ⟨more, hmore⟩ := List.head?_eq_some_iff.1 h
  rw [List.reverse_append, List.dropWhile_append, hmore]
  rfl

/-- Half a mark is firm, so loose bytes behind it do not hide it. -/
theorem lastFirm?_cons {skip : Bytes} (hb : isHalf b = true) (hskip : ∀ x ∈ skip, isLoose x = true) :
    lastFirm? (b :: skip) = some b := by
  unfold lastFirm?
  rw [List.reverse_cons, List.dropWhile_append_of_pos fun x hx => hskip x (List.mem_reverse.1 hx),
    List.dropWhile_cons, isLoose_of_isHalf hb]
  rfl

/-- A look at each place where a continuation may begin. There are finitely many, so the condition can be decided. -/
theorem apart_iff : Apart s ↔ ∀ i < s.length, BeginsContinuation (s.drop i) →
    (lastFirm? (s.take i)).any isHalf = false := by
  have hany : ∀ {o : Option UInt8}, o.any isHalf = false ↔ ∀ b, o = some b → isHalf b = false := by
    intro o
    cases o <;> simp
  simp only [hany]
  constructor
  · rintro h i _ ⟨c, hc, after, hafter⟩
    refine h (s.take i) c after ?_ hc
    rw [List.append_assoc, hafter, List.take_append_drop]
  -- A continuation is not empty, so the place where it begins is one of those that are looked at.
  · rintro h before c after rfl hc
    have hlen : c.length ≠ 0 := by
      obtain ⟨blanks, ending, _, _, rfl⟩ := hc
      simp
    have hi := h before.length (by simp only [List.length_append]; omega)
    rw [List.append_assoc, List.drop_left, List.take_left] at hi
    exact hi ⟨c, hc, List.prefix_append c after⟩

instance (s : Bytes) : Decidable (Apart s) := decidable_of_iff _ apart_iff.symm

namespace Apart

/-- The condition holds of every end of a file, and the pass only ever looks at ends. -/
theorem of_suffix (h : Apart s) (ht : t <:+ s) : Apart t := by
  obtain ⟨front, rfl⟩ := ht
  rintro before c after rfl hc b hb
  refine h (front ++ before) c after ?_ hc b (lastFirm?_append front hb)
  simp only [List.append_assoc]

theorem tail (h : Apart (b :: rest)) : Apart rest := h.of_suffix (List.suffix_cons b rest)

/-- What is behind a continuation. -/
theorem behind {c : Bytes} (h : Apart (backslash :: (c ++ rest))) : Apart rest :=
  h.of_suffix (List.suffix_append (backslash :: c) rest)

/-- Nothing begins a continuation behind half a mark. -/
theorem not_begins {skip : Bytes} (h : Apart (b :: (skip ++ rest))) (hb : isHalf b = true)
    (hskip : ∀ x ∈ skip, isLoose x = true) : ¬ BeginsContinuation rest := by
  rintro ⟨c, hc, after, rfl⟩
  have hhalf := h (b :: skip) c after (by simp) hc b (lastFirm?_cons hb hskip)
  rw [hb] at hhalf
  simp at hhalf

/-- The case of nothing between them, which is how comments and escapes use it. -/
theorem not_begins_tail (h : Apart (b :: rest)) (hb : isHalf b = true) : ¬ BeginsContinuation rest :=
  @not_begins _ _ [] h hb (by simp)

end Apart

/-! ## The first bytes after splicing -/

/-- Where no continuation begins, the first byte stays the first. -/
theorem head?_splice (h : ¬ BeginsContinuation t) : (splice t).head? = t.head? := by
  cases t with
  | nil => rw [splice_nil]
  | cons b rest => rw [splice_cons h]; rfl

/-- A byte that is there after splicing was there before, if no continuation stands before it. -/
theorem exists_of_splice_eq_cons {u : Bytes} (h : ¬ BeginsContinuation t) (hs : splice t = b :: u) :
    ∃ rest, t = b :: rest ∧ splice rest = u := by
  cases t with
  | nil => simp [splice_nil] at hs
  | cons c rest =>
    rw [splice_cons h] at hs
    obtain ⟨rfl, hu⟩ := List.cons.inj hs
    exact ⟨rest, rfl, hu⟩

/-- The same for a run of loose bytes behind half a mark. The bytes of the run that were read already are
in `skip`. -/
theorem exists_of_splice_eq_append {run u skip : Bytes} (h : Apart (b :: (skip ++ t))) (hb : isHalf b = true)
    (hskip : ∀ x ∈ skip, isLoose x = true) (hrun : ∀ x ∈ run, isLoose x = true) (hs : splice t = run ++ u) :
    ∃ rest, t = run ++ rest ∧ splice rest = u ∧ ¬ BeginsContinuation rest := by
  induction run generalizing skip t with
  | nil => exact ⟨t, rfl, hs, h.not_begins hb hskip⟩
  | cons x run ih =>
    obtain ⟨rest, rfl, hrest⟩ := exists_of_splice_eq_cons (h.not_begins hb hskip) hs
    have hskip' : ∀ y ∈ skip ++ [x], isLoose y = true := by
      intro y hy
      rcases List.mem_append.1 hy with hy | hy
      · exact hskip y hy
      · rw [List.mem_singleton.1 hy]
        exact hrun x List.mem_cons_self
    have h' : Apart (b :: (skip ++ [x] ++ rest)) := by simpa using h
    obtain ⟨more, rfl, hmore⟩ := ih h' hskip' (fun y hy => hrun y (List.mem_cons_of_mem _ hy)) hrest
    exact ⟨more, rfl, hmore⟩

theorem isLoose_of_isBlank (h : isBlank b = true) : isLoose b = true := by
  rw [isLoose, h, Bool.true_or]

/-- **Splicing makes no new continuation.** What would make one is a backslash with a continuation behind it, which
being apart excludes. -/
theorem not_beginsContinuation_splice (h : Apart t) (ht : ¬ BeginsContinuation t) :
    ¬ BeginsContinuation (splice t) := by
  cases t with
  | nil =>
    rw [splice_nil]
    exact ht
  | cons b rest =>
    rw [splice_cons ht, beginsContinuation_cons_iff]
    rintro ⟨rfl, after, hafter⟩
    obtain ⟨c, ⟨blanks, ending, hblanks, hending, hc⟩, hsplice⟩ := continuation?_eq_some_iff.1 hafter
    obtain rfl := (List.cons.inj hc).2
    apply ht
    -- The bytes between the backslash and the line feed are loose, so they were all there before.
    have hread : ∀ run u, (∀ x ∈ run, isLoose x = true) → splice rest = run ++ lf :: u →
        ∃ more, rest = run ++ lf :: more := by
      intro run u hrun hs
      obtain ⟨more, rfl, hmore, hbegins⟩ :=
        @exists_of_splice_eq_append _ _ run _ [] h (by decide) (by simp) hrun hs
      obtain ⟨last, rfl, _⟩ := exists_of_splice_eq_cons hbegins hmore
      exact ⟨last, rfl⟩
    -- The line end may have a carriage return, which is loose as well.
    rcases hending with rfl | rfl
    · obtain ⟨more, rfl⟩ := hread blanks after (fun x hx => isLoose_of_isBlank (hblanks x hx)) (by simpa using hsplice)
      exact ⟨backslash :: (blanks ++ [lf]), ⟨blanks, [lf], hblanks, .inl rfl, rfl⟩, more, by simp⟩
    · have hrun : ∀ x ∈ blanks ++ [cr], isLoose x = true := by
        intro x hx
        rcases List.mem_append.1 hx with hx | hx
        · exact isLoose_of_isBlank (hblanks x hx)
        · rw [List.mem_singleton.1 hx]
          decide
      obtain ⟨more, rfl⟩ := hread (blanks ++ [cr]) after hrun (by simpa using hsplice)
      exact ⟨backslash :: (blanks ++ [cr, lf]), ⟨blanks, [cr, lf], hblanks, .inr rfl, rfl⟩, more, by simp⟩

/-! ## What is left is an end of what was there -/

/-- Every part of the pass leaves an end of what it was given. That keeps `Apart` for what is left, and gives the
induction its measure; the lemmas of this section say it for each part. -/
theorem suffix_of_continuation? (h : continuation? rest = some after) : after <:+ rest := by
  obtain ⟨c, _, rfl⟩ := continuation?_eq_some_iff.1 h
  exact List.suffix_append c after

theorem afterBlockComment_suffix (t : Bytes) : afterBlockComment t <:+ t := by
  induction t with
  | nil => exact List.suffix_rfl
  | cons b rest ih =>
    rw [afterBlockComment]
    split
    · exact (List.tail_suffix rest).trans (List.suffix_cons b rest)
    · exact ih.trans (List.suffix_cons b rest)

theorem afterLineCommentFrom_suffix (back t : Bytes) : afterLineCommentFrom back t <:+ t := by
  fun_induction afterLineCommentFrom back t with
  | case1 => exact List.suffix_rfl
  | case2 back rest _ ih => exact ih.trans (List.suffix_cons lf rest)
  | case3 => exact List.suffix_rfl
  | case4 back b rest _ ih => exact ih.trans (List.suffix_cons b rest)

theorem afterLiteral_suffix (quote : UInt8) (t : Bytes) : afterLiteral quote t <:+ t := by
  fun_induction afterLiteral quote t with
  | case1 => exact List.suffix_rfl
  | case2 => exact List.nil_suffix
  | case3 c after ih => exact ih.trans ((List.suffix_cons c after).trans (List.suffix_cons _ _))
  | case4 rest => exact List.suffix_cons _ rest
  | case5 b rest _ _ ih => exact ih.trans (List.suffix_cons b rest)

theorem skipBlanks_suffix (t : Bytes) : skipBlanks t <:+ t := by
  fun_induction skipBlanks t with
  | case1 => exact List.suffix_rfl
  | case2 b rest _ ih => exact ih.trans (List.suffix_cons b rest)
  | case3 rest after h _ ih => exact ih.trans ((suffix_of_continuation? h).trans (List.suffix_cons _ rest))
  | case4 => exact List.suffix_rfl
  | case5 => exact List.suffix_rfl

theorem skipContinuations_suffix (t : Bytes) : skipContinuations t <:+ t := by
  fun_induction skipContinuations t with
  | case1 => exact List.suffix_rfl
  | case2 rest after h ih => exact ih.trans ((suffix_of_continuation? h).trans (List.suffix_cons _ rest))
  | case3 => exact List.suffix_rfl
  | case4 => exact List.suffix_rfl

/-- A word that was read is gone from the front, with the continuations between its letters. -/
theorem suffix_of_afterWord? {word : Bytes} (h : afterWord? word t = some rest) : rest <:+ t := by
  induction word generalizing t with
  | nil =>
    obtain rfl := Option.some.inj h
    exact List.suffix_rfl
  | cons letter letters ih =>
    have hskip := skipContinuations_suffix t
    rw [afterWord?] at h
    split at h
    · simp at h
    · next b more hmore =>
      rw [hmore] at hskip
      split at h
      · exact (ih h).trans ((List.suffix_cons b more).trans hskip)
      · simp at h

theorem headerName_suffix (closer : UInt8) (t : Bytes) : (headerName closer t).2 <:+ t := by
  fun_induction headerName closer t with
  | case1 => exact List.suffix_rfl
  | case2 rest after h ih => exact ih.trans ((suffix_of_continuation? h).trans (List.suffix_cons _ rest))
  | case3 => exact List.nil_suffix
  | case4 c after _ name left hn ih =>
    rw [hn] at ih
    exact ih.trans ((List.suffix_cons c after).trans (List.suffix_cons _ _))
  | case5 => exact List.suffix_rfl
  | case6 => exact List.suffix_cons _ _
  | case7 b rest _ _ _ name left hn ih =>
    rw [hn] at ih
    exact ih.trans (List.suffix_cons b rest)

theorem headerPart_suffix (t : Bytes) : (headerPart t).2 <:+ t := by
  cases t with
  | nil => exact List.suffix_rfl
  | cons b rest =>
    rw [headerPart]
    split
    · exact (headerName_suffix _ rest).trans (List.suffix_cons b rest)
    · split
      · exact (headerName_suffix _ rest).trans (List.suffix_cons b rest)
      · exact List.suffix_rfl

theorem directive_suffix (t : Bytes) : (directive t).2 <:+ t := by
  have hblanks := skipBlanks_suffix t
  rw [directive]
  split
  · exact hblanks
  · next rest hrest =>
    have hmore := skipBlanks_suffix rest
    exact (headerPart_suffix _).trans (hmore.trans ((suffix_of_afterWord? hrest).trans hblanks))

/-! ## Comments and literals, spliced -/

/-- Without an asterisk a comment cannot end, so such bytes are passed over. -/
theorem afterBlockComment_append {c : Bytes} (h : star ∉ c) (t : Bytes) :
    afterBlockComment (c ++ t) = afterBlockComment t := by
  induction c with
  | nil => rfl
  | cons b c ih =>
    have hb : b ≠ star := fun hb => h (hb ▸ List.mem_cons_self)
    rw [List.cons_append, afterBlockComment, if_neg (fun h => hb h.1),
      ih fun hmem => h (List.mem_cons_of_mem _ hmem)]

/-- The bytes of a continuation are not those that comments and literals look for. -/
theorem IsContinuation.ne_of_mem {c : Bytes} {x : UInt8} (h : IsContinuation (backslash :: c)) (hb : b ∈ c)
    (hblank : isBlank x = false) (hcr : x ≠ cr) (hlf : x ≠ lf) : b ≠ x := by
  rintro rfl
  rcases h.mem hb with hb | hb | hb
  · rw [hblank] at hb
    simp at hb
  · exact hcr hb
  · exact hlf hb

/-- Inside a block comment a continuation is like any other bytes, with no asterisk among them. Only behind an
asterisk does it matter, and being apart keeps it away from there. -/
theorem afterBlockComment_splice (h : Apart t) : afterBlockComment (splice t) = splice (afterBlockComment t) := by
  induction t using splice_induction with
  | nil => rw [splice_nil, afterBlockComment, splice_nil]
  | drop c rest hc ih =>
    have hfree : star ∉ backslash :: c := by
      rintro (_ | ⟨_, hmem⟩)
      exact hc.ne_of_mem hmem (by decide) (by decide) (by decide) rfl
    have hskip : afterBlockComment (backslash :: (c ++ rest)) = afterBlockComment rest :=
      afterBlockComment_append hfree rest
    rw [splice_append hc, hskip]
    exact ih h.behind
  | keep b rest hb ih =>
    have hrest := ih rest (Nat.le_refl _) h.tail
    rw [splice_cons hb, afterBlockComment, afterBlockComment]
    by_cases hstar : b = star
    · -- The byte behind the asterisk is the same before and after.
      subst hstar
      have hbegins := h.not_begins_tail (by decide)
      rw [head?_splice hbegins]
      split
      · next hclosed =>
        obtain ⟨more, rfl⟩ := List.head?_eq_some_iff.1 hclosed.2
        rw [splice_cons hbegins]
        rfl
      · exact hrest
    · rw [if_neg (fun h => hstar h.1), if_neg (fun h => hstar h.1)]
      exact hrest

/-- Bytes that neither close a literal nor escape anything are passed over. -/
theorem afterLiteral_append {quote : UInt8} {c : Bytes} (h : ∀ x ∈ c, x ≠ quote ∧ x ≠ backslash) (t : Bytes) :
    afterLiteral quote (c ++ t) = afterLiteral quote t := by
  induction c with
  | nil => rfl
  | cons b c ih =>
    obtain ⟨hquote, hescape⟩ := h b List.mem_cons_self
    rw [List.cons_append, afterLiteral_plain hquote hescape, ih fun x hx => h x (List.mem_cons_of_mem _ hx)]

/-- In a literal the backslash of a continuation escapes the byte behind it, and the rest is plain. -/
theorem afterLiteral_continuation {quote : UInt8} {c : Bytes} (hquote : IsQuote quote)
    (hc : IsContinuation (backslash :: c)) (t : Bytes) :
    afterLiteral quote (backslash :: (c ++ t)) = afterLiteral quote t := by
  have hplain : ∀ x ∈ c, x ≠ quote ∧ x ≠ backslash := by
    intro x hx
    refine ⟨?_, hc.ne_of_mem hx (by decide) (by decide) (by decide)⟩
    rcases hquote with rfl | rfl
    · exact hc.ne_of_mem hx (by decide) (by decide) (by decide)
    · exact hc.ne_of_mem hx (by decide) (by decide) (by decide)
  cases c with
  | nil =>
    obtain ⟨blanks, ending, _, rfl | rfl, hnil⟩ := hc <;> simp at hnil
  | cons x c =>
    rw [List.cons_append, afterLiteral_escaped]
    exact afterLiteral_append (fun y hy => hplain y (List.mem_cons_of_mem _ hy)) t

/-- A literal knows nothing of continuations, but takes the backslash of one for an escape. What is escaped is never a
quote, so the literal goes on behind the continuation as it would without it. -/
theorem afterLiteral_splice {quote : UInt8} (hquote : IsQuote quote) (h : Apart t) :
    afterLiteral quote (splice t) = splice (afterLiteral quote t) := by
  induction t using splice_induction with
  | nil => rw [splice_nil, afterLiteral, splice_nil]
  | drop c rest hc ih =>
    rw [splice_append hc, afterLiteral_continuation hquote hc]
    exact ih h.behind
  | keep b rest hb ih =>
    rw [splice_cons hb]
    by_cases hescape : b = backslash
    · -- The escaped byte begins no continuation, so it stays behind its backslash.
      subst hescape
      cases rest with
      | nil => rw [splice_nil, afterLiteral, if_pos rfl, splice_nil]
      | cons x rest =>
        rw [splice_cons (h.not_begins_tail (by decide)), afterLiteral_escaped, afterLiteral_escaped]
        exact ih rest (by simp) h.tail.tail
    · by_cases hclose : b = quote
      · rw [hclose, afterLiteral_quote hquote.ne_backslash, afterLiteral_quote hquote.ne_backslash]
      · rw [afterLiteral_plain hclose hescape, afterLiteral_plain hclose hescape]
        exact ih rest (Nat.le_refl _) h.tail

/-! ## Line comments, spliced

The end of a line comment is found by looking back from a line feed. Looking forward from each backslash
finds the same one, and needs no memory of the line. -/

/-- What is left from the line feed on that ends the logical line. Unlike `afterLineComment` it looks for
continuations in the way `splice` does, so that the two can be compared. -/
def toLineFeed : Bytes → Bytes
  | [] => []
  | b :: rest =>
    if b = backslash then
      match _h : continuation? rest with
      | some after => toLineFeed after
      | none => toLineFeed rest
    else if b = lf then b :: rest
    else toLineFeed rest
termination_by t => t.length
decreasing_by
  · have := length_continuation?_lt _h
    simp only [List.length_cons]
    omega
  · simp
  · simp

theorem toLineFeed_append {c : Bytes} (hc : IsContinuation (backslash :: c)) (rest : Bytes) :
    toLineFeed (backslash :: (c ++ rest)) = toLineFeed rest := by
  rw [toLineFeed, if_pos rfl, hc.continuation? rest]

theorem toLineFeed_cons (hb : ¬ BeginsContinuation (b :: rest)) (hlf : b ≠ lf) :
    toLineFeed (b :: rest) = toLineFeed rest := by
  rw [toLineFeed]
  by_cases h : b = backslash
  · subst h
    rw [if_pos rfl, continuation?_eq_none hb]
  · rw [if_neg h, if_neg hlf]

theorem toLineFeed_lf (rest : Bytes) : toLineFeed (lf :: rest) = lf :: rest := by
  rw [toLineFeed, if_neg (by decide), if_pos rfl]

/-- One physical line of a line comment. What has been read of it decides at its end whether the comment goes on. -/
theorem afterLineCommentFrom_line {line : Bytes} (h : lf ∉ line) (back rest : Bytes) :
    afterLineCommentFrom back (line ++ lf :: rest) =
      if isContinued (line.reverse ++ back) then afterLineCommentFrom [] rest else lf :: rest := by
  induction line generalizing back with
  | nil => rw [List.nil_append, afterLineCommentFrom, if_pos rfl]; rfl
  | cons b line ih =>
    have hb : b ≠ lf := fun hb => h (hb ▸ List.mem_cons_self)
    rw [List.cons_append, afterLineCommentFrom, if_neg hb, ih fun hmem => h (List.mem_cons_of_mem _ hmem),
      reverse_cons_append]

/-- A continuation is a part of one physical line: its only line feed is its last byte. -/
theorem IsContinuation.eq_concat {c : Bytes} (h : IsContinuation c) : ∃ line, c = line ++ [lf] ∧ lf ∉ line := by
  obtain ⟨blanks, ending, hblanks, hending, rfl⟩ := h
  have hfree : lf ∉ blanks := fun hmem => absurd (hblanks lf hmem) (by decide)
  rcases hending with rfl | rfl
  · refine ⟨backslash :: blanks, rfl, ?_⟩
    simpa [show lf ≠ backslash by decide] using hfree
  · refine ⟨backslash :: (blanks ++ [cr]), by simp, ?_⟩
    simpa [show lf ≠ backslash by decide, show lf ≠ cr by decide] using hfree

/-- A line feed in bytes that begin with a continuation stands behind it or is its last byte. -/
theorem IsContinuation.append_eq_append_cons {c x y : Bytes} (h : IsContinuation c) (heq : c ++ t = x ++ lf :: y) :
    (∃ x', x = c ++ x' ∧ t = x' ++ lf :: y) ∨ x ++ [lf] = c := by
  obtain ⟨line, rfl, hfree⟩ := h.eq_concat
  rcases List.append_eq_append_iff.1 heq with ⟨x', hx', ht⟩ | ⟨c', hc', hy⟩
  · exact .inl ⟨x', hx', ht⟩
  · cases c' with
    | nil => exact .inl ⟨[], by rw [hc', List.append_nil, List.append_nil], hy.symm⟩
    | cons b c' =>
      obtain rfl := (List.cons.inj hy).1
      rcases List.eq_nil_or_concat c' with rfl | ⟨front, last, rfl⟩
      · exact .inr hc'.symm
      · rw [List.concat_eq_append, ← List.cons_append, ← List.append_assoc] at hc'
        have hline := (List.append_inj' hc' rfl).1
        exact absurd (hline ▸ List.mem_append_right x List.mem_cons_self) hfree

/-- A continuation ends a physical line without ending the comment, whatever stood on the line before it. -/
theorem afterLineCommentFrom_continuation {c : Bytes} (hc : IsContinuation c) (back rest : Bytes) :
    afterLineCommentFrom back (c ++ rest) = afterLineCommentFrom [] rest := by
  obtain ⟨line, rfl, hfree⟩ := hc.eq_concat
  have hcontinued : isContinued (line.reverse ++ back) = true := by
    rw [isContinued_iff]
    exact ⟨line ++ [lf], hc, back.reverse, by simp⟩
  rw [List.append_assoc, List.singleton_append, afterLineCommentFrom_line hfree, if_pos hcontinued]

/-- The two ways agree, as long as no continuation begins in what was read already. The hypothesis is the invariant of
the induction; for a whole comment nothing was read, and it holds. -/
theorem afterLineCommentFrom_eq {back : Bytes}
    (hback : ∀ u v, t = u ++ lf :: v → EndsContinuation (back.reverse ++ (u ++ [lf])) →
      EndsContinuation (u ++ [lf])) : afterLineCommentFrom back t = toLineFeed t := by
  induction t using splice_induction generalizing back with
  | nil => rw [afterLineCommentFrom, toLineFeed]
  | drop c rest hc ih =>
    have hrest : afterLineCommentFrom [] rest = toLineFeed rest := ih fun _ _ _ h => h
    rw [toLineFeed_append hc, ← hrest]
    exact afterLineCommentFrom_continuation hc back rest
  | keep b rest hb ih =>
    by_cases hlf : b = lf
    · subst hlf
      have hends : isContinued back = false := by
        rw [← Bool.not_eq_true, isContinued_iff]
        intro hcontinued
        obtain ⟨c, ⟨blanks, ending, _, _, rfl⟩, hc⟩ := hback [] rest rfl hcontinued
        rcases List.suffix_cons_iff.1 hc with hc | hc
        · exact absurd (List.cons.inj hc).1 (by decide)
        · exact absurd (List.suffix_nil.1 hc) (by simp)
      rw [afterLineCommentFrom, if_pos rfl, hends, toLineFeed_lf]
      rfl
    · rw [afterLineCommentFrom, if_neg hlf, toLineFeed_cons hb hlf]
      refine ih rest (Nat.le_refl _) fun u v huv hends => ?_
      rw [reverse_cons_append] at hends
      -- The continuation would begin with `b` itself, or it begins behind it.
      obtain ⟨c, hc, hsuffix⟩ := hback (b :: u) v (by rw [huv]; rfl) hends
      rcases List.suffix_cons_iff.1 hsuffix with rfl | hsuffix
      · exact absurd ⟨_, hc, v, by rw [huv]; simp⟩ hb
      · exact ⟨c, hc, hsuffix⟩

theorem afterLineComment_eq (t : Bytes) : afterLineComment t = toLineFeed t :=
  afterLineCommentFrom_eq fun _ _ _ h => h

/-- Line comments are where continuations count: one of them carries the comment to the next line. Splicing makes that
line a part of this one. -/
theorem afterLineComment_splice (h : Apart t) : afterLineComment (splice t) = splice (afterLineComment t) := by
  rw [afterLineComment_eq, afterLineComment_eq]
  induction t using splice_induction with
  | nil => rw [splice_nil, toLineFeed, splice_nil]
  | drop c rest hc ih =>
    rw [splice_append hc, toLineFeed_append hc]
    exact ih h.behind
  | keep b rest hb ih =>
    have hbegins := not_beginsContinuation_splice h hb
    rw [splice_cons hb] at hbegins ⊢
    by_cases hlf : b = lf
    · subst hlf
      rw [toLineFeed_lf, toLineFeed_lf, splice_cons hb]
    · rw [toLineFeed_cons hbegins hlf, toLineFeed_cons hb hlf]
      exact ih rest (Nat.le_refl _) h.tail

/-! ## Directives, spliced -/

/-- A continuation among blanks is passed over. This and the next two lemmas are `skipBlanks` in the three cases of
`splice_cases`. -/
theorem skipBlanks_append {c : Bytes} (hc : IsContinuation (backslash :: c)) (rest : Bytes) :
    skipBlanks (backslash :: (c ++ rest)) = skipBlanks rest := by
  rw [skipBlanks, if_neg (by decide), if_pos rfl, hc.continuation? rest]

theorem skipBlanks_blank (h : isBlank b = true) (rest : Bytes) : skipBlanks (b :: rest) = skipBlanks rest := by
  rw [skipBlanks, if_pos h]

theorem skipBlanks_stop (hblank : ¬ isBlank b = true) (hb : ¬ BeginsContinuation (b :: rest)) :
    skipBlanks (b :: rest) = b :: rest := by
  rw [skipBlanks, if_neg hblank]
  by_cases h : b = backslash
  · subst h
    rw [if_pos rfl, continuation?_eq_none hb]
  · rw [if_neg h]

/-- Blanks and continuations are passed over alike, so the spliced bytes lose the same blanks and nothing else. -/
theorem skipBlanks_splice (h : Apart t) : skipBlanks (splice t) = splice (skipBlanks t) := by
  induction t using splice_induction with
  | nil => rw [splice_nil, skipBlanks, splice_nil]
  | drop c rest hc ih =>
    rw [splice_append hc, skipBlanks_append hc]
    exact ih h.behind
  | keep b rest hb ih =>
    have hbegins := not_beginsContinuation_splice h hb
    rw [splice_cons hb] at hbegins ⊢
    by_cases hblank : isBlank b = true
    · rw [skipBlanks_blank hblank, skipBlanks_blank hblank]
      exact ih rest (Nat.le_refl _) h.tail
    · rw [skipBlanks_stop hblank hbegins, skipBlanks_stop hblank hb, splice_cons hb]

theorem skipContinuations_append {c : Bytes} (hc : IsContinuation (backslash :: c)) (rest : Bytes) :
    skipContinuations (backslash :: (c ++ rest)) = skipContinuations rest := by
  rw [skipContinuations, if_pos rfl, hc.continuation? rest]

theorem skipContinuations_stop (hb : ¬ BeginsContinuation t) : skipContinuations t = t := by
  cases t with
  | nil => rw [skipContinuations]
  | cons b rest =>
    rw [skipContinuations]
    by_cases h : b = backslash
    · subst h
      rw [if_pos rfl, continuation?_eq_none hb]
    · rw [if_neg h]

/-- Passing over continuations comes to something that is none, and splicing does not see the way. -/
theorem skipContinuations_spec (t : Bytes) :
    ¬ BeginsContinuation (skipContinuations t) ∧ splice (skipContinuations t) = splice t := by
  induction t using splice_induction with
  | nil =>
    rw [skipContinuations]
    exact ⟨not_beginsContinuation_nil, rfl⟩
  | drop c rest hc ih => rwa [skipContinuations_append hc, splice_append hc]
  | keep b rest hb ih =>
    rw [skipContinuations_stop hb]
    exact ⟨hb, rfl⟩

/-- Continuations may stand before each letter. On spliced bytes there are none, so nothing is passed over there. -/
theorem afterWord?_splice {word : Bytes} (h : Apart t) :
    afterWord? word (splice t) = (afterWord? word t).map splice := by
  induction word generalizing t with
  | nil => rfl
  | cons letter letters ih =>
    obtain ⟨hbegins, hsplice⟩ := skipContinuations_spec t
    have hapart := h.of_suffix (skipContinuations_suffix t)
    -- Both sides are brought to where the continuations before the letter have been passed over.
    rw [afterWord?, afterWord?, ← hsplice,
      skipContinuations_stop (not_beginsContinuation_splice hapart hbegins)]
    cases hskip : skipContinuations t with
    | nil =>
      rw [splice_nil]
      rfl
    | cons b rest =>
      rw [hskip] at hbegins hapart
      rw [splice_cons hbegins]
      dsimp only
      split
      · exact ih hapart.tail
      · rfl

/-- A continuation in a header is no part of it. This and the next two lemmas take a header name apart byte
by byte. -/
theorem headerName_append {closer : UInt8} {c : Bytes} (hc : IsContinuation (backslash :: c)) (rest : Bytes) :
    headerName closer (backslash :: (c ++ rest)) = headerName closer rest := by
  rw [headerName, if_pos rfl]
  split
  · next after hafter =>
    rw [hc.continuation? rest] at hafter
    rw [Option.some.inj hafter]
  · next hnone =>
    rw [hc.continuation? rest] at hnone
    simp at hnone

theorem headerName_escaped {closer c : UInt8} (hb : ¬ BeginsContinuation (backslash :: c :: rest)) :
    headerName closer (backslash :: c :: rest) =
      ((headerName closer rest).1.map (backslash :: c :: ·), (headerName closer rest).2) := by
  rw [headerName, if_pos rfl]
  split
  · next after hafter =>
    rw [continuation?_eq_none hb] at hafter
    simp at hafter
  · rfl

theorem headerName_plain {closer : UInt8} (hescape : b ≠ backslash) (hlf : b ≠ lf) (hclose : b ≠ closer)
    (rest : Bytes) : headerName closer (b :: rest) =
      ((headerName closer rest).1.map (b :: ·), (headerName closer rest).2) := by
  rw [headerName, if_neg hescape, if_neg hlf, if_neg hclose]

/-- The header itself is the same, byte for byte: continuations are left out of it in any case, and an escaped byte
stays escaped. -/
theorem headerName_splice {closer : UInt8} (h : Apart t) :
    headerName closer (splice t) = ((headerName closer t).1, splice (headerName closer t).2) := by
  induction t using splice_induction with
  | nil => rw [splice_nil, headerName, splice_nil]
  | drop c rest hc ih =>
    rw [splice_append hc, headerName_append hc]
    exact ih h.behind
  | keep b rest hb ih =>
    have hbegins := not_beginsContinuation_splice h hb
    rw [splice_cons hb] at hbegins ⊢
    by_cases hescape : b = backslash
    · subst hescape
      cases rest with
      | nil =>
        have hlone : headerName closer [backslash] = (none, []) := by
          rw [headerName]
          rfl
        rw [splice_nil, hlone, splice_nil]
      | cons c rest =>
        -- The escaped byte begins no continuation, so it is escaped in the spliced text as well.
        have hnext := h.not_begins_tail (by decide)
        rw [splice_cons hnext] at hbegins ⊢
        rw [headerName_escaped hbegins, headerName_escaped hb, ih rest (by simp) h.tail.tail]
    · by_cases hlf : b = lf
      · rw [headerName, if_neg hescape, if_pos hlf, headerName, if_neg hescape, if_pos hlf, splice_cons hb]
      · by_cases hclose : b = closer
        · rw [headerName, if_neg hescape, if_neg hlf, if_pos hclose, headerName, if_neg hescape,
            if_neg hlf, if_pos hclose]
        · rw [headerName_plain hescape hlf hclose, headerName_plain hescape hlf hclose,
            ih rest (Nat.le_refl _) h.tail]

/-- The opening mark is a single byte, which no continuation can break. -/
theorem headerPart_splice (h : Apart t) (ht : ¬ BeginsContinuation t) :
    headerPart (splice t) = ((headerPart t).1, splice (headerPart t).2) := by
  cases t with
  | nil => rw [splice_nil, headerPart, splice_nil]
  | cons b rest =>
    rw [splice_cons ht, headerPart, headerPart, headerName_splice h.tail, headerName_splice h.tail]
    split
    · rfl
    · split
      · rfl
      · rw [splice_cons ht]

/-- Behind blanks there is no continuation, since it would have been passed over with them. -/
theorem not_beginsContinuation_skipBlanks (t : Bytes) : ¬ BeginsContinuation (skipBlanks t) := by
  induction t using splice_induction with
  | nil =>
    rw [skipBlanks]
    exact not_beginsContinuation_nil
  | drop c rest hc ih => rwa [skipBlanks_append hc]
  | keep b rest hb ih =>
    by_cases hblank : isBlank b = true
    · rw [skipBlanks_blank hblank]
      exact ih rest (Nat.le_refl _)
    · rwa [skipBlanks_stop hblank hb]

/-- A directive may be broken between any two of its parts and inside the word and the name. Each part has been shown
to commute with splicing, and each leaves an end of its bytes, which is apart again. -/
theorem directive_splice (h : Apart t) :
    directive (splice t) = ((directive t).1, splice (directive t).2) := by
  have hword := h.of_suffix (skipBlanks_suffix t)
  rw [directive, directive, skipBlanks_splice h, afterWord?_splice hword]
  cases hrest : afterWord? includeWord (skipBlanks t) with
  | none => rfl
  | some rest =>
    have hapart := hword.of_suffix (suffix_of_afterWord? hrest)
    dsimp only [Option.map_some]
    rw [skipBlanks_splice hapart]
    exact headerPart_splice (hapart.of_suffix (skipBlanks_suffix rest)) (not_beginsContinuation_skipBlanks rest)

/-! ## The pass, spliced -/

/-- A continuation in the code between directives leaves it open whether a line begins. -/
theorem includesFrom_append (lineStart : Bool) {c : Bytes} (hc : IsContinuation (backslash :: c)) (rest : Bytes) :
    includesFrom lineStart (backslash :: (c ++ rest)) = includesFrom lineStart rest := by
  rw [includesFrom, if_pos rfl, hc.continuation? rest]

theorem includesFrom_backslash (lineStart : Bool) (hb : ¬ BeginsContinuation (backslash :: rest)) :
    includesFrom lineStart (backslash :: rest) = includesFrom false rest := by
  rw [includesFrom, if_pos rfl, continuation?_eq_none hb]

/-- **The pass over spliced bytes finds the same.** One step of the pass is one byte that stays, with what it opens;
the cases are those of the pass itself, and in each of them both sides go on at the same place. -/
theorem includesFrom_splice (lineStart : Bool) (h : Apart t) :
    includesFrom lineStart (splice t) = includesFrom lineStart t := by
  induction t using splice_induction generalizing lineStart with
  | nil => rw [splice_nil]
  | drop c rest hc ih =>
    rw [splice_append hc, includesFrom_append lineStart hc]
    exact ih lineStart h.behind
  | keep b rest hb ih =>
    have hbegins := not_beginsContinuation_splice h hb
    rw [splice_cons hb] at hbegins ⊢
    -- Wherever the pass goes on, it is at an end of what is behind `b`.
    have hgo : ∀ (flag : Bool) {u : Bytes}, u <:+ rest → includesFrom flag (splice u) = includesFrom flag u :=
      fun flag u hu => ih u hu.length_le flag (h.tail.of_suffix hu)
    by_cases hescape : b = backslash
    · subst hescape
      rw [includesFrom_backslash _ hbegins, includesFrom_backslash _ hb]
      exact hgo false List.suffix_rfl
    by_cases hlf : b = lf
    · subst hlf
      rw [includesFrom_lf, includesFrom_lf]
      exact hgo true List.suffix_rfl
    by_cases hspace : isSpace b = true
    · rw [includesFrom_space _ hspace, includesFrom_space _ hspace]
      exact hgo lineStart List.suffix_rfl
    -- Behind a slash the next byte is the same before and after, so both begin a comment or neither does.
    have hhead : b = slash → (splice rest).head? = rest.head? := by
      rintro rfl
      exact head?_splice (h.not_begins_tail (by decide))
    by_cases hline : b = slash ∧ rest.head? = some slash
    · obtain ⟨rfl, hslash⟩ := hline
      obtain ⟨more, rfl⟩ := List.head?_eq_some_iff.1 hslash
      rw [splice_cons (h.not_begins_tail (by decide)), includesFrom_line, includesFrom_line,
        afterLineComment_splice h.tail.tail]
      exact hgo lineStart ((afterLineCommentFrom_suffix [] more).trans (List.suffix_cons _ more))
    by_cases hblock : b = slash ∧ rest.head? = some star
    · obtain ⟨rfl, hstar⟩ := hblock
      obtain ⟨more, rfl⟩ := List.head?_eq_some_iff.1 hstar
      rw [splice_cons (h.not_begins_tail (by decide)), includesFrom_block, includesFrom_block,
        afterBlockComment_splice h.tail.tail]
      exact hgo lineStart ((afterBlockComment_suffix more).trans (List.suffix_cons _ more))
    by_cases hquote : IsQuote b
    · rw [includesFrom_literal _ hquote, includesFrom_literal _ hquote, afterLiteral_splice hquote h.tail]
      exact hgo false (afterLiteral_suffix b rest)
    by_cases hsign : b = numberSign ∧ lineStart = true
    · obtain ⟨rfl, rfl⟩ := hsign
      rw [includesFrom_numberSign, includesFrom_numberSign, directive_splice h.tail,
        hgo false (directive_suffix rest)]
    -- An ordinary byte: that it opens no comment has to be said of the spliced bytes as well.
    · have hline' : ¬ (b = slash ∧ (splice rest).head? = some slash) := fun ⟨hb, hs⟩ =>
        hline ⟨hb, hhead hb ▸ hs⟩
      have hblock' : ¬ (b = slash ∧ (splice rest).head? = some star) := fun ⟨hb, hs⟩ =>
        hblock ⟨hb, hhead hb ▸ hs⟩
      rw [includesFrom_plain lineStart hescape hlf hspace hline' hblock' hquote hsign,
        includesFrom_plain lineStart hescape hlf hspace hline hblock hquote hsign]
      exact hgo false List.suffix_rfl

/-- **Continuations are invisible.** If no continuation stands behind half a mark, the includes of a file
are those of the file with all its continuations deleted. -/
theorem includes_eq_of_spliced (h : Apart s) (ht : Spliced s t) : includes s = includes t := by
  rw [spliced_iff.1 ht]
  exact (includesFrom_splice true h).symm

/-- A directive, a header, a line comment and a literal that are each broken over two lines. -/
theorem includes_eq_of_spliced_lines :
    includes (Text.key "#inc\\\nlude <a\\ \r\nb> // \"\\\n'\n#include 'c\\\n'") =
      includes (Text.key "#include <ab> // \"'\n#include 'c'") :=
  includes_eq_of_spliced (by decide) (spliced_iff.2 (by decide +kernel))

end HeaderAtlas.Source
