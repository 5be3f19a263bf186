import HeaderAtlas.Proofs.Source.Opaque
import Mathlib.Data.Bool.Basic
import Mathlib.Order.Nat
/-!
# Line feeds that do not end a line

A continuation in a buffer has a place: its backslash is at one position and its line feed at another
(`Joins`). The forward test finds it from the backslash, the backward test from the line feed. Both see the
same bytes, those from the backslash to the line feed (`joins_iff`), and so they agree, wherever the backward
test may begin (`isContinued_iff_joins`). A line feed ends no two continuations (`Joins.unique`). Where a test
or a comment leaves off is said by what is left there.

A line comment is followed by the backward test. By the agreement it ends at the first line feed that the
forward test takes for none of its continuations (`continuation_tests_agree`).
-/

set_option autoImplicit false

namespace HeaderAtlas.Source

variable {buf t : Bytes} {start p q nl pos : Nat}

/-! ## Places of continuations -/

/-- A continuation from the backslash at `p` to the line feed at `nl`: what is left after it is what is left
behind that line feed. -/
structure Joins (buf : Bytes) (p nl : Nat) : Prop where
  escape : buf[p]? = some backslash
  after : continuation? (buf.drop (p + 1)) = some (buf.drop (nl + 1))

theorem IsContinuation.two_le_length {c : Bytes} (h : IsContinuation c) : 2 ≤ c.length := by
  obtain ⟨blanks, ending, -, hending, rfl⟩ := h
  rcases hending with rfl | rfl
  · simp
  · simp

/-- What is left at a position, up to another position and from there on. -/
theorem drop_eq_append (buf : Bytes) (h : p ≤ q) (hq : q ≤ buf.length) :
    buf.drop p = (buf.take q).drop p ++ buf.drop q := by
  conv_lhs => rw [← List.take_append_drop q buf]
  rw [List.drop_append_of_le_length (by rw [List.length_take]; omega)]

/-- **The forward test looks at the bytes of the continuation alone.** -/
theorem joins_iff (h : nl < buf.length) : Joins buf p nl ↔ IsContinuation ((buf.take (nl + 1)).drop p) := by
  constructor
  · rintro ⟨hescape, hafter⟩
    obtain ⟨c, hc, hdrop⟩ := continuation?_eq_some_iff.1 hafter
    obtain ⟨hp, hget⟩ := List.getElem?_eq_some_iff.1 hescape
    have hle : p ≤ nl + 1 := by
      have hlength := congrArg List.length hdrop
      rw [List.length_append, List.length_drop, List.length_drop] at hlength
      omega
    -- What is left at the backslash is the continuation and what is left behind it, in both ways of cutting.
    have hbytes : (buf.take (nl + 1)).drop p = backslash :: c := by
      have hsplit := drop_eq_append buf hle h
      rw [List.drop_eq_getElem_cons hp, hget, hdrop, ← List.cons_append] at hsplit
      exact (List.append_cancel_right hsplit).symm
    rwa [hbytes]
  · intro hc
    obtain ⟨c, hbytes⟩ := hc.exists_eq_cons
    have hle : p ≤ nl + 1 := by
      have hlength := hc.two_le_length
      rw [List.length_drop, List.length_take] at hlength
      omega
    have hsplit := drop_eq_append buf hle h
    rw [hbytes, List.cons_append] at hsplit
    rw [hbytes] at hc
    refine ⟨?_, ?_⟩
    · rw [← List.head?_drop, hsplit, List.head?_cons]
    · rw [← List.tail_drop, hsplit, List.tail_cons]
      exact hc.continuation? _

theorem Joins.lt (h : Joins buf p nl) (hnl : nl < buf.length) : p < nl := by
  have hlength := ((joins_iff hnl).1 h).two_le_length
  rw [List.length_drop, List.length_take] at hlength
  omega

/-- A continuation has no backslash but its first byte, so none begins inside of it. -/
theorem IsContinuation.not_drop (hp : IsContinuation (t.drop p)) (hq : IsContinuation (t.drop q)) : ¬ p < q := by
  intro hlt
  obtain ⟨c, hc⟩ := hp.exists_eq_cons
  obtain ⟨d, hd⟩ := hq.exists_eq_cons
  -- The later backslash would be one of the bytes behind the first.
  have hmem : backslash ∈ c := by
    have htail : c = t.drop (p + 1) := by rw [← List.tail_drop, hc, List.tail_cons]
    have hsuffix : t.drop q <:+ t.drop (p + 1) := List.drop_suffix_drop_left t hlt
    rw [htail]
    apply hsuffix.subset
    rw [hd]
    exact List.mem_cons_self
  rw [hc] at hp
  exact absurd (hp.mem hmem) (by decide)

theorem Joins.unique (hp : Joins buf p nl) (hq : Joins buf q nl) (h : nl < buf.length) : p = q := by
  have hp := (joins_iff h).1 hp
  have hq := (joins_iff h).1 hq
  exact Nat.le_antisymm (Nat.le_of_not_lt (hq.not_drop hp)) (Nat.le_of_not_lt (hp.not_drop hq))

/-! ## The two tests -/

/-- What ends with a continuation has a place where it begins. -/
theorem endsContinuation_drop_iff :
    EndsContinuation (t.drop start) ↔ ∃ p, start ≤ p ∧ IsContinuation (t.drop p) := by
  constructor
  · rintro ⟨c, hc, before, hbefore⟩
    refine ⟨start + before.length, Nat.le_add_right _ _, ?_⟩
    rwa [← List.drop_drop, ← hbefore, List.drop_left]
  · rintro ⟨p, hle, hc⟩
    exact ⟨_, hc, List.drop_suffix_drop_left t hle⟩

/-- **The tests agree.** The line feed at a position is found to be continued from the bytes between `start` and
itself if and only if a continuation begins at `start` or later and ends with it. -/
theorem isContinued_iff_joins (hle : start ≤ nl) (hlf : buf[nl]? = some lf) :
    isContinued ((buf.take nl).drop start).reverse = true ↔ ∃ p, start ≤ p ∧ Joins buf p nl := by
  obtain ⟨hnl, -⟩ := List.getElem?_eq_some_iff.1 hlf
  have hline : (buf.take (nl + 1)).drop start = (buf.take nl).drop start ++ [lf] := by
    rw [List.take_add_one, hlf, List.drop_append_of_le_length (by rw [List.length_take]; omega)]
    rfl
  simp only [joins_iff hnl]
  rw [isContinued_iff, List.reverse_reverse, ← hline, endsContinuation_drop_iff]

/-! ## Line comments -/

/-- A line feed at `pos` or later that ends no continuation from `pos` on. -/
structure EndsComment (buf : Bytes) (pos nl : Nat) : Prop where
  le : pos ≤ nl
  lineFeed : buf[nl]? = some lf
  not_joined : ∀ p, pos ≤ p → ¬ Joins buf p nl

theorem endsComment_iff (hle : pos ≤ nl) (hlf : buf[nl]? = some lf) :
    EndsComment buf pos nl ↔ isContinued ((buf.take nl).drop pos).reverse = false := by
  rw [← Bool.not_eq_true, isContinued_iff_joins hle hlf]
  constructor
  · rintro h ⟨p, hp, hjoins⟩
    exact h.not_joined p hp hjoins
  · exact fun h => ⟨hle, hlf, fun p hp hjoins => h ⟨p, hp, hjoins⟩⟩

instance (buf : Bytes) (pos nl : Nat) : Decidable (EndsComment buf pos nl) :=
  decidable_of_iff (pos ≤ nl ∧ buf[nl]? = some lf ∧ isContinued ((buf.take nl).drop pos).reverse = false)
    ⟨fun h => (endsComment_iff h.1 h.2.1).2 h.2.2,
      fun h => ⟨h.le, h.lineFeed, (endsComment_iff h.le h.lineFeed).1 h⟩⟩

/-- What stands before the first such line feed is a comment that goes on to it. -/
theorem lineBody_of_isLeast (h : IsLeast {n | EndsComment buf pos n} nl) :
    LineBody ((buf.take nl).drop pos) := by
  obtain ⟨hends, hleast⟩ := h
  rw [lineBody_iff]
  refine ⟨fun i hi hlf => ?_, (endsComment_iff hends.le hends.lineFeed).1 hends⟩
  rw [List.length_drop, List.length_take] at hi
  have hbefore : ((buf.take nl).drop pos).take i = (buf.take (pos + i)).drop pos := by
    rw [List.take_drop, List.take_take, Nat.min_eq_left (by omega)]
  have hlf : buf[pos + i]? = some lf := by
    rwa [List.getElem?_drop, List.getElem?_take_of_lt (by omega)] at hlf
  rw [hbefore]
  -- An earlier line feed is continued, or it would be the first that is not.
  by_contra hnot
  have hearlier := hleast ((endsComment_iff (Nat.le_add_right pos i) hlf).2 (Bool.eq_false_of_not_eq_true hnot))
  omega

/-- **A line comment ends at the first line feed that ends it.** -/
theorem afterLineComment_of_isLeast (h : IsLeast {n | EndsComment buf pos n} nl) :
    afterLineComment (buf.drop pos) = buf.drop nl := by
  obtain ⟨hnl, hget⟩ := List.getElem?_eq_some_iff.1 h.1.lineFeed
  rw [drop_eq_append buf h.1.le (Nat.le_of_lt hnl), List.drop_eq_getElem_cons hnl, hget]
  exact afterLineComment_body (lineBody_of_isLeast h)

/-- A line comment that does not run to the end has a line feed that ends it. -/
theorem afterLineComment_eq_nil (h : ∀ nl, ¬ EndsComment buf pos nl) : afterLineComment (buf.drop pos) = [] := by
  obtain hnil | ⟨x, rest, hbody, hdrop⟩ := afterLineComment_cases (buf.drop pos)
  · exact hnil
  · have hlf : buf[pos + x.length]? = some lf := by
      rw [← List.getElem?_drop, hdrop, List.getElem?_append_right (Nat.le_refl _), Nat.sub_self]
      rfl
    have hx : (buf.take (pos + x.length)).drop pos = x := by rw [← List.take_drop, hdrop, List.take_left]
    have hends : EndsComment buf pos (pos + x.length) := by
      rw [endsComment_iff (Nat.le_add_right _ _) hlf, hx]
      exact (lineBody_iff.1 hbody).2
    exact absurd hends (h _)

/-- **The forward and the backward test agree, and line comments go by either.** The backward test from a line
feed holds if and only if there is a backslash, not before the place it may look back to, from which the forward
test leads right behind the line feed; there is only one such backslash (1). A line comment leaves off at the
first line feed from its beginning on that ends no continuation begun in it, or else at the end (2). -/
theorem continuation_tests_agree (buf : Bytes) :
    (∀ start nl, start ≤ nl → buf[nl]? = some lf →
      (isContinued ((buf.take nl).drop start).reverse = true ↔
        ∃ p, start ≤ p ∧ p < nl ∧ Joins buf p nl) ∧
      ∀ p q, Joins buf p nl → Joins buf q nl → p = q) ∧
    ∀ pos,
      (∃ nl, IsLeast {n | EndsComment buf pos n} nl ∧ afterLineComment (buf.drop pos) = buf.drop nl) ∨
      ((∀ nl, ¬ EndsComment buf pos nl) ∧ afterLineComment (buf.drop pos) = []) := by
  refine ⟨fun start nl hle hlf => ?_, fun pos => ?_⟩
  · obtain ⟨hnl, -⟩ := List.getElem?_eq_some_iff.1 hlf
    refine ⟨?_, fun p q hp hq => hp.unique hq hnl⟩
    rw [isContinued_iff_joins hle hlf]
    constructor
    · rintro ⟨p, hp, hjoins⟩
      exact ⟨p, hp, hjoins.lt hnl, hjoins⟩
    · rintro ⟨p, hp, -, hjoins⟩
      exact ⟨p, hp, hjoins⟩
  · by_cases hends : ∃ nl, EndsComment buf pos nl
    · have hleast := Nat.isLeast_find hends
      exact .inl ⟨_, hleast, afterLineComment_of_isLeast hleast⟩
    · rw [not_exists] at hends
      exact .inr ⟨hends, afterLineComment_eq_nil hends⟩

/-- A continuation of a backslash, a space, a carriage return and a line feed. A comment that begins before the
backslash goes on to the next line, and one that begins behind it does not. -/
theorem continuation_tests_agree_broken :
    let buf : Bytes := [0x61, 0x5C, 0x20, 0x0D, 0x0A, 0x62, 0x0A]
    buf[4]? = some lf ∧ (∃ p, 0 ≤ p ∧ p < 4 ∧ Joins buf p 4) ∧ (¬ ∃ p, 2 ≤ p ∧ p < 4 ∧ Joins buf p 4) ∧
      ∃ nl, IsLeast {n | EndsComment buf 2 n} nl ∧ afterLineComment (buf.drop 2) = buf.drop nl := by
  intro buf
  obtain ⟨htests, hcomments⟩ := continuation_tests_agree buf
  have hlf : buf[4]? = some lf := rfl
  have hnone : ¬ ∃ p, 2 ≤ p ∧ p < 4 ∧ Joins buf p 4 := by
    rw [← (htests 2 4 (by decide) hlf).1]
    decide
  refine ⟨hlf, (htests 0 4 (by decide) hlf).1.1 (by decide), hnone, (hcomments 2).resolve_right ?_⟩
  exact fun hopen => hopen.1 4 (by decide)

end HeaderAtlas.Source
