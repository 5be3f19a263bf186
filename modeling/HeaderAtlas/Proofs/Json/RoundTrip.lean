import HeaderAtlas.Json.Reader
import HeaderAtlas.Json.Writer
import Mathlib.Data.List.TakeDrop
/-!
# Reading what was written

The reader takes back every text that the writer makes of a value without fractions, in any layout whose
indentation is white space (`Json.parse_render`). Strings come first: an escape is read in one round of
the loop, whatever follows it. Values are then read by induction on the value, each with any text after
it; the fuel that the reader needs never exceeds the length of what was written.
-/

set_option autoImplicit false

namespace HeaderAtlas

namespace Json

/-! ## Strings -/

/-- A control character has two zeros and two more digits. All of them are gone through. -/
theorem ofHex_control : ∀ n < 0x20, ∃ c d,
    Text.ofHex 4 n = [CodePoint.ofChar '0', CodePoint.ofChar '0', c, d] ∧
      hexNumber? (CodePoint.ofChar '0') (CodePoint.ofChar '0') c d = some n := by
  intro n hn
  -- With the two digits named, what is left is a statement about 32 numbers.
  refine ⟨(Text.ofHex 4 n).getD 2 0, (Text.ofHex 4 n).getD 3 0, ?_⟩
  revert n
  decide

/-- A numeric escape of a control character stands for it, whatever follows. -/
theorem escaped_control {c : CodePoint} (h : c.val < 0x20) (opening place : Text) (e : CodePoint)
    (rest : Text) :
    escaped opening place (CodePoint.ofChar 'u' :: (Text.ofHex 4 c.val ++ e :: rest)) =
      .ok (c, e :: rest) := by
  obtain ⟨x, y, hhex, hnum⟩ := ofHex_control c.val h
  have hpaired : paired c.val (e :: rest) = .ok (c, e :: rest) := by
    have hof : CodePoint.ofNat c.val = c := Fin.ext (Nat.mod_eq_of_lt c.isLt)
    unfold paired
    split
    · rw [if_neg (by omega), hof]
    · rw [hof]
  simp [escaped, unit, hhex, hnum, hpaired]

/-- One round of the loop that begins with a backslash, whatever the escape is. -/
theorem stringBody_backslash {opening rest more body after : Text} {d : CodePoint} {fuel : Nat}
    (h : escaped opening (CodePoint.ofChar '\\' :: rest) rest = .ok (d, more))
    (hbody : stringBody opening fuel more = .ok (body, after)) :
    stringBody opening (fuel + 1) (CodePoint.ofChar '\\' :: rest) = .ok (d :: body, after) := by
  rw [stringBody, if_neg (by decide), if_pos rfl, h]
  dsimp only
  rw [hbody]

/-- The escapes of one letter. The letter `u` begins a numeric one and is not among them. -/
theorem escaped_short {opening place rest : Text} {c d : CodePoint} (hu : c ≠ CodePoint.ofChar 'u')
    (h : shortEscape? c = some d) : escaped opening place (c :: rest) = .ok (d, rest) := by
  rw [escaped, if_neg hu, h]

/-- **One round.** The escape of a character is read as that character, if anything follows it. -/
theorem stringBody_jsonEscaped {opening rest body after : Text} {fuel : Nat} {e : CodePoint}
    (c : CodePoint) (hbody : stringBody opening fuel (e :: rest) = .ok (body, after)) :
    stringBody opening (fuel + 1) (c.jsonEscaped ++ e :: rest) = .ok (c :: body, after) := by
  have short : ∀ {letter d : CodePoint}, letter ≠ CodePoint.ofChar 'u' → shortEscape? letter = some d →
      stringBody opening (fuel + 1) (CodePoint.ofChar '\\' :: letter :: e :: rest) =
        .ok (d :: body, after) :=
    fun hu h => stringBody_backslash (escaped_short hu h) hbody
  unfold CodePoint.jsonEscaped
  split
  · next h => rw [h]; exact short (by decide) (by decide)
  split
  · next h => rw [h]; exact short (by decide) (by decide)
  split
  · next h => rw [h]; exact short (by decide) (by decide)
  split
  · next h => rw [h]; exact short (by decide) (by decide)
  split
  · next h => rw [h]; exact short (by decide) (by decide)
  split
  · next h =>
    rw [show c = CodePoint.ofNat 0x0C from Fin.ext h]
    exact short (by decide) (by decide)
  split
  · next h =>
    rw [show c = CodePoint.ofNat 0x08 from Fin.ext h]
    exact short (by decide) (by decide)
  split
  · next h => exact stringBody_backslash (escaped_control h _ _ e rest) hbody
  · next hquote hback _ _ _ _ _ hcontrol =>
    rw [List.singleton_append, stringBody, if_neg hquote, if_neg hback, if_neg hcontrol,
      hbody]

/-- **A written string is read back**, with any text after it. By induction on the string, one round for each of its
characters. -/
theorem stringBody_flatMap (opening : Text) {fuel : Nat} (t rest : Text) (h : t.length < fuel) :
    stringBody opening fuel (t.flatMap CodePoint.jsonEscaped ++ CodePoint.ofChar '"' :: rest) =
      .ok (t, rest) := by
  induction t generalizing fuel with
  | nil =>
    obtain ⟨fuel, rfl⟩ : ∃ n, fuel = n + 1 := ⟨fuel - 1, by simp at h; omega⟩
    rw [List.flatMap_nil, List.nil_append, stringBody, if_pos rfl]
  | cons c t ih =>
    obtain ⟨fuel, rfl⟩ : ∃ n, fuel = n + 1 := ⟨fuel - 1, by simp at h; omega⟩
    -- What follows the escape is not empty: the closing quote stands there at the latest.
    obtain ⟨e, more, hmore⟩ : ∃ e more,
        t.flatMap CodePoint.jsonEscaped ++ CodePoint.ofChar '"' :: rest = e :: more :=
      List.exists_cons_of_ne_nil (by simp)
    have hrest := @ih fuel (by simp at h; omega)
    rw [hmore] at hrest
    rw [List.flatMap_cons, List.append_assoc, hmore, stringBody_jsonEscaped c hrest]

/-- An escape is at least as long as what it stands for, so the fuel lasts. -/
theorem length_le_length_flatMap (t : Text) : t.length ≤ (t.flatMap CodePoint.jsonEscaped).length := by
  induction t with
  | nil => simp
  | cons c t ih =>
    have hpos : 0 < c.jsonEscaped.length := by
      unfold CodePoint.jsonEscaped
      repeat' split
      all_goals simp [Text.ofString]
    rw [List.flatMap_cons, List.length_append, List.length_cons]
    omega

/-- The same with the fuel that the reader takes. -/
theorem string_quotedString (t rest : Text) (opening : Text) :
    string opening (t.flatMap CodePoint.jsonEscaped ++ CodePoint.ofChar '"' :: rest) = .ok (t, rest) := by
  have hlen := length_le_length_flatMap t
  refine stringBody_flatMap opening t rest ?_
  rw [List.length_append, List.length_cons]
  omega

/-! ## White space -/

theorem skipSpace_append {s t : Text} (hs : ∀ c ∈ s, isSpace c = true) :
    skipSpace (s ++ t) = skipSpace t := List.dropWhile_append_of_pos hs

theorem skipSpace_cons {c : CodePoint} {t : Text} (hc : isSpace c = false) :
    skipSpace (c :: t) = c :: t := by
  rw [skipSpace, List.dropWhile_cons, hc]
  rfl

/-- The indentation of a layout is white space. Nothing else is asked of it: it may be of any length, and of spaces,
tabs or line ends. -/
def Layout.IsBlank : Layout → Prop
  | .compact => True
  | .lines indent => ∀ c ∈ indent, isSpace c = true

theorem Layout.IsBlank.lineBreak {layout : Layout} (h : layout.IsBlank) (depth : Nat) :
    ∀ c ∈ layout.lineBreak depth, isSpace c = true := by
  cases layout with
  | compact => simp [Layout.lineBreak]
  | lines indent =>
    intro c hc
    rw [Layout.lineBreak, List.mem_cons, List.mem_flatten] at hc
    rcases hc with rfl | ⟨part, hpart, hc⟩
    · decide
    · rw [List.mem_replicate] at hpart
      exact h c (hpart.2 ▸ hc)

/-- What stands between a name and its value is a colon and white space. -/
theorem Layout.colon_eq (layout : Layout) :
    ∃ blank : Text, layout.colon = CodePoint.ofChar ':' :: blank ∧ ∀ c ∈ blank, isSpace c = true := by
  cases layout with
  | compact => exact ⟨[], rfl, by simp⟩
  | lines indent =>
    refine ⟨[CodePoint.ofChar ' '], rfl, fun c hc => ?_⟩
    rw [List.mem_singleton.1 hc]
    decide

/-! ## Numbers and words -/

/-- Whether a character after a whole number would be read as part of it. -/
def continuesNumber (c : CodePoint) : Bool := c.isAsciiDigit || c = '.' || c = 'e' || c = 'E'

/-- What may stand after a number without being read as part of it. A number has no closing mark, so this has to be
known of what follows. -/
def EndsNumber (rest : Text) : Prop := ∀ c ∈ rest.head?, continuesNumber c = false

theorem endsNumber_cons {c : CodePoint} (h : continuesNumber c = false) (rest : Text) :
    EndsNumber (c :: rest) := by
  intro d hd
  obtain rfl : c = d := by simpa using hd
  exact h

theorem isAsciiDigit_ofNat {n : Nat} {c : CodePoint} (h : c ∈ Text.ofNat n) : c.isAsciiDigit = true := by
  obtain ⟨d, hd, rfl⟩ := List.mem_map.1 h
  have hdigit := Nat.isDigit_of_mem_toDigits (by decide) (by decide) hd
  rw [Char.isDigit, Bool.and_eq_true, decide_eq_true_eq, decide_eq_true_eq] at hdigit
  rw [CodePoint.isAsciiDigit, Bool.and_eq_true, decide_eq_true_eq, decide_eq_true_eq]
  exact hdigit

theorem digitsValue_ofNat (n : Nat) : digitsValue (Text.ofNat n) = n := by
  have h := @Nat.ofDigitChars_ten_toDigits n
  rw [Nat.ofDigitChars_eq_foldl] at h
  rw [digitsValue, Text.ofNat, List.foldl_map]
  refine Eq.trans ?_ h
  congr 1
  funext m d
  rw [Nat.mul_comm]
  rfl

/-- The digits of a number do not begin with a zero, but for zero itself. The reader takes a zero at the front for all
of the number and reads no digit behind it. -/
theorem toDigits_head {n : Nat} (hn : 0 < n) : (Nat.toDigits 10 n).head? ≠ some '0' := by
  induction n using Nat.strongRecOn with
  | ind n ih =>
    rw [Nat.toDigits_eq_if (by decide)]
    split
    · next hlt =>
      have : ∀ m < 10, 0 < m → [m.digitChar].head? ≠ some '0' := by decide
      exact this n hlt hn
    · next hge =>
      have hrest := ih (n / 10) (by omega) (by omega)
      cases hd : Nat.toDigits 10 (n / 10) with
      | nil => exact absurd hd Nat.toDigits_ne_nil
      | cons d digits => rwa [hd] at hrest

theorem span_digits {digits rest : Text} (hd : ∀ c ∈ digits, c.isAsciiDigit = true)
    (hrest : EndsNumber rest) :
    (digits ++ rest).span CodePoint.isAsciiDigit = (digits, rest) := by
  have hstop : rest.takeWhile CodePoint.isAsciiDigit = [] ∧ rest.dropWhile CodePoint.isAsciiDigit = rest := by
    cases rest with
    | nil => exact ⟨rfl, rfl⟩
    | cons c rest =>
      have hc : c.isAsciiDigit = false := by
        have := hrest c rfl
        simp only [continuesNumber, Bool.or_eq_false_iff] at this
        exact this.1.1.1
      exact ⟨by rw [List.takeWhile_cons, hc]; rfl, by rw [List.dropWhile_cons, hc]; rfl⟩
  rw [List.span_eq_takeWhile_dropWhile, List.takeWhile_append_of_pos hd, List.dropWhile_append_of_pos hd,
    hstop.1, hstop.2, List.append_nil]

/-- All digits of a written number are read, and none behind them. -/
theorem wholeDigits?_ofNat {rest : Text} (n : Nat) (hrest : EndsNumber rest) :
    wholeDigits? (Text.ofNat n ++ rest) = some (Text.ofNat n, rest) := by
  rcases Nat.eq_zero_or_pos n with rfl | hn
  · rfl
  · have hspan := span_digits (fun c => @isAsciiDigit_ofNat n c) hrest
    cases hdigits : Nat.toDigits 10 n with
    | nil => exact absurd hdigits Nat.toDigits_ne_nil
    | cons d digits =>
      have hzero : CodePoint.ofChar d ≠ CodePoint.ofChar '0' := by
        intro h
        have hval : (CodePoint.ofChar d).val = (CodePoint.ofChar '0').val := by rw [h]
        have hd : d = '0' := Char.ext (UInt32.toNat_inj.1 hval)
        exact toDigits_head hn (by rw [hdigits, hd]; rfl)
      have htext : Text.ofNat n = CodePoint.ofChar d :: digits.map CodePoint.ofChar := by
        rw [Text.ofNat, hdigits]; rfl
      have hdigit : (CodePoint.ofChar d).isAsciiDigit = true :=
        @isAsciiDigit_ofNat n _ (by rw [htext]; exact List.mem_cons_self)
      rw [htext, List.cons_append] at hspan ⊢
      rw [wholeDigits?, if_neg hzero, if_pos hdigit, hspan]

/-- Neither a fraction nor an exponent begins after a number. -/
theorem EndsNumber.no_more {rest : Text} (h : EndsNumber rest) :
    fraction? rest = none ∧ exponent? rest = none := by
  cases rest with
  | nil => exact ⟨rfl, rfl⟩
  | cons c rest =>
    have hc := h c rfl
    simp only [continuesNumber, Bool.or_eq_false_iff, decide_eq_false_iff_not] at hc
    obtain ⟨⟨⟨_, hdot⟩, he⟩, hE⟩ := hc
    exact ⟨by simp [fraction?, hdot], by simp [exponent?, he, hE]⟩

theorem ofNat_eq_cons (n : Nat) :
    ∃ c digits, Text.ofNat n = c :: digits ∧ c.isAsciiDigit = true := by
  cases h : Text.ofNat n with
  | nil => exact absurd (List.map_eq_nil_iff.1 h) Nat.toDigits_ne_nil
  | cons c digits => exact ⟨c, digits, rfl, @isAsciiDigit_ofNat n c (by rw [h]; exact List.mem_cons_self)⟩

theorem ne_of_isAsciiDigit {c d : CodePoint} (hc : c.isAsciiDigit = true) (hd : d.isAsciiDigit = false) :
    c ≠ d := by
  rintro rfl
  rw [hc] at hd
  exact absurd hd (by decide)

/-- **A written whole number is read back**, if it is within the limit. The limit is on its digits, and the reader
refuses longer ones with an error of their own. -/
theorem number_ofInt {n : Int} {rest : Text} (hn : (Text.ofNat n.natAbs).length ≤ Number.maxDigits)
    (hrest : EndsNumber rest) : number (Text.ofInt n ++ rest) = .ok (.int n, rest) := by
  obtain ⟨hfraction, hexponent⟩ := hrest.no_more
  have hlimit := Nat.not_lt.2 hn
  cases n with
  | ofNat n =>
    obtain ⟨c, digits, htext, hc⟩ := ofNat_eq_cons n
    have hwhole := wholeDigits?_ofNat n hrest
    have hminus : c ≠ CodePoint.ofChar '-' := ne_of_isAsciiDigit hc (by decide)
    have hvalue := digitsValue_ofNat n
    rw [Int.ofNat_eq_natCast, Int.natAbs_natCast] at hlimit
    rw [Text.ofInt]
    rw [htext] at hwhole hvalue hlimit ⊢
    rw [List.cons_append] at hwhole ⊢
    simp only [number, if_neg hminus, hwhole, hfraction, hexponent, Option.getD_none, if_neg hlimit, hvalue,
      if_true, Bool.false_eq_true, if_false]
    rfl
  | negSucc n =>
    have hwhole := wholeDigits?_ofNat (n + 1) hrest
    have hvalue := digitsValue_ofNat (n + 1)
    rw [Int.natAbs_negSucc] at hlimit
    rw [Text.ofInt, List.cons_append]
    simp only [number, hwhole, hfraction, hexponent, Option.getD_none, if_neg hlimit, hvalue, if_true]
    rfl

/-- No word begins with a digit, nor with a minus before one. -/
theorem word?_ofInt (n : Int) (rest : Text) : word? (Text.ofInt n ++ rest) = none := by
  have hdigit : ∀ m, ∃ c digits, Text.ofNat m = c :: digits ∧
      ∀ d : CodePoint, d.isAsciiDigit = false → d ≠ c := by
    intro m
    obtain ⟨c, digits, htext, hc⟩ := ofNat_eq_cons m
    exact ⟨c, digits, htext, fun d hd => (ne_of_isAsciiDigit hc hd).symm⟩
  cases n with
  | ofNat n =>
    obtain ⟨c, digits, htext, hc⟩ := hdigit n
    simp [Text.ofInt, htext, word?, words, Text.ofString, hc (CodePoint.ofChar 'n') rfl,
      hc (CodePoint.ofChar 't') rfl, hc (CodePoint.ofChar 'f') rfl, hc (CodePoint.ofChar 'N') rfl,
      hc (CodePoint.ofChar 'I') rfl, hc (CodePoint.ofChar '-') rfl]
  | negSucc n =>
    obtain ⟨c, digits, htext, hc⟩ := hdigit (n + 1)
    have hminus : ∀ d : CodePoint, d.val ≠ (CodePoint.ofChar '-').val → d ≠ CodePoint.ofChar '-' :=
      fun d hd h => hd (by rw [h])
    simp [Text.ofInt, htext, word?, words, Text.ofString, hc (CodePoint.ofChar 'I') rfl,
      hminus (CodePoint.ofChar 'n') (by decide), hminus (CodePoint.ofChar 't') (by decide),
      hminus (CodePoint.ofChar 'f') (by decide), hminus (CodePoint.ofChar 'N') (by decide),
      hminus (CodePoint.ofChar 'I') (by decide)]

/-! ## Values -/

/-- Values that are read back as they were written: they hold no floats and no whole number beyond the reader's limit,
and the members of an object have different names. -/
inductive Plain : Json → Prop where
  | null : Plain .null
  | bool (b : Bool) : Plain (.bool b)
  | int {n : Int} (h : (Text.ofNat n.natAbs).length ≤ Number.maxDigits) : Plain (.int n)
  | str (t : Text) : Plain (.str t)
  | arr {items : List Json} (h : ∀ v ∈ items, Plain v) : Plain (.arr items)
  | obj {members : Members} (distinct : (members.map Prod.fst).Nodup)
      (h : ∀ m ∈ members, Plain m.2) : Plain (.obj members)

/-- **What a written value begins with**: an ASCII character that is no white space and closes no
bracket. -/
theorem Plain.renderAt_eq_cons {v : Json} (h : Plain v) (layout : Layout) (depth : Nat) :
    ∃ c rest, renderAt layout depth v = c :: rest ∧ isSpace c = false ∧ c ≠ CodePoint.ofChar ']' ∧
      c.val < 0x80 := by
  cases h with
  | null => exact ⟨_, _, rfl, by decide, by decide, by decide⟩
  | bool b => cases b <;> exact ⟨_, _, rfl, by decide, by decide, by decide⟩
  | @int n h =>
    cases n with
    | ofNat n =>
      obtain ⟨c, digits, htext, hc⟩ := ofNat_eq_cons n
      have hval : 0x30 ≤ c.val ∧ c.val ≤ 0x39 := by simpa [CodePoint.isAsciiDigit] using hc
      refine ⟨c, digits, htext, ?_, ne_of_isAsciiDigit hc (by decide), by omega⟩
      simp [isSpace, ne_of_isAsciiDigit hc (show (CodePoint.ofChar ' ').isAsciiDigit = false from rfl),
        ne_of_isAsciiDigit hc (show (CodePoint.ofChar '\t').isAsciiDigit = false from rfl),
        ne_of_isAsciiDigit hc (show (CodePoint.ofChar '\n').isAsciiDigit = false from rfl),
        ne_of_isAsciiDigit hc (show (CodePoint.ofChar '\r').isAsciiDigit = false from rfl)]
    | negSucc n => exact ⟨_, _, rfl, by decide, by decide, by decide⟩
  | str t => exact ⟨_, _, rfl, by decide, by decide, by decide⟩
  | @arr items h => cases items <;> exact ⟨_, _, rfl, by decide, by decide, by decide⟩
  | @obj members distinct h =>
    rcases members with _ | ⟨⟨name, value⟩, members⟩ <;> exact ⟨_, _, rfl, by decide, by decide, by decide⟩

/-- A written value stands at the beginning of a text after white space is passed over. -/
theorem Plain.skipSpace_renderAt {v : Json} (h : Plain v) (layout : Layout) (depth : Nat) {blank : Text}
    (hblank : ∀ c ∈ blank, isSpace c = true) (rest : Text) :
    skipSpace (blank ++ (renderAt layout depth v ++ rest)) = renderAt layout depth v ++ rest := by
  obtain ⟨c, tail, htext, hc, _⟩ := h.renderAt_eq_cons layout depth
  rw [skipSpace_append hblank, htext, List.cons_append, skipSpace_cons hc]

theorem continuesNumber_of_isSpace {c : CodePoint} (h : isSpace c = true) : continuesNumber c = false := by
  simp only [isSpace, Bool.or_eq_true, decide_eq_true_eq] at h
  rcases h with ((rfl | rfl) | rfl) | rfl
  · decide
  · decide
  · decide
  · decide

/-- A line break and a bracket or comma after it end a number. -/
theorem endsNumber_lineBreak (layout : Layout) (depth : Nat) {c : CodePoint}
    (h : continuesNumber c = false) (rest : Text) : EndsNumber (layout.lineBreak depth ++ c :: rest) := by
  cases layout with
  | compact => exact endsNumber_cons h rest
  | lines indent => exact endsNumber_cons (by decide) _

/-- The reader takes back the value in this layout, with any text after it that ends a number. The fuel is any that is
as long as what was written. -/
def Reads (layout : Layout) (v : Json) : Prop :=
  ∀ (depth fuel : Nat) (rest : Text), (renderAt layout depth v).length ≤ fuel → EndsNumber rest →
    value fuel (renderAt layout depth v ++ rest) = .ok (v, rest)

/-- The items of an array, up to the text that closes it. By induction on the items; each is read by the hypothesis
about it, and leaves a comma or the bracket. -/
theorem elements_render {layout : Layout} (hl : layout.IsBlank) (depth : Nat) {closing rest : Text}
    (hclosing : skipSpace closing = CodePoint.ofChar ']' :: rest) (hends : EndsNumber closing)
    {item : Json} {items : List Json} {fuel : Nat} (hplain : ∀ v ∈ item :: items, Plain v)
    (hreads : ∀ v ∈ item :: items, Reads layout v)
    (hfuel : (renderAt layout depth item).length + (renderItems layout depth items).length < fuel) :
    elements fuel (renderAt layout depth item ++ (renderItems layout depth items ++ closing)) =
      .ok (item :: items, rest) := by
  induction items generalizing item fuel with
  | nil =>
    obtain ⟨fuel, rfl⟩ : ∃ n, fuel = n + 1 := ⟨fuel - 1, by omega⟩
    have hvalue := hreads item List.mem_cons_self depth fuel closing (by omega) hends
    rw [elements, renderItems, List.nil_append, hvalue]
    dsimp only
    rw [hclosing]
    rfl
  | cons next items ih =>
    obtain ⟨fuel, rfl⟩ : ∃ n, fuel = n + 1 := ⟨fuel - 1, by omega⟩
    have htext : renderItems layout depth (next :: items) ++ closing = CodePoint.ofChar ',' ::
        (layout.lineBreak depth ++ (renderAt layout depth next ++
          (renderItems layout depth items ++ closing))) := by
      simp [renderItems, Text.ofString]
    have hlen : (renderItems layout depth (next :: items)).length =
        1 + (layout.lineBreak depth).length + (renderAt layout depth next).length +
          (renderItems layout depth items).length := by
      simp [renderItems, Text.ofString]
      omega
    -- The comma behind the item ends it, even if it is a number.
    have hvalue := fun t => hreads item List.mem_cons_self depth fuel (CodePoint.ofChar ',' :: t)
      (by omega) (endsNumber_cons (by decide) t)
    have hrest := @ih next fuel (fun v hv => hplain v (List.mem_cons_of_mem _ hv))
      (fun v hv => hreads v (List.mem_cons_of_mem _ hv)) (by omega)
    have hnext := (hplain next (by simp)).skipSpace_renderAt layout depth (hl.lineBreak depth)
      (renderItems layout depth items ++ closing)
    rw [htext, elements, hvalue]
    dsimp only
    rw [skipSpace_cons (by decide)]
    dsimp only
    rw [if_neg (by decide), if_pos rfl, hnext, hrest]

/-- A name that is not there yet is put at the end, so members come back in order. -/
theorem Members.set_of_new {name : Text} {members : Members} (value : Json)
    (h : name ∉ members.map Prod.fst) : members.set name value = members ++ [(name, value)] := by
  induction members with
  | nil => rfl
  | cons m members ih =>
    rw [List.map_cons, List.mem_cons, not_or] at h
    have hne : (m.1 == name) = false := beq_eq_false_iff_ne.2 (Ne.symm h.1)
    rw [Members.set, hne, ih h.2]
    rfl

/-- The name and value of one member, up to the text that follows the value. -/
def renderMember (layout : Layout) (depth : Nat) (m : Text × Json) : Text :=
  quotedString m.1 ++ layout.colon ++ renderAt layout depth m.2

theorem length_value_le {layout : Layout} {depth n fuel : Nat} {m : Text × Json}
    (h : (renderMember layout depth m).length + n < fuel + 1) :
    (renderAt layout depth m.2).length ≤ fuel := by
  rw [renderMember, List.length_append] at h
  omega

/-- **One member is read back.** The reader is left with the text after the value. -/
theorem members_renderMember {layout : Layout} {depth fuel : Nat} {m : Text × Json}
    (hplain : Plain m.2) (hreads : Reads layout m.2) (hfuel : (renderAt layout depth m.2).length ≤ fuel)
    {after rest : Text} (hends : EndsNumber after) {c : CodePoint} (hafter : skipSpace after = c :: rest)
    {before : Members} (hnew : m.1 ∉ before.map Prod.fst) :
    members (fuel + 1) before (renderMember layout depth m ++ after) =
      if c.val = 0x7D then .ok (before ++ [m], rest)
      else if c = ',' then members fuel (before ++ [m]) (skipSpace rest)
      else .error (.problem .comma (c :: rest)) := by
  obtain ⟨blank, hcolon, hblank⟩ := layout.colon_eq
  have htext : renderMember layout depth m ++ after = CodePoint.ofChar '"' ::
      (m.1.flatMap CodePoint.jsonEscaped ++ CodePoint.ofChar '"' ::
        (CodePoint.ofChar ':' :: (blank ++ (renderAt layout depth m.2 ++ after)))) := by
    simp [renderMember, quotedString, hcolon]
  rw [htext, members, if_pos rfl, string_quotedString]
  dsimp only
  rw [skipSpace_cons (by decide)]
  dsimp only
  rw [if_pos rfl, hplain.skipSpace_renderAt layout depth hblank, hreads depth fuel after hfuel hends]
  dsimp only
  rw [hafter, Members.set_of_new m.2 hnew]

/-- Where all names differ, that of a member is not among those before it. -/
theorem name_notMem_before {m : Text × Json} {before after : Members}
    (h : ((before ++ m :: after).map Prod.fst).Nodup) : m.1 ∉ before.map Prod.fst := by
  rw [List.map_append, List.nodup_append] at h
  exact fun hmem => h.2.2 m.1 hmem m.1 (by simp) rfl

/-- The members of an object, up to the text that closes it. -/
theorem members_render {layout : Layout} (hl : layout.IsBlank) (depth : Nat) {closing rest : Text}
    {brace : CodePoint} (hbrace : brace.val = 0x7D) (hclosing : skipSpace closing = brace :: rest)
    (hends : EndsNumber closing) {m : Text × Json} {ms before : Members} {fuel : Nat}
    (hplain : ∀ x ∈ m :: ms, Plain x.2) (hreads : ∀ x ∈ m :: ms, Reads layout x.2)
    (hdistinct : ((before ++ m :: ms).map Prod.fst).Nodup)
    (hfuel : (renderMember layout depth m).length + (renderMembers layout depth ms).length < fuel) :
    members fuel before (renderMember layout depth m ++ (renderMembers layout depth ms ++ closing)) =
      .ok (before ++ m :: ms, rest) := by
  -- The reader has `before` in hand and adds to its end, so the list of what is read grows as that of
  -- what is left shrinks.
  induction ms generalizing m before fuel with
  | nil =>
    obtain ⟨fuel, rfl⟩ : ∃ n, fuel = n + 1 := ⟨fuel - 1, by omega⟩
    rw [renderMembers, List.nil_append, members_renderMember (hplain m List.mem_cons_self)
      (hreads m List.mem_cons_self) (length_value_le hfuel) hends hclosing
      (name_notMem_before hdistinct), if_pos hbrace]
  | cons next ms ih =>
    obtain ⟨fuel, rfl⟩ : ∃ n, fuel = n + 1 := ⟨fuel - 1, by omega⟩
    have htext : renderMembers layout depth (next :: ms) ++ closing = CodePoint.ofChar ',' ::
        (layout.lineBreak depth ++ (renderMember layout depth next ++
          (renderMembers layout depth ms ++ closing))) := by
      simp [renderMembers, renderMember, Text.ofString]
    have hlen : (renderMembers layout depth (next :: ms)).length =
        1 + (layout.lineBreak depth).length + (renderMember layout depth next).length +
          (renderMembers layout depth ms).length := by
      simp [renderMembers, renderMember, Text.ofString]
      omega
    have hnext : skipSpace (layout.lineBreak depth ++ (renderMember layout depth next ++
        (renderMembers layout depth ms ++ closing))) =
          renderMember layout depth next ++ (renderMembers layout depth ms ++ closing) := by
      rw [skipSpace_append (hl.lineBreak depth)]
      exact skipSpace_cons (by decide)
    have hrest := @ih next (before ++ [m]) fuel (fun x hx => hplain x (List.mem_cons_of_mem _ hx))
      (fun x hx => hreads x (List.mem_cons_of_mem _ hx)) (by simpa using hdistinct) (by omega)
    rw [htext, members_renderMember (hplain m List.mem_cons_self) (hreads m List.mem_cons_self)
      (length_value_le hfuel) (endsNumber_cons (by decide) _) (skipSpace_cons (by decide))
      (name_notMem_before hdistinct), if_neg (by decide), if_pos rfl, hnext, hrest, List.append_assoc,
      List.singleton_append]

/-- A written value is not empty, so there is fuel for a first step. -/
theorem Plain.reads_of_step {v : Json} (h : Plain v) {layout : Layout}
    (step : ∀ (depth fuel : Nat) (rest : Text), (renderAt layout depth v).length ≤ fuel + 1 →
      EndsNumber rest → value (fuel + 1) (renderAt layout depth v ++ rest) = .ok (v, rest)) :
    Reads layout v := by
  intro depth fuel rest hfuel hends
  obtain ⟨c, tail, htext, _⟩ := h.renderAt_eq_cons layout depth
  obtain ⟨fuel, rfl⟩ : ∃ n, fuel = n + 1 := by
    rw [htext, List.length_cons] at hfuel
    exact ⟨fuel - 1, by omega⟩
  exact step depth fuel rest hfuel hends

/-- One lemma for each kind of value; together they are the cases of the induction below. -/
theorem reads_int {n : Int} (h : (Text.ofNat n.natAbs).length ≤ Number.maxDigits) (layout : Layout) :
    Reads layout (.int n) := by
  refine (Plain.int h).reads_of_step fun depth fuel rest hfuel hends => ?_
  have hnumber := number_ofInt h hends
  have hword := word?_ofInt n rest
  obtain ⟨c, tail, htext, hc⟩ : ∃ c tail, Text.ofInt n = c :: tail ∧
      (c.isAsciiDigit = true ∨ c = CodePoint.ofChar '-') := by
    cases n with
    | ofNat n =>
      obtain ⟨c, digits, htext, hc⟩ := ofNat_eq_cons n
      exact ⟨c, digits, htext, .inl hc⟩
    | negSucc n => exact ⟨_, _, rfl, .inr rfl⟩
  have hne : ∀ d : CodePoint, d.isAsciiDigit = false → d ≠ CodePoint.ofChar '-' → c ≠ d := by
    rintro d hd hminus rfl
    rcases hc with hc | hc
    · exact ne_of_isAsciiDigit hc hd rfl
    · exact hminus hc
  have hbrace : c.val ≠ 0x7B := fun hval =>
    hne (CodePoint.ofNat 0x7B) (by decide) (by decide) (Fin.ext hval)
  rw [renderAt]
  rw [htext, List.cons_append] at hnumber hword ⊢
  rw [value, if_neg (hne _ (by decide) (by decide)), if_neg hbrace,
    if_neg (hne _ (by decide) (by decide)), hword]
  exact hnumber

theorem reads_str (t : Text) (layout : Layout) : Reads layout (.str t) := by
  refine (Plain.str t).reads_of_step fun depth fuel rest _ _ => ?_
  have htext : renderAt layout depth (.str t) ++ rest = CodePoint.ofChar '"' ::
      (t.flatMap CodePoint.jsonEscaped ++ CodePoint.ofChar '"' :: rest) := by
    simp [renderAt, quotedString]
  rw [htext, value, if_pos rfl, string_quotedString]

theorem reads_arr {items : List Json} {layout : Layout} (hl : layout.IsBlank)
    (h : ∀ v ∈ items, Plain v) (hreads : ∀ v ∈ items, Reads layout v) : Reads layout (.arr items) := by
  refine (Plain.arr h).reads_of_step fun depth fuel rest hfuel _ => ?_
  cases items with
  | nil => rfl
  | cons item items =>
    have htext : renderAt layout depth (.arr (item :: items)) ++ rest = CodePoint.ofChar '[' ::
        (layout.lineBreak (depth + 1) ++ (renderAt layout (depth + 1) item ++
          (renderItems layout (depth + 1) items ++
            (layout.lineBreak depth ++ CodePoint.ofChar ']' :: rest)))) := by
      simp [renderAt, Text.ofString]
    have hlen : (renderAt layout (depth + 1) item).length +
        (renderItems layout (depth + 1) items).length < fuel := by
      simp [renderAt, Text.ofString] at hfuel
      omega
    have hclosing : skipSpace (layout.lineBreak depth ++ CodePoint.ofChar ']' :: rest) =
        CodePoint.ofChar ']' :: rest := by
      rw [skipSpace_append (hl.lineBreak depth), skipSpace_cons (by decide)]
    have helements := elements_render hl (depth + 1) hclosing
      (endsNumber_lineBreak layout depth (by decide) rest) h hreads hlen
    have hitem := h item List.mem_cons_self
    -- The array is not empty, since no value begins with the closing bracket.
    obtain ⟨c, tail, hc, _, hbracket, _⟩ := hitem.renderAt_eq_cons layout (depth + 1)
    rw [htext, value, if_neg (by decide), if_neg (by decide), if_pos rfl,
      hitem.skipSpace_renderAt layout (depth + 1) (hl.lineBreak (depth + 1))]
    rw [hc, List.cons_append] at helements ⊢
    dsimp only
    rw [if_neg hbracket, helements]

theorem reads_obj {ms : Members} {layout : Layout} (hl : layout.IsBlank)
    (distinct : (ms.map Prod.fst).Nodup) (h : ∀ m ∈ ms, Plain m.2)
    (hreads : ∀ m ∈ ms, Reads layout m.2) : Reads layout (.obj ms) := by
  refine (Plain.obj distinct h).reads_of_step fun depth fuel rest hfuel _ => ?_
  rcases ms with _ | ⟨⟨name, v⟩, ms⟩
  · rfl
  · have htext : renderAt layout depth (.obj ((name, v) :: ms)) ++ rest = CodePoint.ofChar '\x7b' ::
        (layout.lineBreak (depth + 1) ++ (renderMember layout (depth + 1) (name, v) ++
          (renderMembers layout (depth + 1) ms ++
            (layout.lineBreak depth ++ CodePoint.ofChar '\x7d' :: rest)))) := by
      simp [renderAt, renderMember, Text.ofString]
    have hlen : (renderMember layout (depth + 1) (name, v)).length +
        (renderMembers layout (depth + 1) ms).length < fuel := by
      simp [renderAt, Text.ofString] at hfuel
      simp [renderMember]
      omega
    have hclosing : skipSpace (layout.lineBreak depth ++ CodePoint.ofChar '\x7d' :: rest) =
        CodePoint.ofChar '\x7d' :: rest := by
      rw [skipSpace_append (hl.lineBreak depth), skipSpace_cons (by decide)]
    have hmembers := @members_render layout hl (depth + 1) _ rest (CodePoint.ofChar '\x7d') rfl hclosing
      (endsNumber_lineBreak layout depth (by decide) rest) (name, v) ms [] fuel h hreads distinct hlen
    have hquote : skipSpace (layout.lineBreak (depth + 1) ++ (renderMember layout (depth + 1) (name, v) ++
        (renderMembers layout (depth + 1) ms ++
          (layout.lineBreak depth ++ CodePoint.ofChar '\x7d' :: rest)))) =
        renderMember layout (depth + 1) (name, v) ++ (renderMembers layout (depth + 1) ms ++
          (layout.lineBreak depth ++ CodePoint.ofChar '\x7d' :: rest)) := by
      rw [skipSpace_append (hl.lineBreak (depth + 1))]
      exact skipSpace_cons (by decide)
    -- The object is not empty, since a member begins with a quote and not with the closing brace.
    rw [htext, value, if_neg (by decide), if_pos (by decide), hquote]
    obtain ⟨c, tail, hc, hne⟩ : ∃ c tail, renderMember layout (depth + 1) (name, v) = c :: tail ∧
        c.val ≠ 0x7D := ⟨_, _, rfl, by decide⟩
    rw [hc, List.cons_append] at hmembers ⊢
    dsimp only
    rw [if_neg hne, hmembers, List.nil_append]

/-- **A written value is read back.** The cases for arrays and objects hand their parts to the lemmas on
items and members; an opening bracket pays for the step into them. -/
theorem Plain.reads {v : Json} (h : Plain v) {layout : Layout} (hl : layout.IsBlank) : Reads layout v := by
  induction h with
  | null => exact Plain.null.reads_of_step fun depth fuel rest _ _ => rfl
  | bool b => exact (Plain.bool b).reads_of_step fun depth fuel rest _ _ => by cases b <;> rfl
  | int h => exact reads_int h layout
  | str t => exact reads_str t layout
  | arr h ih => exact reads_arr hl h ih
  | obj distinct h ih => exact reads_obj hl distinct h ih

/-- **Reading undoes writing**, with white space after the document too. -/
theorem parse_render {v : Json} (h : Plain v) {layout : Layout} (hl : layout.IsBlank) {blank : Text}
    (hblank : ∀ c ∈ blank, isSpace c = true) : parse (render layout v ++ blank) = .ok v := by
  obtain ⟨c, tail, htext, hspace, _, hascii⟩ := h.renderAt_eq_cons layout 0
  -- A byte order mark is refused; the text begins with an ASCII character instead.
  have hbom : [CodePoint.ofNat 0xFEFF].isPrefixOf (renderAt layout 0 v ++ blank) = false := by
    rw [htext, List.cons_append, List.isPrefixOf, List.isPrefixOf, Bool.and_true, beq_eq_false_iff_ne]
    rintro rfl
    exact absurd hascii (by decide)
  have hends : EndsNumber blank := fun d hd => continuesNumber_of_isSpace (hblank d (List.mem_of_mem_head? hd))
  have hvalue := h.reads hl 0 (2 * (renderAt layout 0 v ++ blank).length + 2) blank
    (by rw [List.length_append]; omega) hends
  have hskip := h.skipSpace_renderAt layout 0 (show ∀ c ∈ ([] : Text), isSpace c = true by simp) blank
  rw [List.nil_append] at hskip
  have hblank' : skipSpace blank = [] := by
    have := @skipSpace_append blank [] hblank
    rwa [List.append_nil] at this
  rw [parse, render, whole, hbom, hskip, hvalue]
  simp [hblank', Except.mapError]

end Json

end HeaderAtlas
