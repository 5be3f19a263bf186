import HeaderAtlas.Json.Reader
import Mathlib.Data.List.TakeDrop
import Mathlib.Data.List.TakeWhile
/-!
# What readers leave

A reader that succeeds leaves an end of the text it was given, and has taken at least one character. So twice the
length of a text is enough fuel for the values in it, and more changes nothing (`Json.value_eq_of_le`).

A reader that fails stops at an end of the document. The offset in the message is therefore where that end begins, and
the line and the column are those of the offset (`Json.parse_eq_malformed`).

Both are one property, `Within`, of what a reader answers, and it is proved once for each reader, from the digits up
to the value. It has two parts since a reader hands on two things: the text behind what it has read, which has to be
an end of its own text, and the place of a fault, which has to be an end of the whole document, wherever in it the
reader was called. The fuel comes last. Its bound is twice the length and not the length, because the first item of a
list is read from the same text as the list, with a unit of fuel less.
-/

set_option autoImplicit false

namespace HeaderAtlas

namespace Json

variable {α β : Type} {doc t u place rest opening : Text} {a : α} {stop : Stop} {what : Problem}

/-! ## Ends of texts -/

/-- A reader leaves an end of the text `u`, or stops at an end of the document. -/
structure Within (doc u : Text) (r : Except Stop (α × Text)) : Prop where
  left : ∀ a rest, r = .ok (a, rest) → rest <:+ u
  stops : ∀ what place, r = .error (.problem what place) → place <:+ doc

namespace Within

protected theorem ok (h : rest <:+ u) : Within doc u (.ok (a, rest)) where
  left := by rintro _ _ ⟨⟩; exact h
  stops := nofun

theorem problem (h : place <:+ doc) : Within doc u (.error (.problem what place) : Except Stop (α × Text)) where
  left := nofun
  stops := by rintro _ _ ⟨⟩; exact h

/-- A stop is passed on. -/
protected theorem error (h : Within doc u (.error stop : Except Stop (α × Text))) {v : Text} :
    Within doc v (.error stop : Except Stop (β × Text)) where
  left := nofun
  stops := by rintro what place ⟨⟩; exact h.stops what place rfl

/-- What is left of an end of a text is an end of the text too. Readers call others behind their first character, so
this is used at nearly every call. -/
theorem mono {r : Except Stop (α × Text)} {v : Text} (h : Within doc u r) (huv : u <:+ v) : Within doc v r where
  left a rest hr := (h.left a rest hr).trans huv
  stops := h.stops

/-- The bound that the fuel is measured with. It is stated for what is left behind the first character, as every value
takes one. -/
theorem length_le {r : Except Stop (α × Text)} (h : Within doc u.tail r) (hr : r = .ok (a, rest)) :
    rest.length ≤ u.length - 1 := by
  rw [← List.length_tail]
  exact (h.left a rest hr).length_le

end Within

theorem skipSpace_suffix (t : Text) : skipSpace t <:+ t := List.dropWhile_suffix _

theorem suffix_of_skipSpace {c : CodePoint} (h : skipSpace t = c :: rest) : c :: rest <:+ t := h ▸ skipSpace_suffix t

/-! ## Strings -/

/-- Four hexadecimal digits, or a stop at the place that the caller names. -/
theorem within_unit (hplace : place <:+ doc) : Within doc t (unit place t) := by
  unfold unit
  split
  · next a b c d e rest =>
    split
    · exact .ok ⟨[a, b, c, d], rfl⟩
    · exact .problem hplace
  · exact .problem hplace

/-- The second half of a surrogate pair. Where it is not one, it is left to be read again, so nothing need be
taken here. -/
theorem within_paired (high : Nat) (ht : t <:+ doc) : Within doc t (paired high t) := by
  unfold paired
  split
  · next a b rest =>
    have hrest : rest <:+ a :: b :: rest := ⟨[a, b], rfl⟩
    split
    · have hunit : Within doc rest (unit (b :: rest) rest) := within_unit ((List.suffix_cons _ _).trans ht)
      split
      · next stop hstop => exact (hstop ▸ hunit).error
      · next low after hlow =>
        split
        · exact .ok ((hunit.left low after hlow).trans hrest)
        · exact .ok List.suffix_rfl
    · exact .ok List.suffix_rfl
  · exact .ok List.suffix_rfl

/-- An escape takes at least the character behind its backslash. Its faults are told at three places: where the string
begins, where the backslash is, and where the digits should be. -/
theorem within_escaped (hopening : opening <:+ doc) (hplace : place <:+ doc) (ht : t <:+ doc) :
    Within doc t.tail (escaped opening place t) := by
  cases t with
  | nil => exact .problem hopening
  | cons c rest =>
    rw [escaped]
    split
    · have hunit : Within doc rest (unit (c :: rest) rest) := within_unit ht
      have hrest : rest <:+ doc := (List.suffix_cons _ _).trans ht
      split
      · next stop hstop => exact (hstop ▸ hunit).error
      · next high after hhigh =>
        have hafter := hunit.left high after hhigh
        exact (within_paired high (hafter.trans hrest)).mono hafter
    · split
      · exact .ok List.suffix_rfl
      · exact .problem hplace

/-- By induction on the fuel. The closing quote ends the string; everything else takes a character or an escape and
goes on with less. -/
theorem within_stringBody (hopening : opening <:+ doc) {fuel : Nat} (ht : t <:+ doc) :
    Within doc t.tail (stringBody opening fuel t) := by
  induction fuel generalizing t with
  | zero => exact .problem hopening
  | succ fuel ih =>
    cases t with
    | nil => exact .problem hopening
    | cons c rest =>
      have hrest : rest <:+ doc := (List.suffix_cons _ _).trans ht
      rw [stringBody]
      split
      · exact .ok List.suffix_rfl
      split
      · have hescaped := (within_escaped hopening ht hrest).mono (List.tail_suffix rest)
        split
        · next stop hstop => exact (hstop ▸ hescaped).error
        next d after hd =>
        have hafter := hescaped.left d after hd
        have hbody := (ih (hafter.trans hrest)).mono ((List.tail_suffix after).trans hafter)
        split
        · next stop hstop => exact (hstop ▸ hbody).error
        · next body left hleft => exact .ok (hbody.left body left hleft)
      split
      · exact .problem ht
      · have hbody := (ih hrest).mono (List.tail_suffix rest)
        split
        · next stop hstop => exact (hstop ▸ hbody).error
        · next body left hleft => exact .ok (hbody.left body left hleft)

theorem within_string (hopening : opening <:+ doc) (ht : t <:+ doc) : Within doc t.tail (string opening t) :=
  within_stringBody hopening ht

/-! ## Numbers and words -/

theorem span_suffix (p : CodePoint → Bool) (t : Text) : (t.span p).2 <:+ t := by
  rw [List.span_eq_takeWhile_dropWhile]
  exact List.dropWhile_suffix p

/-- A whole number takes a digit: a zero by itself, or all digits up to the first character that is none. -/
theorem wholeDigits?_suffix {digits : Text} (h : wholeDigits? t = some (digits, rest)) : rest <:+ t.tail := by
  cases t with
  | nil => simp [wholeDigits?] at h
  | cons c after =>
    rw [wholeDigits?] at h
    split at h
    · obtain ⟨_, rfl⟩ := Prod.mk.inj (Option.some.inj h)
      exact List.suffix_rfl
    · split at h
      · next hdigit =>
        rw [Option.some.injEq, List.span_eq_takeWhile_dropWhile, List.dropWhile_cons_of_pos hdigit] at h
        obtain ⟨_, rfl⟩ := Prod.mk.inj h
        exact List.dropWhile_suffix _
      · simp at h

/-- A fraction that is no fraction is none, and then nothing is taken. So these lemmas speak only about what was
found. -/
theorem fraction?_suffix {digits : Text} (h : fraction? t = some (digits, rest)) : rest <:+ t := by
  cases t with
  | nil => simp [fraction?] at h
  | cons c after =>
    simp only [fraction?] at h
    split at h
    · obtain ⟨_, rfl⟩ := Prod.mk.inj (Option.some.inj h)
      exact (span_suffix _ after).trans (List.suffix_cons _ _)
    · simp at h

/-- The sign of an exponent may be absent, and is taken if it is there. -/
theorem exponent?_suffix {e : Int} (h : exponent? t = some (e, rest)) : rest <:+ t := by
  cases t with
  | nil => simp [exponent?] at h
  | cons c after =>
    simp only [exponent?] at h
    split at h
    · cases after with
      | nil => simp at h
      | cons s tail =>
        have hunsigned : (if s = CodePoint.ofChar '-' then (true, tail)
            else if s = CodePoint.ofChar '+' then (false, tail) else (false, s :: tail)).2 <:+ s :: tail := by
          split
          · exact List.suffix_cons _ _
          · split
            · exact List.suffix_cons _ _
            · exact List.suffix_rfl
        rw [Option.ite_none_left_eq_some] at h
        obtain ⟨_, rfl⟩ := Prod.mk.inj (Option.some.inj h.2)
        exact (span_suffix _ _).trans (hunsigned.trans (List.suffix_cons _ _))
    · simp at h

/-- A number takes its first character whether that is a sign or a digit; fraction and exponent only take more. -/
theorem within_number (ht : t <:+ doc) : Within doc t.tail (number t) := by
  unfold number
  split
  next negative unsigned hsign =>
  -- With or without a sign, the first character is taken.
  have hunsigned : unsigned.tail <:+ t.tail := by
    cases t with
    | nil =>
      obtain ⟨_, rfl⟩ := Prod.mk.inj hsign
      exact List.suffix_rfl
    | cons c after =>
      dsimp only at hsign
      split at hsign <;> obtain ⟨_, rfl⟩ := Prod.mk.inj hsign
      · exact List.tail_suffix _
      · exact List.suffix_rfl
  split
  · exact .problem ht
  · next whole rest hwhole =>
    have hrest := (wholeDigits?_suffix hwhole).trans hunsigned
    split
    next part after hpart =>
    have hafter : after <:+ t.tail := by
      cases hfraction : fraction? rest with
      | none =>
        rw [hfraction] at hpart
        obtain ⟨_, rfl⟩ := Prod.mk.inj hpart
        exact hrest
      | some found =>
        rw [hfraction] at hpart
        obtain rfl : found = (part, after) := hpart
        exact (fraction?_suffix hfraction).trans hrest
    split
    · next e left hexponent => exact .ok ((exponent?_suffix hexponent).trans hafter)
    · split
      · split
        · exact ⟨nofun, nofun⟩
        · exact .ok hafter
      · exact .ok hafter

/-- No word is empty, so one that was found takes a character. -/
theorem word?_suffix {v : Json} (h : word? t = some (v, rest)) : rest <:+ t.tail := by
  obtain ⟨entry, hfind, heq⟩ := Option.map_eq_some_iff.1 h
  obtain ⟨_, rfl⟩ := Prod.mk.inj heq
  have hwords : ∀ entry ∈ words, entry.1.length ≠ 0 := by decide
  obtain ⟨n, hn⟩ := Nat.exists_eq_succ_of_ne_zero (hwords entry (List.mem_of_find?_eq_some hfind))
  rw [hn, ← List.drop_tail]
  exact List.drop_suffix n _

/-! ## Values -/

mutual

/-- **A value leaves an end of its text and takes a character of it.** The three readers call each other with less
fuel, so the recursion is on that, and the text only has to stay an end of the document. -/
theorem within_value : ∀ {fuel : Nat} {t : Text}, t <:+ doc → Within doc t.tail (value fuel t)
  | 0, _, ht => .problem ht
  | _ + 1, [], ht => .problem ht
  | fuel + 1, c :: rest, ht => by
    have hrest : rest <:+ doc := (List.suffix_cons _ _).trans ht
    rw [value]
    split
    · have hstring := (within_string ht hrest).mono (List.tail_suffix rest)
      split
      · next stop hstop => exact (hstop ▸ hstring).error
      · next s after hafter => exact .ok (hstring.left s after hafter)
    split
    · split
      · exact .problem List.nil_suffix
      · next d after hd =>
        have hd := suffix_of_skipSpace hd
        have hafter := (List.suffix_cons d after).trans hd
        split
        · exact .ok hafter
        · have hmembers := (@within_members fuel [] _ (hd.trans hrest)).mono hafter
          split
          · next stop hstop => exact (hstop ▸ hmembers).error
          · next found left hleft => exact .ok (hmembers.left found left hleft)
    split
    · split
      · exact .problem List.nil_suffix
      · next d after hd =>
        have hd := suffix_of_skipSpace hd
        have hafter := (List.suffix_cons d after).trans hd
        split
        · exact .ok hafter
        · have helements := (@within_elements fuel _ (hd.trans hrest)).mono hafter
          split
          · next stop hstop => exact (hstop ▸ helements).error
          · next items left hleft => exact .ok (helements.left items left hleft)
    split
    · next found hfound => exact .ok (word?_suffix hfound)
    · exact within_number ht

theorem within_members : ∀ {fuel : Nat} {before : Members} {t : Text}, t <:+ doc →
    Within doc t.tail (members fuel before t)
  | 0, _, _, ht => .problem ht
  | _ + 1, _, [], ht => .problem ht
  | fuel + 1, before, c :: rest, ht => by
    -- What is left gets shorter from the name to the colon, the value, the comma and the other members.
    have hrest : rest <:+ doc := (List.suffix_cons _ _).trans ht
    rw [members]
    split
    · have hstring := (within_string ht hrest).mono (List.tail_suffix rest)
      split
      · next stop hstop => exact (hstop ▸ hstring).error
      next name afterName hname =>
      split
      · exact .problem List.nil_suffix
      next d afterColon hd =>
      have hd := (suffix_of_skipSpace hd).trans (hstring.left name afterName hname)
      split
      · have hspace := (skipSpace_suffix afterColon).trans ((List.suffix_cons _ _).trans hd)
        have hvalue := (@within_value fuel _ (hspace.trans hrest)).mono ((List.tail_suffix _).trans hspace)
        split
        · next stop hstop => exact (hstop ▸ hvalue).error
        next found afterValue hfound =>
        dsimp only
        split
        · exact .problem List.nil_suffix
        next e after he =>
        have he := (suffix_of_skipSpace he).trans (hvalue.left found afterValue hfound)
        have hafter := (List.suffix_cons _ _).trans he
        split
        · exact .ok hafter
        split
        · have hmore := (skipSpace_suffix after).trans hafter
          exact (@within_members fuel _ _ (hmore.trans hrest)).mono ((List.tail_suffix _).trans hmore)
        · exact .problem (he.trans hrest)
      · exact .problem (hd.trans hrest)
    · exact .problem ht

/-- A list takes its first item from where it begins itself, so its first character is the item's. -/
theorem within_elements : ∀ {fuel : Nat} {t : Text}, t <:+ doc → Within doc t.tail (elements fuel t)
  | 0, _, ht => .problem ht
  | fuel + 1, t, ht => by
    have hrest : t.tail <:+ doc := (List.tail_suffix t).trans ht
    rw [elements]
    have hvalue := @within_value fuel _ ht
    split
    · next stop hstop => exact (hstop ▸ hvalue).error
    next item afterItem hitem =>
    split
    · exact .problem List.nil_suffix
    next d after hd =>
    have hd := (suffix_of_skipSpace hd).trans (hvalue.left item afterItem hitem)
    have hafter := (List.suffix_cons _ _).trans hd
    split
    · exact .ok hafter
    split
    · have hmore := (skipSpace_suffix after).trans hafter
      have helements := (@within_elements fuel _ (hmore.trans hrest)).mono ((List.tail_suffix _).trans hmore)
      split
      · next stop hstop => exact (hstop ▸ helements).error
      · next items left hleft => exact .ok (helements.left items left hleft)
    · exact .problem (hd.trans hrest)

end

/-! ## Fuel -/

/-- More fuel than the characters of a string changes nothing. A string is not nested, so here the length itself
will do. -/
theorem stringBody_eq_of_le {fuel more : Nat} (hle : fuel ≤ more) (ht : t <:+ opening) (h : t.length ≤ fuel) :
    stringBody opening more t = stringBody opening fuel t := by
  induction fuel generalizing more t with
  | zero =>
    obtain rfl := List.length_eq_zero_iff.1 (Nat.le_zero.1 h)
    cases more <;> rfl
  | succ fuel ih =>
    obtain ⟨more, rfl⟩ : ∃ n, more = n + 1 := Nat.exists_eq_succ_of_ne_zero (by omega)
    have hle := Nat.le_of_succ_le_succ hle
    cases t with
    | nil => rfl
    | cons c rest =>
      have hrest : rest <:+ opening := (List.suffix_cons _ _).trans ht
      have hlen : rest.length ≤ fuel := Nat.le_of_succ_le_succ h
      rw [stringBody, stringBody, ih hle hrest hlen]
      rcases hescaped : escaped opening (c :: rest) rest with stop | ⟨d, after⟩
      · rfl
      · have hafter := (within_escaped List.suffix_rfl ht hrest).left d after hescaped
        have hlater := hafter.trans (List.tail_suffix rest)
        simp only [ih hle (hlater.trans hrest) (Nat.le_trans hlater.length_le hlen)]

mutual

/-- **More fuel than twice the length of a text changes nothing.** What is inside brackets is shorter by the bracket,
so it has two units less to do with and needs two less. -/
theorem value_eq_of_le : ∀ {fuel more : Nat} {t : Text}, fuel ≤ more → 2 * t.length ≤ fuel → value more t = value fuel t
  | 0, more, t, _, h => by
    obtain rfl := List.length_eq_zero_iff.1 (show t.length = 0 by omega)
    cases more <;> rfl
  | fuel + 1, 0, t, hle, _ => absurd hle (by omega)
  | fuel + 1, more + 1, [], _, _ => rfl
  | fuel + 1, more + 1, c :: rest, hle, h => by
    have hle := Nat.le_of_succ_le_succ hle
    rw [List.length_cons] at h
    rw [value, value]
    -- Only what is inside brackets is read with fuel. Where nothing follows a bracket, both sides stop.
    rcases hspace : skipSpace rest with _ | ⟨d, after⟩
    · rfl
    have hlen := (suffix_of_skipSpace hspace).length_le
    dsimp only
    rw [@members_eq_of_le fuel more [] (d :: after) hle (by omega),
      @elements_eq_of_le fuel more (d :: after) hle (by omega)]

/-- A member begins with its name, so what is left for its value is shorter than the members are. -/
theorem members_eq_of_le : ∀ {fuel more : Nat} {before : Members} {t : Text}, fuel ≤ more → 2 * t.length ≤ fuel →
    members more before t = members fuel before t
  | 0, more, before, t, _, h => by
    obtain rfl := List.length_eq_zero_iff.1 (show t.length = 0 by omega)
    cases more <;> rfl
  | fuel + 1, 0, before, t, hle, _ => absurd hle (by omega)
  | fuel + 1, more + 1, before, [], _, _ => rfl
  | fuel + 1, more + 1, before, c :: rest, hle, h => by
    have hle := Nat.le_of_succ_le_succ hle
    rw [List.length_cons] at h
    -- Both sides read the same parts; what is left for the value and for the other members is shorter.
    rw [members, members]
    rcases hstring : string (c :: rest) rest with stop | ⟨name, afterName⟩
    · rfl
    have hname := (within_string List.suffix_rfl (List.suffix_cons _ _)).length_le hstring
    dsimp only
    rcases hcolon : skipSpace afterName with _ | ⟨d, afterColon⟩
    · rfl
    have hd := (suffix_of_skipSpace hcolon).length_le
    have hspace := (skipSpace_suffix afterColon).length_le
    rw [List.length_cons] at hd
    dsimp only
    rw [@value_eq_of_le fuel more (skipSpace afterColon) hle (by omega)]
    rcases hvalue : value fuel (skipSpace afterColon) with stop | ⟨found, afterValue⟩
    · rfl
    have hfound := (within_value List.suffix_rfl).length_le hvalue
    dsimp only
    rcases hcomma : skipSpace afterValue with _ | ⟨e, after⟩
    · rfl
    have he := (suffix_of_skipSpace hcomma).length_le
    have hmore := (skipSpace_suffix after).length_le
    rw [List.length_cons] at he
    dsimp only
    rw [@members_eq_of_le fuel more _ (skipSpace after) hle (by omega)]

/-- The first item has one unit of fuel less than all items together, and the same text. -/
theorem elements_eq_of_le : ∀ {fuel more : Nat} {t : Text}, fuel ≤ more → 2 * t.length < fuel →
    elements more t = elements fuel t
  | 0, more, t, _, h => absurd h (by omega)
  | fuel + 1, 0, t, hle, _ => absurd hle (by omega)
  | fuel + 1, more + 1, t, hle, h => by
    have hle := Nat.le_of_succ_le_succ hle
    rw [elements, elements, value_eq_of_le hle (by omega)]
    rcases hvalue : value fuel t with stop | ⟨item, afterItem⟩
    · rfl
    have hitem := (within_value List.suffix_rfl).length_le hvalue
    dsimp only
    rcases hcomma : skipSpace afterItem with _ | ⟨d, after⟩
    · rfl
    have hd := (suffix_of_skipSpace hcomma).length_le
    have hmore := (skipSpace_suffix after).length_le
    rw [List.length_cons] at hd
    dsimp only
    rw [@elements_eq_of_le fuel more (skipSpace after) hle (by omega)]

end

/-! ## Documents -/

/-- **What a document is**: a value with nothing but white space around it and no mark at its beginning. Any fuel will
do for the value from twice the length of the document up. -/
theorem whole_eq_ok_iff {fuel : Nat} {v : Json} (h : 2 * t.length ≤ fuel) :
    whole t = .ok v ↔ t.head? ≠ some (CodePoint.ofNat 0xFEFF) ∧
      ∃ rest, value fuel (skipSpace t) = .ok (v, rest) ∧ ∀ c ∈ rest, isSpace c = true := by
  have hspace := (skipSpace_suffix t).length_le
  have henough : ∀ more, 2 * t.length ≤ more →
      value more (skipSpace t) = value (2 * t.length) (skipSpace t) := fun more hmore =>
    value_eq_of_le hmore (by omega)
  -- The mark is looked for as a text of one character, which is the same as looking at the first.
  have hmark : ∀ mark : CodePoint, [mark].isPrefixOf t = true ↔ t.head? = some mark := fun mark => by
    cases t with
    | nil => simp
    | cons c rest =>
      simp only [List.isPrefixOf, Bool.and_true, beq_iff_eq, List.head?_cons, Option.some.injEq]
      exact eq_comm
  have hblank : ∀ rest : Text, skipSpace rest = [] ↔ ∀ c ∈ rest, isSpace c = true := fun rest =>
    List.dropWhile_eq_nil_iff
  simp only [whole, henough _ (Nat.le_add_right _ 2), henough _ h, hmark, ← hblank]
  -- With a mark there is no document, whatever follows; without one both sides ask for the same value and for the
  -- same rest.
  by_cases hhead : t.head? = some (CodePoint.ofNat 0xFEFF)
  · simp [hhead]
  · simp only [ne_eq, hhead, if_false, not_false_eq_true, true_and]
    rcases value (2 * t.length) (skipSpace t) with stop | ⟨found, rest⟩
    · simp
    · rcases hrest : skipSpace rest with _ | ⟨c, after⟩
      · simp [hrest]
      · simp [hrest]

/-- The fault of a document is at an end of it: at its beginning, where the value stops, or behind the value. -/
theorem whole_stops (h : whole t = .error (.problem what place)) : place <:+ t := by
  rw [whole] at h
  split at h
  · obtain ⟨_, rfl⟩ := Stop.problem.inj (Except.error.inj h)
    exact List.suffix_rfl
  · have hvalue := @within_value _ (2 * t.length + 2) _ (skipSpace_suffix t)
    split at h
    · next stop hstop =>
      obtain rfl := Except.error.inj h
      exact hvalue.stops what place hstop
    · next found rest hfound =>
      have hrest := (hvalue.left found rest hfound).trans ((List.tail_suffix _).trans (skipSpace_suffix t))
      split at h
      · simp at h
      · next c after hafter =>
        obtain ⟨_, rfl⟩ := Stop.problem.inj (Except.error.inj h)
        exact (suffix_of_skipSpace hafter).trans hrest

/-- **Where a document stops being one.** The offset is that of the text at which the reader stopped, and the line and
the column are those of the offset. -/
theorem parse_eq_malformed {line column offset : Nat} (h : parse t = .error (.malformed what line column offset)) :
    offset ≤ t.length ∧ lineColumn t offset = (line, column) ∧ whole t = .error (.problem what (t.drop offset)) := by
  rw [parse] at h
  rcases hwhole : whole t with (⟨what', place⟩ | digits) | v
  · rw [hwhole] at h
    obtain ⟨rfl, rfl, rfl, rfl⟩ := ReadError.malformed.inj (Except.error.inj h)
    refine ⟨Nat.sub_le _ _, rfl, ?_⟩
    rw [← List.suffix_iff_eq_drop.1 (whole_stops hwhole)]
  · rw [hwhole] at h
    simp [Except.mapError, Stop.inDocument] at h
  · rw [hwhole] at h
    simp [Except.mapError] at h

end Json

end HeaderAtlas
