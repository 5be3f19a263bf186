import HeaderAtlas.Proofs.Text.Split
import HeaderAtlas.Text.Utf8
/-!
# Names as texts and as bytes

A file name is a byte string, and its text is what `Bytes.toText` reads. Here it is proved that nothing
is lost: the bytes of the text are the name again. A text that is read from some name is called
*decoded*; on decoded texts the bytes tell everything, while in general two texts may share their
bytes (`é` and two stray bytes that happen to spell it).

The other statement that is used all over is about cutting: an ASCII character never takes part in a
longer sequence, so a decoded text may be cut at one, and decoded texts may be put together with one
between them. That is what makes the components of a decoded path decoded.
-/

set_option autoImplicit false

namespace HeaderAtlas

namespace Utf8

/-! ## One sequence -/

/-- The byte with the value `n`, for an `n` that a byte can hold. -/
theorem toNat_toUInt8 {n : Nat} (h : n < 256) : n.toUInt8.toNat = n := UInt8.toNat_ofNat_of_lt h

theorem toUInt8_eq {b : UInt8} {n : Nat} (h : n = b.toNat) : n.toUInt8 = b := by
  rw [h]
  exact UInt8.ofNat_toNat

theorem sequence_one {a : UInt8} (ha : a.toNat < 0x80) : sequence a.toNat = [a] := by
  rw [sequence, if_pos ha, toUInt8_eq rfl]

theorem sequence_two {a b : UInt8} (ha : 0xC2 ≤ a.toNat) (ha' : a.toNat < 0xE0)
    (hb : 0x80 ≤ b.toNat) (hb' : b.toNat ≤ 0xBF) :
    sequence ((a.toNat - 0xC0) * 64 + (b.toNat - 0x80)) = [a, b] := by
  rw [sequence, if_neg (by omega), if_pos (by omega), toUInt8_eq (b := a) (by omega),
    toUInt8_eq (b := b) (by omega)]

theorem sequence_three {a b c : UInt8} (ha : 0xE0 ≤ a.toNat) (ha' : a.toNat < 0xF0)
    (hb : 0x80 ≤ b.toNat) (hb' : b.toNat ≤ 0xBF) (hc : 0x80 ≤ c.toNat) (hc' : c.toNat ≤ 0xBF)
    (hv : a.toNat = 0xE0 → 0xA0 ≤ b.toNat) :
    sequence (((a.toNat - 0xE0) * 64 + (b.toNat - 0x80)) * 64 + (c.toNat - 0x80)) = [a, b, c] := by
  rw [sequence, if_neg (by omega), if_neg (by omega), if_pos (by omega),
    toUInt8_eq (b := a) (by omega), toUInt8_eq (b := b) (by omega), toUInt8_eq (b := c) (by omega)]

theorem sequence_four {a b c d : UInt8} (ha : 0xF0 ≤ a.toNat) (ha' : a.toNat ≤ 0xF4)
    (hb : 0x80 ≤ b.toNat) (hb' : b.toNat ≤ 0xBF) (hc : 0x80 ≤ c.toNat) (hc' : c.toNat ≤ 0xBF)
    (hd : 0x80 ≤ d.toNat) (hd' : d.toNat ≤ 0xBF) (hv : a.toNat = 0xF0 → 0x90 ≤ b.toNat) :
    sequence ((((a.toNat - 0xF0) * 64 + (b.toNat - 0x80)) * 64 + (c.toNat - 0x80)) * 64 +
      (d.toNat - 0x80)) = [a, b, c, d] := by
  rw [sequence, if_neg (by omega), if_neg (by omega), if_neg (by omega),
    toUInt8_eq (b := a) (by omega), toUInt8_eq (b := b) (by omega), toUInt8_eq (b := c) (by omega),
    toUInt8_eq (b := d) (by omega)]

/-- One more byte of a sequence was there and in its range. -/
theorem trail_succ {value width n v w : Nat} {low high : UInt8} {rest : Bytes}
    (h : trail value width (n + 1) low high rest = .scalar v w) :
    ∃ b after, rest = b :: after ∧ low.toNat ≤ b.toNat ∧ b.toNat ≤ high.toNat ∧
      trail (value * 64 + (b.toNat - 0x80)) (width + 1) n 0x80 0xBF after = .scalar v w := by
  cases rest with
  | nil => simp [trail] at h
  | cons b after =>
    simp only [trail] at h
    split at h
    · rename_i hb
      exact ⟨b, after, rfl, hb.1, hb.2, h⟩
    · simp at h

theorem trail_zero {value width v w : Nat} {low high : UInt8} {rest : Bytes}
    (h : trail value width 0 low high rest = .scalar v w) : v = value ∧ w = width := by
  simp only [trail, Step.scalar.injEq] at h
  exact ⟨h.1.symm, h.2.symm⟩

/-- What the reading of a first byte says: how many bytes follow, which bits the byte contributes, and
which second bytes it allows. -/
theorem lead_cases {b : UInt8} {lead : Lead} (h : Lead.of? b = some lead) :
    (b.toNat < 0x80 ∧ lead.bits = b.toNat ∧ lead.trailing = 0) ∨
    (0xC2 ≤ b.toNat ∧ b.toNat < 0xE0 ∧ lead.bits = b.toNat - 0xC0 ∧ lead.trailing = 1 ∧
      0x80 ≤ lead.low.toNat ∧ lead.high.toNat ≤ 0xBF) ∨
    (0xE0 ≤ b.toNat ∧ b.toNat < 0xF0 ∧ lead.bits = b.toNat - 0xE0 ∧ lead.trailing = 2 ∧
      0x80 ≤ lead.low.toNat ∧ lead.high.toNat ≤ 0xBF ∧ (b.toNat = 0xE0 → 0xA0 ≤ lead.low.toNat) ∧
      (b.toNat = 0xED → lead.high.toNat ≤ 0x9F)) ∨
    (0xF0 ≤ b.toNat ∧ b.toNat ≤ 0xF4 ∧ lead.bits = b.toNat - 0xF0 ∧ lead.trailing = 3 ∧
      0x80 ≤ lead.low.toNat ∧ lead.high.toNat ≤ 0xBF ∧ (b.toNat = 0xF0 → 0x90 ≤ lead.low.toNat) ∧
      (b.toNat = 0xF4 → lead.high.toNat ≤ 0x8F)) := by
  simp only [Lead.of?, UInt8.lt_iff_toNat_lt, ← UInt8.toNat_inj, UInt8.reduceToNat] at h
  -- one goal for each line of the table; in all but the two refusals `lead` is what the line says
  repeat' split at h
  all_goals simp only [Option.some.injEq, reduceCtorEq] at h
  all_goals subst h
  all_goals grind

/-- **One sequence is written as it was read.** A sequence that is read as a scalar value is that
value's sequence, and the value is neither too large nor a surrogate. -/
theorem step_scalar {a : UInt8} {rest : Bytes} {v w : Nat} (h : step a rest = .scalar v w) :
    v < 0x110000 ∧ (v < 0xD800 ∨ 0xDFFF < v) ∧ sequence v ++ rest.drop (w - 1) = a :: rest := by
  unfold step at h
  split at h
  · simp at h
  · rename_i lead hlead
    -- The first byte says how many follow, and the range of the second rules out what has a shorter sequence,
    -- the surrogates, and what is too large.
    rcases lead_cases hlead with ⟨ha, hbits, hn⟩ | ⟨ha, ha', hbits, hn, hlow, hhigh⟩ |
      ⟨ha, ha', hbits, hn, hlow, hhigh, hlow', hhigh'⟩ |
      ⟨ha, ha', hbits, hn, hlow, hhigh, hlow', hhigh'⟩
    · rw [hn, hbits] at h
      obtain ⟨hv, hw⟩ := trail_zero h
      refine ⟨by omega, by omega, ?_⟩
      rw [hv, hw, sequence_one ha]
      rfl
    · rw [hn, hbits] at h
      obtain ⟨b, after, rfl, hb, hb', h⟩ := trail_succ h
      obtain ⟨hv, hw⟩ := trail_zero h
      refine ⟨by omega, by omega, ?_⟩
      rw [hv, hw, sequence_two ha ha' (by omega) (by omega)]
      rfl
    · rw [hn, hbits] at h
      obtain ⟨b, after, rfl, hb, hb', h⟩ := trail_succ h
      obtain ⟨c, after, rfl, hc, hc', h⟩ := trail_succ h
      obtain ⟨hv, hw⟩ := trail_zero h
      simp only [UInt8.reduceToNat] at hc hc'
      refine ⟨by omega, by omega, ?_⟩
      rw [hv, hw, sequence_three ha ha' (by omega) (by omega) hc hc' (by omega)]
      rfl
    · rw [hn, hbits] at h
      obtain ⟨b, after, rfl, hb, hb', h⟩ := trail_succ h
      obtain ⟨c, after, rfl, hc, hc', h⟩ := trail_succ h
      obtain ⟨d, after, rfl, hd, hd', h⟩ := trail_succ h
      obtain ⟨hv, hw⟩ := trail_zero h
      simp only [UInt8.reduceToNat] at hc hc' hd hd'
      refine ⟨by omega, by omega, ?_⟩
      rw [hv, hw, sequence_four ha ha' (by omega) (by omega) hc hc' hd hd' (by omega)]
      rfl

/-- An ASCII byte is a sequence of its own. -/
theorem step_ascii {a : UInt8} (rest : Bytes) (ha : a.toNat < 0x80) :
    step a rest = .scalar a.toNat 1 := by
  have hlt : a < 0x80 := by
    rw [UInt8.lt_iff_toNat_lt]
    exact ha
  simp [step, Lead.of?, hlt, trail]

/-- A byte that is no part of a sequence is not ASCII. -/
theorem step_fault {a : UInt8} {rest : Bytes} {reason : Fault} {w : Nat}
    (h : step a rest = .fault reason w) : 0x80 ≤ a.toNat := by
  rcases Nat.lt_or_ge a.toNat 0x80 with ha | ha
  · rw [step_ascii rest ha] at h
    simp at h
  · exact ha

/-- Whether the rest of a sequence is there is decided before the next ASCII byte. -/
theorem trail_append_ascii {s : UInt8} (hs : s.toNat < 0x80) (after : Bytes) (n : Nat) :
    ∀ (value width : Nat) (low high : UInt8) (rest : Bytes), 0x80 ≤ low.toNat →
      (∃ v w, trail value width n low high rest = .scalar v w ∧ w ≤ width + rest.length ∧
        trail value width n low high (rest ++ s :: after) = .scalar v w) ∨
      (∃ r w r' w', trail value width n low high rest = .fault r w ∧
        trail value width n low high (rest ++ s :: after) = .fault r' w') := by
  induction n with
  | zero =>
    intro value width low high rest _
    exact .inl ⟨value, width, rfl, by omega, rfl⟩
  | succ n ih =>
    intro value width low high rest hlow
    cases rest with
    | nil =>
      -- both readings fail here, the first because nothing is left and the second at `s`
      have hout : ¬(low ≤ s ∧ s ≤ high) := by
        rw [UInt8.le_iff_toNat_le]
        omega
      refine .inr ⟨.truncated, width, .continuation, width, rfl, ?_⟩
      rw [List.nil_append, trail, if_neg hout]
    | cons b rest =>
      simp only [List.cons_append, trail]
      split
      · rcases ih (value * 64 + (b.toNat - 0x80)) (width + 1) 0x80 0xBF rest (by simp) with
          ⟨v, w, h, hw, h'⟩ | hfault
        · refine .inl ⟨v, w, h, ?_, h'⟩
          simp only [List.length_cons]
          omega
        · exact .inr hfault
      · exact .inr ⟨_, _, _, _, rfl, rfl⟩

/-- Whether a sequence is well formed is decided before the next ASCII byte. -/
theorem step_append_ascii {s : UInt8} (hs : s.toNat < 0x80) (a : UInt8) (rest after : Bytes) :
    (∃ v w, step a rest = .scalar v w ∧ w - 1 ≤ rest.length ∧
      step a (rest ++ s :: after) = .scalar v w) ∨
    (∃ r w r' w', step a rest = .fault r w ∧ step a (rest ++ s :: after) = .fault r' w') := by
  unfold step
  cases hlead : Lead.of? a with
  | none => exact .inr ⟨_, _, _, _, rfl, rfl⟩
  | some lead =>
    -- a first byte that is ASCII needs no others; all others want bytes above ASCII
    rcases lead_cases hlead with ⟨_, _, hn⟩ | h
    · refine .inl ⟨lead.bits, 1, ?_, by omega, ?_⟩ <;> simp only [hn, trail]
    · have hlow : 0x80 ≤ lead.low.toNat := by omega
      rcases trail_append_ascii hs after lead.trailing lead.bits 1 lead.low lead.high rest hlow with
        ⟨v, w, h, hw, h'⟩ | hfault
      · exact .inl ⟨v, w, h, by omega, h'⟩
      · exact .inr hfault

/-- The sequence of a value that is not ASCII holds no ASCII byte. -/
theorem le_of_mem_sequence {v : Nat} {x : UInt8} (hv : 0x80 ≤ v) (hmax : v < 0x110000)
    (hx : x ∈ sequence v) : 0x80 ≤ x.toNat := by
  unfold sequence at hx
  rw [if_neg (by omega)] at hx
  -- two, three or four bytes, all of them with the high bit set
  repeat' split at hx
  all_goals
    simp only [List.mem_cons, List.not_mem_nil, or_false] at hx
    rcases hx with rfl | rfl | rfl | rfl
  all_goals
    rw [Nat.toUInt8, UInt8.toNat_ofNat']
    omega

end Utf8

/-! ## Code points -/

namespace CodePoint

theorem val_ofNat {n : Nat} (h : n < 0x110000) : (ofNat n).val = n := Nat.mod_eq_of_lt h

theorem nameBytes?_ofNat {v : Nat} (hmax : v < 0x110000) (hv : v < 0xD800 ∨ 0xDFFF < v) :
    (ofNat v).nameBytes? = some (Utf8.sequence v) := by
  have hval := val_ofNat hmax
  unfold nameBytes? bytes? isSurrogate
  rw [hval, if_neg (by omega), if_neg (by simp; omega)]

theorem nameBytes?_ofUndecodable {b : UInt8} (hb : 0x80 ≤ b.toNat) :
    (ofUndecodable b).nameBytes? = some [b] := by
  have hlt := b.toNat_lt
  have hval : (ofUndecodable b).val = 0xDC00 + b.toNat := val_ofNat (by omega)
  unfold nameBytes?
  rw [hval, if_pos (by omega), Utf8.toUInt8_eq (b := b) (by omega)]

/-- An ASCII character is one byte. -/
theorem nameBytes?_ascii {s : CodePoint} (hs : s.val < 0x80) :
    s.nameBytes? = some [s.val.toUInt8] := by
  unfold nameBytes? bytes? isSurrogate Utf8.sequence
  rw [if_neg (by omega), if_neg (by simp; omega), if_pos hs]

theorem toNat_ascii {s : CodePoint} (hs : s.val < 0x80) : s.val.toUInt8.toNat = s.val :=
  Utf8.toNat_toUInt8 (by omega)

/-- An ASCII byte among the bytes of a code point is the code point itself. -/
theorem val_eq_of_mem_nameBytes? {c : CodePoint} {seq : Bytes} {x : UInt8}
    (h : c.nameBytes? = some seq) (hx : x ∈ seq) (hlt : x.toNat < 0x80) : c.val = x.toNat := by
  by_cases hc : c.val < 0x80
  · rw [nameBytes?_ascii hc] at h
    obtain rfl := Option.some.inj h
    rw [List.mem_singleton] at hx
    rw [hx, toNat_ascii hc]
  · unfold nameBytes? bytes? at h
    split at h
    · -- a stray byte, which is not ASCII
      obtain rfl := Option.some.inj h
      rw [List.mem_singleton] at hx
      rw [hx, Nat.toUInt8, UInt8.toNat_ofNat'] at hlt
      omega
    · split at h
      · simp at h
      · obtain rfl := Option.some.inj h
        have := Utf8.le_of_mem_sequence (by omega) c.isLt hx
        omega

end CodePoint

/-! ## Whole names -/

namespace Bytes

theorem toTextFrom_eq (skip : Nat) (b : Bytes) : toTextFrom skip b = toText (b.drop skip) := by
  induction skip generalizing b with
  | zero => rfl
  | succ skip ih =>
    cases b with
    | nil => rfl
    | cons a rest =>
      rw [toTextFrom, ih]
      rfl

/-- **One step of reading.** The first code point of a name is the one whose bytes come first, be
they a sequence or a stray byte, and the others are read from what follows. -/
theorem toText_cons (a : UInt8) (rest : Bytes) :
    ∃ (c : CodePoint) (seq after : Bytes), a :: rest = seq ++ after ∧ seq ≠ [] ∧
      c.nameBytes? = some seq ∧ toText (a :: rest) = c :: toText after := by
  rw [toText, toTextFrom]
  split
  · rename_i v w hstep
    obtain ⟨hmax, hv, hseq⟩ := Utf8.step_scalar hstep
    refine ⟨CodePoint.ofNat v, Utf8.sequence v, rest.drop (w - 1), hseq.symm, ?_,
      CodePoint.nameBytes?_ofNat hmax hv, by rw [toTextFrom_eq]⟩
    unfold Utf8.sequence
    repeat' split
    all_goals simp
  · rename_i reason w hstep
    exact ⟨CodePoint.ofUndecodable a, [a], rest, rfl, by simp,
      CodePoint.nameBytes?_ofUndecodable (Utf8.step_fault hstep), rfl⟩

/-- **Induction over reading.** A statement about names and their texts holds if it holds of the empty name
and is kept when one more code point is read. -/
theorem toText_induct {motive : Bytes → Text → Prop} (nil : motive [] [])
    (cons : ∀ c seq after, seq ≠ [] → c.nameBytes? = some seq → motive after after.toText →
      motive (seq ++ after) (c :: after.toText)) (b : Bytes) : motive b b.toText := by
  induction hn : b.length using Nat.strongRecOn generalizing b with
  | ind n ih =>
    cases b with
    | nil => exact nil
    | cons a rest =>
      obtain ⟨c, seq, after, hb, hseq, hc, htext⟩ := toText_cons a rest
      -- a sequence is not empty, so what follows it is shorter
      have hpos := List.length_pos_iff.2 hseq
      have hlen : after.length < n := by
        rw [← hn, hb, List.length_append]
        omega
      rw [htext, hb]
      exact cons c seq after hseq hc (ih _ hlen after rfl)

/-- An ASCII byte is read on its own, whatever stands around it. -/
theorem toText_append_ascii {s : UInt8} (hs : s.toNat < 0x80) (a b : Bytes) :
    toText (a ++ s :: b) = toText a ++ CodePoint.ofNat s.toNat :: toText b := by
  induction hn : a.length using Nat.strongRecOn generalizing a with
  | ind n ih =>
    cases a with
    | nil =>
      rw [List.nil_append, toText, toTextFrom, Utf8.step_ascii b hs]
      rfl
    | cons x a =>
      simp only [List.length_cons] at hn
      rw [List.cons_append, toText, toTextFrom, toText, toTextFrom]
      -- the first step is the same with and without what follows, and leaves the same bytes to the rest
      rcases Utf8.step_append_ascii hs x a b with ⟨v, w, h, hw, h'⟩ | ⟨r, w, r', w', h, h'⟩
      · have hlen : (a.drop (w - 1)).length < n := by
          rw [List.length_drop]
          omega
        simp only [h, h', toTextFrom_eq, List.drop_append_of_le_length hw, List.cons_append,
          ih _ hlen (a.drop (w - 1)) rfl]
      · simp only [h, h', toTextFrom_eq, List.drop_zero, List.cons_append,
          ih a.length (by omega) a rfl]

end Bytes

namespace Text

theorem key_cons (c : CodePoint) (t : Text) : key (c :: t) = (c.nameBytes?.getD []) ++ key t := rfl

theorem key_append (a b : Text) : key (a ++ b) = key a ++ key b := List.flatMap_append

theorem key_cons_ascii {s : CodePoint} (hs : s.val < 0x80) (t : Text) :
    key (s :: t) = s.val.toUInt8 :: key t := by
  rw [key_cons, CodePoint.nameBytes?_ascii hs]
  rfl

/-- The bytes of joined texts are determined by the bytes of the texts. -/
theorem key_join_congr {sep : Text} {xs ys : List Text} (h : xs.map key = ys.map key) :
    (join sep xs).key = (join sep ys).key := by
  induction xs generalizing ys with
  | nil =>
    obtain rfl : ys = [] := List.map_eq_nil_iff.1 h.symm
    rfl
  | cons x xs ih =>
    cases ys with
    | nil => simp at h
    | cons y ys =>
      obtain ⟨hkey, hrest⟩ := List.cons.inj h
      by_cases hxs : xs = []
      · obtain rfl : ys = [] := by rw [hxs] at hrest; exact List.map_eq_nil_iff.1 hrest.symm
        rw [hxs]
        exact hkey
      · have hys : ys ≠ [] := by
          rintro rfl
          exact hxs (List.map_eq_nil_iff.1 hrest)
        rw [join_cons hxs, join_cons hys, key_append, key_append, key_append, key_append, ih hrest, hkey]

end Text

/-- **Nothing is lost in reading.** The bytes of what is read from a name are the name. -/
@[simp] theorem Bytes.key_toText (b : Bytes) : b.toText.key = b := by
  refine toText_induct (motive := fun b t => t.key = b) rfl ?_ b
  intro c seq after _ hc ih
  rw [Text.key_cons, hc, ih]
  rfl

/-- All code points of what is read have bytes. -/
theorem Bytes.encodeFault?_toText (b : Bytes) (position : Nat) :
    b.toText.encodeFault? CodePoint.nameBytes? position = none := by
  refine toText_induct (motive := fun _ t => ∀ position, t.encodeFault? CodePoint.nameBytes? position = none)
    (fun _ => rfl) ?_ b position
  intro c seq after _ hc ih position
  rw [Text.encodeFault?, hc, ih]

/-- An ASCII character that is read from a name is a byte of the name. -/
theorem Bytes.mem_of_mem_toText {s : CodePoint} (hs : s.val < 0x80) {b : Bytes}
    (h : s ∈ b.toText) : s.val.toUInt8 ∈ b := by
  refine toText_induct (motive := fun b t => s ∈ t → s.val.toUInt8 ∈ b) (by simp) ?_ b h
  intro c seq after _ hc ih hmem
  rw [List.mem_append]
  rcases List.mem_cons.1 hmem with rfl | hmem
  · rw [CodePoint.nameBytes?_ascii hs] at hc
    obtain rfl := Option.some.inj hc
    exact .inl List.mem_cons_self
  · exact .inr (ih hmem)

/-- An ASCII byte of a text's bytes is a character of the text. -/
theorem Text.mem_of_mem_key {s : CodePoint} (hs : s.val < 0x80) {t : Text}
    (h : s.val.toUInt8 ∈ t.key) : s ∈ t := by
  rw [Text.key, Text.bytesWith, List.mem_flatMap] at h
  obtain ⟨c, hc, hmem⟩ := h
  cases hbytes : c.nameBytes? with
  | none => simp [hbytes] at hmem
  | some seq =>
    rw [hbytes, Option.getD_some] at hmem
    have hlt : s.val.toUInt8.toNat < 0x80 := by rw [CodePoint.toNat_ascii hs]; exact hs
    have hval := CodePoint.val_eq_of_mem_nameBytes? hbytes hmem hlt
    rw [CodePoint.toNat_ascii hs] at hval
    rw [← Fin.ext hval]
    exact hc

/-! ## Decoded texts -/

namespace Text

/-- A text that is read from some byte string, as names and paths of files are. -/
def Decoded (t : Text) : Prop := ∃ b : Bytes, b.toText = t

theorem decoded_toText (b : Bytes) : Decoded b.toText := ⟨b, rfl⟩

namespace Decoded

variable {a b t : Text}

theorem nil : Decoded [] := ⟨[], rfl⟩

/-- A decoded text is read from its own bytes. -/
theorem toText_key (h : t.Decoded) : t.key.toText = t := by
  obtain ⟨b, rfl⟩ := h
  rw [Bytes.key_toText]

instance (t : Text) : Decidable t.Decoded :=
  decidable_of_iff (t.key.toText = t) ⟨fun h => ⟨t.key, h⟩, toText_key⟩

/-- **Decoded texts with the same bytes are the same.** -/
theorem eq_of_key_eq (ha : a.Decoded) (hb : b.Decoded) (h : a.key = b.key) : a = b := by
  rw [← ha.toText_key, ← hb.toText_key, h]

/-- Writing a decoded text never fails. -/
theorem encode_eq (h : t.Decoded) : t.encode = .ok t.key := by
  obtain ⟨b, rfl⟩ := h
  rw [encode, encodeWith, Bytes.encodeFault?_toText]
  rfl

/-- Decoded texts may be put together with an ASCII character between them. -/
theorem append_ascii {s : CodePoint} (hs : s.val < 0x80) (ha : a.Decoded) (hb : b.Decoded) :
    (a ++ s :: b).Decoded := by
  obtain ⟨x, rfl⟩ := ha
  obtain ⟨y, rfl⟩ := hb
  have hbyte : s.val.toUInt8.toNat < 0x80 := by rw [CodePoint.toNat_ascii hs]; exact hs
  refine ⟨x ++ s.val.toUInt8 :: y, ?_⟩
  rw [Bytes.toText_append_ascii hbyte, CodePoint.toNat_ascii hs]
  congr 2
  exact Fin.ext (CodePoint.val_ofNat s.isLt)

/-- A decoded text may be cut at the first place where an ASCII character stands. -/
theorem cut_ascii {s : CodePoint} (hs : s.val < 0x80) (hfree : s ∉ a)
    (h : (a ++ s :: b).Decoded) : a.Decoded ∧ b.Decoded := by
  have hbyte : s.val.toUInt8.toNat < 0x80 := by rw [CodePoint.toNat_ascii hs]; exact hs
  have hofNat : CodePoint.ofNat s.val.toUInt8.toNat = s := by
    rw [CodePoint.toNat_ascii hs]
    exact Fin.ext (CodePoint.val_ofNat s.isLt)
  have heq := h.toText_key
  rw [key_append, key_cons_ascii hs, Bytes.toText_append_ascii hbyte, hofNat] at heq
  -- both sides are cut at their first `s`, so the parts agree
  have hfree' : s ∉ (key a).toText :=
    fun hmem => hfree (mem_of_mem_key hs (Bytes.mem_of_mem_toText hs hmem))
  obtain ⟨h1, h2⟩ := append_cons_inj_of_free hfree' hfree heq
  exact ⟨⟨_, h1⟩, ⟨_, h2⟩⟩

/-- The parts of a decoded text between ASCII separators are decoded. -/
theorem of_mem_splitList {sep : CodePoint} (hsep : sep.val < 0x80) {part : Text} (h : t.Decoded)
    (hpart : part ∈ splitList sep t) : part.Decoded := by
  induction hn : t.length using Nat.strongRecOn generalizing t with
  | ind n ih =>
    by_cases hmem : sep ∈ t
    · -- the first part is free of the separator; the others are parts of what stands after it
      obtain ⟨x, y, rfl, hx⟩ := List.eq_append_cons_of_mem hmem
      obtain ⟨hdx, hdy⟩ := h.cut_ascii hsep hx
      rw [splitList_append, splitList_free hx, List.singleton_append, List.mem_cons] at hpart
      rcases hpart with rfl | hpart
      · exact hdx
      · refine ih y.length ?_ hdy hpart rfl
        rw [← hn, List.length_append, List.length_cons]
        omega
    · rw [splitList_free hmem, List.mem_singleton] at hpart
      rw [hpart]
      exact h

theorem of_mem_split {sep : CodePoint} (hsep : sep.val < 0x80) {name : Text} (h : t.Decoded)
    (hname : name ∈ Segments.split sep t) : name.Decoded :=
  h.of_mem_splitList hsep (List.mem_filter.1 hname).1

/-- Decoded names that are joined with an ASCII separator make a decoded text. -/
theorem join {sep : CodePoint} (hsep : sep.val < 0x80) {names : List Text}
    (h : ∀ n ∈ names, n.Decoded) : (Text.join [sep] names).Decoded := by
  induction names with
  | nil => exact nil
  | cons n rest ih =>
    have hn := h n List.mem_cons_self
    have hr := ih fun m hm => h m (List.mem_cons_of_mem _ hm)
    by_cases hne : rest = []
    · rw [hne]
      exact hn
    · rw [Text.join_cons hne, List.append_assoc, List.singleton_append]
      exact append_ascii hsep hn hr

/-- A decoded text may be cut wherever an ASCII character stands: both sides are joined from parts of
the whole. -/
theorem of_append_ascii {s : CodePoint} (hs : s.val < 0x80) (h : (a ++ s :: b).Decoded) :
    a.Decoded ∧ b.Decoded := by
  have hparts : ∀ part ∈ splitList s a ++ splitList s b, Decoded part := by
    intro part hpart
    rw [← splitList_append] at hpart
    exact h.of_mem_splitList hs hpart
  rw [← join_splitList s a, ← join_splitList s b]
  exact ⟨join hs fun part hp => hparts part (List.mem_append_left _ hp),
    join hs fun part hp => hparts part (List.mem_append_right _ hp)⟩

end Decoded

/-! ## Texts that have bytes

A text with bytes need not be decoded: surrogates that stand for bytes may make up a sequence that is read as one
code point. -/

/-- Every code point of the text has bytes. -/
def HasBytes (t : Text) : Prop := ∀ c ∈ t, c.nameBytes? ≠ none

theorem encodeFault?_eq_none_iff {t : Text} (position : Nat) :
    t.encodeFault? CodePoint.nameBytes? position = none ↔ t.HasBytes := by
  induction t generalizing position with
  | nil => simp [encodeFault?, HasBytes]
  | cons c t ih =>
    rw [encodeFault?, HasBytes, List.forall_mem_cons]
    cases hc : c.nameBytes? with
    | none => simp
    | some seq => simpa [HasBytes] using ih (position + 1)

theorem Decoded.hasBytes {t : Text} (h : t.Decoded) : t.HasBytes := by
  obtain ⟨b, rfl⟩ := h
  exact (encodeFault?_eq_none_iff 0).1 (Bytes.encodeFault?_toText b 0)

theorem hasBytes_of_encode {t : Text} {b : Bytes} (h : t.encode = .ok b) : t.HasBytes := by
  rw [encode, encodeWith] at h
  split at h
  · simp at h
  · next hnone => exact (encodeFault?_eq_none_iff 0).1 hnone

namespace HasBytes

variable {s t : Text}

theorem encode_eq (h : t.HasBytes) : t.encode = .ok t.key := by
  rw [encode, encodeWith, (encodeFault?_eq_none_iff 0).2 h]
  rfl

theorem of_subset (h : t.HasBytes) (hs : s ⊆ t) : s.HasBytes := fun c hc => h c (hs hc)

/-- The bytes of a text begin with those of its first code point, of which there is one. -/
theorem exists_key_cons {c : CodePoint} (h : HasBytes (c :: t)) :
    ∃ b more, c.nameBytes? = some (b :: more) ∧ key (c :: t) = b :: (more ++ key t) := by
  obtain ⟨seq, hseq⟩ := Option.ne_none_iff_exists'.1 (h c List.mem_cons_self)
  cases seq with
  | nil =>
    exfalso
    unfold CodePoint.nameBytes? CodePoint.bytes? Utf8.sequence at hseq
    repeat' split at hseq
    all_goals simp at hseq
  | cons b more => exact ⟨b, more, hseq, by rw [key_cons, hseq]; rfl⟩

theorem key_ne_nil (h : t.HasBytes) (hne : t ≠ []) : t.key ≠ [] := by
  obtain ⟨c, rest, rfl⟩ := List.exists_cons_of_ne_nil hne
  obtain ⟨b, more, _, hkey⟩ := exists_key_cons h
  rw [hkey]
  simp

/-- **ASCII can be written in one way only.** -/
theorem eq_of_key_eq (h : t.HasBytes) (hs : s.all (·.val < 0x80) = true) (hkey : t.key = s.key) : t = s := by
  induction s generalizing t with
  | nil => exact Decidable.not_not.1 fun hne => h.key_ne_nil hne hkey
  | cons c s ih =>
    rw [List.all_cons, Bool.and_eq_true, decide_eq_true_eq] at hs
    obtain ⟨hc, hs⟩ := hs
    rw [key_cons_ascii hc] at hkey
    cases t with
    | nil => simp [key, bytesWith] at hkey
    | cons d t =>
      -- The first byte is ASCII, so it is all there is of the first code point.
      obtain ⟨b, more, hbytes, hd⟩ := exists_key_cons h
      rw [hd] at hkey
      obtain ⟨rfl, hrest⟩ := List.cons.inj hkey
      have hbyte : c.val.toUInt8.toNat < 0x80 := by rw [CodePoint.toNat_ascii hc]; exact hc
      have hval := CodePoint.val_eq_of_mem_nameBytes? hbytes List.mem_cons_self hbyte
      rw [CodePoint.toNat_ascii hc] at hval
      obtain rfl : d = c := Fin.ext hval
      rw [CodePoint.nameBytes?_ascii hc] at hbytes
      obtain rfl : [] = more := (List.cons.inj (Option.some.inj hbytes)).2
      rw [ih (h.of_subset (List.subset_cons_self _ _)) hs hrest]

end HasBytes

end Text

end HeaderAtlas
