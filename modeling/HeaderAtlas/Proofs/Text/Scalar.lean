import HeaderAtlas.Proofs.Text.Utf8
/-!
# Texts without surrogates

A code point that is no surrogate is written as a sequence, and the sequence is read as this code point
(`Bytes.toText_sequence`). So a text without surrogates is what its bytes are read as, which is to say that
it is decoded (`Text.Surrogateless.decoded`), and any decoded text may follow it (`Text.Surrogateless.sealed`).
-/

set_option autoImplicit false

namespace HeaderAtlas

namespace Utf8

variable {a b c d : UInt8} {low high : UInt8} {value width n v : Nat}

/-! ## Reading a sequence back -/

/-- A byte in its range is read. -/
theorem trail_cons (rest : Bytes) (hlow : low.toNat ≤ b.toNat) (hhigh : b.toNat ≤ high.toNat) :
    trail value width (n + 1) low high (b :: rest) =
      trail (value * 64 + (b.toNat - 0x80)) (width + 1) n 0x80 0xBF rest := by
  rw [trail, if_pos ⟨hlow, hhigh⟩]

theorem trail_tail (rest : Bytes) (hb : 0x80 ≤ b.toNat) (hb' : b.toNat ≤ 0xBF) :
    trail value width (n + 1) 0x80 0xBF (b :: rest) =
      trail (value * 64 + (b.toNat - 0x80)) (width + 1) n 0x80 0xBF rest := trail_cons rest hb hb'

/-- What a first byte says, if it is given by its bits, the number of bytes that follow, and a range that
the second byte lies in. -/
theorem step_of_lead (rest : Bytes) (h : Lead.of? a = some ⟨value, n + 1, low, high⟩)
    (hlow : low.toNat ≤ b.toNat) (hhigh : b.toNat ≤ high.toNat) :
    step a (b :: rest) = trail (value * 64 + (b.toNat - 0x80)) 2 n 0x80 0xBF rest := by
  rw [step, h]
  exact trail_cons rest hlow hhigh

theorem step_two (rest : Bytes) (ha : 0xC2 ≤ a.toNat) (ha' : a.toNat < 0xE0) (hb : 0x80 ≤ b.toNat)
    (hb' : b.toNat ≤ 0xBF) :
    step a (b :: rest) = .scalar ((a.toNat - 0xC0) * 64 + (b.toNat - 0x80)) 2 := by
  have hlead : Lead.of? a = some ⟨a.toNat - 0xC0, 1, 0x80, 0xBF⟩ := by
    simp only [Lead.of?, UInt8.lt_iff_toNat_lt, UInt8.reduceToNat]
    rw [if_neg (by omega), if_neg (by omega), if_pos (by omega)]
  rw [step_of_lead rest hlead hb hb', trail]

/-- The second byte is confined where the sequence would be too long or the value a surrogate. -/
theorem step_three (rest : Bytes) (ha : 0xE0 ≤ a.toNat) (ha' : a.toNat < 0xF0) (hb : 0x80 ≤ b.toNat)
    (hb' : b.toNat ≤ 0xBF) (hlong : a.toNat = 0xE0 → 0xA0 ≤ b.toNat)
    (hsurrogate : a.toNat = 0xED → b.toNat ≤ 0x9F) (hc : 0x80 ≤ c.toNat) (hc' : c.toNat ≤ 0xBF) :
    step a (b :: c :: rest) =
      .scalar (((a.toNat - 0xE0) * 64 + (b.toNat - 0x80)) * 64 + (c.toNat - 0x80)) 3 := by
  obtain ⟨low, high, hlead, hlow, hhigh⟩ : ∃ low high, Lead.of? a = some ⟨a.toNat - 0xE0, 2, low, high⟩ ∧
      low.toNat ≤ b.toNat ∧ b.toNat ≤ high.toNat := by
    simp only [Lead.of?, UInt8.lt_iff_toNat_lt, ← UInt8.toNat_inj, UInt8.reduceToNat]
    rw [if_neg (by omega), if_neg (by omega), if_neg (by omega)]
    by_cases hfirst : a.toNat = 0xE0
    · exact ⟨0xA0, 0xBF, by rw [if_pos hfirst, hfirst], hlong hfirst, hb'⟩
    by_cases hlast : a.toNat = 0xED
    · exact ⟨0x80, 0x9F, by rw [if_neg hfirst, if_pos hlast, hlast], hb, hsurrogate hlast⟩
    · exact ⟨0x80, 0xBF, by rw [if_neg hfirst, if_neg hlast, if_pos ha'], hb, hb'⟩
  rw [step_of_lead _ hlead hlow hhigh, trail_tail rest hc hc', trail]

/-- The second byte is confined where the sequence would be too long or the value too large. -/
theorem step_four (rest : Bytes) (ha : 0xF0 ≤ a.toNat) (ha' : a.toNat ≤ 0xF4) (hb : 0x80 ≤ b.toNat)
    (hb' : b.toNat ≤ 0xBF) (hlong : a.toNat = 0xF0 → 0x90 ≤ b.toNat)
    (hlarge : a.toNat = 0xF4 → b.toNat ≤ 0x8F) (hc : 0x80 ≤ c.toNat) (hc' : c.toNat ≤ 0xBF)
    (hd : 0x80 ≤ d.toNat) (hd' : d.toNat ≤ 0xBF) :
    step a (b :: c :: d :: rest) = .scalar ((((a.toNat - 0xF0) * 64 + (b.toNat - 0x80)) * 64 +
      (c.toNat - 0x80)) * 64 + (d.toNat - 0x80)) 4 := by
  obtain ⟨low, high, hlead, hlow, hhigh⟩ : ∃ low high, Lead.of? a = some ⟨a.toNat - 0xF0, 3, low, high⟩ ∧
      low.toNat ≤ b.toNat ∧ b.toNat ≤ high.toNat := by
    simp only [Lead.of?, UInt8.lt_iff_toNat_lt, ← UInt8.toNat_inj, UInt8.reduceToNat]
    rw [if_neg (by omega), if_neg (by omega), if_neg (by omega), if_neg (by omega), if_neg (by omega),
      if_neg (by omega)]
    by_cases hfirst : a.toNat = 0xF0
    · exact ⟨0x90, 0xBF, by rw [if_pos hfirst, hfirst], hlong hfirst, hb'⟩
    by_cases hlast : a.toNat = 0xF4
    · exact ⟨0x80, 0x8F, by rw [if_neg hfirst, if_neg (by omega), if_pos hlast, hlast], hb, hlarge hlast⟩
    · exact ⟨0x80, 0xBF, by rw [if_neg hfirst, if_pos (by omega)], hb, hb'⟩
  rw [step_of_lead _ hlead hlow hhigh, trail_tail _ hc hc', trail_tail rest hd hd', trail]

/-- **A sequence is read as the value that it was written for.** -/
theorem step_sequence (hmax : v < 0x110000) (hv : v < 0xD800 ∨ 0xDFFF < v) :
    ∃ a more, sequence v = a :: more ∧ ∀ rest, step a (more ++ rest) = .scalar v (more.length + 1) := by
  -- One to four bytes; the bits of the value are put together again by arithmetic.
  unfold sequence
  split
  · refine ⟨_, [], rfl, fun rest => ?_⟩
    rw [List.nil_append, step_ascii rest (by rw [toNat_toUInt8] <;> omega), toNat_toUInt8 (by omega)]
    rfl
  · split
    · refine ⟨_, [_], rfl, fun rest => ?_⟩
      have ha := toNat_toUInt8 (n := 0xC0 + v / 64) (by omega)
      have hb := toNat_toUInt8 (n := 0x80 + v % 64) (by omega)
      rw [List.singleton_append, step_two rest (by omega) (by omega) (by omega) (by omega), ha, hb]
      exact congrArg (Step.scalar · 2) (by omega)
    · split
      · refine ⟨_, [_, _], rfl, fun rest => ?_⟩
        have ha := toNat_toUInt8 (n := 0xE0 + v / 4096) (by omega)
        have hb := toNat_toUInt8 (n := 0x80 + v / 64 % 64) (by omega)
        have hc := toNat_toUInt8 (n := 0x80 + v % 64) (by omega)
        rw [List.cons_append, List.singleton_append, step_three rest (by omega) (by omega) (by omega) (by omega)
          (by omega) (by omega) (by omega) (by omega), ha, hb, hc]
        exact congrArg (Step.scalar · 3) (by omega)
      · refine ⟨_, [_, _, _], rfl, fun rest => ?_⟩
        have ha := toNat_toUInt8 (n := 0xF0 + v / 262144) (by omega)
        have hb := toNat_toUInt8 (n := 0x80 + v / 4096 % 64) (by omega)
        have hc := toNat_toUInt8 (n := 0x80 + v / 64 % 64) (by omega)
        have hd := toNat_toUInt8 (n := 0x80 + v % 64) (by omega)
        rw [List.cons_append, List.cons_append, List.singleton_append, step_four rest (by omega) (by omega)
          (by omega) (by omega) (by omega) (by omega) (by omega) (by omega) (by omega) (by omega), ha, hb, hc, hd]
        exact congrArg (Step.scalar · 4) (by omega)

end Utf8

theorem Bytes.toText_sequence {v : Nat} (hmax : v < 0x110000) (hv : v < 0xD800 ∨ 0xDFFF < v) (rest : Bytes) :
    Bytes.toText (Utf8.sequence v ++ rest) = CodePoint.ofNat v :: rest.toText := by
  obtain ⟨a, more, hseq, hstep⟩ := Utf8.step_sequence hmax hv
  rw [hseq, List.cons_append, Bytes.toText, Bytes.toTextFrom, hstep rest]
  simp only [Nat.add_sub_cancel, Bytes.toTextFrom_eq, List.drop_left]

namespace Text

/-- No code point of the text is a surrogate. -/
def Surrogateless (t : Text) : Prop := ∀ c ∈ t, c.isSurrogate = false

instance (t : Text) : Decidable t.Surrogateless :=
  decidable_of_iff (t.all (!·.isSurrogate) = true) (by simp [Surrogateless])

theorem Surrogateless.of_subset {s t : Text} (h : t.Surrogateless) (hst : s ⊆ t) : s.Surrogateless :=
  fun c hc => h c (hst hc)

/-- A code point that is no surrogate may stand before any decoded text. -/
theorem Decoded.cons_scalar {c : CodePoint} {t : Text} (hc : c.isSurrogate = false) (h : t.Decoded) :
    Decoded (c :: t) := by
  have hscalar : c.val < 0xD800 ∨ 0xDFFF < c.val := by
    simp only [CodePoint.isSurrogate, Bool.and_eq_false_iff, decide_eq_false_iff_not] at hc
    omega
  refine ⟨Utf8.sequence c.val ++ t.key, ?_⟩
  rw [Bytes.toText_sequence c.isLt hscalar, h.toText_key]
  exact congrArg (· :: t) (Fin.ext (CodePoint.val_ofNat c.isLt))

/-! ## Texts that others may follow -/

/-- Whatever decoded text follows, the whole is decoded: the text does not end with stray bytes that could begin
a sequence together with what comes after them. -/
def Sealed (t : Text) : Prop := ∀ u : Text, u.Decoded → (t ++ u).Decoded

namespace Sealed

variable {s t : Text}

theorem nil : Sealed [] := fun _ hu => hu

theorem append (hs : s.Sealed) (ht : t.Sealed) : Sealed (s ++ t) := by
  intro u hu
  rw [List.append_assoc]
  exact hs _ (ht u hu)

theorem decoded (h : t.Sealed) : t.Decoded := by
  have hwhole := h [] Decoded.nil
  rwa [List.append_nil] at hwhole

end Sealed

/-- **A text without surrogates is sealed.** Its last sequence is complete. -/
theorem Surrogateless.sealed {t : Text} (h : t.Surrogateless) : t.Sealed := by
  intro u hu
  induction t with
  | nil => exact hu
  | cons c rest ih =>
    exact Decoded.cons_scalar (h c List.mem_cons_self) (ih fun x hx => h x (List.mem_cons_of_mem _ hx))

/-- **A text without surrogates is decoded.** -/
theorem Surrogateless.decoded {t : Text} (h : t.Surrogateless) : t.Decoded := h.sealed.decoded

end Text

end HeaderAtlas
