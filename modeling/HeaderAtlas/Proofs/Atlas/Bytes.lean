import HeaderAtlas.Proofs.Atlas.Reload
import HeaderAtlas.Proofs.Run
import HeaderAtlas.Proofs.Text.Scalar
/-!
# Documents as bytes

File names need not be UTF-8, and a document holds them as they are, next to each other and to what the writer
puts around them. When the document becomes bytes, the stray bytes of a name must not meet others with which
they would make up a sequence: such a sequence would be read as a character that the document does not have.

They never do, because a name always ends before an ASCII character. A quote closes every string, a slash
divides the names of a path, and an escape, which may cut a name in two, begins with a backslash. So a string
is sealed (`Json.sealed_quotedString`), a document is put together from sealed texts
(`Json.Decoded.sealed_renderAt`), and its bytes are read as the document again.
-/

set_option autoImplicit false

namespace HeaderAtlas

/-! ## Strings -/

/-- A code point in a string stands for itself, or is ASCII and written as a backslash with letters and digits
after it. -/
theorem CodePoint.jsonEscaped_cases (c : CodePoint) : c.jsonEscaped = [c] ∨
    (c.val < 0x80 ∧ ∃ more : Text, c.jsonEscaped = CodePoint.ofChar '\\' :: more ∧ more.Surrogateless) := by
  have hhex : ∀ n < 0x20, Text.Surrogateless (CodePoint.ofChar 'u' :: Text.ofHex 4 n) := by decide
  have hshort : ∀ letter : Char, CodePoint.isSurrogate letter = false →
      Text.Surrogateless [CodePoint.ofChar letter] := fun letter h d hd => List.mem_singleton.1 hd ▸ h
  unfold CodePoint.jsonEscaped
  split
  · next h => exact .inr ⟨by rw [h]; decide, _, rfl, hshort '"' (by decide)⟩
  split
  · next h => exact .inr ⟨by rw [h]; decide, _, rfl, hshort '\\' (by decide)⟩
  split
  · next h => exact .inr ⟨by rw [h]; decide, _, rfl, hshort 'n' (by decide)⟩
  split
  · next h => exact .inr ⟨by rw [h]; decide, _, rfl, hshort 'r' (by decide)⟩
  split
  · next h => exact .inr ⟨by rw [h]; decide, _, rfl, hshort 't' (by decide)⟩
  split
  · next h => exact .inr ⟨by omega, _, rfl, hshort 'f' (by decide)⟩
  split
  · next h => exact .inr ⟨by omega, _, rfl, hshort 'b' (by decide)⟩
  split
  · next h => exact .inr ⟨by omega, _, rfl, hhex c.val h⟩
  · exact .inl rfl

/-- **Escapes keep a text decoded.** The induction is on its length: up to the first code point that is escaped the
text stays as it is, and what stands after that code point is shorter. -/
theorem Text.Decoded.jsonEscaped {t : Text} (h : t.Decoded) : Decoded (t.flatMap CodePoint.jsonEscaped) := by
  induction hn : t.length using Nat.strongRecOn generalizing t with
  | ind n ih =>
    cases hfind : t.find? fun c => decide (c.jsonEscaped ≠ [c]) with
    | none =>
      have hplain : t.flatMap CodePoint.jsonEscaped = t.flatMap fun c => [c] :=
        List.flatMap_congr fun c hc => by simpa using List.find?_eq_none.1 hfind c hc
      rw [hplain, List.flatMap_singleton']
      exact h
    | some s =>
      obtain ⟨hs, before, after, rfl, hbefore⟩ := List.find?_eq_some_iff_append.1 hfind
      obtain ⟨hascii, more, hmore, hscalar⟩ := s.jsonEscaped_cases.resolve_left (by simpa using hs)
      obtain ⟨hdecoded, hdecoded'⟩ := h.of_append_ascii hascii
      have hplain : before.flatMap CodePoint.jsonEscaped = before.flatMap fun c => [c] :=
        List.flatMap_congr fun c hc => by simpa using hbefore c hc
      have hrest : Decoded (after.flatMap CodePoint.jsonEscaped) := by
        refine ih after.length ?_ hdecoded' rfl
        rw [← hn, List.length_append, List.length_cons]
        omega
      rw [List.flatMap_append, List.flatMap_cons, hplain, List.flatMap_singleton', hmore, List.cons_append]
      exact Text.Decoded.append_ascii (by decide) hdecoded (hscalar.sealed _ hrest)

namespace Json

/-- **A written string is sealed**: its closing quote keeps what follows apart. -/
theorem sealed_quotedString {t : Text} (h : t.Decoded) : (quotedString t).Sealed := by
  intro u hu
  rw [quotedString, List.cons_append, List.append_assoc, List.singleton_append]
  exact Text.Decoded.cons_scalar (by decide) (Text.Decoded.append_ascii (by decide) h.jsonEscaped hu)

/-! ## Values -/

/-- A value without numbers, all of whose texts are decoded. -/
inductive Decoded : Json → Prop
  | str {t : Text} : t.Decoded → Decoded (.str t)
  | arr {items : List Json} : (∀ item ∈ items, Decoded item) → Decoded (.arr items)
  | obj {members : Members} : (∀ m ∈ members, m.1.Decoded) → (∀ m ∈ members, Decoded m.2) →
      Decoded (.obj members)

/-- The indentation of a layout holds no surrogate. -/
def Layout.Surrogateless : Layout → Prop
  | .compact => True
  | .lines indent => indent.Surrogateless

namespace Layout

instance (layout : Layout) : Decidable layout.Surrogateless :=
  match layout with
  | .compact => inferInstanceAs (Decidable True)
  | .lines indent => inferInstanceAs (Decidable indent.Surrogateless)

variable {layout : Layout}

theorem sealed_lineBreak (h : layout.Surrogateless) (depth : Nat) : (layout.lineBreak depth).Sealed := by
  cases layout with
  | compact => exact Text.Sealed.nil
  | lines indent =>
    refine Text.Surrogateless.sealed fun c hc => ?_
    rcases List.mem_cons.1 hc with rfl | hc
    · decide
    · obtain ⟨unit, hunit, hmem⟩ := List.mem_flatten.1 hc
      rw [List.eq_of_mem_replicate hunit] at hmem
      exact h c hmem

theorem sealed_colon (layout : Layout) : layout.colon.Sealed := by
  cases layout with
  | compact => exact Text.Surrogateless.sealed (by decide)
  | lines indent => exact Text.Surrogateless.sealed (by decide : Text.Surrogateless ": ")

end Layout

section Rendering

variable {layout : Layout} (hl : layout.Surrogateless) (depth : Nat)

include hl

/-- The items of an array after the first, each of which has a comma before it. -/
theorem sealed_renderItems {items : List Json} (h : ∀ item ∈ items, (renderAt layout depth item).Sealed) :
    (renderItems layout depth items).Sealed := by
  induction items with
  | nil => exact Text.Sealed.nil
  | cons item items ih =>
    have hcomma : Text.Sealed "," := Text.Surrogateless.sealed (by decide)
    rw [renderItems]
    exact ((hcomma.append (Layout.sealed_lineBreak hl depth)).append (h item List.mem_cons_self)).append
      (ih fun x hx => h x (List.mem_cons_of_mem _ hx))

theorem sealed_renderMembers {members : Members} (hnames : ∀ m ∈ members, m.1.Decoded)
    (h : ∀ m ∈ members, (renderAt layout depth m.2).Sealed) : (renderMembers layout depth members).Sealed := by
  induction members with
  | nil => exact Text.Sealed.nil
  | cons m members ih =>
    obtain ⟨name, value⟩ := m
    have hcomma : Text.Sealed "," := Text.Surrogateless.sealed (by decide)
    have hname : (quotedString name).Sealed := sealed_quotedString (hnames (name, value) List.mem_cons_self)
    rw [renderMembers]
    exact ((((hcomma.append (Layout.sealed_lineBreak hl depth)).append hname).append layout.sealed_colon).append
      (h (name, value) List.mem_cons_self)).append
        (ih (fun x hx => hnames x (List.mem_cons_of_mem _ hx)) fun x hx => h x (List.mem_cons_of_mem _ hx))

end Rendering

/-- **A written value is sealed**, if its texts are decoded and the indentation holds no surrogate. -/
theorem Decoded.sealed_renderAt {v : Json} (h : v.Decoded) {layout : Layout} (hl : layout.Surrogateless)
    (depth : Nat) : (renderAt layout depth v).Sealed := by
  have hbreak := Layout.sealed_lineBreak hl
  induction h generalizing depth with
  | str ht => exact sealed_quotedString ht
  | @arr items _ ih =>
    cases items with
    | nil => exact Text.Surrogateless.sealed (by decide : Text.Surrogateless "[]")
    | cons item items =>
      have hopen : Text.Sealed "[" := Text.Surrogateless.sealed (by decide)
      have hclose : Text.Sealed "]" := Text.Surrogateless.sealed (by decide)
      have hitems := sealed_renderItems hl (depth + 1) fun x hx =>
        ih x (List.mem_cons_of_mem _ hx) (depth + 1)
      rw [renderAt]
      exact ((((hopen.append (hbreak (depth + 1))).append (ih item List.mem_cons_self (depth + 1))).append
        hitems).append (hbreak depth)).append hclose
  | @obj members hnames _ ih =>
    rcases members with _ | ⟨⟨name, value⟩, members⟩
    · exact Text.Surrogateless.sealed (by decide : Text.Surrogateless "\x7b\x7d")
    · have hopen : Text.Sealed "\x7b" := Text.Surrogateless.sealed (by decide)
      have hclose : Text.Sealed "\x7d" := Text.Surrogateless.sealed (by decide)
      have hname : (quotedString name).Sealed := sealed_quotedString (hnames (name, value) List.mem_cons_self)
      have hmembers := sealed_renderMembers hl (depth + 1) (fun x hx => hnames x (List.mem_cons_of_mem _ hx))
        fun x hx => ih x (List.mem_cons_of_mem _ hx) (depth + 1)
      rw [renderAt]
      exact ((((((hopen.append (hbreak (depth + 1))).append hname).append layout.sealed_colon).append
        (ih (name, value) List.mem_cons_self (depth + 1))).append hmembers).append (hbreak depth)).append hclose

end Json

/-! ## Documents -/

theorem Document.decoded_escapeKey {name : Text} (h : name.Decoded) : (escapeKey name).Decoded := by
  unfold escapeKey
  split
  · exact Text.Decoded.cons_scalar (by decide) h
  · exact h

theorem Document.decoded_edgeMember (key : Text) {paths : List Text} (hpaths : ∀ path ∈ paths, path.Decoded) :
    ∀ m ∈ edgeMember key paths, m.1 = key ∧ m.2.Decoded := by
  unfold edgeMember
  split
  · simp
  · intro m hm
    obtain rfl := List.mem_singleton.1 hm
    refine ⟨rfl, .arr fun item hitem => ?_⟩
    obtain ⟨path, hpath, rfl⟩ := List.mem_map.1 hitem
    exact .str (hpaths path ((List.mergeSort_perm paths _).mem_iff.1 hpath))

namespace Atlas

open Document

variable {a : Atlas} {i : Nat}

theorem decoded_metaMembers (ha : a.WellFormed) (hd : a.Decoded) (reverse : Bool) (i : Nat) :
    (Json.obj (a.metaMembers reverse i)).Decoded := by
  have hpaths : ∀ kind, ∀ path ∈ (a.edges kind i).map a.documentPath, path.Decoded := by
    intro kind path hpath
    obtain ⟨j, hj, rfl⟩ := List.mem_map.1 hpath
    exact hd.documentPath ha (ha.lt_size_of_mem_edges hj).2
  have hmember : ∀ m ∈ a.metaMembers reverse i, (m.1 = depsKey ∨ m.1 = rdepsKey) ∧ m.2.Decoded := by
    intro m hm
    rcases List.mem_append.1 hm with hm | hm
    · exact (decoded_edgeMember depsKey (hpaths .dependency) m hm).imp_left .inl
    · cases reverse with
      | false => simp at hm
      | true => exact (decoded_edgeMember rdepsKey (hpaths .dependent) m hm).imp_left .inr
  refine .obj (fun m hm => ?_) fun m hm => (hmember m hm).2
  rcases (hmember m hm).1 with hkey | hkey
  · rw [hkey]
    decide
  · rw [hkey]
    decide

/-- The object of a node is made of decoded texts: names of nodes, escaped or not, and paths. -/
theorem decoded_documentAt (ha : a.WellFormed) (hd : a.Decoded) (reverse : Bool) (i : Nat) :
    (a.documentAt reverse i).Decoded := by
  induction hn : a.size - i using Nat.strongRecOn generalizing i with
  | ind size ih =>
    have hmember : ∀ m ∈ a.documentMembers reverse i, m.1.Decoded ∧ m.2.Decoded := by
      intro m hm
      rw [documentMembers, List.mem_append, List.mem_map] at hm
      rcases hm with ⟨c, hc, rfl⟩ | hm
      · obtain ⟨n, hnode, hparent⟩ := ha.mem_children.1 hc
        have hlt := ha.parent_lt hnode hparent
        have hsize := node?_lt hnode
        refine ⟨?_, ih (a.size - c) (by omega) c rfl⟩
        rw [childMember, nameOf_eq hnode]
        exact decoded_escapeKey (hd hnode)
      · split at hm
        · simp at hm
        · rw [List.mem_singleton.1 hm]
          exact ⟨(by decide : metaKey.Decoded), decoded_metaMembers ha hd reverse i⟩
    rw [documentAt_eq_obj ha]
    exact .obj (fun m hm => (hmember m hm).1) fun m hm => (hmember m hm).2

/-- **The text of an atlas is decoded**: it is what its own bytes are read as. -/
theorem decoded_dump (ha : a.WellFormed) (hd : a.Decoded) {style : Style} (hs : style.layout.Surrogateless) :
    (a.dump style).Decoded := by
  have htext : (Json.render style.layout (a.document style.reverse)).Sealed :=
    (decoded_documentAt ha hd style.reverse root).sealed_renderAt hs 0
  unfold dump
  cases hlayout : style.layout with
  | compact =>
    rw [hlayout] at htext
    exact htext.decoded
  | lines indent =>
    rw [hlayout] at htext
    exact htext _ (by decide)

/-! ## File names -/

/-- The node for a file name is listed in its directory with the very bytes of the name. -/
theorem addChild_toText (ha : a.WellFormed) (hi : i < a.size) {b : Bytes} (hb : b ≠ []) :
    ∃ a' c, a.addChild i b.toText = .ok (a', c) ∧ a'.WellFormed ∧
      ∃ m, a'.node? i = some m ∧ (b, c) ∈ m.children := by
  have hname : b.toText ≠ [] := fun h => hb (by rw [← Bytes.key_toText b, h]; rfl)
  obtain ⟨a', c, hmade⟩ := exists_addChild a i hname (Text.decoded_toText b).encode_eq
  have hlisted := listed_addChild ha hi hmade
  rw [Bytes.key_toText] at hlisted
  exact ⟨a', c, hmade, (wellFormed_addChild ha hi hmade).1, hlisted⟩

/-- **Two file names in one directory have two nodes**, whatever becomes of the atlas between the requests. -/
theorem addChild_ne (ha : a.WellFormed) (hi : i < a.size) {b b' : Bytes} (hb : b ≠ []) (hb' : b' ≠ [])
    (hne : b ≠ b') : ∃ a₁ c, a.addChild i b.toText = .ok (a₁, c) ∧
      ∀ a₂, Grows a₁ a₂ → ∃ a₃ c', a₂.addChild i b'.toText = .ok (a₃, c') ∧ c ≠ c' := by
  obtain ⟨a₁, c, hmade, _, m, hm, hmem⟩ := addChild_toText ha hi hb
  refine ⟨a₁, c, hmade, fun a₂ hgrows => ?_⟩
  have hi₂ : i < a₂.size := hgrows.keeps.lt_size (node?_lt hm)
  obtain ⟨a₃, c', hmade', hwf, m', hm', hmem'⟩ := addChild_toText hgrows.wellFormed hi₂ hb'
  refine ⟨a₃, c', hmade', ?_⟩
  rintro rfl
  -- The first node is still listed with the first bytes when the second is made.
  have hkeeps := hgrows.keeps.trans (wellFormed_addChild hgrows.wellFormed hi₂ hmade').2.1
  obtain ⟨m'', hm'', _, _, hchildren, _⟩ := hkeeps hm
  obtain ⟨n, hn, _, hkey⟩ := hwf.child hm'' (hchildren _ hmem)
  obtain ⟨n', hn', _, hkey'⟩ := hwf.child hm' hmem'
  obtain rfl := Option.some.inj (hn.symm.trans hn')
  exact hne (hkey.symm.trans hkey')

/-- **Siblings are in the order of their raw bytes.** -/
theorem pairwise_children (ha : a.WellFormed) (i : Nat) :
    (a.children i).Pairwise fun c c' =>
      ∀ b b' : Bytes, a.nameOf c = b.toText → a.nameOf c' = b'.toText → b < b' := by
  unfold children
  cases hm : a.node? i with
  | none => exact List.Pairwise.nil
  | some m =>
    have hkey : ∀ x ∈ m.children, ∀ b : Bytes, a.nameOf x.2 = b.toText → b = x.1 := by
      intro x hx b hb
      obtain ⟨n, hn, _, hkey⟩ := ha.child hm hx
      rw [← hkey, ← nameOf_eq hn, hb, Bytes.key_toText]
    refine List.pairwise_map.2 (List.Pairwise.imp_of_mem ?_ (ha.sorted hm))
    intro x y hx hy hlt b b' hb hb'
    rw [hkey x hx b hb, hkey y hy b' hb']
    exact hlt

/-- **File names that are no UTF-8 survive.** The text of a file name gives its bytes back. So in a well-formed
atlas, which every atlas with a history is, siblings stand in the order of their bytes, and two file names of a
directory never share a node. Where all names are texts of file names and the indentation holds no surrogate, the
document has bytes, and they are read as the document again. So these bytes have gone to standard output just if,
as a stream of text, it shows the document. -/
theorem undecodable_names_survive :
    (∀ b : Bytes, b.toText.encode = .ok b) ∧
    (∀ {a : Atlas}, a.WellFormed → ∀ {i : Nat}, i < a.size →
      (a.children i).Pairwise (fun c c' =>
        ∀ b b' : Bytes, a.nameOf c = b.toText → a.nameOf c' = b'.toText → b < b') ∧
      ∀ b b' : Bytes, b ≠ [] → b' ≠ [] → b ≠ b' → ∃ a₁ c, a.addChild i b.toText = .ok (a₁, c) ∧
        ∀ a₂, Grows a₁ a₂ → ∃ a₃ c', a₂.addChild i b'.toText = .ok (a₃, c') ∧ c ≠ c') ∧
    (∀ {a : Atlas}, a.WellFormed → a.Decoded → ∀ {style : Style}, style.layout.Surrogateless →
      ∃ document, (a.dump style).encode = .ok document ∧ document.toText = a.dump style ∧
        ∀ host o, Run.Delivered host [] document o ↔ o.outText = a.dump style ∧ o.host = host) := by
  refine ⟨fun b => ?_, fun ha i hi => ?_, fun ha hd style hs => ?_⟩
  · rw [(Text.decoded_toText b).encode_eq, Bytes.key_toText]
  · exact ⟨pairwise_children ha i, fun b b' hb hb' hne => addChild_ne ha hi hb hb' hne⟩
  · have hdump := decoded_dump ha hd hs
    refine ⟨_, hdump.encode_eq, hdump.toText_key, fun host o => ?_⟩
    rw [Run.Delivered, if_pos rfl, hdump.toText_key]
    refine ⟨fun h => h.2, ?_⟩
    rintro ⟨htext, hhost⟩
    refine ⟨?_, htext, hhost⟩
    -- The text was read from the bytes that were printed, and has no others.
    rw [← htext, Run.Outcome.outText, Bytes.key_toText]

/-- A directory whose name is the first byte of a sequence, with a file below it whose name begins with the second,
and next to it one with the whole sequence for a name, which includes that file. -/
def strayAtlas : Atlas :=
  [Operation.addChild (.own root) (Bytes.toText [0xC3, 0xA9]), .addChild (.own root) (Bytes.toText [0xC3]),
    .addChild (.own 2) (Bytes.toText [0xA9, 0x0A]), .addDependency (.own 1) (.own 3),
    .addDependent (.own 3) (.own 1)].foldl Operation.apply empty

theorem undecodable_names_survive_stray :
    (strayAtlas.children root = [2, 1] ∧ strayAtlas.nameOf 2 = Bytes.toText [0xC3] ∧
      strayAtlas.nameOf 1 = Bytes.toText [0xC3, 0xA9] ∧ ([0xC3] : Bytes) < [0xC3, 0xA9]) ∧
    (∃ a₁ c, strayAtlas.addChild root (Bytes.toText [0xA9]) = .ok (a₁, c) ∧
      ∀ a₂, Grows a₁ a₂ → ∃ a₃ c', a₂.addChild root (Bytes.toText [0xC2, 0xA9]) = .ok (a₃, c') ∧ c ≠ c') ∧
    ∃ document, (strayAtlas.dump ⟨true, .lines "é"⟩).encode = .ok document ∧
      document.toText = strayAtlas.dump ⟨true, .lines "é"⟩ ∧
      ∀ host o, Run.Delivered host [] document o ↔
        o.outText = strayAtlas.dump ⟨true, .lines "é"⟩ ∧ o.host = host := by
  have hbuilt : Built strayAtlas := Built.empty.applyAll (by decide +kernel)
  have hportable : strayAtlas.Portable := by decide +kernel
  obtain ⟨_, hnames, hdocument⟩ := undecodable_names_survive
  obtain ⟨hsorted, hapart⟩ := hnames hbuilt.wellFormed (show root < strayAtlas.size by decide +kernel)
  have hchildren : strayAtlas.children root = [2, 1] := by decide +kernel
  have hfirst : strayAtlas.nameOf 2 = Bytes.toText [0xC3] := by decide +kernel
  have hsecond : strayAtlas.nameOf 1 = Bytes.toText [0xC3, 0xA9] := by decide +kernel
  rw [hchildren, List.pairwise_cons] at hsorted
  exact ⟨⟨hchildren, hfirst, hsecond, hsorted.1 1 List.mem_cons_self _ _ hfirst hsecond⟩,
    hapart _ _ (by decide) (by decide) (by decide), hdocument hbuilt.wellFormed hportable.decoded (by decide)⟩

end Atlas

end HeaderAtlas
