import HeaderAtlas.Atlas.Document
import HeaderAtlas.Atlas.Request
import HeaderAtlas.Proofs.Json.RoundTrip
import Mathlib.Data.List.DropRight
/-!
# White space between the tokens

A layout decides about white space and about nothing else: if the white space outside of strings is left out,
a document in any layout is the one on one line (`Json.withoutBlanks_render`).

What is outside of a string depends on all that stands before: a quote opens a string, the next one closes it,
and after a backslash a quote does not count. A text is therefore followed from one region to another
(`Json.Strips`), and such texts are put together like the document itself. Names may hold quotes, backslashes
and blanks: their escapes end where they began, inside of the string.
-/

set_option autoImplicit false

namespace HeaderAtlas

namespace Json

/-! ## Regions -/

/-- Where a code point of a document stands: outside of strings, inside of one, or inside after a backslash. These
three are all that has to be known of what stands before it. -/
inductive Region where
  | outside
  | inside
  | escape
  deriving DecidableEq

namespace Region

/-- The region behind a code point. -/
def after : Region → CodePoint → Region
  | .outside, c => if c = '"' then .inside else .outside
  | .inside, c => if c = '"' then .outside else if c = '\\' then .escape else .inside
  | .escape, _ => .inside

/-- Whether a code point is white space that belongs to no string. -/
def isBlank : Region → CodePoint → Bool
  | .outside, c => isSpace c
  | .inside, _ => false
  | .escape, _ => false

/-- Whether a code point is no such white space and the region goes on behind it. A text made of these stays as
it is. -/
def keeps (region : Region) (c : CodePoint) : Bool := !region.isBlank c && decide (region.after c = region)

end Region

/-- Leaves out the white space outside of strings, in a text that begins in the given region. -/
def withoutBlanksFrom (region : Region) : Text → Text
  | [] => []
  | c :: rest =>
    let more := withoutBlanksFrom (region.after c) rest
    if region.isBlank c then more else c :: more

/-- Leaves out all the white space of a document that lies outside of its strings. -/
def withoutBlanks (t : Text) : Text := withoutBlanksFrom .outside t

/-- A text `s` that begins in the region `p` ends in the region `q`, and `s'` is what stays of it. The statement is
about any text behind it, so that texts can be put together. -/
def Strips (p q : Region) (s s' : Text) : Prop :=
  ∀ rest : Text, withoutBlanksFrom p (s ++ rest) = s' ++ withoutBlanksFrom q rest

namespace Strips

variable {p q r : Region} {s s' t t' : Text}

theorem nil : Strips p p [] [] := fun _ => rfl

/-- Texts are put together where the region at the end of one is that at the beginning of the next. -/
theorem append (hs : Strips p q s s') (ht : Strips q r t t') : Strips p r (s ++ t) (s' ++ t') := by
  intro rest
  rw [List.append_assoc, hs, ht, List.append_assoc]

/-- One code point that stays. -/
theorem single {c : CodePoint} (h : p.isBlank c = false) : Strips p (p.after c) [c] [c] := by
  intro rest
  rw [List.singleton_append, withoutBlanksFrom, h]
  rfl

/-- White space outside of strings goes. -/
theorem of_isSpace (h : ∀ c ∈ s, isSpace c = true) : Strips .outside .outside s [] := by
  induction s with
  | nil => exact nil
  | cons c s ih =>
    have hc : isSpace c = true := h c List.mem_cons_self
    have hquote : c ≠ CodePoint.ofChar '"' := by
      rintro rfl
      exact absurd hc (by decide)
    intro rest
    have hafter : Region.outside.after c = .outside := if_neg hquote
    rw [List.cons_append, withoutBlanksFrom, hafter, Region.isBlank, if_pos hc]
    exact ih (fun d hd => h d (List.mem_cons_of_mem _ hd)) rest

/-- Where nothing is white space and nothing is a quote, everything stays. -/
theorem of_keeps (h : ∀ c ∈ s, p.keeps c = true) : Strips p p s s := by
  induction s with
  | nil => exact nil
  | cons c s ih =>
    have hc := h c List.mem_cons_self
    rw [Region.keeps, Bool.and_eq_true, Bool.not_eq_true', decide_eq_true_eq] at hc
    have hfirst : Strips p p [c] [c] := by
      have hstays := single hc.1
      rwa [hc.2] at hstays
    exact hfirst.append (ih fun d hd => h d (List.mem_cons_of_mem _ hd))

/-- The same for a text that is given: its code points are gone through. -/
theorem of_all (h : s.all p.keeps = true) : Strips p p s s := of_keeps (List.all_eq_true.1 h)

theorem withoutBlanks (h : Strips .outside q s s') : withoutBlanks s = s' := by
  have hrest := h []
  rwa [List.append_nil, withoutBlanksFrom, List.append_nil] at hrest

end Strips

/-! ## Strings -/

/-- A backslash, the letter after it and what follows: the letter is passed over, whatever it is. -/
theorem strips_backslash (letter : CodePoint) {s : Text} (h : s.all Region.inside.keeps = true) :
    Strips .inside .inside (CodePoint.ofChar '\\' :: letter :: s) (CodePoint.ofChar '\\' :: letter :: s) := by
  have hslash : Strips .inside .escape [CodePoint.ofChar '\\'] [CodePoint.ofChar '\\'] :=
    Strips.single (p := .inside) rfl
  have hletter : Strips .escape .inside [letter] [letter] := Strips.single (p := .escape) rfl
  exact (hslash.append hletter).append (Strips.of_all h)

/-- **One code point of a string.** Its escape stays as it is and is not the end of the string. -/
theorem strips_jsonEscaped (c : CodePoint) : Strips .inside .inside c.jsonEscaped c.jsonEscaped := by
  have hhex : ∀ n < 0x20, (Text.ofHex 4 n).all Region.inside.keeps = true := by decide
  have hshort : ∀ letter : CodePoint, Strips .inside .inside [CodePoint.ofChar '\\', letter]
      [CodePoint.ofChar '\\', letter] := fun letter => strips_backslash letter (s := []) rfl
  unfold CodePoint.jsonEscaped
  -- Seven code points have an escape of one letter.
  iterate 7
    split
    · exact hshort _
  split
  · next h => exact strips_backslash _ (hhex c.val h)
  · next hquote hback _ _ _ _ _ _ =>
    -- What is left stands for itself, and is neither a quote nor a backslash.
    refine Strips.of_keeps fun d hd => ?_
    obtain rfl := List.mem_singleton.1 hd
    simp [Region.keeps, Region.isBlank, Region.after, hquote, hback]

/-- **A string stays as it is**, with the blanks in it, and is closed by its last quote. By induction on the string,
one code point and its escape at a time. -/
theorem strips_quotedString (t : Text) : Strips .outside .outside (quotedString t) (quotedString t) := by
  have hopen : Strips .outside .inside [CodePoint.ofChar '"'] [CodePoint.ofChar '"'] :=
    Strips.single (p := .outside) (by decide)
  have hclose : Strips .inside .outside [CodePoint.ofChar '"'] [CodePoint.ofChar '"'] :=
    Strips.single (p := .inside) rfl
  have hbody : Strips .inside .inside (t.flatMap CodePoint.jsonEscaped) (t.flatMap CodePoint.jsonEscaped) := by
    induction t with
    | nil => exact Strips.nil
    | cons c t ih =>
      rw [List.flatMap_cons]
      exact (strips_jsonEscaped c).append ih
  exact hopen.append (hbody.append hclose)

/-! ## Numbers -/

/-- A text without white space and without quotes. Numbers and words are of this kind. -/
def Solid (t : Text) : Prop := ∀ c ∈ t, Region.outside.keeps c = true

namespace Solid

variable {s t : Text}

theorem of_all (h : t.all Region.outside.keeps = true) : Solid t := List.all_eq_true.1 h

theorem append (hs : Solid s) (ht : Solid t) : Solid (s ++ t) := fun c hc =>
  (List.mem_append.1 hc).elim (hs c) (ht c)

theorem subset (ht : Solid t) (h : s ⊆ t) : Solid s := fun c hc => ht c (h hc)

end Solid

theorem solid_ofNat (n : Nat) : Solid (Text.ofNat n) := by
  intro c hc
  have hdigit := isAsciiDigit_ofNat hc
  have hquote := ne_of_isAsciiDigit hdigit (show (CodePoint.ofChar '"').isAsciiDigit = false from rfl)
  have hblank : isSpace c = false := by
    by_contra hspace
    have hspace' : isSpace c = true := by simpa using hspace
    have hcont := continuesNumber_of_isSpace hspace'
    rw [continuesNumber, hdigit] at hcont
    exact absurd hcont (by simp)
  simp [Region.keeps, Region.isBlank, Region.after, hquote, hblank]

theorem solid_ofInt (n : Int) : Solid (Text.ofInt n) := by
  cases n with
  | ofNat n => exact solid_ofNat n
  | negSucc n => exact (Solid.of_all (t := [CodePoint.ofChar '-']) rfl).append (solid_ofNat (n + 1))

theorem solid_zeros (n : Nat) : Solid (List.replicate n (CodePoint.ofChar '0')) := by
  intro c hc
  rw [List.eq_of_mem_replicate hc]
  decide

theorem solid_decimal (d : Number.Decimal) : Solid d.text := by
  have hdigits : Solid (Text.dropRightWhile (· == CodePoint.ofChar '0') (Text.ofNat d.digits)) :=
    (solid_ofNat d.digits).subset (List.rdropWhile_prefix _ _).subset
  have hmark : ∀ e : Int, Solid (Text.ofString (if e < 0 then "e-" else "e+")) := by
    intro e
    split
    · exact Solid.of_all rfl
    · exact Solid.of_all rfl
  unfold Number.Decimal.text
  generalize Text.dropRightWhile (· == CodePoint.ofChar '0') (Text.ofNat d.digits) = digits at hdigits ⊢
  dsimp only
  split
  · split
    · exact ((Solid.of_all rfl).append (solid_zeros _)).append hdigits
    split
    · exact (hdigits.append (solid_zeros _)).append (Solid.of_all rfl)
    · exact ((hdigits.subset (List.take_subset _ _)).append (Solid.of_all rfl)).append
        (hdigits.subset (List.drop_subset _ _))
  · refine ((Solid.append ?_ (hmark _)).append (solid_zeros _)).append (solid_ofNat _)
    split
    · exact hdigits
    · exact hdigits
    · next c rest _ =>
      have hfirst : Solid [c] := hdigits.subset (by simp)
      have hrest : Solid rest := hdigits.subset (by simp)
      exact hfirst.append ((Solid.of_all (t := [CodePoint.ofChar '.']) rfl).append hrest)

/-- A fraction is written with digits, a point, a sign and an `e`, or as one of three words. -/
theorem solid_floatText (x : Float) : Solid (Number.floatText "NaN" "Infinity" x) := by
  unfold Number.floatText
  dsimp only
  have hsign : ∀ b : Prop, [Decidable b] → Solid (if b then "-" else ([] : Text)) := by
    intro b _
    split
    · exact Solid.of_all rfl
    · exact Solid.of_all rfl
  split
  · split
    · exact (hsign _).append (Solid.of_all rfl)
    · exact Solid.of_all rfl
  split
  · exact (hsign _).append (Solid.of_all rfl)
  · exact (hsign _).append (solid_decimal _)

/-! ## Values -/

theorem Layout.IsBlank.strips_lineBreak {layout : Layout} (h : layout.IsBlank) (depth : Nat) :
    Strips .outside .outside (layout.lineBreak depth) (Layout.compact.lineBreak depth) :=
  Strips.of_isSpace (h.lineBreak depth)

theorem Layout.strips_colon (layout : Layout) : Strips .outside .outside layout.colon Layout.compact.colon := by
  obtain ⟨blank, hcolon, hblank⟩ := layout.colon_eq
  have hmark : Strips .outside .outside [CodePoint.ofChar ':'] [CodePoint.ofChar ':'] := Strips.of_all rfl
  rw [hcolon]
  exact hmark.append (Strips.of_isSpace hblank)

section Rendering

variable {layout : Layout} (hl : layout.IsBlank)

include hl

mutual

/-- **A written value**, at any depth: without its line breaks it is the value written on one line. The
induction is on the value, and the depth is that at which it stands in both layouts. -/
theorem strips_renderAt (depth : Nat) : ∀ v : Json,
    Strips .outside .outside (renderAt layout depth v) (renderAt .compact depth v)
  | .null => Strips.of_all rfl
  | .bool true => Strips.of_all rfl
  | .bool false => Strips.of_all rfl
  | .int n => Strips.of_keeps (solid_ofInt n)
  | .float x => Strips.of_keeps (solid_floatText x)
  | .str t => strips_quotedString t
  | .arr [] => Strips.of_all rfl
  | .arr (item :: items) => by
    have hbreak := hl.strips_lineBreak
    have hopen : Strips .outside .outside "[" "[" := Strips.of_all rfl
    have hclose : Strips .outside .outside "]" "]" := Strips.of_all rfl
    rw [renderAt, renderAt]
    exact ((((hopen.append (hbreak (depth + 1))).append (strips_renderAt (depth + 1) item)).append
      (strips_renderItems (depth + 1) items)).append (hbreak depth)).append hclose
  | .obj [] => Strips.of_all rfl
  | .obj ((name, value) :: members) => by
    have hbreak := hl.strips_lineBreak
    have hopen : Strips .outside .outside "\x7b" "\x7b" := Strips.of_all rfl
    have hclose : Strips .outside .outside "\x7d" "\x7d" := Strips.of_all rfl
    rw [renderAt, renderAt]
    exact ((((((hopen.append (hbreak (depth + 1))).append (strips_quotedString name)).append
      layout.strips_colon).append (strips_renderAt (depth + 1) value)).append
        (strips_renderMembers (depth + 1) members)).append (hbreak depth)).append hclose

/-- The items behind the first, each with its comma and its line break. -/
theorem strips_renderItems (depth : Nat) : ∀ items : List Json,
    Strips .outside .outside (renderItems layout depth items) (renderItems .compact depth items)
  | [] => Strips.nil
  | item :: items => by
    have hcomma : Strips .outside .outside "," "," := Strips.of_all rfl
    rw [renderItems, renderItems]
    exact ((hcomma.append (hl.strips_lineBreak depth)).append (strips_renderAt depth item)).append
      (strips_renderItems depth items)

theorem strips_renderMembers (depth : Nat) : ∀ members : List (Text × Json),
    Strips .outside .outside (renderMembers layout depth members) (renderMembers .compact depth members)
  | [] => Strips.nil
  | (name, value) :: members => by
    have hcomma : Strips .outside .outside "," "," := Strips.of_all rfl
    rw [renderMembers, renderMembers]
    exact ((((hcomma.append (hl.strips_lineBreak depth)).append (strips_quotedString name)).append
      layout.strips_colon).append (strips_renderAt depth value)).append (strips_renderMembers depth members)

end

end Rendering

/-- **A layout is white space only.** What two layouts make of a value is the same once the white space outside of
strings is gone. -/
theorem withoutBlanks_render {layout : Layout} (hl : layout.IsBlank) (v : Json) :
    withoutBlanks (render layout v) = render .compact v := (strips_renderAt hl 0 v).withoutBlanks

end Json

/-! ## Documents -/

namespace Atlas

/-- **Documents differ in white space only.** Whatever the names of an atlas hold, its document in lines, with
dependents or without and under any blank indentation, is the one without line breaks and blanks once those
outside of its strings are left out. The document on one line has none of them to begin with. -/
theorem withoutBlanks_dump (a : Atlas) (reverse : Bool) {layout : Json.Layout} (hl : layout.IsBlank) :
    Json.withoutBlanks (a.dump ⟨reverse, layout⟩) = a.dump ⟨reverse, .compact⟩ := by
  cases layout with
  | compact => exact Json.withoutBlanks_render hl (a.document reverse)
  | lines indent =>
    have hdocument := Json.strips_renderAt hl 0 (a.document reverse)
    -- The line feed at the end is left out like the others.
    have hfeed : Json.Strips .outside .outside [CodePoint.ofChar '\n'] [] :=
      Json.Strips.of_isSpace (List.all_eq_true.1 rfl)
    have hall := (hdocument.append hfeed).withoutBlanks
    rwa [List.append_nil] at hall

/-- A directory and a header below it. Their names hold quotes, backslashes, blanks, a control character and a
byte that is no UTF-8. -/
def awkwardAtlas : Atlas :=
  let directory := Text.ofString "a \" \\\t" ++ [CodePoint.ofNat 1, CodePoint.ofNat 0xDC80]
  (empty.performAll [.node [directory], .dependency [directory] [directory, "\\\" .h"]]).1

/-- The names of this atlas hold all that could be mistaken for layout. -/
theorem withoutBlanks_dump_awkward : Json.Layout.IsBlank (.lines " \t") ∧ awkwardAtlas.edgeCount = 1 ∧
    Json.withoutBlanks (awkwardAtlas.dump ⟨true, .lines " \t"⟩) = awkwardAtlas.dump ⟨true, .compact⟩ := by
  have hblank : Json.Layout.IsBlank (.lines " \t") :=
    List.all_eq_true.1 (show (Text.ofString " \t").all Json.isSpace = true from rfl)
  exact ⟨hblank, by decide +kernel, withoutBlanks_dump awkwardAtlas true hblank⟩

end Atlas

end HeaderAtlas
