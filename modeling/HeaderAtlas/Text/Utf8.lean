import HeaderAtlas.Text.Basic
/-!
# Texts as UTF-8

A file name is any byte string, so reading one as a text must not fail. A byte that belongs to no
well-formed UTF-8 sequence is kept as the lone surrogate `U+DC80` to `U+DCFF` with the byte's value
in its low half, and writing turns it back into that byte. `Bytes.toText` reads this way and never
fails; `Text.encode` writes this way and refuses the other lone surrogates. `Bytes.decode` and
`Text.encodeStrict` are the plain codec, for files that must be UTF-8.
-/

set_option autoImplicit false

namespace HeaderAtlas

namespace Utf8

/-! ## One sequence -/

/-- Why a byte sequence is not well formed. -/
inductive Fault where
  /-- The first byte begins no sequence. -/
  | start
  /-- A byte that should continue the sequence does not. -/
  | continuation
  /-- The bytes end inside the sequence. -/
  | truncated
  deriving DecidableEq, Repr

def Fault.message : Fault → String
  | .start => "invalid start byte"
  | .continuation => "invalid continuation byte"
  | .truncated => "unexpected end of data"

/-- The first sequence of a byte string: its value and width, or what is wrong with its first `width` bytes. The width
of a fault is that of the bytes that would have been right had the sequence gone on, as messages tell it. -/
inductive Step where
  | scalar (value width : Nat)
  | fault (reason : Fault) (width : Nat)
  deriving DecidableEq, Repr

/-- What a first byte says about its sequence: the bits it contributes, how many bytes follow, and
the bounds of the second byte, which rule out overlong forms, surrogates and values past the
end. -/
structure Lead where
  bits : Nat
  trailing : Nat
  low : UInt8
  high : UInt8
  deriving DecidableEq, Repr

/-- The reading of a first byte, if it can begin a sequence. The bytes `0xC0` and `0xC1` could begin overlong forms
only, and from `0xF5` on all values are past the end. -/
def Lead.of? (b : UInt8) : Option Lead :=
  if b < 0x80 then some ⟨b.toNat, 0, 0x80, 0xBF⟩
  else if b < 0xC2 then none
  else if b < 0xE0 then some ⟨b.toNat - 0xC0, 1, 0x80, 0xBF⟩
  else if b = 0xE0 then some ⟨0, 2, 0xA0, 0xBF⟩
  else if b = 0xED then some ⟨0xD, 2, 0x80, 0x9F⟩
  else if b < 0xF0 then some ⟨b.toNat - 0xE0, 2, 0x80, 0xBF⟩
  else if b = 0xF0 then some ⟨0, 3, 0x90, 0xBF⟩
  else if b < 0xF4 then some ⟨b.toNat - 0xF0, 3, 0x80, 0xBF⟩
  else if b = 0xF4 then some ⟨4, 3, 0x80, 0x8F⟩
  else none

/-- Reads `n` more bytes of a sequence, the first of them between `low` and `high`; `value` and
`width` are those of the bytes read so far. -/
def trail (value width : Nat) : Nat → UInt8 → UInt8 → Bytes → Step
  | 0, _, _, _ => .scalar value width
  | _ + 1, _, _, [] => .fault .truncated width
  | n + 1, low, high, b :: rest =>
    if low ≤ b ∧ b ≤ high then
      trail (value * 64 + (b.toNat - 0x80)) (width + 1) n 0x80 0xBF rest
    else .fault .continuation width

def step (b : UInt8) (rest : Bytes) : Step :=
  match Lead.of? b with
  -- a byte that begins no sequence is alone at fault
  | none => .fault .start 1
  | some lead => trail lead.bits 1 lead.trailing lead.low lead.high rest

/-- The sequence of a scalar value. -/
def sequence (v : Nat) : Bytes :=
  if v < 0x80 then [v.toUInt8]
  else if v < 0x800 then [(0xC0 + v / 64).toUInt8, (0x80 + v % 64).toUInt8]
  else if v < 0x10000 then
    [(0xE0 + v / 4096).toUInt8, (0x80 + v / 64 % 64).toUInt8, (0x80 + v % 64).toUInt8]
  else
    [(0xF0 + v / 262144).toUInt8, (0x80 + v / 4096 % 64).toUInt8, (0x80 + v / 64 % 64).toUInt8,
      (0x80 + v % 64).toUInt8]

end Utf8

/-! ## Reading -/

/-- The lone surrogate that stands for an undecodable byte. Such a byte is never below `0x80`, so the surrogate is
never below `U+DC80`. -/
def CodePoint.ofUndecodable (b : UInt8) : CodePoint := CodePoint.ofNat (0xDC00 + b.toNat)

/-- Reads a byte string as a text, `skip` bytes of a sequence already read being passed over. A byte outside a
well-formed sequence becomes a lone surrogate, one byte at a time: the next byte may begin a sequence again. -/
def Bytes.toTextFrom : Nat → Bytes → Text
  | _, [] => []
  | skip + 1, _ :: rest => Bytes.toTextFrom skip rest
  | 0, b :: rest =>
    match Utf8.step b rest with
    | .scalar value width => CodePoint.ofNat value :: Bytes.toTextFrom (width - 1) rest
    | .fault _ _ => CodePoint.ofUndecodable b :: Bytes.toTextFrom 0 rest

def Bytes.toText (b : Bytes) : Text := Bytes.toTextFrom 0 b

/-- Where a file stops being UTF-8. Only the first such place is reported. -/
structure DecodeError where
  reason : Utf8.Fault
  position : Nat
  width : Nat
  byte : UInt8
  deriving DecidableEq, Repr

namespace DecodeError

/-- One byte is shown with its value, more bytes with their positions. -/
def message (e : DecodeError) : Text :=
  let place : Text :=
    if e.width = 1 then
      "byte 0x" ++ Text.ofHex 2 e.byte.toNat ++ " in position " ++ Text.ofNat e.position
    else
      "bytes in position " ++ Text.ofNat e.position ++ "-" ++ Text.ofNat (e.position + e.width - 1)
  "'utf-8' codec can't decode " ++ place ++ ": " ++ e.reason.message

end DecodeError

/-- Reads UTF-8 from position `position` on, `skip` bytes being passed over. -/
def Bytes.decodeFrom (position : Nat) : Nat → Bytes → Except DecodeError Text
  | _, [] => .ok []
  | skip + 1, _ :: rest => Bytes.decodeFrom (position + 1) skip rest
  | 0, b :: rest =>
    match Utf8.step b rest with
    | .scalar value width =>
      match Bytes.decodeFrom (position + 1) (width - 1) rest with
      | .ok t => .ok (CodePoint.ofNat value :: t)
      | .error e => .error e
    | .fault reason width => .error ⟨reason, position, width, b⟩

def Bytes.decode (b : Bytes) : Except DecodeError Text := Bytes.decodeFrom 0 0 b

/-! ## Writing -/

/-- The first code points of a text that have no bytes. All surrogates in a row are reported together, also those
behind the first that would stand for bytes. -/
structure EncodeError where
  position : Nat
  first : CodePoint
  width : Nat
  deriving DecidableEq, Repr

namespace EncodeError

/-- One code point is shown escaped, more with their positions. -/
def message (e : EncodeError) : Text :=
  let place : Text :=
    if e.width = 1 then
      "character '\\u" ++ Text.ofHex 4 e.first.val ++ "' in position " ++ Text.ofNat e.position
    else
      "characters in position " ++ Text.ofNat e.position ++ "-" ++
        Text.ofNat (e.position + e.width - 1)
  "'utf-8' codec can't encode " ++ place ++ ": surrogates not allowed"

end EncodeError

def CodePoint.bytes? (c : CodePoint) : Option Bytes :=
  if c.isSurrogate then none else some (Utf8.sequence c.val)

/-- The bytes of a code point, a surrogate that stands for a byte being that byte. -/
def CodePoint.nameBytes? (c : CodePoint) : Option Bytes :=
  if 0xDC80 ≤ c.val ∧ c.val ≤ 0xDCFF then some [(c.val - 0xDC00).toUInt8] else c.bytes?

/-- The first code point from `position` on that has no bytes, with the run of surrogates that it begins. -/
def Text.encodeFault? (bytes? : CodePoint → Option Bytes) (position : Nat) : Text → Option EncodeError
  | [] => none
  | c :: rest =>
    match bytes? c with
    | none => some ⟨position, c, 1 + (rest.takeWhile CodePoint.isSurrogate).length⟩
    | some _ => Text.encodeFault? bytes? (position + 1) rest

/-- The bytes of all code points that have any. It is what a text is compared by, and comparing must not fail. -/
def Text.bytesWith (bytes? : CodePoint → Option Bytes) (t : Text) : Bytes :=
  t.flatMap fun c => (bytes? c).getD []

def Text.encodeWith (bytes? : CodePoint → Option Bytes) (t : Text) : Except EncodeError Bytes :=
  match Text.encodeFault? bytes? 0 t with
  | some e => .error e
  | none => .ok (t.bytesWith bytes?)

/-- The bytes of a name, by which names are ordered and told apart. -/
def Text.key (t : Text) : Bytes := t.bytesWith CodePoint.nameBytes?

/-- Writes a name or a document: surrogates that stand for bytes become those bytes. -/
def Text.encode (t : Text) : Except EncodeError Bytes := t.encodeWith CodePoint.nameBytes?

/-- Writes plain UTF-8, which has no surrogates at all. -/
def Text.encodeStrict (t : Text) : Except EncodeError Bytes := t.encodeWith CodePoint.bytes?

/-! ## Checks -/

example : Bytes.toText [0x61, 0xC3, 0xA9, 0xFF] =
    [CodePoint.ofChar 'a', CodePoint.ofChar 'é', CodePoint.ofNat 0xDCFF] := by decide

/-- A surrogate written as three bytes is no UTF-8: each byte stands for itself. -/
example : Bytes.toText [0xED, 0xB2, 0x80] =
    [CodePoint.ofNat 0xDCED, CodePoint.ofNat 0xDCB2, CodePoint.ofNat 0xDC80] := by decide

example : Text.encode [CodePoint.ofNat 0xDCED, CodePoint.ofNat 0xDCB2] = .ok [0xED, 0xB2] := rfl

end HeaderAtlas
