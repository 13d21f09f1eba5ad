import SystemFundamentals.Library.LittleEndian
import Mathlib.Data.Fin.Basic
import Mathlib.Tactic.SplitIfs

/-!
# Glyphs and code points

The glyph buffers of {lit}`hw2/include/utf.h` and the functions that take a code
point to and from them, on a little-endian host whose bit-fields are allocated
from the low bit.

Main results:

- Theorem {lit}`reverseUnit_unitOf`: {lit}`reverse_bytes` on a 16-bit unit swaps
  its two bytes.
- Theorem {lit}`encoded_startsWithBom`: the UTF-8 bytes of a code point start
  with the UTF-8 byte order mark only if the code point is U+FEFF.
-/

namespace SystemFundamentals.Utf

open Library

/-! ## Byte order -/

/-- The loop of {lit}`reverse_bytes`, with its two indices. -/
def reverseBytesLoop : List UInt8 → Nat → Nat → List UInt8
  | ptr, 0, _ => ptr
  | ptr, i + 1, j =>
      if j < i + 1 then
        reverseBytesLoop
          ((ptr.set (i + 1) (ptr.getD j 0)).set j (ptr.getD (i + 1) 0)) i (j + 1)
      else ptr

/-- {lit}`reverse_bytes` on the object whose memory starts with {lit}`bufp`. -/
def reverseBytes (bufp : List UInt8) (count : Nat) : List UInt8 :=
  reverseBytesLoop bufp (count - 1) 0

/-- The value of a {lit}`uint16_t` after {lit}`reverse_bytes(&unit, 2)`. -/
def reverseUnit (unit : UInt16) : UInt16 :=
  UInt16.ofNat (LittleEndian.decode
    (reverseBytes (LittleEndian.encode 2 unit.toNat) 2))

/-- The {lit}`uint16_t` with the given low and high byte. -/
def unitOf (low high : UInt8) : UInt16 :=
  UInt16.ofNat (LittleEndian.decode [low, high])

@[simp] theorem encode_unitOf (low high : UInt8) :
    LittleEndian.encode 2 (unitOf low high).toNat = [low, high] := by
  have hvalue : (unitOf low high).toNat = LittleEndian.decode [low, high] := by
    rw [unitOf, UInt16.toNat_ofNat']
    exact Nat.mod_eq_of_lt (by simpa using LittleEndian.decode_lt [low, high])
  rw [hvalue]
  exact LittleEndian.encode_decode [low, high]

/-- Reversing a unit swaps its two bytes. -/
@[simp] theorem reverseUnit_unitOf (low high : UInt8) :
    reverseUnit (unitOf low high) = unitOf high low := by
  rw [reverseUnit, encode_unitOf]
  rfl

/-- The bytes of a unit, low byte first, are the unit's value. -/
theorem unitOf_bytes (unit : UInt16) : unitOf unit.toUInt8 (unit >>> 8).toUInt8 = unit := by
  have hlt := unit.toNat_lt
  apply UInt16.toNat_inj.mp
  rw [unitOf, UInt16.toNat_ofNat', LittleEndian.decode, LittleEndian.decode,
    LittleEndian.decode, UInt16.toNat_toUInt8, UInt16.toNat_toUInt8, UInt16.toNat_shiftRight,
    show (8 : UInt16).toNat % 16 = 8 from rfl, Nat.shiftRight_eq_div_pow]
  omega

/-! ## Glyph buffers -/

/-- {lit}`utf16_glyph_t`. -/
structure Utf16Glyph where
  upperBytes : UInt16
  lowerBytes : UInt16
deriving DecidableEq

/-- The four bytes of a {lit}`utf16_glyph_t` in memory. -/
def Utf16Glyph.toBytes (glyph : Utf16Glyph) : List UInt8 :=
  LittleEndian.encode 2 glyph.upperBytes.toNat ++
    LittleEndian.encode 2 glyph.lowerBytes.toNat

/-- {lit}`utf8_glyph_t`. -/
abbrev Utf8Glyph := Fin 4 → UInt8

namespace Utf8Glyph

/-- A glyph set to zero by {lit}`memeset`. -/
def zero : Utf8Glyph := fun _ => 0

/-- {lit}`glyph.bytes[i].byte |= buf`. -/
def orByte (glyph : Utf8Glyph) (i : Nat) (buf : UInt8) : Utf8Glyph :=
  fun j => if j = i then glyph j ||| buf else glyph j

/-- The bytes a {lit}`read` into {lit}`&glyph.bytes[offset]` leaves behind. -/
def overwrite (glyph : Utf8Glyph) (offset : Nat) (bytes : List UInt8) : Utf8Glyph :=
  fun j => if offset ≤ j then bytes.getD (j - offset) (glyph j) else glyph j

/-- The four bytes of the glyph in memory. -/
def toBytes (glyph : Utf8Glyph) : List UInt8 :=
  [glyph 0, glyph 1, glyph 2, glyph 3]

end Utf8Glyph

/-! ## UTF-16 glyphs -/

def isUpperSurrogatePair (glyph : Utf16Glyph) : Bool :=
  glyph.upperBytes > 0xD800 && glyph.upperBytes < 0xDBFF

def isLowerSurrogatePair (glyph : Utf16Glyph) : Bool :=
  glyph.lowerBytes > 0xDC00 && glyph.lowerBytes < 0xDFFF

/-- {lit}`utf16_glyph_to_code_point`; the {lit}`int` arithmetic of the second
branch ends in a {lit}`uint32_t`. -/
def utf16GlyphToCodePoint (glyph : Utf16Glyph) : UInt32 :=
  if !isUpperSurrogatePair glyph then glyph.lowerBytes.toUInt32
  else
    (((glyph.upperBytes.toUInt32 - 0xD800) <<< 10) |||
      (glyph.lowerBytes.toUInt32 - 0xDC00)) + 0x10000

def isCodePointSurrogate (codePoint : UInt32) : Bool :=
  codePoint ≥ 0x10000

/-- {lit}`code_point_to_utf16le_glyph`, with the size it stores. -/
def codePointToUtf16leGlyph (codePoint : UInt32) : Utf16Glyph × Nat :=
  if isCodePointSurrogate codePoint then
    ({ upperBytes := (((codePoint - 0x10000) >>> 10) + 0xD800).toUInt16
       lowerBytes := (((codePoint - 0x10000) &&& 0x3FF) + 0xDC00).toUInt16 }, 4)
  else ({ upperBytes := codePoint.toUInt16, lowerBytes := 0 }, 2)

/-- {lit}`code_point_to_utf16be_glyph`, with the size it stores. -/
def codePointToUtf16beGlyph (codePoint : UInt32) : Utf16Glyph × Nat :=
  if isCodePointSurrogate codePoint then
    ({ upperBytes := reverseUnit (((codePoint - 0x10000) >>> 10) + 0xD800).toUInt16
       lowerBytes := reverseUnit (((codePoint - 0x10000) &&& 0x3FF) + 0xDC00).toUInt16 }, 4)
  else ({ upperBytes := reverseUnit codePoint.toUInt16, lowerBytes := 0 }, 2)

/-! ## Encoding UTF-8 -/

def utf8GlyphSizeOfCodePoint (codePoint : UInt32) : Nat :=
  if codePoint ≤ 0x7F then 1
  else if codePoint ≤ 0x7FF then 2
  else if codePoint ≤ 0xFFFF then 3
  else 4

/-- {lit}`utf8_one_byte_encode`.  The source leaves the other three bytes
indeterminate; only the first one is ever written to a file. -/
def utf8OneByteEncode (codePoint : UInt32) : Utf8Glyph :=
  Utf8Glyph.zero.orByte 0 codePoint.toUInt8

def utf8TwoByteEncode (codePoint : UInt32) : Utf8Glyph :=
  (Utf8Glyph.zero.orByte 1 (0x80 ||| (codePoint &&& 0x3F)).toUInt8).orByte 0
    ((0xC0 : UInt32) ||| ((codePoint >>> 6) &&& 0x1F)).toUInt8

/-- The loop that fills the continuation bytes from the last one to the first. -/
def continuationLoop : Nat → Utf8Glyph → UInt32 → Utf8Glyph × UInt32
  | 0, glyph, codePoint => (glyph, codePoint)
  | i + 1, glyph, codePoint =>
      continuationLoop i (glyph.orByte (i + 1) (0x80 ||| (codePoint &&& 0x3F)).toUInt8)
        (codePoint >>> 6)

def utf8ThreeByteEncode (codePoint : UInt32) : Utf8Glyph :=
  match continuationLoop 2 .zero codePoint with
  | (glyph, codePoint) => glyph.orByte 0 (0xE0 ||| (codePoint &&& 0x0F)).toUInt8

def utf8FourByteEncode (codePoint : UInt32) : Utf8Glyph :=
  match continuationLoop 3 .zero codePoint with
  | (glyph, codePoint) => glyph.orByte 0 (0xF0 ||| (codePoint &&& 0x07)).toUInt8

/-- {lit}`get_utf8_encoding_function`; {lit}`none` is the null pointer. -/
def getUtf8EncodingFunction : Nat → Option (UInt32 → Utf8Glyph)
  | 1 => some utf8OneByteEncode
  | 2 => some utf8TwoByteEncode
  | 3 => some utf8ThreeByteEncode
  | 4 => some utf8FourByteEncode
  | _ => none

/-- {lit}`code_point_to_utf8_glyph`, with the size it stores; {lit}`none` is a
call through the null pointer. -/
def codePointToUtf8Glyph (codePoint : UInt32) : Option (Utf8Glyph × Nat) :=
  (getUtf8EncodingFunction (utf8GlyphSizeOfCodePoint codePoint)).map fun encode =>
    (encode codePoint, utf8GlyphSizeOfCodePoint codePoint)

/-- The bytes a converter writes for a code point. -/
def encodedBytes (codePoint : UInt32) : List UInt8 :=
  match codePointToUtf8Glyph codePoint with
  | some (glyph, size) => glyph.toBytes.take size
  | none => []

/-- Some encoding function is called on every code point. -/
theorem codePointToUtf8Glyph_isSome (codePoint : UInt32) :
    ∃ glyph size, codePointToUtf8Glyph codePoint = some (glyph, size) ∧
      encodedBytes codePoint = glyph.toBytes.take size := by
  unfold encodedBytes codePointToUtf8Glyph utf8GlyphSizeOfCodePoint
  split_ifs <;> exact ⟨_, _, rfl, rfl⟩

/-- The bytes of a code point by its size. -/
theorem encodedBytes_eq (codePoint : UInt32) :
    encodedBytes codePoint =
      if codePoint ≤ 0x7F then [codePoint.toUInt8]
      else if codePoint ≤ 0x7FF then
        [((0xC0 : UInt32) ||| ((codePoint >>> 6) &&& 0x1F)).toUInt8,
          ((0x80 : UInt32) ||| (codePoint &&& 0x3F)).toUInt8]
      else if codePoint ≤ 0xFFFF then
        [((0xE0 : UInt32) ||| ((codePoint >>> 6 >>> 6) &&& 0x0F)).toUInt8,
          ((0x80 : UInt32) ||| ((codePoint >>> 6) &&& 0x3F)).toUInt8,
          ((0x80 : UInt32) ||| (codePoint &&& 0x3F)).toUInt8]
      else
        [((0xF0 : UInt32) ||| ((codePoint >>> 6 >>> 6 >>> 6) &&& 0x07)).toUInt8,
          ((0x80 : UInt32) ||| ((codePoint >>> 6 >>> 6) &&& 0x3F)).toUInt8,
          ((0x80 : UInt32) ||| ((codePoint >>> 6) &&& 0x3F)).toUInt8,
          ((0x80 : UInt32) ||| (codePoint &&& 0x3F)).toUInt8] := by
  unfold encodedBytes codePointToUtf8Glyph utf8GlyphSizeOfCodePoint
  split_ifs <;>
    simp [getUtf8EncodingFunction, utf8OneByteEncode, utf8TwoByteEncode, utf8ThreeByteEncode,
      utf8FourByteEncode, continuationLoop, Utf8Glyph.orByte, Utf8Glyph.zero,
      Utf8Glyph.toBytes]

/-- A tag over the low bits of a code point, as a number. -/
theorem toNat_tagged {tag mask : UInt32} (i high : Nat) (codePoint : UInt32)
    (htag : tag.toNat = 2 ^ i * high) (hmask : mask.toNat = 2 ^ i - 1)
    (hbyte : 2 ^ i * high + 2 ^ i ≤ 256) :
    (tag ||| (codePoint &&& mask)).toUInt8.toNat =
      2 ^ i * high + codePoint.toNat % 2 ^ i := by
  have hlow : codePoint.toNat % 2 ^ i < 2 ^ i := Nat.mod_lt _ (Nat.two_pow_pos i)
  rw [UInt32.toNat_toUInt8, UInt32.toNat_or, UInt32.toNat_and, hmask,
    Nat.and_two_pow_sub_one_eq_mod, htag, ← Nat.two_pow_add_eq_or_of_lt hlow]
  exact Nat.mod_eq_of_lt (by omega)

theorem toNat_continuation (codePoint : UInt32) :
    ((0x80 : UInt32) ||| (codePoint &&& 0x3F)).toUInt8.toNat =
      128 + codePoint.toNat % 64 :=
  toNat_tagged 6 2 codePoint rfl rfl (by decide)

theorem toNat_leadOfTwo (codePoint : UInt32) :
    ((0xC0 : UInt32) ||| (codePoint &&& 0x1F)).toUInt8.toNat =
      192 + codePoint.toNat % 32 :=
  toNat_tagged 5 6 codePoint rfl rfl (by decide)

theorem toNat_leadOfThree (codePoint : UInt32) :
    ((0xE0 : UInt32) ||| (codePoint &&& 0x0F)).toUInt8.toNat =
      224 + codePoint.toNat % 16 :=
  toNat_tagged 4 14 codePoint rfl rfl (by decide)

theorem toNat_leadOfFour (codePoint : UInt32) :
    ((0xF0 : UInt32) ||| (codePoint &&& 0x07)).toUInt8.toNat =
      240 + codePoint.toNat % 8 :=
  toNat_tagged 3 30 codePoint rfl rfl (by decide)

/-- The bytes of a code point start with the UTF-8 byte order mark only if the
code point is U+FEFF. -/
theorem encoded_startsWithBom {codePoint : UInt32} {rest : List UInt8}
    (h : [0xEF, 0xBB, 0xBF] <+: encodedBytes codePoint ++ rest) :
    codePoint = 0xFEFF := by
  have hshift (x : UInt32) : (x >>> 6).toNat = x.toNat / 64 := by
    rw [UInt32.toNat_shiftRight]
    exact Nat.shiftRight_eq_div_pow _ 6
  rw [encodedBytes_eq] at h
  split_ifs at h with hone htwo hthree
  · -- a byte below 0x80 is not 0xEF
    have hhead := congrArg UInt8.toNat (List.cons_prefix_cons.mp h).1
    rw [UInt32.toNat_toUInt8] at hhead
    have hle : codePoint.toNat ≤ 0x7F := hone
    have hvalue : (0xEF : UInt8).toNat = 239 := rfl
    omega
  · have hhead := congrArg UInt8.toNat (List.cons_prefix_cons.mp h).1
    rw [toNat_leadOfTwo] at hhead
    have hvalue : (0xEF : UInt8).toNat = 239 := rfl
    omega
  · rcases List.cons_prefix_cons.mp h with ⟨hfirst, h⟩
    rcases List.cons_prefix_cons.mp h with ⟨hsecond, h⟩
    have hthird := (List.cons_prefix_cons.mp h).1
    replace hfirst := congrArg UInt8.toNat hfirst
    replace hsecond := congrArg UInt8.toNat hsecond
    replace hthird := congrArg UInt8.toNat hthird
    rw [toNat_leadOfThree, hshift, hshift] at hfirst
    rw [toNat_continuation, hshift] at hsecond
    rw [toNat_continuation] at hthird
    have hle : codePoint.toNat ≤ 0xFFFF := hthree
    have hvalue : (0xEF : UInt8).toNat = 239 := rfl
    have hvalue' : (0xBB : UInt8).toNat = 187 := rfl
    have hvalue'' : (0xBF : UInt8).toNat = 191 := rfl
    apply UInt32.toNat_inj.mp
    show codePoint.toNat = 65279
    omega
  · have hhead := congrArg UInt8.toNat (List.cons_prefix_cons.mp h).1
    rw [toNat_leadOfFour] at hhead
    have hvalue : (0xEF : UInt8).toNat = 239 := rfl
    omega

/-! ## Decoding UTF-8 -/

/-- {lit}`remaining_utf8_bytes`; the fields {lit}`top_five.bits`,
{lit}`top_four.bits` and {lit}`top_three.bits` are the high bits of the byte. -/
def remainingUtf8Bytes (firstByte : UInt8) : Nat :=
  if firstByte >>> 3 = 0x1E then 3
  else if firstByte >>> 4 = 0xE then 2
  else if firstByte >>> 5 = 0x6 then 1
  else 0

def utf8OneByteDecode (glyph : Utf8Glyph) : UInt32 :=
  (glyph 0).toUInt32

def utf8TwoByteDecode (glyph : Utf8Glyph) : UInt32 :=
  ((glyph 0 &&& 0x1F).toUInt32 <<< 6) ||| (glyph 1 &&& 0x3F).toUInt32

def utf8ThreeByteDecode (glyph : Utf8Glyph) : UInt32 :=
  ((glyph 0 &&& 0x0F).toUInt32 <<< 12) ||| ((glyph 1 &&& 0x3F).toUInt32 <<< 6) |||
    (glyph 2 &&& 0x3F).toUInt32

def utf8FourByteDecode (glyph : Utf8Glyph) : UInt32 :=
  ((glyph 0 &&& 0x07).toUInt32 <<< 18) ||| ((glyph 1 &&& 0x3F).toUInt32 <<< 12) |||
    ((glyph 2 &&& 0x3F).toUInt32 <<< 6) ||| (glyph 3 &&& 0x3F).toUInt32

/-- {lit}`get_utf8_decoding_function`; {lit}`none` is the null pointer. -/
def getUtf8DecodingFunction : Nat → Option (Utf8Glyph → UInt32)
  | 1 => some utf8OneByteDecode
  | 2 => some utf8TwoByteDecode
  | 3 => some utf8ThreeByteDecode
  | 4 => some utf8FourByteDecode
  | _ => none

end SystemFundamentals.Utf
