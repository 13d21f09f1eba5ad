import SystemFundamentals.Utf.TwoPaths

/-!
# Input that ends inside a character

A text and then a part of one more character.  A read at the end of the file transfers what
there is, and the four loops go on with what the glyph buffer holds from before.

Main results:

- Theorem {lit}`utf8ToUtf16Loop_ne_nil`: the loops from UTF-8 write something for any bytes.
- Theorem {lit}`utf16ToUtf8Loop_leftOver`: what the loops from UTF-16 go on with after a
  text, in terms of its last two characters.
- Theorem {lit}`cutOff_iff`: for which ends the output is that of the text alone.
-/

namespace SystemFundamentals.Utf

open Library

/-- A conversion writes for a text and what follows it what it writes for the text. -/
def SameOutput (convert : List UInt8 → Conversion) (text rest : List UInt8) : Prop :=
  (convert (text ++ rest)).written = (convert text).written

/-! ## From UTF-8 -/

section FromUtf8

variable {toGlyph : UInt32 → Utf16Glyph × Nat}

theorem getUtf8DecodingFunction_remaining (byte : UInt8) :
    ∃ decode, getUtf8DecodingFunction (remainingUtf8Bytes byte + 1) = some decode := by
  rw [remainingUtf8Bytes]
  split_ifs <;> exact ⟨_, rfl⟩

/-- A lead byte is written as a glyph, whatever follows it. -/
theorem utf8ToUtf16Loop_ne_nil (hglyph : ∀ codePoint, glyphBytes (toGlyph codePoint) ≠ [])
    (utf8Buf : Utf8Glyph) {input : List UInt8} (hinput : input ≠ []) :
    (utf8ToUtf16Loop toGlyph utf8Buf input).written ≠ [] := by
  cases input with
  | nil => exact absurd rfl hinput
  | cons byte rest =>
      rcases getUtf8DecodingFunction_remaining byte with ⟨decode, hdecode⟩
      rw [utf8ToUtf16Loop]
      simp only [hdecode, Conversion.written_after]
      exact List.append_ne_nil_of_left_ne_nil (hglyph _) _

theorem glyphBytes_ne_nil (codePoint : UInt32) :
    glyphBytes (codePointToUtf16leGlyph codePoint) ≠ [] ∧
      glyphBytes (codePointToUtf16beGlyph codePoint) ≠ [] := by
  rw [codePointToUtf16leGlyph, codePointToUtf16beGlyph]
  split_ifs <;> exact ⟨List.cons_ne_nil _ _, List.cons_ne_nil _ _⟩

/-- Something is written for the bytes after a text. -/
theorem utf8ToUtf16Loop_append_ne (hglyph : ∀ codePoint, glyphBytes (toGlyph codePoint) ≠ [])
    (utf8Buf : Utf8Glyph) (text : List Char) {rest : List UInt8} (hrest : rest ≠ []) :
    (utf8ToUtf16Loop toGlyph utf8Buf (Scheme.utf8.encode text ++ rest)).written ≠
      (utf8ToUtf16Loop toGlyph utf8Buf (Scheme.utf8.encode text)).written := by
  rcases utf8ToUtf16Loop_text toGlyph utf8Buf text rest with ⟨utf8Buf', htext⟩
  rw [htext, utf8ToUtf16Loop_encode, Conversion.written_after]
  intro heq
  exact utf8ToUtf16Loop_ne_nil hglyph utf8Buf' hrest (List.append_right_eq_self.mp heq)

/-- The bytes of a character are never cut off unseen. -/
theorem not_sameOutput_utf8 (utf8Buf : Utf8Glyph) (text : List Char) {rest : List UInt8}
    (hrest : rest ≠ []) :
    ¬ SameOutput (fromUtf8ToUtf16le utf8Buf) (Scheme.utf8.encode text) rest ∧
      ¬ SameOutput (fromUtf8ToUtf16be utf8Buf) (Scheme.utf8.encode text) rest := by
  constructor
  · intro hsame
    exact utf8ToUtf16Loop_append_ne (fun codePoint => (glyphBytes_ne_nil codePoint).1) utf8Buf text
      hrest (List.append_cancel_left hsame)
  · intro hsame
    exact utf8ToUtf16Loop_append_ne (fun codePoint => (glyphBytes_ne_nil codePoint).2) utf8Buf text
      hrest (List.append_cancel_left hsame)

end FromUtf8

/-! ## What a text leaves in the buffer -/

section FromUtf16

variable (endian : ByteOrder)

/-- What a character leaves in the buffer. -/
def charLeft (utf16Buf : Utf16Glyph) (c : Char) : Utf16Glyph :=
  if c = byteOrderMark then ⟨utf16Buf.lowerBytes, 0xFEFF⟩ else ⟨0, 0⟩

theorem glyphLeft_of_ne {upper lower : UInt16} (hmark : lower ≠ 0xFEFF) :
    glyphLeft upper lower = ⟨0, 0⟩ := by
  rw [glyphLeft, if_neg hmark]

theorem not_upper_of_range {unit : UInt16} (h : unit.toNat < 0xD800 ∨ 0xDBFF ≤ unit.toNat) :
    isUpperSurrogatePair ⟨unit, 0⟩ = false := by
  by_contra htrue
  have hbounds : 0xD800 < unit.toNat ∧ unit.toNat < 0xDBFF :=
    (isUpperSurrogatePair_iff _).mp (Bool.eq_true_of_not_eq_false htrue)
  omega

/-- The loops on one character, whatever the buffer holds. -/
theorem utf16ToUtf8Loop_charLeft (utf16Buf : Utf16Glyph) (c : Char) :
    ∃ bytes, ∀ rest,
      utf16ToUtf8Loop endian.order utf16Buf ((utf16Units c).flatMap endian.bytes ++ rest) =
        (utf16ToUtf8Loop endian.order (charLeft utf16Buf c) rest).after bytes := by
  by_cases hmark : c = byteOrderMark
  · have hunits : utf16Units c = [0xFEFF] := by
      rw [hmark]
      decide
    refine ⟨[], fun rest => ?_⟩
    rw [hunits, List.flatMap_singleton, utf16ToUtf8Loop_mark, charLeft, if_pos hmark]
    rfl
  · have hmem := markUnit_not_mem hmark
    rw [charLeft, if_neg hmark]
    rcases utf16Units_cases c with ⟨unit, hunits, -, hrange⟩ |
      ⟨high, low, hunits, -, hhigh, hhigh', hlow, hlow'⟩
    · rw [hunits, List.mem_singleton] at hmem
      refine ⟨glyphWritten utf16Buf.lowerBytes unit, fun rest => ?_⟩
      rw [hunits, List.flatMap_singleton,
        utf16ToUtf8Loop_alone endian utf16Buf (not_upper_of_range (by omega)),
        glyphLeft_of_ne fun h => hmem h.symm]
    · rw [hunits, List.mem_pair, not_or] at hmem
      have hlowLeft (upper : UInt16) : glyphLeft upper low = ⟨0, 0⟩ :=
        glyphLeft_of_ne fun h => hmem.2 h.symm
      cases hpair : isUpperSurrogatePair ⟨high, 0⟩ with
      | true =>
          refine ⟨glyphWritten high low, fun rest => ?_⟩
          rw [hunits, List.flatMap_cons, List.flatMap_singleton, List.append_assoc,
            utf16ToUtf8Loop_high endian utf16Buf hpair, order_readUnit, hlowLeft]
          rfl
      | false =>
          refine ⟨glyphWritten utf16Buf.lowerBytes high ++ glyphWritten 0 low, fun rest => ?_⟩
          rw [hunits, List.flatMap_cons, List.flatMap_singleton, List.append_assoc,
            utf16ToUtf8Loop_alone endian utf16Buf hpair, glyphLeft_of_ne fun h => hmem.1 h.symm,
            utf16ToUtf8Loop_alone endian ⟨0, 0⟩ (not_upper_of_range (by omega)), hlowLeft]
          simp only [Conversion.after, List.append_assoc]

/-- What the buffer holds after a text: zeros unless the last character is the byte order
mark, which stays in the lower half and leaves above it what was there. -/
def leftOver (utf16Buf : Utf16Glyph) (text : List Char) : Utf16Glyph :=
  match text.reverse with
  | [] => utf16Buf
  | [c] => if c = byteOrderMark then ⟨utf16Buf.lowerBytes, 0xFEFF⟩ else ⟨0, 0⟩
  | c :: before :: _ =>
      if c = byteOrderMark then ⟨if before = byteOrderMark then 0xFEFF else 0, 0xFEFF⟩
      else ⟨0, 0⟩

theorem leftOver_append (utf16Buf : Utf16Glyph) (text : List Char) (c : Char) :
    leftOver utf16Buf (text ++ [c]) = charLeft (leftOver utf16Buf text) c := by
  rw [leftOver, leftOver, charLeft, List.reverse_append]
  match text.reverse with
  | [] => rfl
  | [before] =>
      simp only [List.reverse_singleton, List.singleton_append]
      split_ifs <;> rfl
  | before :: before' :: rest =>
      simp only [List.reverse_singleton, List.singleton_append]
      split_ifs <;> rfl

/-- The loops go on after a text with what it leaves in the buffer. -/
theorem utf16ToUtf8Loop_leftOver (utf16Buf : Utf16Glyph) (text : List Char) :
    ∃ bytes, ∀ rest,
      utf16ToUtf8Loop endian.order utf16Buf
          ((text.flatMap utf16Units).flatMap endian.bytes ++ rest) =
        (utf16ToUtf8Loop endian.order (leftOver utf16Buf text) rest).after bytes := by
  induction text using List.reverseRecOn with
  | nil => exact ⟨[], fun rest => rfl⟩
  | append_singleton text c ih =>
      rcases ih with ⟨bytes, htext⟩
      rcases utf16ToUtf8Loop_charLeft endian (leftOver utf16Buf text) c with ⟨bytes', hchar⟩
      refine ⟨bytes ++ bytes', fun rest => ?_⟩
      rw [List.flatMap_append, List.flatMap_append, List.flatMap_singleton, List.append_assoc,
        htext, hchar, leftOver_append]
      simp only [Conversion.after, List.append_assoc]

/-- The output is that of the text iff nothing is written for the rest. -/
theorem written_append_iff (utf16Buf : Utf16Glyph) (text : List Char) (rest : List UInt8) :
    SameOutput (utf16ToUtf8Loop endian.order utf16Buf)
        ((text.flatMap utf16Units).flatMap endian.bytes) rest ↔
      (utf16ToUtf8Loop endian.order (leftOver utf16Buf text) rest).written = [] := by
  rcases utf16ToUtf8Loop_leftOver endian utf16Buf text with ⟨bytes, htext⟩
  have halone := htext []
  rw [List.append_nil] at halone
  rw [SameOutput, htext, halone, Conversion.written_after, Conversion.written_after,
    utf16ToUtf8Loop, List.append_right_inj]

/-! ## The ends of a UTF-16 text -/

/-- An odd byte is read on top of what the unit held. -/
theorem readUnit_singleton (unit : UInt16) (byte : UInt8) :
    readUnit unit [byte] = unitOf byte (unit >>> 8).toUInt8 := by
  rw [readUnit, (encode_unit unit).1]
  rfl

/-- Nothing is written for an odd byte: the unit is taken for the byte order mark, or it is
taken for a high surrogate before one. -/
def ByteSkipped (order : UInt16 → UInt16) (kept : Utf16Glyph) (byte : UInt8) : Prop :=
  order (unitOf byte (kept.upperBytes >>> 8).toUInt8) = 0xFEFF ∨
    isUpperSurrogatePair ⟨order (unitOf byte (kept.upperBytes >>> 8).toUInt8), 0⟩ = true ∧
      order kept.lowerBytes = 0xFEFF

theorem written_byte_iff (order : UInt16 → UInt16) (kept : Utf16Glyph) (byte : UInt8) :
    (utf16ToUtf8Loop order kept [byte]).written = [] ↔ ByteSkipped order kept byte := by
  rw [utf16ToUtf8Loop_cons, ByteSkipped]
  simp only [List.drop_nil, readUnit_singleton, readUnit_nil]
  cases hpair : isUpperSurrogatePair
      ⟨order (unitOf byte (kept.upperBytes >>> 8).toUInt8), 0⟩ with
  | true =>
      have hunit : order (unitOf byte (kept.upperBytes >>> 8).toUInt8) ≠ 0xFEFF := by
        intro hmark
        rw [hmark, mark_not_upper] at hpair
        cases hpair
      rw [if_pos rfl, Conversion.written_after, utf16ToUtf8Loop, List.append_nil,
        glyphWritten_eq_nil_iff, or_iff_right hunit, eq_self_iff_true, true_and]
  | false =>
      rw [if_neg Bool.false_ne_true, Conversion.written_after, utf16ToUtf8Loop, List.append_nil,
        glyphWritten_eq_nil_iff, or_iff_left fun h => Bool.false_ne_true h.1]

/-- Nothing is written for a high surrogate before less than a unit: it is recognized, and what
is taken for the low surrogate is the byte order mark. -/
def HighSkipped (order : UInt16 → UInt16) (kept : Utf16Glyph) (high : UInt16)
    (rest : List UInt8) : Prop :=
  isUpperSurrogatePair ⟨high, 0⟩ = true ∧ order (readUnit kept.lowerBytes rest) = 0xFEFF

theorem written_high_iff (kept : Utf16Glyph) {high : UInt16} (hhigh : high ≠ 0xFEFF)
    {rest : List UInt8} (hrest : rest.length < 2) :
    (utf16ToUtf8Loop endian.order kept (endian.bytes high ++ rest)).written = [] ↔
      HighSkipped endian.order kept high rest := by
  rw [HighSkipped]
  cases hpair : isUpperSurrogatePair ⟨high, 0⟩ with
  | true =>
      have hend : rest.drop 2 = [] := List.drop_eq_nil_of_le (Nat.le_of_lt hrest)
      rw [utf16ToUtf8Loop_high endian kept hpair, hend, utf16ToUtf8Loop, Conversion.written_after,
        List.append_nil, glyphWritten_eq_nil_iff, eq_self_iff_true, true_and]
  | false =>
      rw [utf16ToUtf8Loop_alone endian kept hpair, Conversion.written_after,
        List.append_eq_nil_iff, glyphWritten_eq_nil_iff]
      exact iff_of_false (fun h => hhigh h.1) (fun h => Bool.false_ne_true h.1)

/-- The ends of a UTF-16 text and what they need to leave the output as it is. -/
theorem sameOutput_utf16 (utf16Buf : Utf16Glyph) (text : List Char) :
    (∀ byte, SameOutput (utf16ToUtf8Loop endian.order utf16Buf)
        ((text.flatMap utf16Units).flatMap endian.bytes) [byte] ↔
      ByteSkipped endian.order (leftOver utf16Buf text) byte) ∧
    ∀ high : UInt16, 0xD800 ≤ high.toNat → high.toNat < 0xDC00 →
      ∀ rest : List UInt8, rest.length < 2 →
        (SameOutput (utf16ToUtf8Loop endian.order utf16Buf)
            ((text.flatMap utf16Units).flatMap endian.bytes) (endian.bytes high ++ rest) ↔
          HighSkipped endian.order (leftOver utf16Buf text) high rest) := by
  constructor
  · intro byte
    rw [written_append_iff, written_byte_iff]
  · intro high hlow hlt rest hrest
    have hmark : high ≠ 0xFEFF := by
      rintro rfl
      exact absurd hlt (by decide)
    rw [written_append_iff, written_high_iff endian _ hmark hrest]

end FromUtf16

/-! ## The converters -/

/-- The output for a text and the start of one more character: never that of the text alone
from UTF-8, and from UTF-16 if and only if what the buffer holds makes the loop skip the end. -/
theorem cutOff_iff (utf8Buf : Utf8Glyph) (utf16Buf : Utf16Glyph) (text : List Char) :
    (∀ (c : Char) (n : Nat), 0 < n → n < (String.utf8EncodeChar c).length →
      ¬ SameOutput (fromUtf8ToUtf16le utf8Buf) (Scheme.utf8.encode text)
          ((String.utf8EncodeChar c).take n) ∧
        ¬ SameOutput (fromUtf8ToUtf16be utf8Buf) (Scheme.utf8.encode text)
          ((String.utf8EncodeChar c).take n)) ∧
    (∀ byte : UInt8,
      (SameOutput (fromUtf16leToUtf8 utf16Buf) (Scheme.utf16le.encode text) [byte] ↔
          ByteSkipped id (leftOver utf16Buf text) byte) ∧
        (SameOutput (fromUtf16beToUtf8 utf16Buf) (Scheme.utf16be.encode text) [byte] ↔
          ByteSkipped reverseUnit (leftOver utf16Buf text) byte)) ∧
    ∀ high : UInt16, 0xD800 ≤ high.toNat → high.toNat < 0xDC00 →
      ∀ rest : List UInt8, rest.length < 2 →
        (SameOutput (fromUtf16leToUtf8 utf16Buf) (Scheme.utf16le.encode text)
            (unitBytesLE high ++ rest) ↔
          HighSkipped id (leftOver utf16Buf text) high rest) ∧
        (SameOutput (fromUtf16beToUtf8 utf16Buf) (Scheme.utf16be.encode text)
            (unitBytesBE high ++ rest) ↔
          HighSkipped reverseUnit (leftOver utf16Buf text) high rest) := by
  have hle := sameOutput_utf16 .littleEndian utf16Buf text
  have hbe := sameOutput_utf16 .bigEndian utf16Buf text
  refine ⟨?_, fun byte => ⟨hle.1 byte, hbe.1 byte⟩, fun high hlow hlt rest hrest =>
    ⟨hle.2 high hlow hlt rest hrest, hbe.2 high hlow hlt rest hrest⟩⟩
  intro c n hpos hlt
  apply not_sameOutput_utf8
  apply List.length_pos_iff.mp
  rw [List.length_take]
  omega

/-- The letter {lit}`A` and an odd byte, the first byte of {lit}`é`, and a high surrogate. -/
theorem cutOff_letter :
    ¬ SameOutput (fromUtf8ToUtf16le .zero) (Scheme.utf8.encode [Char.ofNat 0x41]) [0xC3] ∧
      (SameOutput (fromUtf16leToUtf8 ⟨0, 0⟩) (Scheme.utf16le.encode [Char.ofNat 0x41])
          (unitBytesLE 0xD801 ++ []) ↔
        HighSkipped id (leftOver ⟨0, 0⟩ [Char.ofNat 0x41]) 0xD801 []) :=
  ⟨((cutOff_iff .zero ⟨0, 0⟩ [Char.ofNat 0x41]).1 (Char.ofNat 0xE9) 1 (by decide)
      (by decide)).1,
    ((cutOff_iff .zero ⟨0, 0⟩ [Char.ofNat 0x41]).2.2 0xD801 (by decide) (by decide) []
      (by decide)).1⟩

/-- The odd byte after {lit}`A` comes out as a letter of its own. -/
theorem cutOff_written :
    ¬ ∀ (utf16Buf : Utf16Glyph) (text : List Char) (byte : UInt8),
      SameOutput (fromUtf16leToUtf8 utf16Buf) (Scheme.utf16le.encode text) [byte] := by
  intro hall
  have hletter := hall ⟨0, 0⟩ [Char.ofNat 0x41] 0x42
  rw [SameOutput] at hletter
  revert hletter
  decide +kernel

end SystemFundamentals.Utf
