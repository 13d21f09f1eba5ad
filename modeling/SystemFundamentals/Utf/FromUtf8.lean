import SystemFundamentals.Utf.Convert

/-!
# UTF-8 to UTF-16, text by text

What the two loops from UTF-8 write for a whole text.  The lead byte tells how many bytes
follow, the bit-fields are put together to the scalar value, and the value is written as one
unit or as two surrogates in the byte order of the target.

Main results:

- Theorem {lit}`utf8ToUtf16Loop_char`: one turn of the loops reads a character.
- Theorem {lit}`fromUtf8_correct`: both converters are right on every text.
-/

namespace SystemFundamentals.Utf

open Library

/-! ## Lead bytes and bit-fields -/

theorem toNat_shiftRight_uint8 (byte : UInt8) (i : Nat) (hi : i < 8) :
    (byte >>> UInt8.ofNat i).toNat = byte.toNat / 2 ^ i := by
  rw [UInt8.toNat_shiftRight, Nat.shiftRight_eq_div_pow, UInt8.toNat_ofNat',
    Nat.mod_eq_of_lt (show i < 2 ^ 8 by omega), Nat.mod_eq_of_lt hi]

/-- The lead byte classes of {lit}`remaining_utf8_bytes`. -/
theorem remainingUtf8Bytes_eq (byte : UInt8) :
    remainingUtf8Bytes byte =
      if 0xF0 ≤ byte.toNat ∧ byte.toNat < 0xF8 then 3
      else if 0xE0 ≤ byte.toNat ∧ byte.toNat < 0xF0 then 2
      else if 0xC0 ≤ byte.toNat ∧ byte.toNat < 0xE0 then 1
      else 0 := by
  have hfive : (byte >>> 3).toNat = byte.toNat / 2 ^ 3 := toNat_shiftRight_uint8 byte 3 (by decide)
  have hfour : (byte >>> 4).toNat = byte.toNat / 2 ^ 4 := toNat_shiftRight_uint8 byte 4 (by decide)
  have hthree : (byte >>> 5).toNat = byte.toNat / 2 ^ 5 := toNat_shiftRight_uint8 byte 5 (by decide)
  have hlt := byte.toNat_lt
  simp only [remainingUtf8Bytes, ← UInt8.toNat_inj, hfive, hfour, hthree, UInt8.reduceToNat]
  split_ifs <;> omega

/-- A field of the low bits of a byte. -/
theorem toNat_field {mask : UInt8} (i : Nat) (byte : UInt8) (hmask : mask.toNat = 2 ^ i - 1) :
    (byte &&& mask).toUInt32.toNat = byte.toNat % 2 ^ i := by
  rw [UInt8.toNat_toUInt32, UInt8.toNat_and, hmask, Nat.and_two_pow_sub_one_eq_mod]

/-- A value above a field. -/
theorem toNat_joined {high low : UInt32} (i : Nat) {a : Nat} (hhigh : high.toNat = 2 ^ i * a)
    (hlow : low.toNat < 2 ^ i) : (high ||| low).toNat = 2 ^ i * a + low.toNat := by
  rw [UInt32.toNat_or, hhigh, Nat.two_pow_add_eq_or_of_lt hlow]

/-- A field that is moved to its place. -/
theorem toNat_placed {field : UInt32} (i : Nat) (hi : i < 32)
    (hfit : 2 ^ i * field.toNat < 2 ^ 32) :
    (field <<< UInt32.ofNat i).toNat = 2 ^ i * field.toNat := by
  have hplace : (UInt32.ofNat i).toNat % 32 = i := by
    rw [UInt32.toNat_ofNat']
    omega
  rw [UInt32.toNat_shiftLeft, hplace, Nat.shiftLeft_eq, Nat.mul_comm, Nat.mod_eq_of_lt hfit]

theorem toNat_continuationField (byte : UInt8) :
    (byte &&& 0x3F).toUInt32.toNat = byte.toNat % 64 :=
  toNat_field 6 byte rfl

theorem toNat_continuationField_lt (byte : UInt8) : (byte &&& 0x3F).toUInt32.toNat < 2 ^ 6 := by
  rw [toNat_continuationField]
  exact Nat.mod_lt _ (by decide)

theorem toNat_utf8TwoByteDecode (glyph : Utf8Glyph) :
    (utf8TwoByteDecode glyph).toNat = 2 ^ 6 * ((glyph 0).toNat % 32) + (glyph 1).toNat % 64 := by
  have hlead : (glyph 0 &&& 0x1F).toUInt32.toNat = (glyph 0).toNat % 32 :=
    toNat_field 5 (glyph 0) rfl
  have hplaced : ((glyph 0 &&& 0x1F).toUInt32 <<< 6).toNat = 2 ^ 6 * ((glyph 0).toNat % 32) := by
    rw [← hlead]
    exact toNat_placed 6 (by decide) (by omega)
  rw [utf8TwoByteDecode, toNat_joined 6 hplaced (toNat_continuationField_lt _),
    toNat_continuationField]

/-- Two fields of six bits, the first one at its place. -/
theorem toNat_twoFields {high : UInt32} {a : Nat} (hhigh : high.toNat = 2 ^ 12 * a)
    (first second : UInt8) :
    (high ||| ((first &&& 0x3F).toUInt32 <<< 6) ||| (second &&& 0x3F).toUInt32).toNat =
      2 ^ 12 * a + 2 ^ 6 * (first.toNat % 64) + second.toNat % 64 := by
  have hplaced : ((first &&& 0x3F).toUInt32 <<< 6).toNat = 2 ^ 6 * (first.toNat % 64) := by
    rw [← toNat_continuationField]
    exact toNat_placed 6 (by decide) (by have := toNat_continuationField_lt first; omega)
  have hfirst : (high ||| ((first &&& 0x3F).toUInt32 <<< 6)).toNat =
      2 ^ 12 * a + ((first &&& 0x3F).toUInt32 <<< 6).toNat :=
    toNat_joined 12 hhigh (by omega)
  have hmultiple : (high ||| ((first &&& 0x3F).toUInt32 <<< 6)).toNat =
      2 ^ 6 * (2 ^ 6 * a + first.toNat % 64) := by
    rw [hfirst, hplaced]
    omega
  rw [toNat_joined 6 hmultiple (toNat_continuationField_lt _), toNat_continuationField]
  omega

theorem toNat_utf8ThreeByteDecode (glyph : Utf8Glyph) :
    (utf8ThreeByteDecode glyph).toNat =
      2 ^ 12 * ((glyph 0).toNat % 16) + 2 ^ 6 * ((glyph 1).toNat % 64) + (glyph 2).toNat % 64 := by
  have hlead : (glyph 0 &&& 0x0F).toUInt32.toNat = (glyph 0).toNat % 16 :=
    toNat_field 4 (glyph 0) rfl
  have hplaced : ((glyph 0 &&& 0x0F).toUInt32 <<< 12).toNat =
      2 ^ 12 * ((glyph 0).toNat % 16) := by
    rw [← hlead]
    exact toNat_placed 12 (by decide) (by omega)
  exact toNat_twoFields hplaced (glyph 1) (glyph 2)

theorem toNat_utf8FourByteDecode (glyph : Utf8Glyph) :
    (utf8FourByteDecode glyph).toNat =
      2 ^ 18 * ((glyph 0).toNat % 8) + 2 ^ 12 * ((glyph 1).toNat % 64) +
        2 ^ 6 * ((glyph 2).toNat % 64) + (glyph 3).toNat % 64 := by
  have hlead : (glyph 0 &&& 0x07).toUInt32.toNat = (glyph 0).toNat % 8 :=
    toNat_field 3 (glyph 0) rfl
  have hplaced : ((glyph 0 &&& 0x07).toUInt32 <<< 18).toNat = 2 ^ 18 * ((glyph 0).toNat % 8) := by
    rw [← hlead]
    exact toNat_placed 18 (by decide) (by omega)
  have hsecond : ((glyph 1 &&& 0x3F).toUInt32 <<< 12).toNat =
      2 ^ 12 * ((glyph 1).toNat % 64) := by
    rw [← toNat_continuationField]
    exact toNat_placed 12 (by decide) (by have := toNat_continuationField_lt (glyph 1); omega)
  have hhigh : (((glyph 0 &&& 0x07).toUInt32 <<< 18) |||
      ((glyph 1 &&& 0x3F).toUInt32 <<< 12)).toNat =
        2 ^ 12 * (2 ^ 6 * ((glyph 0).toNat % 8) + (glyph 1).toNat % 64) := by
    rw [toNat_joined 18 hplaced (by omega), hsecond]
    omega
  rw [utf8FourByteDecode, toNat_twoFields hhigh]
  omega

/-! ## Units in the target byte order -/

/-- The bytes of a unit in memory, and after {lit}`reverse_bytes`. -/
theorem encode_unit (unit : UInt16) :
    LittleEndian.encode 2 unit.toNat = unitBytesLE unit ∧
      LittleEndian.encode 2 (reverseUnit unit).toNat = unitBytesBE unit := by
  have hbytes := unitOf_bytes unit
  constructor
  · rw [← hbytes, encode_unitOf, hbytes]
    rfl
  · rw [← hbytes, reverseUnit_unitOf, encode_unitOf, hbytes]
    rfl

/-- The units that {lit}`code_point_to_utf16le_glyph` and its twin store. -/
theorem utf16Units_val (c : Char) :
    utf16Units c =
      if isCodePointSurrogate c.val then
        [(((c.val - 0x10000) >>> 10) + 0xD800).toUInt16,
          (((c.val - 0x10000) &&& 0x3FF) + 0xDC00).toUInt16]
      else [c.val.toUInt16] := by
  have hlt : c.val.toNat < 0x110000 := (scalar_bounds c).2
  have hlarge : isCodePointSurrogate c.val = true ↔ 0x10000 ≤ c.val.toNat := by
    simp [isCodePointSurrogate, UInt32.le_iff_toNat_le]
  rw [utf16Units]
  by_cases hsize : c.toNat < 0x10000
  · have hsmall : ¬ isCodePointSurrogate c.val = true := by
      rw [hlarge]
      exact Nat.not_le.mpr hsize
    rw [if_pos hsize, if_neg hsmall]
    rfl
  · have hle : 0x10000 ≤ c.val.toNat := Nat.le_of_not_lt hsize
    have hsub : (c.val - 0x10000).toNat = c.val.toNat - 0x10000 :=
      UInt32.toNat_sub_of_le _ _ (UInt32.le_iff_toNat_le.mpr hle)
    have hhigh : ((c.val - 0x10000) >>> 10).toNat = (c.val.toNat - 0x10000) / 0x400 := by
      rw [UInt32.toNat_shiftRight, hsub]
      exact Nat.shiftRight_eq_div_pow _ 10
    have hlow : ((c.val - 0x10000) &&& 0x3FF).toNat = (c.val.toNat - 0x10000) % 0x400 := by
      rw [UInt32.toNat_and, hsub]
      exact Nat.and_two_pow_sub_one_eq_mod _ 10
    have hval : c.toNat = c.val.toNat := rfl
    have hupper : UInt16.ofNat (0xD800 + (c.val.toNat - 0x10000) / 0x400) =
        (((c.val - 0x10000) >>> 10) + 0xD800).toUInt16 := by
      apply UInt16.toNat_inj.mp
      rw [UInt16.toNat_ofNat', UInt32.toNat_toUInt16, UInt32.toNat_add, hhigh,
        show (0xD800 : UInt32).toNat = 0xD800 from rfl]
      omega
    have hlower : UInt16.ofNat (0xDC00 + (c.val.toNat - 0x10000) % 0x400) =
        (((c.val - 0x10000) &&& 0x3FF) + 0xDC00).toUInt16 := by
      apply UInt16.toNat_inj.mp
      rw [UInt16.toNat_ofNat', UInt32.toNat_toUInt16, UInt32.toNat_add, hlow,
        show (0xDC00 : UInt32).toNat = 0xDC00 from rfl]
      omega
    rw [if_neg hsize, if_pos (hlarge.mpr hle), hval, hupper, hlower]

/-- What is written for a code point. -/
def glyphBytes (glyph : Utf16Glyph × Nat) : List UInt8 :=
  glyph.1.toBytes.take glyph.2

/-- A glyph of one unit and a glyph of two. -/
theorem glyphBytes_cases (upper lower : UInt16) :
    glyphBytes (⟨upper, lower⟩, 2) = LittleEndian.encode 2 upper.toNat ∧
      glyphBytes (⟨upper, lower⟩, 4) =
        LittleEndian.encode 2 upper.toNat ++ LittleEndian.encode 2 lower.toNat :=
  ⟨rfl, rfl⟩

theorem glyphBytes_utf16le (c : Char) :
    glyphBytes (codePointToUtf16leGlyph c.val) = (utf16Units c).flatMap unitBytesLE := by
  rw [utf16Units_val, codePointToUtf16leGlyph]
  split_ifs
  · rw [(glyphBytes_cases _ _).2, (encode_unit _).1, (encode_unit _).1]
    rfl
  · rw [(glyphBytes_cases _ _).1, (encode_unit _).1]
    rfl

theorem glyphBytes_utf16be (c : Char) :
    glyphBytes (codePointToUtf16beGlyph c.val) = (utf16Units c).flatMap unitBytesBE := by
  rw [utf16Units_val, codePointToUtf16beGlyph]
  split_ifs
  · rw [(glyphBytes_cases _ _).2, (encode_unit _).2, (encode_unit _).2]
    rfl
  · rw [(glyphBytes_cases _ _).1, (encode_unit _).2]
    rfl

/-! ## One character and a text -/

variable (toGlyph : UInt32 → Utf16Glyph × Nat)

/-- The buffer after a lead byte and the bytes that follow it. -/
def filledBuffer (utf8Buf : Utf8Glyph) (lead : UInt8) (follow : List UInt8) : Utf8Glyph :=
  (utf8Buf.overwrite 0 [lead]).overwrite 1 follow

/-- One turn of the loops on a lead byte and as many bytes as it calls for. -/
theorem utf8ToUtf16Loop_turn (utf8Buf : Utf8Glyph) {lead : UInt8} {follow : List UInt8}
    (hremaining : remainingUtf8Bytes lead = follow.length) {decode : Utf8Glyph → UInt32}
    (hdecode : getUtf8DecodingFunction (follow.length + 1) = some decode) (rest : List UInt8) :
    utf8ToUtf16Loop toGlyph utf8Buf (lead :: (follow ++ rest)) =
      (utf8ToUtf16Loop toGlyph (filledBuffer utf8Buf lead follow) rest).after
        (glyphBytes (toGlyph (decode (filledBuffer utf8Buf lead follow)))) := by
  rw [utf8ToUtf16Loop]
  simp only [hremaining, List.take_left', List.drop_left', hdecode]
  rfl

/-- One turn of the loops reads a character. -/
theorem utf8ToUtf16Loop_char (utf8Buf : Utf8Glyph) (c : Char) (rest : List UInt8) :
    ∃ utf8Buf', utf8ToUtf16Loop toGlyph utf8Buf (String.utf8EncodeChar c ++ rest) =
      (utf8ToUtf16Loop toGlyph utf8Buf' rest).after (glyphBytes (toGlyph c.val)) := by
  have hlt : c.val.toNat < 0x110000 := (scalar_bounds c).2
  have hbyte (n : Nat) : (UInt8.ofNat n).toNat = n % 256 := UInt8.toNat_ofNat'
  have hturn (lead : UInt8) (follow : List UInt8) (decode : Utf8Glyph → UInt32)
      (hremaining : remainingUtf8Bytes lead = follow.length)
      (hdecode : getUtf8DecodingFunction (follow.length + 1) = some decode)
      (hcode : (decode (filledBuffer utf8Buf lead follow)).toNat = c.val.toNat) :
      ∃ utf8Buf', utf8ToUtf16Loop toGlyph utf8Buf (lead :: (follow ++ rest)) =
        (utf8ToUtf16Loop toGlyph utf8Buf' rest).after (glyphBytes (toGlyph c.val)) := by
    refine ⟨filledBuffer utf8Buf lead follow, ?_⟩
    rw [utf8ToUtf16Loop_turn toGlyph utf8Buf hremaining hdecode, UInt32.toNat_inj.mp hcode]
  unfold String.utf8EncodeChar
  dsimp only
  split_ifs with hone htwo hthree
  · refine hturn _ [] utf8OneByteDecode ?_ rfl ?_
    · simp only [remainingUtf8Bytes_eq, hbyte, List.length_nil]
      split_ifs <;> omega
    · show (UInt8.ofNat c.val.toNat).toUInt32.toNat = _
      rw [UInt8.toNat_toUInt32, hbyte]
      omega
  · refine hturn _ [_] utf8TwoByteDecode ?_ rfl ?_
    · simp only [remainingUtf8Bytes_eq, hbyte, List.length_cons, List.length_nil]
      split_ifs <;> omega
    · rw [toNat_utf8TwoByteDecode]
      show 2 ^ 6 * ((UInt8.ofNat _).toNat % 32) + (UInt8.ofNat _).toNat % 64 = _
      rw [hbyte, hbyte]
      omega
  · refine hturn _ [_, _] utf8ThreeByteDecode ?_ rfl ?_
    · simp only [remainingUtf8Bytes_eq, hbyte, List.length_cons, List.length_nil]
      split_ifs <;> omega
    · rw [toNat_utf8ThreeByteDecode]
      show 2 ^ 12 * ((UInt8.ofNat _).toNat % 16) + 2 ^ 6 * ((UInt8.ofNat _).toNat % 64) +
        (UInt8.ofNat _).toNat % 64 = _
      rw [hbyte, hbyte, hbyte]
      omega
  · refine hturn _ [_, _, _] utf8FourByteDecode ?_ rfl ?_
    · simp only [remainingUtf8Bytes_eq, hbyte, List.length_cons, List.length_nil]
      split_ifs <;> omega
    · rw [toNat_utf8FourByteDecode]
      show 2 ^ 18 * ((UInt8.ofNat _).toNat % 8) + 2 ^ 12 * ((UInt8.ofNat _).toNat % 64) +
        2 ^ 6 * ((UInt8.ofNat _).toNat % 64) + (UInt8.ofNat _).toNat % 64 = _
      rw [hbyte, hbyte, hbyte, hbyte]
      omega

/-- The loops on a text, with whatever follows it. -/
theorem utf8ToUtf16Loop_text (utf8Buf : Utf8Glyph) (text : List Char) (rest : List UInt8) :
    ∃ utf8Buf', utf8ToUtf16Loop toGlyph utf8Buf (Scheme.utf8.encode text ++ rest) =
      (utf8ToUtf16Loop toGlyph utf8Buf' rest).after
        (text.flatMap fun c => glyphBytes (toGlyph c.val)) := by
  induction text generalizing utf8Buf with
  | nil => exact ⟨utf8Buf, rfl⟩
  | cons c text ih =>
      rcases utf8ToUtf16Loop_char toGlyph utf8Buf c (Scheme.utf8.encode text ++ rest) with
        ⟨utf8Buf₁, hchar⟩
      rcases ih utf8Buf₁ with ⟨utf8Buf₂, htext⟩
      refine ⟨utf8Buf₂, ?_⟩
      have hsplit : Scheme.utf8.encode (c :: text) ++ rest =
          String.utf8EncodeChar c ++ (Scheme.utf8.encode text ++ rest) := by
        rw [← List.append_assoc]
        rfl
      rw [hsplit, hchar, htext, List.flatMap_cons]
      simp only [Conversion.after, List.append_assoc]

/-- What the loops write and return for a text. -/
theorem utf8ToUtf16Loop_encode (utf8Buf : Utf8Glyph) (text : List Char) :
    utf8ToUtf16Loop toGlyph utf8Buf (Scheme.utf8.encode text) =
      ⟨text.flatMap fun c => glyphBytes (toGlyph c.val), some 0⟩ := by
  rcases utf8ToUtf16Loop_text toGlyph utf8Buf text [] with ⟨utf8Buf', htext⟩
  rw [List.append_nil] at htext
  rw [htext, utf8ToUtf16Loop, Conversion.after, List.append_nil]

/-- Both converters write the byte order mark and the encoding of the text, and return zero. -/
theorem fromUtf8_correct (utf8Buf : Utf8Glyph) (text : List Char) :
    fromUtf8ToUtf16le utf8Buf (Scheme.utf8.encode text) =
        ⟨Scheme.utf16le.mark ++ Scheme.utf16le.encode text, some 0⟩ ∧
      fromUtf8ToUtf16be utf8Buf (Scheme.utf8.encode text) =
        ⟨Scheme.utf16be.mark ++ Scheme.utf16be.encode text, some 0⟩ := by
  constructor
  · rw [fromUtf8ToUtf16le, utf8ToUtf16Loop_encode]
    simp only [glyphBytes_utf16le, Scheme.encode, List.flatMap_assoc]
    rfl
  · rw [fromUtf8ToUtf16be, utf8ToUtf16Loop_encode]
    simp only [glyphBytes_utf16be, Scheme.encode, List.flatMap_assoc]
    rfl

end SystemFundamentals.Utf
