import SystemFundamentals.Utf.Convert

/-!
# UTF-16 to UTF-8, text by text

What the two loops from UTF-16 to UTF-8 write for a whole text.  Most characters are
converted as they should be, whatever the glyph buffer holds.  U+FEFF is dropped wherever it
stands, because every unit is compared with the byte order mark, and the characters whose
high surrogate is the first or the last one come out as two surrogates, because the bounds of
{lit}`is_upper_surrogate_pair` are strict.

Main results:

- Theorem {lit}`encodedBytes_char`: the UTF-8 encoder is right on every scalar value.
- Theorem {lit}`utf16ToUtf8Loop_text`: what the loops write for a text.
- Theorem {lit}`fromUtf16_iff`: the converters are right on a text if and only if all its
  characters are convertible.
-/

namespace SystemFundamentals.Utf

open Library

/-! ## The encoder -/

theorem continuation_eq (x : UInt32) :
    ((0x80 : UInt32) ||| (x &&& 0x3F)).toUInt8 = UInt8.ofNat (x.toNat % 64 + 128) := by
  apply UInt8.toNat_inj.mp
  rw [toNat_continuation, UInt8.toNat_ofNat']
  omega

theorem leadOfTwo_eq (x : UInt32) :
    ((0xC0 : UInt32) ||| (x &&& 0x1F)).toUInt8 = UInt8.ofNat (x.toNat % 32 + 192) := by
  apply UInt8.toNat_inj.mp
  rw [toNat_leadOfTwo, UInt8.toNat_ofNat']
  omega

theorem leadOfThree_eq (x : UInt32) :
    ((0xE0 : UInt32) ||| (x &&& 0x0F)).toUInt8 = UInt8.ofNat (x.toNat % 16 + 224) := by
  apply UInt8.toNat_inj.mp
  rw [toNat_leadOfThree, UInt8.toNat_ofNat']
  omega

theorem leadOfFour_eq (x : UInt32) :
    ((0xF0 : UInt32) ||| (x &&& 0x07)).toUInt8 = UInt8.ofNat (x.toNat % 8 + 240) := by
  apply UInt8.toNat_inj.mp
  rw [toNat_leadOfFour, UInt8.toNat_ofNat']
  omega

/-- The UTF-8 encoder is right on every scalar value. -/
theorem encodedBytes_char (c : Char) : encodedBytes c.val = String.utf8EncodeChar c := by
  have hshift (x : UInt32) : (x >>> 6).toNat = x.toNat / 64 := by
    rw [UInt32.toNat_shiftRight]
    exact Nat.shiftRight_eq_div_pow _ 6
  have hone : c.val ≤ 0x7F ↔ c.val.toNat ≤ 0x7F := UInt32.le_iff_toNat_le
  have htwo : c.val ≤ 0x7FF ↔ c.val.toNat ≤ 0x7FF := UInt32.le_iff_toNat_le
  have hthree : c.val ≤ 0xFFFF ↔ c.val.toNat ≤ 0xFFFF := UInt32.le_iff_toNat_le
  rw [encodedBytes_eq]
  unfold String.utf8EncodeChar
  simp only [hone, htwo, hthree, continuation_eq, leadOfTwo_eq, leadOfThree_eq, leadOfFour_eq,
    hshift, Nat.div_div_eq_div_mul, Nat.reduceMul]
  rfl

/-! ## One character -/

/-- The characters the loops convert as they should: not U+FEFF, and not one whose high
surrogate is the first or the last. -/
def Convertible (c : Char) : Prop :=
  c ≠ byteOrderMark ∧ (c.toNat < 0x10400 → c.toNat < 0x10000) ∧ c.toNat < 0x10FC00

instance (c : Char) : Decidable (Convertible c) :=
  inferInstanceAs (Decidable (_ ∧ _ ∧ _))

/-- What the loops write for a character. -/
def convertedBytes (c : Char) : List UInt8 :=
  if c = byteOrderMark then []
  else if Convertible c then String.utf8EncodeChar c
  else (utf16Units c).flatMap fun unit => encodedBytes unit.toUInt32

/-- The high surrogates that {lit}`is_upper_surrogate_pair` recognizes. -/
theorem isUpperSurrogatePair_iff (glyph : Utf16Glyph) :
    isUpperSurrogatePair glyph = true ↔
      0xD800 < glyph.upperBytes.toNat ∧ glyph.upperBytes.toNat < 0xDBFF := by
  simp [isUpperSurrogatePair, UInt16.lt_iff_toNat_lt]

/-- A recognized pair is put together as it should be. -/
theorem utf16GlyphToCodePoint_pair {c : Char} (hlarge : 0x10000 ≤ c.toNat)
    {high low : UInt16} (hhigh : high.toNat = 0xD800 + (c.toNat - 0x10000) / 0x400)
    (hlow : low.toNat = 0xDC00 + (c.toNat - 0x10000) % 0x400)
    (hpair : isUpperSurrogatePair ⟨high, low⟩ = true) :
    utf16GlyphToCodePoint ⟨high, low⟩ = c.val := by
  have hlt := (scalar_bounds c).2
  have hhighBits : (high.toUInt32 - 0xD800).toNat = (c.toNat - 0x10000) / 0x400 := by
    rw [UInt32.toNat_sub_of_le _ _ (by
      rw [UInt32.le_iff_toNat_le, UInt16.toNat_toUInt32, hhigh]
      exact Nat.le_add_right ..), UInt16.toNat_toUInt32, hhigh]
    exact Nat.add_sub_cancel_left ..
  have hlowBits : (low.toUInt32 - 0xDC00).toNat = (c.toNat - 0x10000) % 0x400 := by
    rw [UInt32.toNat_sub_of_le _ _ (by
      rw [UInt32.le_iff_toNat_le, UInt16.toNat_toUInt32, hlow]
      exact Nat.le_add_right ..), UInt16.toNat_toUInt32, hlow]
    exact Nat.add_sub_cancel_left ..
  have hshift : ((high.toUInt32 - 0xD800) <<< 10).toNat =
      2 ^ 10 * ((c.toNat - 0x10000) / 0x400) := by
    rw [UInt32.toNat_shiftLeft, hhighBits, show (10 : UInt32).toNat % 32 = 10 from rfl,
      Nat.shiftLeft_eq]
    omega
  apply UInt32.toNat_inj.mp
  simp only [utf16GlyphToCodePoint, hpair, Bool.not_true, Bool.false_eq_true, if_false,
    UInt32.toNat_add, UInt32.toNat_or, hshift, hlowBits]
  rw [← Nat.two_pow_add_eq_or_of_lt (Nat.mod_lt _ (by decide)),
    show (0x10000 : UInt32).toNat = 0x10000 from rfl]
  show _ = c.toNat
  omega

/-- A recognized pair is read in one turn. -/
theorem utf16ToUtf8Loop_pair (endian : ByteOrder) (utf16Buf : Utf16Glyph) {high low : UInt16}
    (hlow : low ≠ 0xFEFF) (hpair : isUpperSurrogatePair ⟨high, low⟩ = true)
    (rest : List UInt8) :
    utf16ToUtf8Loop endian.order utf16Buf (endian.bytes high ++ (endian.bytes low ++ rest)) =
      (utf16ToUtf8Loop endian.order ⟨0, 0⟩ rest).after
        (encodedBytes (utf16GlyphToCodePoint ⟨high, low⟩)) := by
  have hupper : isUpperSurrogatePair { utf16Buf with upperBytes := high } = true := hpair
  have hread : endian.order (readUnit utf16Buf.lowerBytes (endian.bytes low ++ rest)) = low := by
    rw [ByteOrder.bytes, List.cons_append, List.cons_append, List.nil_append,
      readUnit_cons_cons, endian.order_unitOf]
  rw [utf16ToUtf8Loop_unit]
  simp only [hupper, if_true, hread, ne_eq, hlow, not_false_eq_true]
  rfl

/-- The loop on the units of a large character. -/
theorem utf16ToUtf8Loop_large (endian : ByteOrder) {utf16Buf : Utf16Glyph}
    (hcalm : Calm utf16Buf) {c : Char} (hlarge : 0x10000 ≤ c.toNat) (rest : List UInt8) :
    utf16ToUtf8Loop endian.order utf16Buf ((utf16Units c).flatMap endian.bytes ++ rest) =
      (utf16ToUtf8Loop endian.order ⟨0, 0⟩ rest).after
        (if Convertible c then String.utf8EncodeChar c
          else (utf16Units c).flatMap fun unit => encodedBytes unit.toUInt32) := by
  have hlt := (scalar_bounds c).2
  have hmark : c ≠ byteOrderMark := by
    rintro rfl
    rw [toNat_byteOrderMark] at hlarge
    omega
  have hmem := markUnit_not_mem hmark
  rcases utf16Units_pair hlarge with ⟨high, low, hunits, hhigh, hlow⟩
  rw [hunits, List.mem_pair] at hmem
  rw [hunits, List.flatMap_cons, List.flatMap_singleton, List.append_assoc]
  cases hpair : isUpperSurrogatePair ⟨high, low⟩ with
  | true =>
      have hbounds : 0xD800 < high.toNat ∧ high.toNat < 0xDBFF :=
        (isUpperSurrogatePair_iff _).mp hpair
      have hconvertible : Convertible c := ⟨hmark, by omega, by omega⟩
      rw [if_pos hconvertible, ← encodedBytes_char,
        ← utf16GlyphToCodePoint_pair hlarge hhigh hlow hpair]
      exact utf16ToUtf8Loop_pair endian utf16Buf (fun h => hmem (Or.inr h.symm)) hpair rest
  | false =>
      have hbounds : ¬ (0xD800 < high.toNat ∧ high.toNat < 0xDBFF) := by
        rw [← isUpperSurrogatePair_iff ⟨high, low⟩, hpair]
        exact Bool.false_ne_true
      have hnot : ¬ Convertible c := by
        rintro ⟨_, hfirst, hlast⟩
        omega
      have hlowPair : isUpperSurrogatePair ⟨low, 0⟩ = false := by
        by_contra htrue
        have hlowBounds : 0xD800 < low.toNat ∧ low.toNat < 0xDBFF :=
          (isUpperSurrogatePair_iff _).mp (Bool.eq_true_of_not_eq_false htrue)
        omega
      rw [if_neg hnot, utf16ToUtf8Loop_single endian hcalm (fun h => hmem (Or.inl h.symm)) hpair,
        utf16ToUtf8Loop_single endian calm_zero (fun h => hmem (Or.inr h.symm)) hlowPair]
      simp [Conversion.after]

/-- One turn of the loop, or two, on a character. -/
theorem utf16ToUtf8Loop_char (endian : ByteOrder) {utf16Buf : Utf16Glyph}
    (hcalm : Calm utf16Buf) (c : Char) (rest : List UInt8) :
    ∃ utf16Buf', Calm utf16Buf' ∧
      utf16ToUtf8Loop endian.order utf16Buf ((utf16Units c).flatMap endian.bytes ++ rest) =
        (utf16ToUtf8Loop endian.order utf16Buf' rest).after (convertedBytes c) := by
  by_cases hmark : c = byteOrderMark
  · have hunits : utf16Units c = [0xFEFF] := by
      rw [hmark]
      decide
    refine ⟨⟨utf16Buf.lowerBytes, 0xFEFF⟩, calm_mark _, ?_⟩
    rw [hunits, List.flatMap_singleton, utf16ToUtf8Loop_mark, convertedBytes, if_pos hmark]
    rfl
  · refine ⟨⟨0, 0⟩, calm_zero, ?_⟩
    rw [convertedBytes, if_neg hmark]
    rcases Nat.lt_or_ge c.toNat 0x10000 with hsmall | hlarge
    · have hconvertible : Convertible c := ⟨hmark, fun _ => hsmall, by omega⟩
      have hmem := markUnit_not_mem hmark
      have hscalar := (scalar_bounds c).1
      rcases utf16Units_single hsmall with ⟨unit, hunits, hunit⟩
      rw [hunits, List.mem_singleton] at hmem
      have hpair : isUpperSurrogatePair ⟨unit, 0⟩ = false := by
        by_contra htrue
        have hbounds : 0xD800 < unit.toNat ∧ unit.toNat < 0xDBFF :=
          (isUpperSurrogatePair_iff _).mp (Bool.eq_true_of_not_eq_false htrue)
        omega
      have hcode : unit.toUInt32 = c.val := by
        apply UInt32.toNat_inj.mp
        rw [UInt16.toNat_toUInt32]
        exact hunit
      rw [hunits, List.flatMap_singleton, if_pos hconvertible, ← encodedBytes_char, ← hcode]
      exact utf16ToUtf8Loop_single endian hcalm (fun h => hmem h.symm) hpair rest
    · exact utf16ToUtf8Loop_large endian hcalm hlarge rest

/-! ## A text -/

/-- What the loops write for a text. -/
theorem utf16ToUtf8Loop_text (endian : ByteOrder) {utf16Buf : Utf16Glyph}
    (hcalm : Calm utf16Buf) (text : List Char) :
    (utf16ToUtf8Loop endian.order utf16Buf
      ((text.flatMap utf16Units).flatMap endian.bytes)).written = text.flatMap convertedBytes := by
  induction text generalizing utf16Buf with
  | nil =>
      rw [List.flatMap_nil, List.flatMap_nil, utf16ToUtf8Loop]
      rfl
  | cons c text ih =>
      rcases utf16ToUtf8Loop_char endian hcalm c ((text.flatMap utf16Units).flatMap endian.bytes)
        with ⟨utf16Buf', hcalm', hloop⟩
      rw [List.flatMap_cons, List.flatMap_append, hloop, Conversion.written_after, ih hcalm',
        List.flatMap_cons]

/-- A character the loops do not convert is U+FEFF or has two units, of which the first is the
first or the last high surrogate. -/
theorem units_of_not_convertible {c : Char} (hmark : c ≠ byteOrderMark)
    (hnot : ¬ Convertible c) :
    ∃ high low : UInt16, utf16Units c = [high, low] ∧ 0x10000 ≤ c.toNat ∧
      (high.toNat = 0xD800 ∨ high.toNat = 0xDBFF) := by
  have hlt := (scalar_bounds c).2
  have hrange : 0x10000 ≤ c.toNat ∧ (c.toNat < 0x10400 ∨ 0x10FC00 ≤ c.toNat) := by
    unfold Convertible at hnot
    have hrest := not_and.mp hnot hmark
    omega
  rcases utf16Units_pair hrange.1 with ⟨high, low, hunits, hhigh, _⟩
  exact ⟨high, low, hunits, hrange.1, by omega⟩

/-- What is written for a character other than U+FEFF starts with the bytes of some other
code point. -/
theorem convertedBytes_of_not_mark {c : Char} (hmark : c ≠ byteOrderMark) :
    ∃ codePoint rest, codePoint ≠ 0xFEFF ∧ convertedBytes c = encodedBytes codePoint ++ rest := by
  rw [convertedBytes, if_neg hmark]
  split_ifs with hconvertible
  · refine ⟨c.val, [], ?_, by rw [List.append_nil, encodedBytes_char]⟩
    intro hval
    apply hmark
    apply Char.toNat_inj.mp
    rw [toNat_byteOrderMark]
    exact congrArg UInt32.toNat hval
  · rcases units_of_not_convertible hmark hconvertible with ⟨high, low, hunits, _, hhigh⟩
    rw [hunits]
    refine ⟨high.toUInt32, _, ?_, List.flatMap_cons ..⟩
    intro hval
    have htoNat : high.toNat = 0xFEFF := congrArg UInt32.toNat hval
    omega

/-- No text makes the loops write a byte order mark first. -/
theorem not_mark_prefix_converted (text : List Char) :
    ¬ Scheme.utf8.mark <+: text.flatMap convertedBytes := by
  induction text with
  | nil => simp [Scheme.mark]
  | cons c text ih =>
      rw [List.flatMap_cons]
      by_cases hmark : c = byteOrderMark
      · rwa [convertedBytes, if_pos hmark, List.nil_append]
      · rcases convertedBytes_of_not_mark hmark with ⟨codePoint, rest, hcode, hbytes⟩
        rw [hbytes, List.append_assoc]
        exact fun hprefix => hcode (encoded_startsWithBom hprefix)

/-- The first byte that is written for a code point tells whether it has four bytes. -/
theorem encodedBytes_lead (codePoint : UInt32) :
    ∃ lead rest, encodedBytes codePoint = lead :: rest ∧
      (lead.toNat < 0xF0 ↔ codePoint.toNat < 0x10000) := by
  have hone : codePoint ≤ 0x7F ↔ codePoint.toNat ≤ 0x7F := UInt32.le_iff_toNat_le
  have htwo : codePoint ≤ 0x7FF ↔ codePoint.toNat ≤ 0x7FF := UInt32.le_iff_toNat_le
  have hthree : codePoint ≤ 0xFFFF ↔ codePoint.toNat ≤ 0xFFFF := UInt32.le_iff_toNat_le
  rw [encodedBytes_eq]
  simp only [hone, htwo, hthree]
  split_ifs with hsize hsize' hsize''
  · refine ⟨_, _, rfl, ?_⟩
    rw [UInt32.toNat_toUInt8]
    omega
  · refine ⟨_, _, rfl, ?_⟩
    rw [toNat_leadOfTwo]
    omega
  · refine ⟨_, _, rfl, ?_⟩
    rw [toNat_leadOfThree]
    omega
  · refine ⟨_, _, rfl, ?_⟩
    rw [toNat_leadOfFour]
    omega

/-- The text the loops write is the text itself exactly when all characters are
convertible. -/
theorem converted_eq_encode_iff (text : List Char) :
    text.flatMap convertedBytes = Scheme.utf8.encode text ↔ ∀ c ∈ text, Convertible c := by
  induction text with
  | nil => simp [Scheme.encode]
  | cons c text ih =>
      rw [Scheme.encode] at ih ⊢
      rw [List.forall_mem_cons, ← ih, List.flatMap_cons, List.flatMap_cons]
      by_cases hmark : c = byteOrderMark
      · constructor
        · -- the mark is missing, and nothing that follows can stand for it
          intro heq
          have hprefix : Scheme.utf8.mark <+: text.flatMap convertedBytes := by
            rw [convertedBytes, if_pos hmark, List.nil_append] at heq
            rw [heq, hmark]
            exact List.prefix_append ..
          exact absurd hprefix (not_mark_prefix_converted text)
        · exact fun h => absurd hmark h.1.1
      · by_cases hconvertible : Convertible c
        · rw [convertedBytes, if_neg hmark, if_pos hconvertible, List.append_cancel_left_eq]
          exact (and_iff_right hconvertible).symm
        · constructor
          · -- a surrogate has three bytes, the character four
            intro heq
            rcases units_of_not_convertible hmark hconvertible with
              ⟨high, low, hunits, hlarge, hhigh⟩
            rcases encodedBytes_lead c.val with ⟨lead, rest, hlead, hfour⟩
            rcases encodedBytes_lead high.toUInt32 with ⟨lead', rest', hlead', hfour'⟩
            rw [convertedBytes, if_neg hmark, if_neg hconvertible, hunits, List.flatMap_cons,
              hlead', ← encodedBytes_char, hlead] at heq
            rw [UInt16.toNat_toUInt32, (List.cons.inj heq).1, hfour] at hfour'
            have hsmall : c.toNat < 0x10000 := hfour'.mpr (by omega)
            omega
          · exact fun h => absurd h.1 hconvertible

/-- The output is the UTF-8 encoding of the text, apart from a leading byte order mark, if
any. -/
def CorrectOutput (written : List UInt8) (text : List Char) : Prop :=
  written = Scheme.utf8.encode text ∨
    written = Scheme.utf8.mark ++ Scheme.utf8.encode text

theorem correctOutput_converted_iff (text : List Char) :
    CorrectOutput (text.flatMap convertedBytes) text ↔ ∀ c ∈ text, Convertible c := by
  rw [← converted_eq_encode_iff]
  constructor
  · rintro (heq | heq)
    · exact heq
    · exact absurd (heq ▸ List.prefix_append ..) (not_mark_prefix_converted text)
  · exact Or.inl

/-- What the loops write for a file, whatever the glyph buffer holds. -/
theorem utf16ToUtf8Loop_file (endian : ByteOrder) (utf16Buf : Utf16Glyph) (text : List Char) :
    (utf16ToUtf8Loop endian.order utf16Buf (endian.bytes 0xFEFF ++
      (text.flatMap utf16Units).flatMap endian.bytes)).written = text.flatMap convertedBytes := by
  rw [utf16ToUtf8Loop_mark]
  exact utf16ToUtf8Loop_text endian (calm_mark _) text

/-- The converters are right on a text if and only if all its characters are convertible. -/
theorem fromUtf16_iff (utf16Buf : Utf16Glyph) (text : List Char) :
    (CorrectOutput (fromUtf16leToUtf8 utf16Buf
        (Scheme.utf16le.mark ++ Scheme.utf16le.encode text)).written text ↔
      ∀ c ∈ text, Convertible c) ∧
    (CorrectOutput (fromUtf16beToUtf8 utf16Buf
        (Scheme.utf16be.mark ++ Scheme.utf16be.encode text)).written text ↔
      ∀ c ∈ text, Convertible c) := by
  have hle := utf16ToUtf8Loop_file .littleEndian utf16Buf text
  have hbe := utf16ToUtf8Loop_file .bigEndian utf16Buf text
  constructor
  · rw [← correctOutput_converted_iff, ← hle]
    rfl
  · rw [← correctOutput_converted_iff, ← hbe]
    rfl

/-- U+10000 comes out as two surrogates. -/
theorem fromUtf16_wrong :
    ¬ ∀ (utf16Buf : Utf16Glyph) (text : List Char),
      CorrectOutput (fromUtf16leToUtf8 utf16Buf
          (Scheme.utf16le.mark ++ Scheme.utf16le.encode text)).written text ∧
        CorrectOutput (fromUtf16beToUtf8 utf16Buf
          (Scheme.utf16be.mark ++ Scheme.utf16be.encode text)).written text := by
  intro hall
  have htext := (hall ⟨0, 0⟩ [Char.ofNat 0x10000]).1
  rw [CorrectOutput] at htext
  revert htext
  decide +kernel

end SystemFundamentals.Utf
