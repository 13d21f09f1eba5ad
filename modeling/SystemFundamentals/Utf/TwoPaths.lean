import SystemFundamentals.Utf.FromUtf16
import SystemFundamentals.Utf.FromUtf8
import Mathlib.Data.List.Induction
import Mathlib.Algebra.Group.Nat.Even

/-!
# The two ways from UTF-16 to UTF-8

{lit}`from_utf16be_to_utf8` on some bytes and {lit}`from_utf16le_to_utf8` on the same bytes
with every pair swapped.  The loops differ in what they reverse: a unit that is read comes out
the same, but a second read that transfers nothing leaves the lower half of the buffer as it
is in one loop and reverses it in the other.

Main results:

- Theorem {lit}`written_eq_iff`: on which units the two loops write the same.
- Theorem {lit}`twoPaths_iff`: the same for the two conversions and any bytes.
-/

namespace SystemFundamentals.Utf

open Library

/-! ## What the bytes of a code point tell of it -/

/-- The last two bytes of a code point hold its low byte. -/
theorem encodedBytes_tail (codePoint : UInt32) :
    (codePoint.toNat ≤ 0x7F ∧ encodedBytes codePoint = [codePoint.toUInt8]) ∨
      ∃ front second last, encodedBytes codePoint = front ++ [second, last] ∧
        second.toNat % 4 = codePoint.toNat / 64 % 4 ∧
          last.toNat = 128 + codePoint.toNat % 64 := by
  have hshift (x : UInt32) : (x >>> 6).toNat = x.toNat / 64 := by
    rw [UInt32.toNat_shiftRight]
    exact Nat.shiftRight_eq_div_pow _ 6
  have hsecond : ((0x80 : UInt32) ||| ((codePoint >>> 6) &&& 0x3F)).toUInt8.toNat % 4 =
      codePoint.toNat / 64 % 4 := by
    rw [toNat_continuation, hshift]
    omega
  rw [encodedBytes_eq]
  split_ifs with hone htwo hthree
  · exact Or.inl ⟨hone, rfl⟩
  · refine Or.inr ⟨[], _, _, rfl, ?_, toNat_continuation codePoint⟩
    rw [toNat_leadOfTwo, hshift]
    omega
  · exact Or.inr ⟨[_], _, _, rfl, hsecond, toNat_continuation codePoint⟩
  · exact Or.inr ⟨[_, _], _, _, rfl, hsecond, toNat_continuation codePoint⟩

theorem low_byte_of_encodedBytes_eq {codePoint codePoint' : UInt32}
    (h : encodedBytes codePoint = encodedBytes codePoint') :
    codePoint.toNat % 256 = codePoint'.toNat % 256 := by
  rcases encodedBytes_tail codePoint with ⟨hsmall, hbytes⟩ | ⟨front, second, last, hbytes, h₂, h₁⟩
  · rcases encodedBytes_tail codePoint' with
      ⟨hsmall', hbytes'⟩ | ⟨front', second', last', hbytes', -, -⟩
    · rw [hbytes, hbytes'] at h
      have hbyte := congrArg UInt8.toNat (List.singleton_inj.mp h)
      rwa [UInt32.toNat_toUInt8, UInt32.toNat_toUInt8] at hbyte
    · rw [hbytes, hbytes'] at h
      have hlength := congrArg List.length h
      rw [List.length_append, List.length_cons, List.length_cons, List.length_cons] at hlength
      omega
  · rcases encodedBytes_tail codePoint' with
      ⟨hsmall', hbytes'⟩ | ⟨front', second', last', hbytes', h₂', h₁'⟩
    · rw [hbytes, hbytes'] at h
      have hlength := congrArg List.length h
      rw [List.length_append, List.length_cons, List.length_cons, List.length_cons] at hlength
      omega
    · rw [hbytes, hbytes'] at h
      have htail := List.append_inj_right' h rfl
      rw [List.cons.injEq, List.singleton_inj] at htail
      rw [htail.1] at h₂
      rw [htail.2] at h₁
      omega

/-- The lower half gives the low byte of the code point of a recognized pair. -/
theorem low_byte_of_pair {high : UInt16} (hhigh : isUpperSurrogatePair ⟨high, 0⟩ = true)
    (lower : UInt16) :
    (utf16GlyphToCodePoint ⟨high, lower⟩).toNat % 256 = lower.toNat % 256 := by
  have hpair : isUpperSurrogatePair ⟨high, lower⟩ = true := hhigh
  have hupper : ((high.toUInt32 - 0xD800) <<< 10).toNat % 2 ^ 8 = 0 := by
    rw [UInt32.toNat_shiftLeft, show (10 : UInt32).toNat % 32 = 10 from rfl, Nat.shiftLeft_eq]
    omega
  have hlower : (lower.toUInt32 - 0xDC00).toNat % 2 ^ 8 = lower.toNat % 256 := by
    rw [UInt32.toNat_sub, UInt16.toNat_toUInt32, show (0xDC00 : UInt32).toNat = 0xDC00 from rfl]
    omega
  have hor := Nat.or_mod_two_pow (a := ((high.toUInt32 - 0xD800) <<< 10).toNat)
    (b := (lower.toUInt32 - 0xDC00).toNat) (n := 8)
  rw [hupper, hlower, Nat.zero_or] at hor
  simp only [utf16GlyphToCodePoint, hpair, Bool.not_true, Bool.false_eq_true, if_false,
    UInt32.toNat_add, UInt32.toNat_or]
  rw [show (0x10000 : UInt32).toNat = 0x10000 from rfl]
  omega

theorem toNat_unitOf (low high : UInt8) :
    (unitOf low high).toNat = low.toNat + 256 * high.toNat := by
  have hlow := low.toNat_lt
  have hhigh := high.toNat_lt
  rw [unitOf, UInt16.toNat_ofNat', LittleEndian.decode, LittleEndian.decode, LittleEndian.decode]
  omega

/-- A unit whose low byte stays the same when it is reversed does not change. -/
theorem reverseUnit_of_low_byte {unit : UInt16}
    (h : unit.toNat % 256 = (reverseUnit unit).toNat % 256) : reverseUnit unit = unit := by
  obtain ⟨low, high, rfl⟩ : ∃ low high, unit = unitOf low high :=
    ⟨unit.toUInt8, (unit >>> 8).toUInt8, (unitOf_bytes unit).symm⟩
  have hlow := low.toNat_lt
  have hhigh := high.toNat_lt
  rw [reverseUnit_unitOf, toNat_unitOf, toNat_unitOf] at h
  have hsame : low = high := by
    apply UInt8.toNat_inj.mp
    omega
  rw [reverseUnit_unitOf, hsame]

/-! ## One turn of both loops -/

/-- The lower half that is left behind by a unit that ends a glyph. -/
def leftLower (unit : UInt16) : UInt16 :=
  if unit = 0xFEFF then 0xFEFF else 0

/-- A last high surrogate whose low surrogate is missing meets a lower half that is not its
own reverse. -/
def KeptLower (lowerBytes : UInt16) (units : List UInt16) : Prop :=
  ∃ high, isUpperSurrogatePair ⟨high, 0⟩ = true ∧
    (units = [high] ∧ reverseUnit lowerBytes ≠ lowerBytes ∨ [0xFEFF, high] <:+ units)

theorem reverseUnit_leftLower_iff (unit : UInt16) :
    reverseUnit (leftLower unit) ≠ leftLower unit ↔ unit = 0xFEFF := by
  rw [leftLower]
  split_ifs with hmark
  · exact iff_of_true (by decide) hmark
  · exact iff_of_false (fun h => h (by decide)) hmark

theorem mark_not_upper : isUpperSurrogatePair ⟨0xFEFF, 0⟩ = false := by decide

theorem markSuffix_cons {unit high : UInt16} {units : List UInt16} :
    [0xFEFF, high] <:+ unit :: units ↔
      units = [high] ∧ reverseUnit (leftLower unit) ≠ leftLower unit ∨
        [0xFEFF, high] <:+ units := by
  have hwhole : [0xFEFF, high] = unit :: units ↔ units = [high] ∧ unit = 0xFEFF := by
    rw [List.cons_eq_cons, eq_comm, and_comm, eq_comm (b := units)]
  rw [List.suffix_cons_iff, reverseUnit_leftLower_iff, hwhole]

/-- A unit that is not a high surrogate is passed. -/
theorem keptLower_single {lowerBytes unit : UInt16}
    (hunit : isUpperSurrogatePair ⟨unit, 0⟩ = false) (units : List UInt16) :
    KeptLower lowerBytes (unit :: units) ↔ KeptLower (leftLower unit) units := by
  unfold KeptLower
  refine exists_congr fun high => and_congr_right fun hhigh => ?_
  have hne : ¬ (unit :: units = [high] ∧ reverseUnit lowerBytes ≠ lowerBytes) := by
    rintro ⟨heq, -⟩
    rw [(List.cons_eq_cons.mp heq).1, hhigh] at hunit
    cases hunit
  rw [markSuffix_cons, or_iff_right hne]

/-- A high surrogate and the unit that is read as its low half are passed. -/
theorem keptLower_pair {lowerBytes first : UInt16}
    (hfirst : isUpperSurrogatePair ⟨first, 0⟩ = true) (unit : UInt16) (units : List UInt16) :
    KeptLower lowerBytes (first :: unit :: units) ↔ KeptLower (leftLower unit) units := by
  unfold KeptLower
  refine exists_congr fun high => and_congr_right fun hhigh => ?_
  have hne : ¬ (first :: unit :: units = [high] ∧ reverseUnit lowerBytes ≠ lowerBytes) := by
    rintro ⟨heq, -⟩
    cases (List.cons_eq_cons.mp heq).2
  have hmark : first ≠ 0xFEFF := by
    rintro rfl
    rw [mark_not_upper] at hfirst
    cases hfirst
  have hrest : ¬ (unit :: units = [high] ∧ reverseUnit (leftLower first) ≠ leftLower first) := by
    rintro ⟨-, hreverse⟩
    exact hmark ((reverseUnit_leftLower_iff first).mp hreverse)
  rw [or_iff_right hne, markSuffix_cons, or_iff_right hrest, markSuffix_cons]

theorem lowerBytes_glyphLeft (upper lower : UInt16) :
    (glyphLeft upper lower).lowerBytes = leftLower lower := by
  rw [glyphLeft, leftLower]
  split_ifs <;> rfl

/-- A turn on a unit that is not a high surrogate. -/
theorem utf16ToUtf8Loop_alone (endian : ByteOrder) (utf16Buf : Utf16Glyph) {unit : UInt16}
    (hunit : isUpperSurrogatePair ⟨unit, 0⟩ = false) (rest : List UInt8) :
    utf16ToUtf8Loop endian.order utf16Buf (endian.bytes unit ++ rest) =
      (utf16ToUtf8Loop endian.order (glyphLeft utf16Buf.lowerBytes unit) rest).after
        (glyphWritten utf16Buf.lowerBytes unit) := by
  rw [ByteOrder.bytes, List.cons_append, List.cons_append, List.nil_append, utf16ToUtf8Loop_cons]
  simp only [readUnit_cons_cons, endian.order_unitOf, hunit, Bool.false_eq_true, if_false]
  rfl

/-- A turn on a high surrogate and what is read after it. -/
theorem utf16ToUtf8Loop_high (endian : ByteOrder) (utf16Buf : Utf16Glyph) {high : UInt16}
    (hhigh : isUpperSurrogatePair ⟨high, 0⟩ = true) (rest : List UInt8) :
    utf16ToUtf8Loop endian.order utf16Buf (endian.bytes high ++ rest) =
      (utf16ToUtf8Loop endian.order
        (glyphLeft high (endian.order (readUnit utf16Buf.lowerBytes rest))) (rest.drop 2)).after
        (glyphWritten high (endian.order (readUnit utf16Buf.lowerBytes rest))) := by
  rw [ByteOrder.bytes, List.cons_append, List.cons_append, List.nil_append, utf16ToUtf8Loop_cons]
  simp only [readUnit_cons_cons, endian.order_unitOf, hhigh, if_true]
  rfl

/-- A complete read gives the next unit. -/
theorem order_readUnit (endian : ByteOrder) (kept unit : UInt16) (rest : List UInt8) :
    endian.order (readUnit kept (endian.bytes unit ++ rest)) = unit := by
  rw [ByteOrder.bytes, List.cons_append, List.cons_append, List.nil_append, readUnit_cons_cons,
    endian.order_unitOf]

/-- A read that transfers nothing keeps the unit. -/
theorem readUnit_nil (unit : UInt16) : readUnit unit [] = unit := by
  have hlt := unit.toNat_lt
  apply UInt16.toNat_inj.mp
  have hdecode : LittleEndian.decode (LittleEndian.encode 2 unit.toNat) = unit.toNat :=
    LittleEndian.decode_encode (by omega)
  rw [readUnit, List.take_nil, List.nil_append, List.length_nil, List.drop_zero, hdecode,
    UInt16.ofNat_toNat]

/-- What a loop writes for a sequence of units. -/
def unitsWritten (endian : ByteOrder) (utf16Buf : Utf16Glyph) (units : List UInt16) : List UInt8 :=
  (utf16ToUtf8Loop endian.order utf16Buf (units.flatMap endian.bytes)).written

theorem unitsWritten_nil (endian : ByteOrder) (utf16Buf : Utf16Glyph) :
    unitsWritten endian utf16Buf [] = [] := by
  rw [unitsWritten, List.flatMap_nil, utf16ToUtf8Loop]

theorem unitsWritten_alone (endian : ByteOrder) (utf16Buf : Utf16Glyph) {unit : UInt16}
    (hunit : isUpperSurrogatePair ⟨unit, 0⟩ = false) (units : List UInt16) :
    unitsWritten endian utf16Buf (unit :: units) =
      glyphWritten utf16Buf.lowerBytes unit ++
        unitsWritten endian (glyphLeft utf16Buf.lowerBytes unit) units := by
  rw [unitsWritten, List.flatMap_cons, utf16ToUtf8Loop_alone endian utf16Buf hunit]
  rfl

theorem unitsWritten_pair (endian : ByteOrder) (utf16Buf : Utf16Glyph) {high : UInt16}
    (hhigh : isUpperSurrogatePair ⟨high, 0⟩ = true) (unit : UInt16) (units : List UInt16) :
    unitsWritten endian utf16Buf (high :: unit :: units) =
      glyphWritten high unit ++ unitsWritten endian (glyphLeft high unit) units := by
  rw [unitsWritten, List.flatMap_cons, List.flatMap_cons,
    utf16ToUtf8Loop_high endian utf16Buf hhigh, order_readUnit]
  rfl

theorem unitsWritten_last (endian : ByteOrder) (utf16Buf : Utf16Glyph) {high : UInt16}
    (hhigh : isUpperSurrogatePair ⟨high, 0⟩ = true) :
    unitsWritten endian utf16Buf [high] =
      glyphWritten high (endian.order utf16Buf.lowerBytes) := by
  rw [unitsWritten, List.flatMap_cons, List.flatMap_nil,
    utf16ToUtf8Loop_high endian utf16Buf hhigh, readUnit_nil, List.drop_nil, utf16ToUtf8Loop,
    Conversion.written_after, List.append_nil]

/-! ## The two loops on the same units -/

theorem encodedBytes_ne_nil (codePoint : UInt32) : encodedBytes codePoint ≠ [] := by
  rcases encodedBytes_tail codePoint with ⟨-, hbytes⟩ | ⟨front, second, last, hbytes, -, -⟩
  · rw [hbytes]
    exact List.cons_ne_nil _ _
  · rw [hbytes]
    exact List.append_ne_nil_of_right_ne_nil _ (List.cons_ne_nil _ _)

/-- Only the byte order mark is not written. -/
theorem glyphWritten_eq_nil_iff (upper lower : UInt16) :
    glyphWritten upper lower = [] ↔ lower = 0xFEFF := by
  rw [glyphWritten]
  split_ifs with hmark
  · exact iff_of_true rfl hmark
  · exact iff_of_false (encodedBytes_ne_nil _) hmark

/-- A high surrogate at the end is written the same only if the kept lower half is its own
reverse. -/
theorem glyphWritten_reverse_iff {high : UInt16} (hhigh : isUpperSurrogatePair ⟨high, 0⟩ = true)
    (lower : UInt16) :
    glyphWritten high (reverseUnit lower) = glyphWritten high lower ↔
      reverseUnit lower = lower := by
  constructor
  · intro hwritten
    by_cases hmark : lower = 0xFEFF
    · have hnothing := (glyphWritten_eq_nil_iff high lower).mpr hmark
      rw [hnothing, glyphWritten_eq_nil_iff] at hwritten
      rw [hwritten, hmark]
    · by_cases hmark' : reverseUnit lower = 0xFEFF
      · have hnothing := (glyphWritten_eq_nil_iff high (reverseUnit lower)).mpr hmark'
        rw [hnothing, eq_comm, glyphWritten_eq_nil_iff] at hwritten
        exact absurd hwritten hmark
      · rw [glyphWritten, if_neg hmark', glyphWritten, if_neg hmark] at hwritten
        have hlow := low_byte_of_encodedBytes_eq hwritten
        rw [low_byte_of_pair hhigh, low_byte_of_pair hhigh] at hlow
        exact reverseUnit_of_low_byte hlow.symm
  · intro hreverse
    rw [hreverse]

theorem not_keptLower_nil (lowerBytes : UInt16) : ¬ KeptLower lowerBytes [] := by
  rintro ⟨high, -, ⟨heq, -⟩ | hsuffix⟩
  · cases heq
  · cases List.eq_nil_of_suffix_nil hsuffix

theorem keptLower_singleton {lowerBytes unit : UInt16}
    (hunit : isUpperSurrogatePair ⟨unit, 0⟩ = true) :
    KeptLower lowerBytes [unit] ↔ reverseUnit lowerBytes ≠ lowerBytes := by
  constructor
  · rintro ⟨high, -, ⟨-, hne⟩ | hsuffix⟩
    · exact hne
    · exact absurd hsuffix.length_le (Nat.not_succ_le_self 1)
  · intro hne
    exact ⟨unit, hunit, Or.inl ⟨rfl, hne⟩⟩

/-- The two loops write the same unless a low surrogate is missing at the end and a lower half
that is not its own reverse was kept. -/
theorem written_eq_iff (utf16Buf : Utf16Glyph) (units : List UInt16) :
    unitsWritten .bigEndian utf16Buf units = unitsWritten .littleEndian utf16Buf units ↔
      ¬ KeptLower utf16Buf.lowerBytes units := by
  induction units using List.twoStepInduction generalizing utf16Buf with
  | nil =>
      rw [unitsWritten_nil, unitsWritten_nil]
      exact iff_of_true rfl (not_keptLower_nil _)
  | singleton unit =>
      cases hunit : isUpperSurrogatePair ⟨unit, 0⟩ with
      | false =>
          rw [unitsWritten_alone _ _ hunit, unitsWritten_alone _ _ hunit, unitsWritten_nil,
            unitsWritten_nil, keptLower_single hunit]
          exact iff_of_true rfl (not_keptLower_nil _)
      | true =>
          rw [unitsWritten_last _ _ hunit, unitsWritten_last _ _ hunit,
            keptLower_singleton hunit, not_not]
          exact glyphWritten_reverse_iff hunit utf16Buf.lowerBytes
  | cons_cons unit unit' units ih ih' =>
      cases hunit : isUpperSurrogatePair ⟨unit, 0⟩ with
      | false =>
          rw [unitsWritten_alone _ _ hunit, unitsWritten_alone _ _ hunit,
            List.append_right_inj, keptLower_single hunit, ih', lowerBytes_glyphLeft]
      | true =>
          rw [unitsWritten_pair _ _ hunit, unitsWritten_pair _ _ hunit,
            List.append_right_inj, keptLower_pair hunit, ih, lowerBytes_glyphLeft]

/-! ## Any bytes -/

/-- Every pair of bytes is swapped. -/
def swapPairs (bytes : List UInt8) : List UInt8 :=
  (bytePairs bytes).flatMap fun pair => [pair.2, pair.1]

/-- The units of a sequence of bytes, high byte first. -/
def bigEndianUnits (bytes : List UInt8) : List UInt16 :=
  (bytePairs bytes).map fun pair => unitOf pair.2 pair.1

theorem bytes_unitOf (low high : UInt8) :
    ByteOrder.bigEndian.bytes (unitOf low high) = [high, low] ∧
      ByteOrder.littleEndian.bytes (unitOf low high) = [low, high] := by
  have hbytes : [(unitOf low high).toUInt8, (unitOf low high >>> 8).toUInt8] = [low, high] :=
    (encode_unit (unitOf low high)).1.symm.trans (encode_unitOf low high)
  rw [List.cons.injEq, List.singleton_inj] at hbytes
  simp only [ByteOrder.bytes, ByteOrder.bigEndian, ByteOrder.littleEndian, hbytes.1, hbytes.2,
    and_self]

theorem bigEndianUnits_bytes {bytes : List UInt8} (heven : Even bytes.length) :
    (bigEndianUnits bytes).flatMap ByteOrder.bigEndian.bytes = bytes ∧
      (bigEndianUnits bytes).flatMap ByteOrder.littleEndian.bytes = swapPairs bytes := by
  induction bytes using List.twoStepInduction with
  | nil => exact ⟨rfl, rfl⟩
  | singleton byte => exact absurd heven Nat.not_even_one
  | cons_cons first second rest ih =>
      rw [List.length_cons, List.length_cons, Nat.even_add_one, Nat.even_add_one, not_not] at heven
      have hunits : bigEndianUnits (first :: second :: rest) =
          unitOf second first :: bigEndianUnits rest := rfl
      have hswapped : swapPairs (first :: second :: rest) =
          [second, first] ++ swapPairs rest := rfl
      rcases ih heven with ⟨hbe, hle⟩
      rw [hunits, hswapped, List.flatMap_cons, List.flatMap_cons, hbe, hle,
        (bytes_unitOf second first).1, (bytes_unitOf second first).2]
      exact ⟨rfl, rfl⟩

/-- The two conversions write the same for a sequence of bytes and its pairs swapped, unless a
low surrogate is missing at the end and the kept lower half is not its own reverse. -/
theorem twoPaths_iff (utf16Buf : Utf16Glyph) {bytes : List UInt8} (heven : Even bytes.length) :
    (fromUtf16beToUtf8 utf16Buf bytes).written =
        (fromUtf16leToUtf8 utf16Buf (swapPairs bytes)).written ↔
      ¬ KeptLower utf16Buf.lowerBytes (bigEndianUnits bytes) := by
  rw [← written_eq_iff, unitsWritten, unitsWritten, (bigEndianUnits_bytes heven).1,
    (bigEndianUnits_bytes heven).2]
  rfl

/-- A byte order mark, a letter and a surrogate pair. -/
theorem twoPaths_pair :
    (fromUtf16beToUtf8 ⟨0, 0⟩ [0xFE, 0xFF, 0x00, 0x41, 0xD8, 0x02, 0xDC, 0x37]).written =
      (fromUtf16leToUtf8 ⟨0, 0⟩
        (swapPairs [0xFE, 0xFF, 0x00, 0x41, 0xD8, 0x02, 0xDC, 0x37])).written := by
  have hunits : bigEndianUnits [0xFE, 0xFF, 0x00, 0x41, 0xD8, 0x02, 0xDC, 0x37] =
      [0xFEFF, 0x0041, 0xD802, 0xDC37] := by decide +kernel
  refine (twoPaths_iff ⟨0, 0⟩ (by decide)).mpr ?_
  rw [hunits]
  rintro ⟨high, -, ⟨hone, -⟩ | hsuffix⟩
  · cases hone
  · simp [List.suffix_cons_iff] at hsuffix

/-- A byte order mark and a lone high surrogate: one path writes nothing, the other one writes
a character. -/
theorem twoPaths_differ :
    ¬ ∀ bytes : List UInt8, Even bytes.length →
      (fromUtf16beToUtf8 ⟨0, 0⟩ bytes).written =
        (fromUtf16leToUtf8 ⟨0, 0⟩ (swapPairs bytes)).written := by
  intro hall
  have hbytes := hall [0xFE, 0xFF, 0xD8, 0x01] (by decide)
  revert hbytes
  decide +kernel

end SystemFundamentals.Utf
