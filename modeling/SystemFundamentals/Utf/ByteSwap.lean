import SystemFundamentals.Utf.FromUtf8
import Mathlib.Data.List.Induction
import Mathlib.Algebra.Group.Nat.Even

/-!
# Between the byte orders of UTF-16

{lit}`from_utf16le_to_utf16be` and {lit}`from_utf16be_to_utf16le` on a sequence of code
units.  Both decide from what {lit}`buf.lower_bytes` holds whether a second unit is read, and
the second one writes from {lit}`&bom` instead of the units.

Main results:

- Theorem {lit}`utf16leToUtf16beLoop_written_iff`: when every unit is swapped.
- Theorem {lit}`utf16beToUtf16leLoop_length`: how many bytes the other conversion writes.
- Theorem {lit}`byteSwap_iff`: when the conversions are right, and when inverse.
-/

namespace SystemFundamentals.Utf

open Library

/-! ## From little endian -/

theorem readUnit_unitBytesLE (unit unit' : UInt16) (rest : List UInt8) :
    readUnit unit' (unitBytesLE unit ++ rest) = unit := by
  rw [unitBytesLE, List.cons_append, List.cons_append, readUnit_cons_cons, unitOf_bytes]

/-- The lower half that the loops test, whatever the upper half is. -/
def lowerRecognized (lowerBytes : UInt16) : Bool :=
  isLowerSurrogatePair ⟨0, lowerBytes⟩

theorem lowerRecognized_eq (upper lower : UInt16) :
    isLowerSurrogatePair ⟨upper, lower⟩ = lowerRecognized lower := rfl

/-- A unit is swapped on its own while the lower half is not recognized. -/
theorem utf16leToUtf16beLoop_single {buf : Utf16Glyph}
    (hlower : lowerRecognized buf.lowerBytes = false) (unit : UInt16) (rest : List UInt8) :
    utf16leToUtf16beLoop buf (unitBytesLE unit ++ rest) =
      (utf16leToUtf16beLoop ⟨reverseUnit unit, buf.lowerBytes⟩ rest).after (unitBytesBE unit) := by
  have hread : readUnit buf.upperBytes
      (unit.toUInt8 :: (unit >>> 8).toUInt8 :: rest) = unit :=
    readUnit_unitBytesLE unit buf.upperBytes rest
  have hbytes : (Utf16Glyph.mk (reverseUnit unit) buf.lowerBytes).toBytes.take 2 =
      unitBytesBE unit := by
    rw [Utf16Glyph.toBytes, (encode_unit unit).2]
    rfl
  rw [unitBytesLE, List.cons_append, List.cons_append, List.nil_append, utf16leToUtf16beLoop]
  simp only [hread, lowerRecognized_eq, hlower, Bool.false_eq_true, if_false, hbytes]
  rfl

/-- Two units are swapped in one turn while the lower half is recognized. -/
theorem utf16leToUtf16beLoop_pair {buf : Utf16Glyph}
    (hlower : lowerRecognized buf.lowerBytes = true) (unit unit' : UInt16) (rest : List UInt8) :
    utf16leToUtf16beLoop buf (unitBytesLE unit ++ (unitBytesLE unit' ++ rest)) =
      (utf16leToUtf16beLoop ⟨reverseUnit unit, reverseUnit unit'⟩ rest).after
        (unitBytesBE unit ++ unitBytesBE unit') := by
  have hread : readUnit buf.upperBytes
      (unit.toUInt8 :: (unit >>> 8).toUInt8 :: (unitBytesLE unit' ++ rest)) = unit :=
    readUnit_unitBytesLE unit buf.upperBytes _
  have hbytes : (Utf16Glyph.mk (reverseUnit unit) (reverseUnit unit')).toBytes.take 4 =
      unitBytesBE unit ++ unitBytesBE unit' := by
    rw [Utf16Glyph.toBytes, (encode_unit unit).2, (encode_unit unit').2]
    rfl
  rw [unitBytesLE, List.cons_append, List.cons_append, List.nil_append, utf16leToUtf16beLoop]
  simp only [hread, lowerRecognized_eq, hlower, if_true, List.drop_succ_cons, List.drop_zero,
    readUnit_unitBytesLE, hbytes]
  rfl

/-- A last unit before which the lower half is recognized is written as four bytes. -/
theorem utf16leToUtf16beLoop_cut {buf : Utf16Glyph}
    (hlower : lowerRecognized buf.lowerBytes = true) (unit : UInt16) :
    (utf16leToUtf16beLoop buf (unitBytesLE unit)).written.length = 4 := by
  rw [unitBytesLE, utf16leToUtf16beLoop]
  simp only [lowerRecognized_eq, hlower, if_true, List.drop_succ_cons, List.drop_nil]
  rw [utf16leToUtf16beLoop]
  rfl

/-- The buffer does not start with a recognized lower half, or the units come in pairs, or a
unit that is read as a lower half is not recognized after the swap. -/
def Completed (lowerBytes : UInt16) (units : List UInt16) : Prop :=
  lowerRecognized lowerBytes = false ∨ Even units.length ∨
    ∃ k unit, units[2 * k + 1]? = some unit ∧ lowerRecognized (reverseUnit unit) = false

/-- The pair at the front is passed. -/
theorem completed_cons_cons {lowerBytes : UInt16} (hlower : lowerRecognized lowerBytes = true)
    (unit unit' : UInt16) (units : List UInt16) :
    Completed lowerBytes (unit :: unit' :: units) ↔ Completed (reverseUnit unit') units := by
  have heven : Even (unit :: unit' :: units).length ↔ Even units.length := by
    rw [List.length_cons, List.length_cons, Nat.even_add_one, Nat.even_add_one, not_not]
  simp only [Completed, hlower, Bool.true_eq_false, false_or, heven]
  constructor
  · rintro (hlength | ⟨k, found, hfound, hunit⟩)
    · exact Or.inr (Or.inl hlength)
    · cases k with
      | zero =>
          have : unit' = found := Option.some_inj.mp hfound
          exact Or.inl (this ▸ hunit)
      | succ k => exact Or.inr (Or.inr ⟨k, found, hfound, hunit⟩)
  · rintro (hunit | hlength | ⟨k, found, hfound, hunit⟩)
    · exact Or.inr ⟨0, unit', rfl, hunit⟩
    · exact Or.inl hlength
    · exact Or.inr ⟨k + 1, found, hfound, hunit⟩

/-- Without a recognized lower half all units are swapped. -/
theorem utf16leToUtf16beLoop_singles {buf : Utf16Glyph}
    (hlower : lowerRecognized buf.lowerBytes = false) (units : List UInt16) :
    (utf16leToUtf16beLoop buf (units.flatMap unitBytesLE)).written =
      units.flatMap unitBytesBE := by
  induction units generalizing buf with
  | nil => rw [List.flatMap_nil, List.flatMap_nil, utf16leToUtf16beLoop]
  | cons unit units ih =>
      have hrest := @ih ⟨reverseUnit unit, buf.lowerBytes⟩ hlower
      rw [List.flatMap_cons, List.flatMap_cons, utf16leToUtf16beLoop_single hlower,
        Conversion.written_after, hrest]

/-- The loop swaps every unit iff it does not miss a lower half at the end. -/
theorem utf16leToUtf16beLoop_written_iff (buf : Utf16Glyph) (units : List UInt16) :
    (utf16leToUtf16beLoop buf (units.flatMap unitBytesLE)).written = units.flatMap unitBytesBE ↔
      Completed buf.lowerBytes units := by
  cases hlower : lowerRecognized buf.lowerBytes with
  | false => exact iff_of_true (utf16leToUtf16beLoop_singles hlower units) (Or.inl hlower)
  | true =>
      induction units using List.twoStepInduction generalizing buf with
      | nil =>
          refine iff_of_true ?_ (Or.inr (Or.inl Even.zero))
          rw [List.flatMap_nil, List.flatMap_nil, utf16leToUtf16beLoop]
      | singleton unit =>
          rw [List.flatMap_singleton, List.flatMap_singleton]
          refine iff_of_false ?_ ?_
          · intro hwritten
            have hlength := utf16leToUtf16beLoop_cut hlower unit
            rw [hwritten, unitBytesBE] at hlength
            cases hlength
          · rintro (hother | hlength | ⟨k, found, hfound, -⟩)
            · rw [hlower] at hother
              cases hother
            · exact absurd hlength Nat.not_even_one
            · cases hfound
      | cons_cons unit unit' units ih _ =>
          rw [List.flatMap_cons, List.flatMap_cons, List.flatMap_cons, List.flatMap_cons,
            utf16leToUtf16beLoop_pair hlower, Conversion.written_after, List.append_assoc,
            List.append_right_inj, List.append_right_inj, completed_cons_cons hlower]
          cases hnext : lowerRecognized (reverseUnit unit') with
          | false =>
              exact iff_of_true (utf16leToUtf16beLoop_singles hnext units) (Or.inl hnext)
          | true => exact ih ⟨reverseUnit unit, reverseUnit unit'⟩ hnext

/-- The loop writes at least as many bytes as it reads. -/
theorem length_le_utf16leToUtf16beLoop (buf : Utf16Glyph) (input : List UInt8) :
    input.length ≤ (utf16leToUtf16beLoop buf input).written.length := by
  induction buf, input using utf16leToUtf16beLoop.induct with
  | case1 buf => exact Nat.zero_le _
  | case2 buf byte rest upper hrecognized lower ih =>
      rw [utf16leToUtf16beLoop]
      simp only [upper, lower] at hrecognized ih ⊢
      rw [if_pos hrecognized, Conversion.written_after, List.length_append]
      have hfour (glyph : Utf16Glyph) : (glyph.toBytes.take 4).length = 4 := rfl
      rw [hfour, List.length_cons]
      rw [List.length_drop] at ih
      omega
  | case3 buf byte rest upper hrecognized ih =>
      rw [utf16leToUtf16beLoop]
      simp only [upper] at hrecognized ih ⊢
      rw [if_neg hrecognized, Conversion.written_after, List.length_append]
      have htwo (glyph : Utf16Glyph) : (glyph.toBytes.take 2).length = 2 := rfl
      rw [htwo, List.length_cons]
      rw [List.length_drop] at ih
      omega

/-! ## From big endian -/

variable (beyond : List UInt8)

/-- A write from {lit}`&bom` has four bytes at least. -/
theorem length_bomWrite (n : Nat) :
    4 ≤ ((bomBytes UTF16LE 3 ++ beyond).take (n + 4)).length := by
  have hbom : (bomBytes UTF16LE 3).length = 4 := rfl
  rw [List.length_take, List.length_append, hbom]
  omega

/-- Without a recognized lower half every two bytes become four. -/
theorem utf16beToUtf16leLoop_singles {buf : Utf16Glyph}
    (hlower : lowerRecognized buf.lowerBytes = false) (input : List UInt8) :
    2 * input.length ≤ (utf16beToUtf16leLoop beyond buf input).written.length := by
  induction buf, input using utf16beToUtf16leLoop.induct with
  | case1 buf => exact Nat.zero_le _
  | case2 buf byte rest upper hrecognized hmore =>
      exact absurd (hlower.symm.trans hrecognized) Bool.false_ne_true
  | case3 buf byte rest upper hrecognized hend ih =>
      exact absurd (hlower.symm.trans hrecognized) Bool.false_ne_true
  | case4 buf byte rest upper hrecognized ih =>
      have hrest := ih hlower
      have hwrite : 4 ≤ ((bomBytes UTF16LE 3 ++ beyond).take 4).length := length_bomWrite beyond 0
      rw [utf16beToUtf16leLoop]
      simp only [upper] at hrecognized hrest
      simp only [if_neg hrecognized, Conversion.written_after]
      rw [List.length_append, List.length_cons]
      rw [List.length_drop] at hrest
      omega

/-- On input the loop writes nothing, or more than it was given. -/
theorem utf16beToUtf16leLoop_length (buf : Utf16Glyph) {input : List UInt8} (hinput : input ≠ []) :
    (utf16beToUtf16leLoop beyond buf input).written = [] ∨
      input.length < (utf16beToUtf16leLoop beyond buf input).written.length := by
  cases hlower : lowerRecognized buf.lowerBytes with
  | false =>
      right
      have hlength := utf16beToUtf16leLoop_singles beyond hlower input
      have hpos := List.length_pos_iff.mpr hinput
      omega
  | true =>
      cases input with
      | nil => exact absurd rfl hinput
      | cons byte rest =>
          rw [utf16beToUtf16leLoop]
          simp only [lowerRecognized_eq, hlower, if_true]
          split_ifs with hmore
          · exact Or.inl rfl
          · right
            have hwrite : 4 ≤ ((bomBytes UTF16LE 3 ++ beyond).take 6).length :=
              length_bomWrite beyond 2
            rw [Conversion.written_after, List.length_append, List.length_cons]
            rw [List.length_drop] at hmore
            omega

/-! ## The two conversions -/

/-- What a conversion writes after the byte order mark. -/
def Conversion.payload (conversion : Conversion) : List UInt8 :=
  conversion.written.drop 2

theorem payload_fromUtf16leToUtf16be (buf : Utf16Glyph) (input : List UInt8) :
    (fromUtf16leToUtf16be buf input).payload = (utf16leToUtf16beLoop buf input).written := rfl

theorem payload_fromUtf16beToUtf16le (buf : Utf16Glyph) (input : List UInt8) :
    (fromUtf16beToUtf16le beyond buf input).payload =
      (utf16beToUtf16leLoop beyond buf input).written := rfl

theorem length_flatMap_unitBytes (units : List UInt16) :
    (units.flatMap unitBytesLE).length = 2 * units.length ∧
      (units.flatMap unitBytesBE).length = 2 * units.length := by
  induction units with
  | nil => exact ⟨rfl, rfl⟩
  | cons unit units ih =>
      simp only [List.flatMap_cons, List.length_append, ih, List.length_cons]
      simp only [unitBytesLE, unitBytesBE, List.length_cons, List.length_nil]
      omega

/-- The output is not a sequence of bytes that is no longer than the input. -/
theorem payload_ne_of_length {input output : List UInt8} {buf : Utf16Glyph}
    (hinput : input ≠ []) (houtput : 0 < output.length) (hle : output.length ≤ input.length) :
    (fromUtf16beToUtf16le beyond buf input).payload ≠ output := by
  intro heq
  rw [payload_fromUtf16beToUtf16le] at heq
  rcases utf16beToUtf16leLoop_length beyond buf hinput with hempty | hlonger
  · rw [← heq, hempty] at houtput
    exact Nat.lt_irrefl 0 houtput
  · rw [heq] at hlonger
    omega

theorem inverse_of_le_iff (buf buf' : Utf16Glyph) (units : List UInt16) :
    (fromUtf16beToUtf16le beyond buf'
        (fromUtf16leToUtf16be buf (units.flatMap unitBytesLE)).payload).payload =
      units.flatMap unitBytesLE ↔ units = [] := by
  constructor
  · intro hinverse
    by_contra hunits
    have hpos := List.length_pos_iff.mpr hunits
    have hlength := (length_flatMap_unitBytes units).1
    have hle := length_le_utf16leToUtf16beLoop buf (units.flatMap unitBytesLE)
    rw [← payload_fromUtf16leToUtf16be] at hle
    have hinput : (fromUtf16leToUtf16be buf (units.flatMap unitBytesLE)).payload ≠ [] := by
      apply List.length_pos_iff.mp
      omega
    exact payload_ne_of_length beyond hinput (by omega) hle hinverse
  · rintro rfl
    rw [List.flatMap_nil, payload_fromUtf16leToUtf16be, utf16leToUtf16beLoop,
      payload_fromUtf16beToUtf16le, utf16beToUtf16leLoop]

theorem inverse_of_be_iff (buf buf' : Utf16Glyph) (units : List UInt16) :
    (fromUtf16leToUtf16be buf'
        (fromUtf16beToUtf16le beyond buf (units.flatMap unitBytesBE)).payload).payload =
      units.flatMap unitBytesBE ↔ units = [] := by
  constructor
  · intro hinverse
    by_contra hunits
    have hpos := List.length_pos_iff.mpr hunits
    have hlength := (length_flatMap_unitBytes units).2
    have hinput : units.flatMap unitBytesBE ≠ [] := by
      apply List.length_pos_iff.mp
      omega
    rw [payload_fromUtf16leToUtf16be, payload_fromUtf16beToUtf16le] at hinverse
    rcases utf16beToUtf16leLoop_length beyond buf hinput with hempty | hlonger
    · rw [hempty, utf16leToUtf16beLoop] at hinverse
      exact hinput hinverse.symm
    · have hle := length_le_utf16leToUtf16beLoop buf'
        (utf16beToUtf16leLoop beyond buf (units.flatMap unitBytesBE)).written
      rw [hinverse] at hle
      omega
  · rintro rfl
    rw [List.flatMap_nil, payload_fromUtf16beToUtf16le, utf16beToUtf16leLoop,
      payload_fromUtf16leToUtf16be, utf16leToUtf16beLoop]

/-- The first conversion is right if and only if it completes its pairs, the second one is
never right, and no sequence but the empty one comes back. -/
theorem byteSwap_iff (buf buf' : Utf16Glyph) (units : List UInt16) :
    ((fromUtf16leToUtf16be buf (units.flatMap unitBytesLE)).written =
        Scheme.utf16be.mark ++ units.flatMap unitBytesBE ↔ Completed buf.lowerBytes units) ∧
      (fromUtf16beToUtf16le beyond buf (units.flatMap unitBytesBE)).written ≠
        Scheme.utf16le.mark ++ units.flatMap unitBytesLE ∧
      ((fromUtf16beToUtf16le beyond buf'
          (fromUtf16leToUtf16be buf (units.flatMap unitBytesLE)).payload).payload =
        units.flatMap unitBytesLE ↔ units = []) ∧
      ((fromUtf16leToUtf16be buf'
          (fromUtf16beToUtf16le beyond buf (units.flatMap unitBytesBE)).payload).payload =
        units.flatMap unitBytesBE ↔ units = []) := by
  refine ⟨?_, ?_, inverse_of_le_iff beyond buf buf' units, inverse_of_be_iff beyond buf buf' units⟩
  · rw [← utf16leToUtf16beLoop_written_iff]
    exact List.append_right_inj Scheme.utf16be.mark
  · intro hwritten
    have hstart := fromUtf16beToUtf16le_start beyond buf (units.flatMap unitBytesBE)
    rw [hwritten] at hstart
    exact absurd (List.cons_prefix_cons.mp hstart).1 (by decide)

/-- The letter {lit}`A` becomes a byte order mark with zeros around it. -/
theorem byteSwap_wrong :
    ¬ ∀ (beyond : List UInt8) (buf : Utf16Glyph) (units : List UInt16),
      (fromUtf16leToUtf16be buf (units.flatMap unitBytesLE)).written =
          Scheme.utf16be.mark ++ units.flatMap unitBytesBE ∧
        (fromUtf16beToUtf16le beyond buf (units.flatMap unitBytesBE)).written =
          Scheme.utf16le.mark ++ units.flatMap unitBytesLE := by
  intro hall
  have hletter := (hall [0, 0] ⟨0, 0⟩ [0x41]).2
  revert hletter
  decide +kernel

end SystemFundamentals.Utf
