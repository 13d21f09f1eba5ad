import SystemFundamentals.Library.Unicode
import SystemFundamentals.Utf.Glyph

/-!
# The converters

The six conversion functions of {lit}`hw2/src` and {lit}`transcribe`.  A converter
reads the bytes from the current position of {lit}`infile` to its end; every read
transfers what is available, so a read is short only at the end of the file and
never fails.  What a local variable holds before it is written is a parameter.

Main results:

- Theorem {lit}`utf16ToUtf8Loop_mark`: both UTF-16 to UTF-8 loops skip a byte
  order mark without writing.
- Theorem {lit}`utf16ToUtf8Loop_not_mark`: what they write for a text does not
  start with a byte order mark.
-/

namespace SystemFundamentals.Utf

open Library

/-! ## Formats -/

/-- The {lit}`format_t` constants. -/
def UTF16LE : UInt32 := 0xFFFE
def UTF16BE : UInt32 := 0xFEFF
def UTF8 : UInt32 := 0xBFBBEF

/-- The {lit}`int bom` of a converter after {lit}`reverse_bytes(&bom, count)`. -/
def bomBytes (format : UInt32) (count : Nat) : List UInt8 :=
  reverseBytes (LittleEndian.encode 4 format.toNat) count

/-! ## Reading and writing -/

/-- What a converter wrote and returned; {lit}`none` is a call through the null
pointer. -/
structure Conversion where
  written : List UInt8
  ret : Option Int
deriving DecidableEq

/-- The conversion that writes {lit}`bytes` first. -/
def Conversion.after (bytes : List UInt8) (conversion : Conversion) : Conversion :=
  { conversion with written := bytes ++ conversion.written }

@[simp] theorem Conversion.written_after (bytes : List UInt8) (conversion : Conversion) :
    (conversion.after bytes).written = bytes ++ conversion.written := rfl

/-- The value of a {lit}`uint16_t` after a two-byte {lit}`read` into it. -/
def readUnit (unit : UInt16) (input : List UInt8) : UInt16 :=
  UInt16.ofNat (LittleEndian.decode
    (input.take 2 ++ (LittleEndian.encode 2 unit.toNat).drop input.length))

/-- A complete read replaces the unit. -/
@[simp] theorem readUnit_cons_cons (unit : UInt16) (low high : UInt8) (rest : List UInt8) :
    readUnit unit (low :: high :: rest) = unitOf low high := by
  have hdrop : (LittleEndian.encode 2 unit.toNat).drop (low :: high :: rest).length = [] := by
    apply List.drop_eq_nil_of_le
    simp
  rw [readUnit, hdrop]
  rfl

/-! ## From UTF-8 -/

/-- The loop of {lit}`from_utf8_to_utf16le` and {lit}`from_utf8_to_utf16be`. -/
def utf8ToUtf16Loop (toGlyph : UInt32 → Utf16Glyph × Nat) (utf8Buf : Utf8Glyph) :
    List UInt8 → Conversion
  | [] => ⟨[], some 0⟩
  | byte :: rest =>
      -- the second read transfers nothing where no byte remains
      let remaining := remainingUtf8Bytes byte
      let buf := (utf8Buf.overwrite 0 [byte]).overwrite 1 (rest.take remaining)
      match getUtf8DecodingFunction (remaining + 1) with
      | none => ⟨[], none⟩
      | some decode =>
          let glyph := toGlyph (decode buf)
          (utf8ToUtf16Loop toGlyph buf (rest.drop remaining)).after
            (glyph.1.toBytes.take glyph.2)
termination_by input => input.length
decreasing_by
  simp only [List.length_drop, List.length_cons]
  omega

def fromUtf8ToUtf16le (utf8Buf : Utf8Glyph) (input : List UInt8) : Conversion :=
  (utf8ToUtf16Loop codePointToUtf16leGlyph utf8Buf input).after
    ((bomBytes UTF16LE 2).take 2)

def fromUtf8ToUtf16be (utf8Buf : Utf8Glyph) (input : List UInt8) : Conversion :=
  (utf8ToUtf16Loop codePointToUtf16beGlyph utf8Buf input).after
    ((bomBytes UTF16BE 2).take 2)

/-! ## Between the byte orders of UTF-16 -/

/-- The loop of {lit}`from_utf16le_to_utf16be`. -/
def utf16leToUtf16beLoop (buf : Utf16Glyph) : List UInt8 → Conversion
  | [] => ⟨[], some 0⟩
  | byte :: rest =>
      let upper := reverseUnit (readUnit buf.upperBytes (byte :: rest))
      if isLowerSurrogatePair { buf with upperBytes := upper } then
        let lower := reverseUnit (readUnit buf.lowerBytes (rest.drop 1))
        (utf16leToUtf16beLoop ⟨upper, lower⟩ (rest.drop 3)).after
          ((Utf16Glyph.mk upper lower).toBytes.take 4)
      else
        (utf16leToUtf16beLoop { buf with upperBytes := upper } (rest.drop 1)).after
          ((Utf16Glyph.mk upper buf.lowerBytes).toBytes.take 2)
termination_by input => input.length
decreasing_by
  all_goals simp only [List.length_drop, List.length_cons]
  all_goals omega

def fromUtf16leToUtf16be (buf : Utf16Glyph) (input : List UInt8) : Conversion :=
  (utf16leToUtf16beLoop buf input).after ((bomBytes UTF16BE 2).take 2)

/-- The loop of {lit}`from_utf16be_to_utf16le`.  It writes from {lit}`&bom`, six
bytes in one branch; {lit}`beyond` is the memory after {lit}`bom`. -/
def utf16beToUtf16leLoop (beyond : List UInt8) (buf : Utf16Glyph) :
    List UInt8 → Conversion
  | [] => ⟨[], some 0⟩
  | byte :: rest =>
      let upper := reverseUnit (readUnit buf.upperBytes (byte :: rest))
      if isLowerSurrogatePair { buf with upperBytes := upper } then
        -- the parenthesis makes bytes_read the outcome of the comparison
        if 0 < (rest.drop 1).length then ⟨[], some 1⟩
        else
          (utf16beToUtf16leLoop beyond ⟨upper, reverseUnit buf.lowerBytes⟩ (rest.drop 1)).after
            ((bomBytes UTF16LE 3 ++ beyond).take 6)
      else
        (utf16beToUtf16leLoop beyond { buf with upperBytes := upper } (rest.drop 1)).after
          ((bomBytes UTF16LE 3 ++ beyond).take 4)
termination_by input => input.length
decreasing_by
  all_goals simp only [List.length_drop, List.length_cons]
  all_goals omega

def fromUtf16beToUtf16le (beyond : List UInt8) (buf : Utf16Glyph) (input : List UInt8) :
    Conversion :=
  (utf16beToUtf16leLoop beyond buf input).after ((bomBytes UTF16LE 3).take 2)

/-! ## From UTF-16 to UTF-8 -/

/-- The loop of {lit}`from_utf16le_to_utf8` and {lit}`from_utf16be_to_utf8`;
{lit}`order` is what they apply to a unit they have read. -/
def utf16ToUtf8Loop (order : UInt16 → UInt16) (utf16Buf : Utf16Glyph) :
    List UInt8 → Conversion
  | [] => ⟨[], some 0⟩
  | byte :: rest =>
      let upper := order (readUnit utf16Buf.upperBytes (byte :: rest))
      let pair := isUpperSurrogatePair { utf16Buf with upperBytes := upper }
      let glyph : Utf16Glyph :=
        if pair then ⟨upper, order (readUnit utf16Buf.lowerBytes (rest.drop 1))⟩
        else ⟨utf16Buf.lowerBytes, upper⟩
      let rest' := if pair then rest.drop 3 else rest.drop 1
      if glyph.lowerBytes ≠ 0xFEFF then
        match codePointToUtf8Glyph (utf16GlyphToCodePoint glyph) with
        | none => ⟨[], none⟩
        | some (utf8Buf, size) =>
            (utf16ToUtf8Loop order ⟨0, 0⟩ rest').after (utf8Buf.toBytes.take size)
      else utf16ToUtf8Loop order glyph rest'
termination_by input => input.length
decreasing_by
  all_goals split
  all_goals simp only [List.length_drop, List.length_cons]
  all_goals omega

/-- {lit}`from_utf16le_to_utf8`; the write of {lit}`bom` is commented out. -/
def fromUtf16leToUtf8 (utf16Buf : Utf16Glyph) (input : List UInt8) : Conversion :=
  utf16ToUtf8Loop id utf16Buf input

/-- {lit}`from_utf16be_to_utf8`; the write of {lit}`bom` is commented out. -/
def fromUtf16beToUtf8 (utf16Buf : Utf16Glyph) (input : List UInt8) : Conversion :=
  utf16ToUtf8Loop reverseUnit utf16Buf input

/-! ## Copying -/

/-- {lit}`transcribe`: {lit}`sendfile` copies {lit}`st_size` bytes from the
current position.  One call is taken to copy them all, which Linux does up to
{lit}`0x7ffff000` bytes. -/
def transcribe (stSize : Nat) (input : List UInt8) : Conversion :=
  ⟨input.take stSize, some (input.take stSize).length⟩

/-! ## What the converters do with a byte order mark -/

/-- A loop from UTF-8 writes the byte order mark again. -/
theorem utf8ToUtf16Loop_mark (toGlyph : UInt32 → Utf16Glyph × Nat) (utf8Buf : Utf8Glyph)
    (input : List UInt8) :
    (toGlyph 0xFEFF).1.toBytes.take (toGlyph 0xFEFF).2 <+:
      (utf8ToUtf16Loop toGlyph utf8Buf (Scheme.utf8.mark ++ input)).written := by
  have hremaining : remainingUtf8Bytes 0xEF = 2 := by decide
  have hcode (buf : Utf8Glyph) : utf8ThreeByteDecode
      ((buf.overwrite 0 [0xEF]).overwrite 1 ((0xBB :: 0xBF :: input).take 2)) = 0xFEFF := by
    have hfirst : (buf.overwrite 0 [0xEF]).overwrite 1 ((0xBB :: 0xBF :: input).take 2) 0 =
        0xEF := rfl
    have hsecond : (buf.overwrite 0 [0xEF]).overwrite 1 ((0xBB :: 0xBF :: input).take 2) 1 =
        0xBB := rfl
    have hthird : (buf.overwrite 0 [0xEF]).overwrite 1 ((0xBB :: 0xBF :: input).take 2) 2 =
        0xBF := rfl
    rw [utf8ThreeByteDecode, hfirst, hsecond, hthird]
    rfl
  simp only [Scheme.mark, List.cons_append, List.nil_append]
  rw [utf8ToUtf16Loop]
  simp only [hremaining, getUtf8DecodingFunction, Conversion.written_after]
  rw [hcode]
  exact List.prefix_append _ _

theorem fromUtf8ToUtf16le_mark (utf8Buf : Utf8Glyph) (input : List UInt8) :
    Scheme.utf16le.mark ++ Scheme.utf16le.mark <+:
      (fromUtf8ToUtf16le utf8Buf (Scheme.utf8.mark ++ input)).written := by
  rw [fromUtf8ToUtf16le, Conversion.written_after]
  exact (List.prefix_append_right_inj _).mpr
    (utf8ToUtf16Loop_mark codePointToUtf16leGlyph utf8Buf input)

theorem fromUtf8ToUtf16be_mark (utf8Buf : Utf8Glyph) (input : List UInt8) :
    Scheme.utf16be.mark ++ Scheme.utf16be.mark <+:
      (fromUtf8ToUtf16be utf8Buf (Scheme.utf8.mark ++ input)).written := by
  rw [fromUtf8ToUtf16be, Conversion.written_after]
  exact (List.prefix_append_right_inj _).mpr
    (utf8ToUtf16Loop_mark codePointToUtf16beGlyph utf8Buf input)

/-- Whatever the buffer holds, the first unit is swapped and written. -/
theorem fromUtf16leToUtf16be_mark (buf : Utf16Glyph) (input : List UInt8) :
    Scheme.utf16be.mark ++ Scheme.utf16be.mark <+:
      (fromUtf16leToUtf16be buf (Scheme.utf16le.mark ++ input)).written := by
  rw [fromUtf16leToUtf16be, Conversion.written_after]
  simp only [Scheme.mark, List.cons_append, List.nil_append]
  rw [utf16leToUtf16beLoop]
  simp only [readUnit_cons_cons, reverseUnit_unitOf]
  split
  · simp only [Conversion.written_after, Utf16Glyph.toBytes, encode_unitOf]
    exact ⟨_, rfl⟩
  · simp only [Conversion.written_after, Utf16Glyph.toBytes, encode_unitOf]
    exact ⟨_, rfl⟩

/-- {lit}`reverse_bytes(&bom, 3)` moves a zero byte to the front. -/
theorem fromUtf16beToUtf16le_start (beyond : List UInt8) (buf : Utf16Glyph)
    (input : List UInt8) :
    [0x00, 0xFF] <+: (fromUtf16beToUtf16le beyond buf input).written :=
  List.prefix_append _ _

/-! ## UTF-16 to UTF-8, unit by unit -/

/-- A byte order a loop reads: what it applies to a unit it has read, and the
bytes of a unit in the file. -/
structure ByteOrder where
  order : UInt16 → UInt16
  first : UInt16 → UInt8
  second : UInt16 → UInt8
  order_unitOf : ∀ unit, order (unitOf (first unit) (second unit)) = unit

namespace ByteOrder

/-- The bytes of a unit in the file. -/
def bytes (endian : ByteOrder) (unit : UInt16) : List UInt8 :=
  [endian.first unit, endian.second unit]

def littleEndian : ByteOrder where
  order := id
  first unit := unit.toUInt8
  second unit := (unit >>> 8).toUInt8
  order_unitOf := unitOf_bytes

def bigEndian : ByteOrder where
  order := reverseUnit
  first unit := (unit >>> 8).toUInt8
  second unit := unit.toUInt8
  order_unitOf unit := by rw [reverseUnit_unitOf, unitOf_bytes]

end ByteOrder

/-- What is written for a glyph. -/
def glyphWritten (upper lower : UInt16) : List UInt8 :=
  if lower = 0xFEFF then [] else encodedBytes (utf16GlyphToCodePoint ⟨upper, lower⟩)

/-- What the buffer holds after a glyph. -/
def glyphLeft (upper lower : UInt16) : Utf16Glyph :=
  if lower = 0xFEFF then ⟨upper, 0xFEFF⟩ else ⟨0, 0⟩

/-- One turn of the loops, on whatever is left of the file. -/
theorem utf16ToUtf8Loop_cons (order : UInt16 → UInt16) (utf16Buf : Utf16Glyph) (byte : UInt8)
    (rest : List UInt8) :
    utf16ToUtf8Loop order utf16Buf (byte :: rest) =
      let upper := order (readUnit utf16Buf.upperBytes (byte :: rest))
      let lower := order (readUnit utf16Buf.lowerBytes (rest.drop 1))
      if isUpperSurrogatePair ⟨upper, 0⟩ then
        (utf16ToUtf8Loop order (glyphLeft upper lower) (rest.drop 3)).after
          (glyphWritten upper lower)
      else
        (utf16ToUtf8Loop order (glyphLeft utf16Buf.lowerBytes upper) (rest.drop 1)).after
          (glyphWritten utf16Buf.lowerBytes upper) := by
  have hupper (unit : UInt16) : isUpperSurrogatePair { utf16Buf with upperBytes := unit } =
      isUpperSurrogatePair ⟨unit, 0⟩ := rfl
  rw [utf16ToUtf8Loop]
  simp only [hupper, glyphLeft, glyphWritten]
  split_ifs with hpair hmark hmark hmark hmark
  all_goals first
    | contradiction
    | (simp only [hmark]; rfl)
    | (obtain ⟨glyph, size, hglyph, hbytes⟩ := codePointToUtf8Glyph_isSome
        (utf16GlyphToCodePoint _)
       rw [hglyph, hbytes])

/-- A byte order mark stays in the buffer, every other glyph is written. -/
theorem after_glyph (order : UInt16 → UInt16) (upper lower : UInt16) (rest : List UInt8) :
    (utf16ToUtf8Loop order (glyphLeft upper lower) rest).after (glyphWritten upper lower) =
      if lower ≠ 0xFEFF then
        (utf16ToUtf8Loop order ⟨0, 0⟩ rest).after
          (encodedBytes (utf16GlyphToCodePoint ⟨upper, lower⟩))
      else utf16ToUtf8Loop order ⟨upper, lower⟩ rest := by
  rw [glyphLeft, glyphWritten]
  by_cases hmark : lower = 0xFEFF
  · rw [if_pos hmark, if_pos hmark, if_neg (not_not.mpr hmark), hmark]
    rfl
  · rw [if_neg hmark, if_neg hmark, if_pos hmark]

/-- One turn of the loop on a complete unit. -/
theorem utf16ToUtf8Loop_unit (endian : ByteOrder) (utf16Buf : Utf16Glyph) (unit : UInt16)
    (rest : List UInt8) :
    utf16ToUtf8Loop endian.order utf16Buf (endian.bytes unit ++ rest) =
      let pair := isUpperSurrogatePair { utf16Buf with upperBytes := unit }
      let glyph : Utf16Glyph :=
        if pair then ⟨unit, endian.order (readUnit utf16Buf.lowerBytes rest)⟩
        else ⟨utf16Buf.lowerBytes, unit⟩
      let rest' := if pair then rest.drop 2 else rest
      if glyph.lowerBytes ≠ 0xFEFF then
        (utf16ToUtf8Loop endian.order ⟨0, 0⟩ rest').after
          (encodedBytes (utf16GlyphToCodePoint glyph))
      else utf16ToUtf8Loop endian.order glyph rest' := by
  have hpair : isUpperSurrogatePair { utf16Buf with upperBytes := unit } =
      isUpperSurrogatePair ⟨unit, 0⟩ := rfl
  rw [ByteOrder.bytes, List.cons_append, List.cons_append, List.nil_append, utf16ToUtf8Loop_cons]
  simp only [readUnit_cons_cons, endian.order_unitOf, List.drop_succ_cons, List.drop_zero,
    hpair, after_glyph]
  cases isUpperSurrogatePair ⟨unit, 0⟩ <;> rfl

/-- The byte order mark is skipped, and stays in {lit}`lower_bytes`. -/
theorem utf16ToUtf8Loop_mark (endian : ByteOrder) (utf16Buf : Utf16Glyph)
    (rest : List UInt8) :
    utf16ToUtf8Loop endian.order utf16Buf (endian.bytes 0xFEFF ++ rest) =
      utf16ToUtf8Loop endian.order ⟨utf16Buf.lowerBytes, 0xFEFF⟩ rest := by
  have hpair : isUpperSurrogatePair { utf16Buf with upperBytes := 0xFEFF } = false := by
    simp [isUpperSurrogatePair]
  rw [utf16ToUtf8Loop_unit]
  simp [hpair]

/-- The code point of a recognized pair is not U+FEFF. -/
theorem utf16GlyphToCodePoint_ne_mark {glyph : Utf16Glyph}
    (hupper : isUpperSurrogatePair glyph = true)
    (hlow : 0xDC00 ≤ glyph.lowerBytes.toNat) (hhigh : glyph.lowerBytes.toNat < 0xE000) :
    utf16GlyphToCodePoint glyph ≠ 0xFEFF := by
  rcases glyph with ⟨upper, lower⟩
  have hbounds : 0xD800 < upper.toNat ∧ upper.toNat < 0xDBFF := by
    simpa [isUpperSurrogatePair, UInt16.lt_iff_toNat_lt] using hupper
  have hupperBits : ((upper.toUInt32 - 0xD800) <<< 10).toNat < 2 ^ 20 := by
    rw [UInt32.toNat_shiftLeft, UInt32.toNat_sub_of_le _ _ (by
      rw [UInt32.le_iff_toNat_le, UInt16.toNat_toUInt32]; exact hbounds.1.le)]
    rw [UInt16.toNat_toUInt32, show (10 : UInt32).toNat % 32 = 10 from rfl,
      Nat.shiftLeft_eq, show (0xD800 : UInt32).toNat = 0xD800 from rfl]
    omega
  have hlowerBits : (lower.toUInt32 - 0xDC00).toNat < 2 ^ 20 := by
    rw [UInt32.toNat_sub_of_le _ _ (by
      rw [UInt32.le_iff_toNat_le, UInt16.toNat_toUInt32]; exact hlow)]
    rw [UInt16.toNat_toUInt32, show (0xDC00 : UInt32).toNat = 0xDC00 from rfl]
    simp only at hhigh
    omega
  intro hcode
  replace hcode := congrArg UInt32.toNat hcode
  have hor := Nat.or_lt_two_pow hupperBits hlowerBits
  simp only [utf16GlyphToCodePoint, hupper, Bool.not_true, Bool.false_eq_true, if_false,
    UInt32.toNat_add, UInt32.toNat_or] at hcode
  rw [show (0x10000 : UInt32).toNat = 0x10000 from rfl,
    show (0xFEFF : UInt32).toNat = 0xFEFF from rfl] at hcode
  omega

/-- A glyph whose upper half is not taken for a high surrogate stands for its lower half. -/
theorem utf16GlyphToCodePoint_of_not_upper {glyph : Utf16Glyph}
    (h : isUpperSurrogatePair glyph = false) :
    utf16GlyphToCodePoint glyph = glyph.lowerBytes.toUInt32 := by
  simp [utf16GlyphToCodePoint, h]

/-- A buffer whose lower half would not be taken for a high surrogate.  The loops move it to
the upper half when they have read a single unit. -/
def Calm (utf16Buf : Utf16Glyph) : Prop :=
  isUpperSurrogatePair ⟨utf16Buf.lowerBytes, 0⟩ = false

theorem calm_zero : Calm ⟨0, 0⟩ := by
  simp [Calm, isUpperSurrogatePair]

theorem calm_mark (upper : UInt16) : Calm ⟨upper, 0xFEFF⟩ := by
  simp [Calm, isUpperSurrogatePair]

/-- A unit that is not taken for a high surrogate is written as a character of its own. -/
theorem utf16ToUtf8Loop_single (endian : ByteOrder) {utf16Buf : Utf16Glyph}
    (hcalm : Calm utf16Buf) {unit : UInt16} (hunit : unit ≠ 0xFEFF)
    (hpair : isUpperSurrogatePair ⟨unit, 0⟩ = false) (rest : List UInt8) :
    utf16ToUtf8Loop endian.order utf16Buf (endian.bytes unit ++ rest) =
      (utf16ToUtf8Loop endian.order ⟨0, 0⟩ rest).after (encodedBytes unit.toUInt32) := by
  have hupper : isUpperSurrogatePair { utf16Buf with upperBytes := unit } = false := hpair
  have hswapped : isUpperSurrogatePair ⟨utf16Buf.lowerBytes, unit⟩ = false := hcalm
  rw [utf16ToUtf8Loop_unit]
  simp [hupper, hunit, utf16GlyphToCodePoint_of_not_upper hswapped]

/-- What the loops write for a text after its byte order mark does not start with
one. -/
theorem utf16ToUtf8Loop_not_mark (endian : ByteOrder) (utf16Buf : Utf16Glyph) {c : Char}
    (hc : c ≠ byteOrderMark) (rest : List UInt8) :
    ¬ [0xEF, 0xBB, 0xBF] <+: (utf16ToUtf8Loop endian.order utf16Buf (endian.bytes 0xFEFF ++
      ((utf16Units c).flatMap endian.bytes ++ rest))).written := by
  have hmem := markUnit_not_mem hc
  have hsingle {unit : UInt16} (hunit : unit ≠ 0xFEFF)
      (hpair : isUpperSurrogatePair ⟨unit, 0xFEFF⟩ = false) (rest : List UInt8) :
      ¬ [0xEF, 0xBB, 0xBF] <+: (utf16ToUtf8Loop endian.order ⟨utf16Buf.lowerBytes, 0xFEFF⟩
        (endian.bytes unit ++ rest)).written := by
    intro hprefix
    rw [utf16ToUtf8Loop_single endian (calm_mark _) hunit hpair,
      Conversion.written_after] at hprefix
    have hcode := congrArg UInt32.toNat (encoded_startsWithBom hprefix)
    apply hunit
    apply UInt16.toNat_inj.mp
    rw [UInt16.toNat_toUInt32] at hcode
    exact hcode
  rw [utf16ToUtf8Loop_mark]
  rcases utf16Units_cases c with ⟨unit, hunits, -, hrange⟩ |
    ⟨high, low, hunits, -, hhigh, hhigh', hlow, hlow'⟩
  · rw [hunits] at hmem ⊢
    have hpair : isUpperSurrogatePair ⟨unit, 0xFEFF⟩ = false := by
      simp only [isUpperSurrogatePair, gt_iff_lt, UInt16.lt_iff_toNat_lt, Bool.and_eq_false_iff,
        decide_eq_false_iff_not, show (0xD800 : UInt16).toNat = 0xD800 from rfl,
        show (0xDBFF : UInt16).toNat = 0xDBFF from rfl]
      omega
    rw [List.flatMap_singleton]
    exact hsingle (fun h => hmem (by rw [h]; exact List.mem_singleton_self _)) hpair rest
  · rw [hunits] at hmem ⊢
    rw [List.flatMap_cons, List.flatMap_singleton, List.append_assoc]
    cases hpair : isUpperSurrogatePair ⟨high, 0xFEFF⟩ with
    | false =>
        exact hsingle (fun h => hmem (by rw [h]; exact List.mem_cons_self)) hpair _
    | true =>
        have hread : endian.order (readUnit 0xFEFF (endian.bytes low ++ rest)) = low := by
          rw [ByteOrder.bytes, List.cons_append, List.cons_append, List.nil_append,
            readUnit_cons_cons, endian.order_unitOf]
        have hlowMark : low ≠ 0xFEFF := fun h => hmem (by simp [h])
        intro hprefix
        rw [utf16ToUtf8Loop_unit] at hprefix
        simp only [hpair, if_true, hread, ne_eq, hlowMark, not_false_eq_true,
          Conversion.written_after] at hprefix
        refine utf16GlyphToCodePoint_ne_mark ?_ hlow hlow' (encoded_startsWithBom hprefix)
        exact hpair

end SystemFundamentals.Utf
