import Mathlib.Data.Nat.Notation
import Mathlib.Data.List.Infix
import Mathlib.Tactic.SplitIfs

/-!
# Unicode encoding schemes

The three encoding schemes with a byte order mark: UTF-8 and the two byte orders
of UTF-16, over lists of Unicode scalar values.  A byte string is free of marks
when U+FEFF cannot be read at any position a reader could start from.

Main results:

- Theorem {lit}`Scheme.markFree_encode`: the encoding of a text without U+FEFF
  is free of marks.
-/

namespace SystemFundamentals.Library

/-- U+FEFF, the character whose encoding is the byte order mark. -/
def byteOrderMark : Char := Char.ofNat 0xFEFF

@[simp] theorem toNat_byteOrderMark : byteOrderMark.toNat = 0xFEFF := by decide

/-! ## UTF-16 units -/

/-- The UTF-16 units of a scalar value. -/
def utf16Units (c : Char) : List UInt16 :=
  if c.toNat < 0x10000 then [UInt16.ofNat c.toNat]
  else [UInt16.ofNat (0xD800 + (c.toNat - 0x10000) / 0x400),
    UInt16.ofNat (0xDC00 + (c.toNat - 0x10000) % 0x400)]

/-- A scalar value is not a surrogate and is below {lit}`0x110000`. -/
theorem scalar_bounds (c : Char) :
    (c.toNat < 0xD800 ∨ 0xDFFF < c.toNat) ∧ c.toNat < 0x110000 := by
  have hvalid : c.toNat.isValidChar := c.valid
  unfold Nat.isValidChar at hvalid
  omega

/-- A small scalar value is its own unit. -/
theorem utf16Units_single {c : Char} (hc : c.toNat < 0x10000) :
    ∃ unit : UInt16, utf16Units c = [unit] ∧ unit.toNat = c.toNat := by
  refine ⟨UInt16.ofNat c.toNat, by rw [utf16Units, if_pos hc], ?_⟩
  rw [UInt16.toNat_ofNat']
  exact Nat.mod_eq_of_lt hc

/-- A large scalar value is a pair of surrogates. -/
theorem utf16Units_pair {c : Char} (hc : 0x10000 ≤ c.toNat) :
    ∃ high low : UInt16, utf16Units c = [high, low] ∧
      high.toNat = 0xD800 + (c.toNat - 0x10000) / 0x400 ∧
      low.toNat = 0xDC00 + (c.toNat - 0x10000) % 0x400 := by
  have hlt := (scalar_bounds c).2
  refine ⟨_, _, by rw [utf16Units, if_neg (by omega)], ?_, ?_⟩
  · rw [UInt16.toNat_ofNat', Nat.mod_eq_of_lt (by omega)]
  · rw [UInt16.toNat_ofNat', Nat.mod_eq_of_lt (by omega)]

/-- A scalar value takes one unit that is not a surrogate, or a high and a low
surrogate. -/
theorem utf16Units_cases (c : Char) :
    (∃ unit : UInt16, utf16Units c = [unit] ∧ unit.toNat = c.toNat ∧
        (unit.toNat < 0xD800 ∨ 0xDFFF < unit.toNat)) ∨
      ∃ high low : UInt16, utf16Units c = [high, low] ∧ 0x10000 ≤ c.toNat ∧
        0xD800 ≤ high.toNat ∧ high.toNat < 0xDC00 ∧
        0xDC00 ≤ low.toNat ∧ low.toNat < 0xE000 := by
  have hc := scalar_bounds c
  by_cases hsmall : c.toNat < 0x10000
  · rcases utf16Units_single hsmall with ⟨unit, hunits, hunit⟩
    exact Or.inl ⟨unit, hunits, hunit, by omega⟩
  · rcases utf16Units_pair (Nat.le_of_not_lt hsmall) with ⟨high, low, hunits, hhigh, hlow⟩
    exact Or.inr ⟨high, low, hunits, by omega, by omega, by omega, by omega, by omega⟩

/-- Only U+FEFF has the unit {lit}`0xFEFF`. -/
theorem markUnit_not_mem {c : Char} (hc : c ≠ byteOrderMark) :
    (0xFEFF : UInt16) ∉ utf16Units c := by
  intro hmem
  have hmark : (0xFEFF : UInt16).toNat = 0xFEFF := rfl
  rcases utf16Units_cases c with
    ⟨unit, hunits, hunit, _⟩ | ⟨high, low, hunits, _, _, hhigh, _, hlow⟩
  · rw [hunits, List.mem_singleton] at hmem
    apply hc
    apply Char.toNat_inj.mp
    rw [toNat_byteOrderMark, ← hunit, ← hmem, hmark]
  · rw [hunits, List.mem_pair] at hmem
    rcases hmem with hmem | hmem
    · rw [← hmem, hmark] at hhigh
      omega
    · rw [← hmem, hmark] at hlow
      omega

/-- A unit, low byte first. -/
def unitBytesLE (unit : UInt16) : List UInt8 := [unit.toUInt8, (unit >>> 8).toUInt8]

/-- A unit, high byte first. -/
def unitBytesBE (unit : UInt16) : List UInt8 := [(unit >>> 8).toUInt8, unit.toUInt8]

/-- The two bytes of a unit determine it. -/
theorem unit_eq_of_bytes {unit unit' : UInt16} (hlow : unit.toUInt8 = unit'.toUInt8)
    (hhigh : (unit >>> 8).toUInt8 = (unit' >>> 8).toUInt8) : unit = unit' := by
  have hvalue (u : UInt16) :
      u.toNat = u.toUInt8.toNat + 256 * (u >>> 8).toUInt8.toNat := by
    have hlt := u.toNat_lt
    rw [UInt16.toNat_toUInt8, UInt16.toNat_toUInt8, UInt16.toNat_shiftRight]
    rw [show (8 : UInt16).toNat % 16 = 8 from rfl, Nat.shiftRight_eq_div_pow]
    omega
  apply UInt16.toNat_inj.mp
  rw [hvalue unit, hvalue unit', hlow, hhigh]

/-- The aligned byte pairs of a byte string; an odd last byte is left out. -/
def bytePairs : List UInt8 → List (UInt8 × UInt8)
  | first :: second :: rest => (first, second) :: bytePairs rest
  | _ => []

theorem bytePairs_flatMap (units : List UInt16) (f g : UInt16 → UInt8) :
    bytePairs (units.flatMap fun unit => [f unit, g unit]) =
      units.map fun unit => (f unit, g unit) := by
  induction units with
  | nil => rfl
  | cons unit units ih => simpa [bytePairs] using ih

/-! ## Encoding schemes -/

/-- An encoding scheme that starts a file with a byte order mark. -/
inductive Scheme
  | utf8
  | utf16le
  | utf16be
deriving DecidableEq

namespace Scheme

/-- The byte order mark of the scheme. -/
def mark : Scheme → List UInt8
  | utf8 => [0xEF, 0xBB, 0xBF]
  | utf16le => [0xFF, 0xFE]
  | utf16be => [0xFE, 0xFF]

/-- The bytes of a text. -/
def encode : Scheme → List Char → List UInt8
  | utf8, text => text.flatMap String.utf8EncodeChar
  | utf16le, text => (text.flatMap utf16Units).flatMap unitBytesLE
  | utf16be, text => (text.flatMap utf16Units).flatMap unitBytesBE

/-- U+FEFF cannot be read from the bytes: at no position of UTF-8, and at no
aligned pair of UTF-16. -/
def MarkFree : Scheme → List UInt8 → Prop
  | utf8, bytes => ¬ [0xEF, 0xBB, 0xBF] <:+: bytes
  | utf16le, bytes => (0xFF, 0xFE) ∉ bytePairs bytes
  | utf16be, bytes => (0xFE, 0xFF) ∉ bytePairs bytes

end Scheme

/-! ## Texts without a mark -/

/-- A byte other than {lit}`0xEF` starts no UTF-8 mark. -/
theorem not_mark_prefix (byte : UInt8) (rest : List UInt8) (h : byte.toNat ≠ 0xEF) :
    ¬ [0xEF, 0xBB, 0xBF] <+: byte :: rest := by
  intro hprefix
  have hbyte := (List.cons_prefix_cons.mp hprefix).1
  apply h
  rw [← hbyte]
  rfl

/-- Prepending the UTF-8 bytes of any other character to bytes without a mark
brings no mark: a mark would have to start at the lead byte. -/
theorem utf8_markFree_append {c : Char} (hc : c ≠ byteOrderMark) {rest : List UInt8}
    (hrest : ¬ [0xEF, 0xBB, 0xBF] <:+: rest) :
    ¬ [0xEF, 0xBB, 0xBF] <:+: String.utf8EncodeChar c ++ rest := by
  have hlt := (scalar_bounds c).2
  have hne : c.toNat ≠ 0xFEFF := by
    intro h
    apply hc
    apply Char.toNat_inj.mp
    rw [h, toNat_byteOrderMark]
  have hbyte (n : Nat) : (UInt8.ofNat n).toNat = n % 256 := UInt8.toNat_ofNat'
  have hval : c.val.toNat = c.toNat := rfl
  have htail (n : Nat) (tail : List UInt8) :
      ¬ [0xEF, 0xBB, 0xBF] <+: UInt8.ofNat (n % 0x40 + 0x80) :: tail := by
    apply not_mark_prefix _ tail
    rw [hbyte]
    omega
  unfold String.utf8EncodeChar
  rw [hval]
  dsimp only
  split_ifs with hone htwo hthree
  · rw [List.cons_append, List.nil_append, List.infix_cons_iff]
    have hlead := not_mark_prefix (UInt8.ofNat c.toNat) rest
      (by rw [hbyte]; omega)
    exact not_or.mpr ⟨hlead, hrest⟩
  · simp only [List.cons_append, List.nil_append, List.infix_cons_iff]
    have hlead := not_mark_prefix (UInt8.ofNat (c.toNat / 64 % 0x20 + 0xc0))
      (UInt8.ofNat (c.toNat % 0x40 + 0x80) :: rest) (by rw [hbyte]; omega)
    exact not_or.mpr ⟨hlead, not_or.mpr ⟨htail _ _, hrest⟩⟩
  · simp only [List.cons_append, List.nil_append, List.infix_cons_iff]
    refine not_or.mpr ⟨?_, not_or.mpr ⟨htail _ _, not_or.mpr ⟨htail _ _, hrest⟩⟩⟩
    -- three bytes equal to the mark spell U+FEFF
    intro hprefix
    rcases List.cons_prefix_cons.mp hprefix with ⟨hfirst, hprefix⟩
    rcases List.cons_prefix_cons.mp hprefix with ⟨hsecond, hprefix⟩
    have hthird := (List.cons_prefix_cons.mp hprefix).1
    replace hfirst := congrArg UInt8.toNat hfirst
    replace hsecond := congrArg UInt8.toNat hsecond
    replace hthird := congrArg UInt8.toNat hthird
    rw [hbyte] at hfirst hsecond hthird
    have hEF : (0xEF : UInt8).toNat = 239 := rfl
    have hBB : (0xBB : UInt8).toNat = 187 := rfl
    have hBF : (0xBF : UInt8).toNat = 191 := rfl
    omega
  · simp only [List.cons_append, List.nil_append, List.infix_cons_iff]
    have hlead (tail : List UInt8) := not_mark_prefix
      (UInt8.ofNat (c.toNat / 262144 % 0x08 + 0xf0)) tail
      (by rw [hbyte]; omega)
    exact not_or.mpr ⟨hlead _, not_or.mpr ⟨htail _ _, not_or.mpr
      ⟨htail _ _, not_or.mpr ⟨htail _ _, hrest⟩⟩⟩⟩

/-- The units of a text without U+FEFF. -/
theorem markUnit_not_mem_flatMap {text : List Char} (htext : byteOrderMark ∉ text) :
    (0xFEFF : UInt16) ∉ text.flatMap utf16Units := by
  intro hmem
  rcases List.mem_flatMap.mp hmem with ⟨c, hc, hunit⟩
  exact markUnit_not_mem (ne_of_mem_of_not_mem hc htext) hunit

/-- The encoding of a text without U+FEFF is free of marks. -/
theorem Scheme.markFree_encode (scheme : Scheme) {text : List Char}
    (htext : byteOrderMark ∉ text) : scheme.MarkFree (scheme.encode text) := by
  cases scheme with
  | utf8 =>
      induction text with
      | nil => simp [MarkFree, encode]
      | cons c text ih =>
          rcases not_or.mp (fun h => htext (List.mem_cons.mpr h)) with ⟨hc, htail⟩
          exact utf8_markFree_append (Ne.symm hc) (ih htail)
  | utf16le =>
      intro hmem
      rw [encode] at hmem
      unfold unitBytesLE at hmem
      rw [bytePairs_flatMap] at hmem
      rcases List.mem_map.mp hmem with ⟨unit, hunit, hpair⟩
      have heq : unit = 0xFEFF := by
        apply unit_eq_of_bytes
        · exact (Prod.mk.injEq ..).mp hpair |>.1
        · exact (Prod.mk.injEq ..).mp hpair |>.2
      exact markUnit_not_mem_flatMap htext (heq ▸ hunit)
  | utf16be =>
      intro hmem
      rw [encode] at hmem
      unfold unitBytesBE at hmem
      rw [bytePairs_flatMap] at hmem
      rcases List.mem_map.mp hmem with ⟨unit, hunit, hpair⟩
      have heq : unit = 0xFEFF := by
        apply unit_eq_of_bytes
        · exact (Prod.mk.injEq ..).mp hpair |>.2
        · exact (Prod.mk.injEq ..).mp hpair |>.1
      exact markUnit_not_mem_flatMap htext (heq ▸ hunit)

end SystemFundamentals.Library
