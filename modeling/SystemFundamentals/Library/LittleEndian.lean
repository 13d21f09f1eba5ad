import Mathlib.Data.Nat.Notation
import Mathlib.Algebra.Order.Group.Nat
import Mathlib.Tactic.Ring

/-!
# Little-endian byte strings

A value of {lit}`n` bytes is stored with its least significant byte first.
Encoding truncates to the width, as a store to memory does.

Main results:

- Theorem {lit}`LittleEndian.decode_encode`: reading back a stored value that
  fits its width.
- Theorem {lit}`LittleEndian.encode_decode`: storing the value that was read
  gives the same bytes.
-/

namespace SystemFundamentals.Library.LittleEndian

/-- The value of a byte string. -/
def decode : List UInt8 → Nat
  | [] => 0
  | byte :: bytes => byte.toNat + 256 * decode bytes

/-- The {lit}`n` low bytes of a value. -/
def encode : Nat → Nat → List UInt8
  | 0, _ => []
  | n + 1, value => UInt8.ofNat value :: encode n (value / 256)

@[simp] theorem length_encode (n value : Nat) : (encode n value).length = n := by
  induction n generalizing value with
  | zero => rfl
  | succ n ih => simp [encode, ih]

/-- Reading back what was stored gives the value modulo the width. -/
theorem decode_encode_mod (n value : Nat) :
    decode (encode n value) = value % 256 ^ n := by
  induction n generalizing value with
  | zero => simp [encode, decode, Nat.mod_one]
  | succ n ih =>
      have hlow : (UInt8.ofNat value).toNat = value % 256 := UInt8.toNat_ofNat'
      rw [encode, decode, ih, hlow, pow_succ', Nat.mod_mul]

/-- Reading back a stored value that fits its width. -/
theorem decode_encode {n value : Nat} (h : value < 256 ^ n) :
    decode (encode n value) = value := by
  rw [decode_encode_mod, Nat.mod_eq_of_lt h]

/-- A byte string of length {lit}`n` is a value below {lit}`256 ^ n`. -/
theorem decode_lt (bytes : List UInt8) : decode bytes < 256 ^ bytes.length := by
  induction bytes with
  | nil => simp [decode]
  | cons byte bytes ih =>
      have hbyte : byte.toNat < 256 := byte.toNat_lt
      rw [decode, List.length_cons, pow_succ']
      omega

/-- Storing the value that was read gives the same bytes. -/
theorem encode_decode (bytes : List UInt8) : encode bytes.length (decode bytes) = bytes := by
  induction bytes with
  | nil => rfl
  | cons byte bytes ih =>
      have hbyte : byte.toNat < 256 := byte.toNat_lt
      have hlow : UInt8.ofNat (byte.toNat + 256 * decode bytes) = byte := by
        apply UInt8.toNat_inj.mp
        rw [UInt8.toNat_ofNat']
        omega
      have hhigh : (byte.toNat + 256 * decode bytes) / 256 = decode bytes := by omega
      rw [List.length_cons, decode, encode, hlow, hhigh, ih]

/-- Four bytes have a first one.  With a name of its own the proof is the same term in every
numeral of {lit}`Fin 4`. -/
instance neZeroFour : NeZero 4 := ⟨Nat.succ_ne_zero 3⟩

end SystemFundamentals.Library.LittleEndian
