import SystemFundamentals.Library.LittleEndian

/-!
# Byte-addressed memory

A memory gives every address a byte.  A word is eight bytes at any address, least
significant byte first.

Main results:

- Theorem {lit}`Memory.readWord_writeWord`: a written word is read back.
- Theorem {lit}`Memory.readWord_writeWord_of_disjoint`: a word that does not
  overlap keeps its value.
-/

namespace SystemFundamentals.Library

/-- A byte at every address. -/
abbrev Memory := Nat → UInt8

namespace Memory

/-- The word at an address. -/
def readWord (mem : Memory) (address : Nat) : Nat :=
  LittleEndian.decode ((List.range 8).map fun i => mem (address + i))

/-- The memory after storing a word. -/
def writeWord (mem : Memory) (address value : Nat) : Memory := fun a =>
  if address ≤ a ∧ a < address + 8 then
    (LittleEndian.encode 8 value).getD (a - address) 0
  else mem a

/-- The memory after storing a byte. -/
def writeByte (mem : Memory) (address : Nat) (byte : UInt8) : Memory := fun a =>
  if a = address then byte else mem a

/-- The memory after copying {lit}`count` bytes between ranges that do not overlap
or are the same. -/
def copyBytes (mem : Memory) (target source count : Nat) : Memory := fun a =>
  if target ≤ a ∧ a < target + count then mem (source + (a - target)) else mem a

variable {mem mem' : Memory} {address a : Nat}

theorem readWord_lt (mem : Memory) (address : Nat) : mem.readWord address < 2 ^ 64 := by
  have h := LittleEndian.decode_lt ((List.range 8).map fun i => mem (address + i))
  rw [List.length_map, List.length_range] at h
  exact h

/-- Only the eight bytes of a word matter. -/
theorem readWord_congr (h : ∀ i < 8, mem' (address + i) = mem (address + i)) :
    mem'.readWord address = mem.readWord address := by
  unfold readWord
  apply congrArg
  apply List.map_congr_left
  intro i hi
  exact h i (List.mem_range.mp hi)

/-- A byte outside the stored word keeps its value. -/
theorem writeWord_of_outside (value : Nat) (h : a < address ∨ address + 8 ≤ a) :
    mem.writeWord address value a = mem a := by
  apply if_neg
  omega

/-- A written word is read back, cut to its width. -/
theorem readWord_writeWord (mem : Memory) (address value : Nat) :
    (mem.writeWord address value).readWord address = value % 2 ^ 64 := by
  have hbytes : (List.range 8).map (fun i => mem.writeWord address value (address + i)) =
      LittleEndian.encode 8 value := by
    apply List.ext_getElem
    · simp
    · intro i hi hi'
      have hlt : i < 8 := by simpa using hi'
      simp [writeWord, hlt]
  rw [readWord, hbytes, LittleEndian.decode_encode_mod, show 256 ^ 8 = 2 ^ 64 from rfl]

/-- A word that does not overlap keeps its value. -/
theorem readWord_writeWord_of_disjoint (value : Nat) (h : address + 8 ≤ a ∨ a + 8 ≤ address) :
    (mem.writeWord address value).readWord a = mem.readWord a := by
  apply readWord_congr
  intro i hi
  apply writeWord_of_outside
  omega

/-- Storing the word that is there changes nothing. -/
theorem writeWord_readWord (mem : Memory) (address : Nat) :
    mem.writeWord address (mem.readWord address) = mem := by
  have hbytes := LittleEndian.encode_decode ((List.range 8).map fun i => mem (address + i))
  rw [List.length_map, List.length_range] at hbytes
  funext a
  unfold writeWord readWord
  rw [hbytes]
  split_ifs with hin
  · have hlt : a - address < 8 := by omega
    have haddress : address + (a - address) = a := by omega
    simp [hlt, haddress]
  · rfl

/-- A byte outside the target keeps its value. -/
theorem copyBytes_of_outside {target source count : Nat}
    (h : a < target ∨ target + count ≤ a) : mem.copyBytes target source count a = mem a := by
  apply if_neg
  omega

/-- A byte of the target is the one of the source. -/
theorem copyBytes_add {target source count j : Nat} (h : j < count) :
    mem.copyBytes target source count (target + j) = mem (source + j) := by
  unfold copyBytes
  rw [if_pos (by omega), Nat.add_sub_cancel_left]

/-- Copying a range to itself changes nothing. -/
theorem copyBytes_self (mem : Memory) (target count : Nat) :
    mem.copyBytes target target count = mem := by
  funext a
  unfold copyBytes
  split_ifs with hin
  · have haddress : target + (a - target) = a := by omega
    rw [haddress]
  · rfl

end Memory

end SystemFundamentals.Library
