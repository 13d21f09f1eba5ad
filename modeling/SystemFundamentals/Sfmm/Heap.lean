import SystemFundamentals.Library.Memory
import Mathlib.Data.Fin.VecNotation
import Mathlib.Tactic.SplitIfs
import Mathlib.Logic.Function.Basic

/-!
# The heap of the allocator

The state of {lit}`hw3/src/sfmm.c`: the memory, the heap end, the four segregated
free lists and {lit}`sf_errno`.  The heap starts at a fixed address and grows by
{lit}`sf_sbrk`, one page with whatever contents at a time, up to a page limit.  An
access outside the heap is a fault.

Main results:

- Theorem {lit}`Tag.ofWord_toWord`: the packed bit-fields of a header or footer are
  read back as they were written.
-/

namespace SystemFundamentals.Sfmm

open Library

/-! ## Constants and platform -/

def PAGE_SZ : Nat := 4096

/-- {lit}`sf_errno`. -/
inductive Errno
  | zero
  | EINVAL
  | ENOMEM
deriving DecidableEq

/-- What {lit}`sf_mem_init` fixes: where the heap starts, which is not in the
unmapped page at zero, and how many pages {lit}`sf_sbrk` gives out.  Sixteen pages
would overflow the {lit}`uint16_t` maximum of the last list. -/
structure Platform where
  heapStart : Nat
  pageLimit : Nat
  heapStart_ge : PAGE_SZ ≤ heapStart
  pageLimit_pos : 1 ≤ pageLimit
  pageLimit_le : pageLimit ≤ 15
  heapTop_lt : heapStart + PAGE_SZ * pageLimit < 2 ^ 63

/-- Why a call does not return: an access outside the heap, {lit}`abort`, or more
loop turns than were asked for. -/
inductive Stop
  | segfault
  | abort
  | outOfFuel
deriving DecidableEq

/-! ## Headers and footers -/

/-- {lit}`sf_header` and {lit}`sf_footer`.  The upper half is {lit}`unused` in a
header and {lit}`requested_size` in a footer. -/
structure Tag where
  allocated : Bool
  padded : Bool
  twoZeroes : Nat
  blockSize : Nat
  upper : Nat
deriving DecidableEq

namespace Tag

/-- The bit-fields of a word, from the low bit on. -/
def ofWord (word : Nat) : Tag where
  allocated := word % 2 = 1
  padded := word / 2 % 2 = 1
  twoZeroes := word / 4 % 4
  blockSize := word / 16 % 2 ^ 28
  upper := word / 2 ^ 32 % 2 ^ 32

/-- The word with the given bit-fields, each cut to its width. -/
def toWord (tag : Tag) : Nat :=
  tag.allocated.toNat + 2 * tag.padded.toNat + 4 * (tag.twoZeroes % 4) +
    16 * (tag.blockSize % 2 ^ 28) + 2 ^ 32 * (tag.upper % 2 ^ 32)

theorem decide_bit (bit : Bool) (rest : Nat) :
    decide ((bit.toNat + 2 * rest) % 2 = 1) = bit := by
  cases bit with
  | false => simp
  | true => simp

theorem toWord_lt (tag : Tag) : tag.toWord < 2 ^ 64 := by
  have hallocated := Bool.toNat_lt tag.allocated
  have hpadded := Bool.toNat_lt tag.padded
  unfold toWord
  omega

/-- Reading a word back gives the fields, each cut to its width. -/
@[simp] theorem ofWord_toWord (tag : Tag) :
    ofWord tag.toWord =
      { tag with
        twoZeroes := tag.twoZeroes % 4
        blockSize := tag.blockSize % 2 ^ 28
        upper := tag.upper % 2 ^ 32 } := by
  rcases tag with ⟨allocated, padded, twoZeroes, blockSize, upper⟩
  have hallocated := Bool.toNat_lt allocated
  have hpadded := Bool.toNat_lt padded
  -- the fields above a bit, as one number
  let high := 4 * (blockSize % 2 ^ 28) + 2 ^ 30 * (upper % 2 ^ 32) + twoZeroes % 4
  have hword : toWord ⟨allocated, padded, twoZeroes, blockSize, upper⟩ =
      allocated.toNat + 2 * (padded.toNat + 2 * high) := by
    simp only [toWord, high]
    omega
  have hhalf : (allocated.toNat + 2 * (padded.toNat + 2 * high)) / 2 =
      padded.toNat + 2 * high := by omega
  simp only [ofWord, hword, hhalf, decide_bit, mk.injEq, true_and]
  refine ⟨?_, ?_, ?_⟩ <;> omega

end Tag

/-! ## Heaps -/

/-- The state of the allocator. -/
structure Heap where
  mem : Memory
  heapEnd : Nat
  head : Fin 4 → Nat
  sfErrno : Errno

namespace Heap

/-- The word at an address. -/
def word (s : Heap) (address : Nat) : Nat := s.mem.readWord address

/-- The header or footer at an address. -/
def tag (s : Heap) (address : Nat) : Tag := .ofWord (s.word address)

/-- {lit}`block->next`. -/
def next (s : Heap) (block : Nat) : Nat := s.word (block + 8)

/-- {lit}`block->prev`. -/
def prev (s : Heap) (block : Nat) : Nat := s.word (block + 16)

/-- The state after storing a word. -/
def setWord (s : Heap) (address value : Nat) : Heap :=
  { s with mem := s.mem.writeWord address value }

/-- The state after setting the head of a list. -/
def setHead (s : Heap) (i : Fin 4) (block : Nat) : Heap :=
  { s with head := Function.update s.head i block }

@[simp] theorem heapEnd_setWord (s : Heap) (address value : Nat) :
    (s.setWord address value).heapEnd = s.heapEnd := rfl

@[simp] theorem head_setWord (s : Heap) (address value : Nat) :
    (s.setWord address value).head = s.head := rfl

@[simp] theorem heapEnd_setHead (s : Heap) (i : Fin 4) (block : Nat) :
    (s.setHead i block).heapEnd = s.heapEnd := rfl

@[simp] theorem mem_setHead (s : Heap) (i : Fin 4) (block : Nat) :
    (s.setHead i block).mem = s.mem := rfl

@[simp] theorem word_setHead (s : Heap) (i : Fin 4) (block a : Nat) :
    (s.setHead i block).word a = s.word a := rfl

@[simp] theorem tag_setHead (s : Heap) (i : Fin 4) (block a : Nat) :
    (s.setHead i block).tag a = s.tag a := rfl

@[simp] theorem next_setHead (s : Heap) (i : Fin 4) (block a : Nat) :
    (s.setHead i block).next a = s.next a := rfl

@[simp] theorem prev_setHead (s : Heap) (i : Fin 4) (block a : Nat) :
    (s.setHead i block).prev a = s.prev a := rfl

@[simp] theorem head_setHead_self (s : Heap) (i : Fin 4) (block : Nat) :
    (s.setHead i block).head i = block := Function.update_self ..

/-- A stored word is read back, cut to its width. -/
theorem word_setWord_self (s : Heap) (address value : Nat) :
    (s.setWord address value).word address = value % 2 ^ 64 :=
  Memory.readWord_writeWord ..

/-- A word at the same offset within eight bytes is either the stored one or does
not overlap it. -/
theorem word_setWord_of_ne (s : Heap) {address a : Nat} (value : Nat)
    (halign : address % 8 = a % 8) (hne : address ≠ a) :
    (s.setWord address value).word a = s.word a := by
  apply Memory.readWord_writeWord_of_disjoint
  omega

theorem word_lt (s : Heap) (address : Nat) : s.word address < 2 ^ 64 := Memory.readWord_lt ..

/-- The words after storing one, at addresses aligned like it. -/
theorem word_setWord (s : Heap) {address a value : Nat} (hvalue : value < 2 ^ 64)
    (halign : address % 8 = a % 8) :
    (s.setWord address value).word a = if a = address then value else s.word a := by
  split_ifs with heq
  · rw [heq, word_setWord_self, Nat.mod_eq_of_lt hvalue]
  · exact word_setWord_of_ne s value halign (Ne.symm heq)

@[simp] theorem tag_setWord_self (s : Heap) (address : Nat) (tag : Tag) :
    (s.setWord address tag.toWord).tag address = .ofWord tag.toWord := by
  unfold Heap.tag
  rw [word_setWord_self, Nat.mod_eq_of_lt tag.toWord_lt]

theorem tag_setWord_of_ne (s : Heap) {address a : Nat} (value : Nat)
    (halign : address % 8 = a % 8) (hne : address ≠ a) :
    (s.setWord address value).tag a = s.tag a := by
  unfold Heap.tag
  rw [word_setWord_of_ne s value halign hne]

/-- Tags depend on their word only. -/
theorem tag_congr {s s' : Heap} {w : Nat} (h : s'.word w = s.word w) : s'.tag w = s.tag w :=
  congrArg Tag.ofWord h

-- comparing two tags is not a matter of decoding their words
attribute [irreducible] Heap.tag

/-- Storing the word that is there changes nothing. -/
theorem setWord_eq_self {s : Heap} {address value : Nat} (h : s.word address = value) :
    s.setWord address value = s := by
  rw [← h]
  exact congrArg (fun mem => { s with mem }) (Memory.writeWord_readWord ..)

/-- Setting a head to what it is changes nothing. -/
theorem setHead_eq_self {s : Heap} {i : Fin 4} {block : Nat} (h : s.head i = block) :
    s.setHead i block = s := by
  rw [← h]
  exact congrArg (fun head => { s with head }) (Function.update_eq_self ..)

end Heap

/-! ## Accesses -/

variable (P : Platform)

/-- The word at an address lies in the heap. -/
def InHeap (s : Heap) (address : Nat) : Prop :=
  P.heapStart ≤ address ∧ address + 8 ≤ s.heapEnd

instance (s : Heap) (address : Nat) : Decidable (InHeap P s address) :=
  inferInstanceAs (Decidable (_ ∧ _))

@[simp] theorem inHeap_setWord (s : Heap) (address value a : Nat) :
    InHeap P (s.setWord address value) a ↔ InHeap P s a := Iff.rfl

@[simp] theorem inHeap_setHead (s : Heap) (i : Fin 4) (block a : Nat) :
    InHeap P (s.setHead i block) a ↔ InHeap P s a := Iff.rfl

/-- Reading a word. -/
def load (s : Heap) (address : Nat) : Except Stop Nat :=
  if InHeap P s address then .ok (s.word address) else .error .segfault

/-- Writing a word. -/
def store (s : Heap) (address value : Nat) : Except Stop Heap :=
  if InHeap P s address then .ok (s.setWord address value) else .error .segfault

/-- Reading a header or footer. -/
def readTag (s : Heap) (address : Nat) : Except Stop Tag :=
  if InHeap P s address then .ok (s.tag address) else .error .segfault

/-- Assigning to bit-fields of a header or footer. -/
def writeTag (s : Heap) (address : Nat) (f : Tag → Tag) : Except Stop Heap :=
  if InHeap P s address then .ok (s.setWord address (f (s.tag address)).toWord)
  else .error .segfault

variable {P} {s : Heap} {address : Nat}

theorem load_eq (h : InHeap P s address) : load P s address = .ok (s.word address) := if_pos h

theorem store_eq (h : InHeap P s address) (value : Nat) :
    store P s address value = .ok (s.setWord address value) := if_pos h

theorem readTag_eq (h : InHeap P s address) : readTag P s address = .ok (s.tag address) :=
  if_pos h

theorem writeTag_eq (h : InHeap P s address) (f : Tag → Tag) :
    writeTag P s address f = .ok (s.setWord address (f (s.tag address)).toWord) := if_pos h

/-! ## The segregated lists -/

/-- {lit}`seg_free_list[i].min`. -/
def listMin : Fin 4 → Nat := ![32, 129, 513, 2049]

/-- {lit}`seg_free_list[i].max`; the {lit}`-1` of the last list is stored in a
{lit}`uint16_t`. -/
def listMax : Fin 4 → Nat := ![128, 512, 2048, 65535]

/-- The loop that looks for the first list whose maximum is not below {lit}`size`.
It would run off the array for a size above the last maximum. -/
def listIndex (size : Nat) : Except Stop (Fin 4) :=
  match (List.finRange 4).find? fun i => ¬ listMax i < size with
  | some i => .ok i
  | none => .error .segfault

/-! ## Growing the heap -/

variable (P)

/-- {lit}`sf_sbrk`: the old heap end, unless the page limit is reached. -/
def sfSbrk (s : Heap) : Option (Heap × Nat) :=
  if s.heapEnd + PAGE_SZ ≤ P.heapStart + PAGE_SZ * P.pageLimit then
    some ({ s with heapEnd := s.heapEnd + PAGE_SZ }, s.heapEnd)
  else none

end SystemFundamentals.Sfmm
