import SystemFundamentals.Library.LinkedList
import SystemFundamentals.Sfmm.Alloc

/-!
# Layouts

A heap state represents a list of blocks that tile the heap and four lists of the
free ones.  The calls of the allocator work on one stretch of the heap at a time:
they take blocks out of the tiling, write freely where these blocks were, and put
new blocks in.  A layout with a gap is a state between these steps.

Main results:

- Theorem {lit}`Tiles.disjoint`: the blocks of a tiling do not overlap.
- Theorem {lit}`listIndex_eq`: the list loop finds the class of a size.
-/

namespace SystemFundamentals.Sfmm

open Library Library.LinkedList

/-! ## Blocks and tilings -/

/-- A block: the address of its header, its size in units of 16 bytes, and its
allocated bit. -/
structure Block where
  addr : Nat
  units : Nat
  allocated : Bool
deriving DecidableEq

/-- The address behind a block. -/
def Block.stop (block : Block) : Nat := block.addr + 16 * block.units

/-- The blocks follow each other from {lit}`start` to {lit}`stop`; the smallest block
has two units. -/
def Tiles : Nat → List Block → Nat → Prop
  | start, [], stop => start = stop
  | start, block :: blocks, stop =>
      block.addr = start ∧ 2 ≤ block.units ∧ Tiles block.stop blocks stop

instance decidableTiles : (start : Nat) → (blocks : List Block) → (stop : Nat) →
    Decidable (Tiles start blocks stop)
  | start, [], stop => inferInstanceAs (Decidable (start = stop))
  | start, block :: blocks, stop =>
      have := decidableTiles block.stop blocks stop
      inferInstanceAs (Decidable (block.addr = start ∧ 2 ≤ block.units ∧
        Tiles block.stop blocks stop))

variable {start stop middle : Nat} {front back blocks : List Block} {block block' : Block}

/-- A tiling splits at any block. -/
theorem tiles_append :
    Tiles start (front ++ back) stop ↔ ∃ middle, Tiles start front middle ∧
      Tiles middle back stop := by
  induction front generalizing start with
  | nil =>
      constructor
      · intro h
        exact ⟨start, rfl, h⟩
      · intro h
        rcases h with ⟨middle, rfl, hback⟩
        exact hback
  | cons block front ih =>
      constructor
      · intro h
        rcases h with ⟨haddr, hunits, hrest⟩
        rcases ih.mp hrest with ⟨middle, hfront, hback⟩
        exact ⟨middle, ⟨haddr, hunits, hfront⟩, hback⟩
      · intro h
        rcases h with ⟨middle, ⟨haddr, hunits, hfront⟩, hback⟩
        exact ⟨haddr, hunits, ih.mpr ⟨middle, hfront, hback⟩⟩

theorem Tiles.le (h : Tiles start blocks stop) : start ≤ stop := by
  induction blocks generalizing start with
  | nil => exact h.le
  | cons block blocks ih =>
      have hrest := ih h.2.2
      have hstop : block.stop = start + 16 * block.units := by rw [Block.stop, h.1]
      omega

/-- Where a block of a tiling lies. -/
theorem Tiles.bounds (h : Tiles start blocks stop) (hmem : block ∈ blocks) :
    start ≤ block.addr ∧ block.stop ≤ stop ∧ 2 ≤ block.units ∧
      block.addr % 16 = start % 16 := by
  induction blocks generalizing start with
  | nil => exact absurd hmem List.not_mem_nil
  | cons b blocks ih =>
      rcases h with ⟨haddr, hunits, hrest⟩
      have hle := hrest.le
      rcases List.mem_cons.mp hmem with rfl | hmem
      · exact ⟨haddr.ge, hle, hunits, by rw [haddr]⟩
      · have hbounds := ih hrest hmem
        have hstop : b.stop = start + 16 * b.units := by rw [Block.stop, haddr]
        omega

theorem Tiles.stop_mod (h : Tiles start blocks stop) : stop % 16 = start % 16 := by
  induction blocks generalizing start with
  | nil => rw [show start = stop from h]
  | cons block blocks ih =>
      rw [ih h.2.2, Block.stop, h.1]
      omega

/-- Two blocks of a tiling are the same or do not overlap. -/
theorem Tiles.disjoint (h : Tiles start blocks stop) (hblock : block ∈ blocks)
    (hblock' : block' ∈ blocks) :
    block = block' ∨ block.stop ≤ block'.addr ∨ block'.stop ≤ block.addr := by
  induction blocks generalizing start with
  | nil => exact absurd hblock List.not_mem_nil
  | cons b blocks ih =>
      rcases h with ⟨-, -, hrest⟩
      rcases List.mem_cons.mp hblock with rfl | hmem
      · rcases List.mem_cons.mp hblock' with rfl | hmem'
        · exact Or.inl rfl
        · exact Or.inr (Or.inl (hrest.bounds hmem').1)
      · rcases List.mem_cons.mp hblock' with rfl | hmem'
        · exact Or.inr (Or.inr (hrest.bounds hmem).1)
        · exact ih hrest hmem hmem'

/-- A tiling that goes on past {lit}`start` starts with a block there. -/
theorem Tiles.exists_cons (h : Tiles start blocks stop) (hlt : start < stop) :
    ∃ block rest, blocks = block :: rest ∧ block.addr = start := by
  cases blocks with
  | nil => exact absurd (show start = stop from h) hlt.ne
  | cons block rest => exact ⟨block, rest, rfl, h.1⟩

/-! ## Size classes -/

/-- The list for a size in units of 16 bytes. -/
def classOf (units : Nat) : Fin 4 :=
  if units * 16 ≤ 128 then 0
  else if units * 16 ≤ 512 then 1
  else if units * 16 ≤ 2048 then 2
  else 3

/-- The list loop finds the class of a size, as long as the heap is not too large for
the last list. -/
theorem listIndex_eq {units : Nat} (h : units * 16 ≤ 65535) :
    listIndex (units * 16) = .ok (classOf units) := by
  have hlists : List.finRange 4 = [0, 1, 2, 3] := by decide
  unfold listIndex classOf
  rw [hlists]
  by_cases hzero : units * 16 ≤ 128
  · simp [List.find?, listMax, hzero]
  by_cases hone : units * 16 ≤ 512
  · simp [List.find?, listMax, hzero, hone]
  by_cases htwo : units * 16 ≤ 2048
  · simp [List.find?, listMax, hzero, hone, htwo]
  · simp [List.find?, listMax, hzero, hone, htwo, h]

/-! ## Tags in memory -/

/-- Header and footer of a block agree with it on the size and the allocated bit. -/
structure TagsAgree (s : Heap) (block : Block) : Prop where
  headerAllocated : (s.tag block.addr).allocated = block.allocated
  headerSize : (s.tag block.addr).blockSize = block.units
  footerAllocated : (s.tag (block.stop - 8)).allocated = block.allocated
  footerSize : (s.tag (block.stop - 8)).blockSize = block.units

instance (s : Heap) (block : Block) : Decidable (TagsAgree s block) :=
  decidable_of_iff ((s.tag block.addr).allocated = block.allocated ∧
      (s.tag block.addr).blockSize = block.units ∧
      (s.tag (block.stop - 8)).allocated = block.allocated ∧
      (s.tag (block.stop - 8)).blockSize = block.units)
    ⟨fun h => ⟨h.1, h.2.1, h.2.2.1, h.2.2.2⟩, fun h => ⟨h.1, h.2, h.3, h.4⟩⟩

/-- The tags of an allocated block pass the checks of {lit}`sf_free`: the padded bits
agree, and they are set exactly when the requested size does not fill the
block. -/
structure Consistent (s : Heap) (block : Block) : Prop where
  padded : (s.tag (block.stop - 8)).padded = (s.tag block.addr).padded
  fits : (s.tag (block.stop - 8)).upper + 16 ≤ block.units * 16
  padded_iff : (s.tag block.addr).padded = true ↔
    (s.tag (block.stop - 8)).upper + 16 ≠ block.units * 16

instance (s : Heap) (block : Block) : Decidable (Consistent s block) :=
  decidable_of_iff ((s.tag (block.stop - 8)).padded = (s.tag block.addr).padded ∧
      (s.tag (block.stop - 8)).upper + 16 ≤ block.units * 16 ∧
      ((s.tag block.addr).padded = true ↔
        (s.tag (block.stop - 8)).upper + 16 ≠ block.units * 16))
    ⟨fun h => ⟨h.1, h.2.1, h.2.2⟩, fun h => ⟨h.1, h.2, h.3⟩⟩

/-- They record a request of {lit}`size` bytes. -/
structure Records (s : Heap) (block : Block) (size : Nat) : Prop extends
    Consistent s block where
  requested : (s.tag (block.stop - 8)).upper = size

/-- A recorded request fits in its block. -/
theorem Records.room {s : Heap} {size : Nat} (h : Records s block size) :
    size + 16 ≤ block.units * 16 := by
  rw [← h.requested]
  exact h.fits

/-- The tags of a block of a well-formed heap.  Whether those of the allocated blocks
pass the checks of {lit}`sf_free` is left to {lit}`checked`. -/
structure Tagged (checked : Prop) (s : Heap) (block : Block) : Prop extends
    TagsAgree s block where
  consistent : checked → block.allocated = true → Consistent s block

/-- The tags of an allocated block that holds a request of {lit}`size` bytes.  The padded
bit tells whether the request leaves room. -/
theorem tagged_of_request {checked : Prop} {s : Heap} {lo units size : Nat} {padding : Bool}
    (hheader : (s.tag lo).allocated = true ∧ (s.tag lo).blockSize = units ∧
      (s.tag lo).padded = padding)
    (hfooter : (s.tag (lo + 16 * units - 8)).allocated = true ∧
      (s.tag (lo + 16 * units - 8)).blockSize = units ∧
      (s.tag (lo + 16 * units - 8)).padded = padding ∧
      (s.tag (lo + 16 * units - 8)).upper = size)
    (hsize : size + 16 ≤ units * 16) (hpadding : padding = true ↔ size + 16 ≠ units * 16) :
    Tagged checked s ⟨lo, units, true⟩ ∧ Records s ⟨lo, units, true⟩ size := by
  have hstop : Block.stop ⟨lo, units, true⟩ = lo + 16 * units := rfl
  have hrecords : Records s ⟨lo, units, true⟩ size := by
    refine ⟨⟨?_, ?_, ?_⟩, ?_⟩
    · rw [hstop, hfooter.2.2.1]
      exact hheader.2.2.symm
    · rw [hstop, hfooter.2.2.2]
      exact hsize
    · rw [hstop, hfooter.2.2.2, hheader.2.2]
      exact hpadding
    · rw [hstop]
      exact hfooter.2.2.2
  refine ⟨⟨⟨hheader.1, hheader.2.1, ?_, ?_⟩, fun _ _ => hrecords.toConsistent⟩, hrecords⟩
  · rw [hstop]
    exact hfooter.1
  · rw [hstop]
    exact hfooter.2.1

/-- Tags depend on two words only. -/
theorem TagsAgree.congr {s s' : Heap} (h : TagsAgree s block)
    (hheader : s'.tag block.addr = s.tag block.addr)
    (hfooter : s'.tag (block.stop - 8) = s.tag (block.stop - 8)) : TagsAgree s' block := by
  refine ⟨?_, ?_, ?_, ?_⟩
  · rw [hheader]
    exact h.headerAllocated
  · rw [hheader]
    exact h.headerSize
  · rw [hfooter]
    exact h.footerAllocated
  · rw [hfooter]
    exact h.footerSize

theorem Consistent.congr {s s' : Heap} (h : Consistent s block)
    (hheader : s'.tag block.addr = s.tag block.addr)
    (hfooter : s'.tag (block.stop - 8) = s.tag (block.stop - 8)) : Consistent s' block := by
  refine ⟨?_, ?_, ?_⟩
  · rw [hheader, hfooter]
    exact h.padded
  · rw [hfooter]
    exact h.fits
  · rw [hheader, hfooter]
    exact h.padded_iff

theorem Records.congr {s s' : Heap} {size : Nat} (h : Records s block size)
    (hheader : s'.tag block.addr = s.tag block.addr)
    (hfooter : s'.tag (block.stop - 8) = s.tag (block.stop - 8)) : Records s' block size :=
  ⟨h.toConsistent.congr hheader hfooter, by rw [hfooter]; exact h.requested⟩

theorem Tagged.congr {checked : Prop} {s s' : Heap} (h : Tagged checked s block)
    (hheader : s'.tag block.addr = s.tag block.addr)
    (hfooter : s'.tag (block.stop - 8) = s.tag (block.stop - 8)) : Tagged checked s' block :=
  ⟨h.toTagsAgree.congr hheader hfooter, fun hchecked hallocated =>
    (h.consistent hchecked hallocated).congr hheader hfooter⟩

end SystemFundamentals.Sfmm
