import SystemFundamentals.Sfmm.Layout

/-!
# Layouts with a gap

The state of the allocator while a call works on one stretch of the heap.  Outside
the stretch the heap is well formed, and some of the allocated blocks there are
known to hold the bytes they held when the call started.

Main results:

- Theorem {lit}`Gapped.of_gap_change`: what happens inside the gap does not matter.
- Theorems {lit}`Gapped.move` and {lit}`Gapped.close`: where an empty gap lies does not
  matter.
- Theorem {lit}`Gapped.unlink`: unlinking a block of the gap takes it out of its list.
- Theorem {lit}`Gapped.insert`: a free block that fills the gap and is pushed to the
  list of its size closes the gap.
-/

namespace SystemFundamentals.Sfmm

open Library Library.LinkedList

/-- Blocks tile the heap up to {lit}`lo` and from {lit}`hi` on.  The blocks in
{lit}`pending` lie in the gap between and are still in a list.  The lists hold
exactly the free blocks, each in the list of its size.  The blocks that {lit}`keep`
tells hold the bytes of {lit}`orig`. -/
structure Gapped (P : Platform) (checked : Prop) (orig : Memory) (keep : Block → Prop)
    (s : Heap) (front : List Block) (lo hi : Nat) (back pending : List Block)
    (lists : Fin 4 → List Nat) : Prop where
  frontTiles : Tiles P.heapStart front lo
  backTiles : Tiles hi back s.heapEnd
  gap_le : lo ≤ hi
  gap_mod : hi % 16 = lo % 16
  pages : ∃ k ≤ P.pageLimit, s.heapEnd = P.heapStart + PAGE_SZ * k
  tagged : ∀ block ∈ front ++ back, Tagged checked s block
  pendingGap : ∀ block ∈ pending, lo ≤ block.addr ∧ block.stop ≤ hi ∧ 2 ≤ block.units ∧
    block.addr % 16 = lo % 16
  linked : ∀ i, IsList s.next s.prev 0 (s.head i) (lists i)
  listed : ∀ i a, a ∈ lists i ↔ ∃ block ∈ front ++ pending ++ back,
    block.allocated = false ∧ block.addr = a ∧ classOf block.units = i
  keepMem : ∀ block, keep block → block ∈ front ++ back ∧ block.allocated = true
  kept : ∀ block, keep block → ∀ a, block.addr ≤ a → a < block.stop → s.mem a = orig a

namespace Gapped

variable {P : Platform} {checked : Prop} {orig : Memory} {keep : Block → Prop} {s s' : Heap}
  {front back rest pending : List Block} {lo hi : Nat} {lists : Fin 4 → List Nat}

/-! ## Where things lie -/

theorem heapEnd_le (h : Gapped P checked orig keep s front lo hi back pending lists) :
    s.heapEnd ≤ P.heapStart + PAGE_SZ * P.pageLimit := by
  rcases h.pages with ⟨k, hk, heq⟩
  rw [heq]
  exact Nat.add_le_add_left (Nat.mul_le_mul_left _ hk) _

/-- A block outside the gap. -/
theorem outside (h : Gapped P checked orig keep s front lo hi back pending lists) {block : Block}
    (hblock : block ∈ front ++ back) :
    P.heapStart ≤ block.addr ∧ block.stop ≤ s.heapEnd ∧ 2 ≤ block.units ∧
      block.addr % 16 = P.heapStart % 16 ∧ (block.stop ≤ lo ∨ hi ≤ block.addr) := by
  have hlo := h.frontTiles.le
  have hhi := h.backTiles.le
  have hgap := h.gap_le
  have hmod := h.frontTiles.stop_mod
  have hmod' := h.gap_mod
  rcases List.mem_append.mp hblock with hmem | hmem
  · have hbounds := h.frontTiles.bounds hmem
    omega
  · have hbounds := h.backTiles.bounds hmem
    omega

/-- Two blocks outside the gap are the same or do not overlap. -/
theorem disjoint (h : Gapped P checked orig keep s front lo hi back pending lists)
    {block block' : Block} (hblock : block ∈ front ++ back)
    (hblock' : block' ∈ front ++ back) :
    block = block' ∨ block.stop ≤ block'.addr ∨ block'.stop ≤ block.addr := by
  have hgap := h.gap_le
  rcases List.mem_append.mp hblock with hmem | hmem
  · rcases List.mem_append.mp hblock' with hmem' | hmem'
    · exact h.frontTiles.disjoint hmem hmem'
    · have hbounds := h.frontTiles.bounds hmem
      have hbounds' := h.backTiles.bounds hmem'
      omega
  · rcases List.mem_append.mp hblock' with hmem' | hmem'
    · have hbounds := h.backTiles.bounds hmem
      have hbounds' := h.frontTiles.bounds hmem'
      omega
    · exact h.backTiles.disjoint hmem hmem'

/-- A listed address is that of a free block, outside the gap or pending. -/
theorem listed_cases (h : Gapped P checked orig keep s front lo hi back pending lists)
    {i : Fin 4} {a : Nat} (ha : a ∈ lists i) :
    (∃ block ∈ front ++ back, block.allocated = false ∧ block.addr = a ∧
        classOf block.units = i) ∨
      ∃ block ∈ pending, block.allocated = false ∧ block.addr = a ∧
        classOf block.units = i := by
  rcases (h.listed i a).mp ha with ⟨block, hmem, hblock⟩
  rw [List.append_assoc, List.mem_append, List.mem_append] at hmem
  rcases hmem with hmem | hmem | hmem
  · exact Or.inl ⟨block, List.mem_append_left _ hmem, hblock⟩
  · exact Or.inr ⟨block, hmem, hblock⟩
  · exact Or.inl ⟨block, List.mem_append_right _ hmem, hblock⟩

/-- The smallest block at a listed address lies in the heap. -/
theorem listed_bounds (h : Gapped P checked orig keep s front lo hi back pending lists)
    {i : Fin 4} {a : Nat} (ha : a ∈ lists i) :
    P.heapStart ≤ a ∧ a + 32 ≤ s.heapEnd ∧ a % 16 = P.heapStart % 16 := by
  have hlo := h.frontTiles.le
  have hhi := h.backTiles.le
  have hmod := h.frontTiles.stop_mod
  rcases h.listed_cases ha with ⟨block, hmem, -, rfl, -⟩ | ⟨block, hmem, -, rfl, -⟩
  · have hbounds := h.outside hmem
    unfold Block.stop at hbounds
    omega
  · have hbounds := h.pendingGap block hmem
    unfold Block.stop at hbounds
    omega

/-- The link words at a listed address do not meet a block outside the gap, but for
the link words of that block itself when it is free. -/
theorem links_apart (h : Gapped P checked orig keep s front lo hi back pending lists)
    {i : Fin 4} {a : Nat} (ha : a ∈ lists i) {block : Block}
    (hblock : block ∈ front ++ back) :
    a + 24 ≤ block.addr ∨ block.stop ≤ a + 8 ∨
      block.allocated = false ∧ block.addr = a ∧ a + 32 ≤ block.stop := by
  have hbounds := h.outside hblock
  rcases h.listed_cases ha with ⟨block', hmem, hfree, rfl, -⟩ | ⟨block', hmem, -, rfl, -⟩
  · have hbounds' := h.outside hmem
    rcases h.disjoint hblock hmem with rfl | hdisjoint
    · unfold Block.stop at hbounds ⊢
      refine Or.inr (Or.inr ⟨hfree, rfl, ?_⟩)
      omega
    · unfold Block.stop at *
      omega
  · have hbounds' := h.pendingGap block' hmem
    unfold Block.stop at *
    omega

/-- The link words at a listed address do not meet a kept block. -/
theorem links_apart_kept (h : Gapped P checked orig keep s front lo hi back pending lists)
    {i : Fin 4} {a : Nat} (ha : a ∈ lists i) {block : Block} (hkeep : keep block) :
    a + 24 ≤ block.addr ∨ block.stop ≤ a + 8 := by
  have hblock := h.keepMem block hkeep
  rcases h.links_apart ha hblock.1 with hapart | hapart | ⟨hfree, -⟩
  · exact Or.inl hapart
  · exact Or.inr hapart
  · rw [hblock.2] at hfree
    exact absurd hfree (by simp)

/-- Two lists have no address in common. -/
theorem list_unique (h : Gapped P checked orig keep s front lo hi back pending lists)
    (hpending : pending.length ≤ 1) {i j : Fin 4} {a : Nat} (hmemI : a ∈ lists i)
    (hmemJ : a ∈ lists j) : i = j := by
  have hone {b b' : Block} (hb : b ∈ pending) (hb' : b' ∈ pending) : b = b' := by
    match pending, hpending with
    | [x], _ => rw [List.mem_singleton.mp hb, List.mem_singleton.mp hb']
  rcases h.listed_cases hmemI with ⟨b, hb, -, rfl, rfl⟩ | ⟨b, hb, -, rfl, rfl⟩
  · rcases h.listed_cases hmemJ with ⟨b', hb', -, haddr, rfl⟩ | ⟨b', hb', -, haddr, rfl⟩
    · have hbounds := h.outside hb
      have hbounds' := h.outside hb'
      rcases h.disjoint hb hb' with rfl | hdisjoint
      · rfl
      · unfold Block.stop at *
        omega
    · have hbounds := h.outside hb
      have hbounds' := h.pendingGap b' hb'
      unfold Block.stop at *
      omega
  · rcases h.listed_cases hmemJ with ⟨b', hb', -, haddr, rfl⟩ | ⟨b', hb', -, -, rfl⟩
    · have hbounds := h.pendingGap b hb
      have hbounds' := h.outside hb'
      unfold Block.stop at *
      omega
    · rw [hone hb hb']

/-! ## Changes inside the gap -/

/-- A change inside the gap that spares the links of the pending blocks. -/
theorem of_gap_change (h : Gapped P checked orig keep s front lo hi back pending lists)
    (hend : s'.heapEnd = s.heapEnd) (hhead : s'.head = s.head)
    (hmem : ∀ a, (a < lo ∨ hi ≤ a ∨
      ∃ block ∈ pending, block.addr + 8 ≤ a ∧ a < block.addr + 24) → s'.mem a = s.mem a) :
    Gapped P checked orig keep s' front lo hi back pending lists := by
  have hword (w : Nat) (hw : w + 8 ≤ lo ∨ hi ≤ w) : s'.word w = s.word w := by
    apply Memory.readWord_congr
    intro i hi
    apply hmem
    omega
  have htag {block : Block} (hblock : block ∈ front ++ back) :
      s'.tag block.addr = s.tag block.addr ∧
        s'.tag (block.stop - 8) = s.tag (block.stop - 8) := by
    have hbounds := h.outside hblock
    unfold Heap.tag
    rw [hword, hword]
    · exact ⟨rfl, rfl⟩
    all_goals unfold Block.stop at *; omega
  have hlinks {i : Fin 4} {a : Nat} (ha : a ∈ lists i) :
      s'.next a = s.next a ∧ s'.prev a = s.prev a := by
    rcases h.listed_cases ha with ⟨block, hblock, -, rfl, -⟩ | ⟨block, hblock, -, rfl, -⟩
    · have hbounds := h.outside hblock
      unfold Heap.next Heap.prev
      rw [hword, hword]
      · exact ⟨rfl, rfl⟩
      all_goals unfold Block.stop at *; omega
    · constructor
      · apply Memory.readWord_congr
        intro i hi
        apply hmem
        exact Or.inr (Or.inr ⟨block, hblock, by omega, by omega⟩)
      · apply Memory.readWord_congr
        intro i hi
        apply hmem
        exact Or.inr (Or.inr ⟨block, hblock, by omega, by omega⟩)
  refine ⟨h.frontTiles, by rw [hend]; exact h.backTiles, h.gap_le, h.gap_mod,
    by rw [hend]; exact h.pages, ?_, h.pendingGap, ?_, h.listed, h.keepMem, ?_⟩
  · intro block hblock
    exact (h.tagged block hblock).congr (htag hblock).1 (htag hblock).2
  · intro i
    rw [hhead]
    apply (h.linked i).congr
    · intro a ha
      exact (hlinks ha).1
    · intro a ha
      exact (hlinks ha).2
  · intro block hkeep a hlow hhigh
    have hbounds := h.outside (h.keepMem block hkeep).1
    rw [← h.kept block hkeep a hlow hhigh]
    apply hmem
    unfold Block.stop at *
    omega

/-- A store inside the gap. -/
theorem setWord (h : Gapped P checked orig keep s front lo hi back [] lists) {address : Nat}
    (value : Nat) (hlow : lo ≤ address) (hhigh : address + 8 ≤ hi) :
    Gapped P checked orig keep (s.setWord address value) front lo hi back [] lists := by
  have hend : (s.setWord address value).heapEnd = s.heapEnd := rfl
  apply h.of_gap_change hend rfl
  intro a ha
  apply Memory.writeWord_of_outside
  rcases ha with ha | ha | ⟨block, hblock, -⟩
  · exact Or.inl (by omega)
  · exact Or.inr (by omega)
  · exact absurd hblock List.not_mem_nil

/-- A store inside the gap that spares the links of the pending block. -/
theorem setWord_pending {block : Block}
    (h : Gapped P checked orig keep s front lo hi back [block] lists) {address : Nat} (value : Nat)
    (hlow : lo ≤ address) (hhigh : address + 8 ≤ hi)
    (hapart : address ≤ block.addr ∨ block.addr + 24 ≤ address) :
    Gapped P checked orig keep (s.setWord address value) front lo hi back [block] lists := by
  have hend : (s.setWord address value).heapEnd = s.heapEnd := rfl
  apply h.of_gap_change hend rfl
  intro a ha
  apply Memory.writeWord_of_outside
  rcases ha with ha | ha | ⟨block', hblock', hafter, hbefore⟩
  · exact Or.inl (by omega)
  · exact Or.inr (by omega)
  · rw [List.mem_singleton.mp hblock'] at hafter hbefore
    omega

/-! ## Moving an empty gap -/

/-- An empty gap can be anywhere between the blocks. -/
theorem move (h : Gapped P checked orig keep s (front ++ back) lo lo rest [] lists) :
    ∃ middle, Gapped P checked orig keep s front middle middle (back ++ rest) [] lists := by
  rcases tiles_append.mp h.frontTiles with ⟨middle, hfront, hback⟩
  have hsame : front ++ back ++ rest = front ++ (back ++ rest) := List.append_assoc ..
  refine ⟨middle, hfront, tiles_append.mpr ⟨lo, hback, h.backTiles⟩, le_rfl, rfl, h.pages, ?_,
    by simp, h.linked, ?_, ?_, h.kept⟩
  · rw [← hsame]
    exact h.tagged
  · intro i a
    rw [h.listed, List.append_nil, List.append_nil, hsame]
  · rw [← hsame]
    exact h.keepMem

/-- A layout without a gap is one with the gap at the end of the heap. -/
theorem close (h : Gapped P checked orig keep s front lo lo back [] lists) :
    Gapped P checked orig keep s (front ++ back) s.heapEnd s.heapEnd [] [] lists := by
  refine ⟨tiles_append.mpr ⟨lo, h.frontTiles, h.backTiles⟩, rfl, le_rfl, rfl, h.pages, ?_,
    by simp, h.linked, ?_, ?_, h.kept⟩
  · rw [List.append_nil]
    exact h.tagged
  · intro i a
    rw [h.listed, List.append_nil, List.append_nil, List.append_nil]
  · rw [List.append_nil]
    exact h.keepMem

/-! ## Taking blocks out of the tiling -/

/-- An allocated block among others is none of the free ones. -/
theorem exists_free_insert {block : Block} (hallocated : block.allocated = true)
    (Q : Block → Prop) :
    (∃ b ∈ front ++ block :: back, b.allocated = false ∧ Q b) ↔
      ∃ b ∈ front ++ back, b.allocated = false ∧ Q b := by
  constructor
  · intro h
    rcases h with ⟨b, hmem, hfree, hQ⟩
    refine ⟨b, ?_, hfree, hQ⟩
    rcases List.mem_append.mp hmem with hmem | hmem
    · exact List.mem_append_left _ hmem
    · rcases List.mem_cons.mp hmem with rfl | hmem
      · rw [hallocated] at hfree
        exact absurd hfree (by simp)
      · exact List.mem_append_right _ hmem
  · intro h
    rcases h with ⟨b, hmem, hb⟩
    refine ⟨b, ?_, hb⟩
    rcases List.mem_append.mp hmem with hmem | hmem
    · exact List.mem_append_left _ hmem
    · exact List.mem_append_right _ (List.mem_cons_of_mem _ hmem)

/-- The gap takes in the free block behind it. -/
theorem takeBack {block : Block}
    (h : Gapped P checked orig keep s front lo hi (block :: back) [] lists)
    (hfree : block.allocated = false) :
    Gapped P checked orig keep s front lo block.stop back [block] lists := by
  rcases h.backTiles with ⟨haddr, hunits, hrest⟩
  have hgap := h.gap_le
  have hmod := h.gap_mod
  have hstop : block.stop = hi + 16 * block.units := by rw [Block.stop, haddr]
  refine ⟨h.frontTiles, hrest, by omega, by omega, h.pages, ?_, ?_, h.linked, ?_, ?_,
    h.kept⟩
  · intro b hb
    apply h.tagged
    simp only [List.mem_append, List.mem_cons] at hb ⊢
    exact hb.imp_right Or.inr
  · intro b hb
    rw [List.mem_singleton.mp hb]
    omega
  · intro i a
    rw [h.listed]
    simp
  · intro b hb
    have hold := h.keepMem b hb
    refine ⟨?_, hold.2⟩
    have hne : b ≠ block := by
      intro heq
      rw [heq, hfree] at hold
      exact absurd hold.2 (by simp)
    simpa [hne] using hold.1

/-- The gap takes in an allocated block behind it that is not kept. -/
theorem takeAllocated {block : Block}
    (h : Gapped P checked orig keep s front lo hi (block :: back) [] lists)
    (hallocated : block.allocated = true) (hkeep : ¬ keep block) :
    Gapped P checked orig keep s front lo block.stop back [] lists := by
  rcases h.backTiles with ⟨haddr, hunits, hrest⟩
  have hgap := h.gap_le
  have hmod := h.gap_mod
  have hstop : block.stop = hi + 16 * block.units := by rw [Block.stop, haddr]
  refine ⟨h.frontTiles, hrest, by omega, by omega, h.pages, ?_, by simp, h.linked, ?_, ?_,
    h.kept⟩
  · intro b hb
    apply h.tagged
    simp only [List.mem_append, List.mem_cons] at hb ⊢
    exact hb.imp_right Or.inr
  · intro i a
    rw [h.listed, List.append_nil]
    simpa using exists_free_insert hallocated _
  · intro b hb
    have hold := h.keepMem b hb
    refine ⟨?_, hold.2⟩
    have hne : b ≠ block := by
      intro heq
      exact hkeep (heq ▸ hb)
    simpa [hne] using hold.1

/-- The gap takes in the free block in front of it. -/
theorem takeFront {block : Block}
    (h : Gapped P checked orig keep s (front ++ [block]) lo hi back [] lists)
    (hfree : block.allocated = false) :
    Gapped P checked orig keep s front block.addr hi back [block] lists := by
  rcases tiles_append.mp h.frontTiles with ⟨middle, hfront, haddr, hunits, hstop⟩
  have hgap := h.gap_le
  have hmod := h.gap_mod
  have hstop' : block.addr + 16 * block.units = lo := hstop
  refine ⟨by rw [haddr]; exact hfront, h.backTiles, by omega, by omega, h.pages, ?_, ?_,
    h.linked, ?_, ?_, h.kept⟩
  · intro b hb
    apply h.tagged
    simp only [List.mem_append, List.mem_cons] at hb ⊢
    exact hb.imp_left Or.inl
  · intro b hb
    rw [List.mem_singleton.mp hb]
    unfold Block.stop
    omega
  · intro i a
    rw [h.listed]
    simp
  · intro b hb
    have hold := h.keepMem b hb
    refine ⟨?_, hold.2⟩
    have hne : b ≠ block := by
      intro heq
      rw [heq, hfree] at hold
      exact absurd hold.2 (by simp)
    simpa [hne] using hold.1

end Gapped

/-! ## Unlinking -/

/-- The state after the forward link to a block of list {lit}`i`, or the head, has been
redirected to its successor. -/
def forwarded (s : Heap) (i : Fin 4) (block : Nat) : Heap :=
  if s.prev block = 0 then s.setHead i (s.next block)
  else s.setWord (s.prev block + 8) (s.next block)

/-- The state after a block has been unlinked from list {lit}`i`. -/
def unlinked (s : Heap) (i : Fin 4) (block : Nat) : Heap :=
  if s.next block = 0 then forwarded s i block
  else (forwarded s i block).setWord (s.next block + 16) (s.prev block)

@[simp] theorem heapEnd_forwarded (s : Heap) (i : Fin 4) (block : Nat) :
    (forwarded s i block).heapEnd = s.heapEnd := by
  unfold forwarded
  split_ifs <;> rfl

@[simp] theorem heapEnd_unlinked (s : Heap) (i : Fin 4) (block : Nat) :
    (unlinked s i block).heapEnd = s.heapEnd := by
  unfold unlinked forwarded
  split_ifs <;> rfl

theorem head_unlinked (s : Heap) (i : Fin 4) (block : Nat) :
    (unlinked s i block).head =
      Function.update s.head i (unlinkHead s.next s.prev 0 (s.head i) block) := by
  unfold unlinked forwarded unlinkHead
  split_ifs <;> simp [Heap.setHead]

/-- Unlinking changes the forward link of the predecessor and the backward link of
the successor. -/
theorem mem_unlinked (s : Heap) (i : Fin 4) {block a : Nat}
    (hprev : s.prev block ≠ 0 → a < s.prev block + 8 ∨ s.prev block + 16 ≤ a)
    (hnext : s.next block ≠ 0 → a < s.next block + 16 ∨ s.next block + 24 ≤ a) :
    (unlinked s i block).mem a = s.mem a := by
  have hstep : (forwarded s i block).mem a = s.mem a := by
    unfold forwarded
    split_ifs with hzero
    · rfl
    · exact Memory.writeWord_of_outside _ (by have := hprev hzero; omega)
  unfold unlinked
  split_ifs with hnextZero
  · exact hstep
  · rw [← hstep]
    exact Memory.writeWord_of_outside _ (by have := hnext hnextZero; omega)

/-- The words after unlinking, at addresses aligned like the links. -/
theorem word_unlinked (s : Heap) (i : Fin 4) {block w : Nat}
    (hprev : s.prev block ≠ 0 → s.prev block % 8 = w % 8)
    (hnext : s.next block ≠ 0 → s.next block % 8 = w % 8)
    (hne : s.prev block ≠ 0 → s.next block ≠ 0 → s.prev block + 8 ≠ s.next block + 16) :
    (unlinked s i block).word w =
      if s.prev block ≠ 0 ∧ w = s.prev block + 8 then s.next block
      else if s.next block ≠ 0 ∧ w = s.next block + 16 then s.prev block
      else s.word w := by
  have hnextLt : s.next block < 2 ^ 64 := s.word_lt _
  have hprevLt : s.prev block < 2 ^ 64 := s.word_lt _
  unfold unlinked forwarded
  by_cases hprevZero : s.prev block = 0
  · rw [if_pos hprevZero]
    by_cases hnextZero : s.next block = 0
    · simp [hprevZero, hnextZero]
    · rw [if_neg hnextZero,
        Heap.word_setWord _ hprevLt (by have := hnext hnextZero; omega)]
      simp [hprevZero, hnextZero]
  · have halign := hprev hprevZero
    rw [if_neg hprevZero]
    by_cases hnextZero : s.next block = 0
    · rw [if_pos hnextZero, Heap.word_setWord _ hnextLt (by omega)]
      simp [hprevZero, hnextZero]
    · have hapart := hne hprevZero hnextZero
      rw [if_neg hnextZero,
        Heap.word_setWord _ hprevLt (by have := hnext hnextZero; omega),
        Heap.word_setWord _ hnextLt (by omega)]
      by_cases hw : w = s.prev block + 8
      · have hw' : w ≠ s.next block + 16 := by omega
        rw [if_neg hw', if_pos hw, if_pos ⟨hprevZero, hw⟩]
      · simp [hprevZero, hnextZero, hw]

namespace Gapped

variable {P : Platform} {checked : Prop} {orig : Memory} {keep : Block → Prop} {s : Heap}
  {front back : List Block} {lo hi : Nat} {lists : Fin 4 → List Nat} {block : Block}

/-- The pending block is in the list of its size. -/
theorem pending_mem (h : Gapped P checked orig keep s front lo hi back [block] lists)
    (hfree : block.allocated = false) : block.addr ∈ lists (classOf block.units) :=
  (h.listed _ _).mpr ⟨block, by simp, hfree, rfl, rfl⟩

/-- The predecessor of the pending block is another member of its list. -/
theorem prev_mem (h : Gapped P checked orig keep s front lo hi back [block] lists)
    (hfree : block.allocated = false) (hprev : s.prev block.addr ≠ 0) :
    s.prev block.addr ∈ lists (classOf block.units) :=
  (h.linked _).prev_mem (h.pending_mem hfree) hprev

/-- The successor of the pending block is another member of its list. -/
theorem next_mem (h : Gapped P checked orig keep s front lo hi back [block] lists)
    (hfree : block.allocated = false) (hnext : s.next block.addr ≠ 0) :
    s.next block.addr ∈ lists (classOf block.units) :=
  (h.linked _).next_mem (h.pending_mem hfree) hnext

/-- What unlinking the pending block needs to know about its neighbours. -/
theorem neighbours (h : Gapped P checked orig keep s front lo hi back [block] lists)
    (hfree : block.allocated = false) :
    (s.prev block.addr ≠ 0 → s.prev block.addr ≠ block.addr ∧
      s.prev block.addr % 16 = block.addr % 16 ∧ P.heapStart ≤ s.prev block.addr ∧
      s.prev block.addr + 32 ≤ s.heapEnd) ∧
    (s.next block.addr ≠ 0 → s.next block.addr ≠ block.addr ∧
      s.next block.addr % 16 = block.addr % 16 ∧ P.heapStart ≤ s.next block.addr ∧
      s.next block.addr + 32 ≤ s.heapEnd) := by
  have hmem := h.pending_mem hfree
  have hbounds := h.listed_bounds hmem
  constructor
  · intro hprev
    have hbounds' := h.listed_bounds (h.prev_mem hfree hprev)
    exact ⟨(h.linked _).prev_ne hmem, by omega, by omega, by omega⟩
  · intro hnext
    have hbounds' := h.listed_bounds (h.next_mem hfree hnext)
    exact ⟨(h.linked _).next_ne hmem, by omega, by omega, by omega⟩

/-- Words other than the links of the neighbours stay. -/
theorem word_unlinked_pending (h : Gapped P checked orig keep s front lo hi back [block] lists)
    (hfree : block.allocated = false) (i : Fin 4) {w : Nat} (hw : w % 8 = block.addr % 8) :
    (unlinked s i block.addr).word w =
      if s.prev block.addr ≠ 0 ∧ w = s.prev block.addr + 8 then s.next block.addr
      else if s.next block.addr ≠ 0 ∧ w = s.next block.addr + 16 then s.prev block.addr
      else s.word w := by
  rcases h.neighbours hfree with ⟨hprev, hnext⟩
  apply word_unlinked
  · intro hne
    have := hprev hne
    omega
  · intro hne
    have := hnext hne
    omega
  · intro hne hne'
    have := hprev hne
    have := hnext hne'
    omega

/-- The bytes of the gap survive the unlinking. -/
theorem mem_unlinked_gap (h : Gapped P checked orig keep s front lo hi back [block] lists)
    (hfree : block.allocated = false) (i : Fin 4) {a : Nat} (hlow : lo ≤ a) (hhigh : a < hi) :
    (unlinked s i block.addr).mem a = s.mem a := by
  rcases h.neighbours hfree with ⟨hprev, hnext⟩
  have hapart {b : Nat} (hb : b ∈ lists (classOf block.units)) (hne : b ≠ block.addr) :
      a < b ∨ b + 32 ≤ a := by
    rcases h.listed_cases hb with ⟨b', hb', -, rfl, -⟩ | ⟨b', hb', -, haddr, -⟩
    · have hout := h.outside hb'
      unfold Block.stop at hout
      omega
    · rw [List.mem_singleton.mp hb'] at haddr
      exact absurd haddr.symm hne
  apply mem_unlinked
  · intro hne
    have := hapart (h.prev_mem hfree hne) (hprev hne).1
    omega
  · intro hne
    have := hapart (h.next_mem hfree hne) (hnext hne).1
    omega

/-- The words of the gap survive the unlinking. -/
theorem word_unlinked_gap (h : Gapped P checked orig keep s front lo hi back [block] lists)
    (hfree : block.allocated = false) (i : Fin 4) {w : Nat} (hlow : lo ≤ w)
    (hhigh : w + 8 ≤ hi) : (unlinked s i block.addr).word w = s.word w := by
  apply Memory.readWord_congr
  intro k hk
  exact h.mem_unlinked_gap hfree i (by omega) (by omega)

/-- Tags outside the gap survive the unlinking. -/
theorem tag_unlinked (h : Gapped P checked orig keep s front lo hi back [block] lists)
    (hfree : block.allocated = false) {b : Block} (hb : b ∈ front ++ back) {w : Nat}
    (hw : w = b.addr ∨ w = b.stop - 8) :
    (unlinked s (classOf block.units) block.addr).tag w = s.tag w := by
  have hout := h.outside hb
  have hbounds := h.listed_bounds (h.pending_mem hfree)
  have halign : w % 8 = block.addr % 8 := by
    unfold Block.stop at *
    omega
  unfold Heap.tag
  rw [h.word_unlinked_pending hfree _ halign, if_neg, if_neg]
  · intro hcase
    have hapart := h.links_apart (h.next_mem hfree hcase.1) hb
    unfold Block.stop at *
    omega
  · intro hcase
    have hapart := h.links_apart (h.prev_mem hfree hcase.1) hb
    unfold Block.stop at *
    omega

/-- The list of the pending block loses it. -/
theorem linked_unlinked_self (h : Gapped P checked orig keep s front lo hi back [block] lists)
    (hfree : block.allocated = false) :
    IsList (unlinked s (classOf block.units) block.addr).next
      (unlinked s (classOf block.units) block.addr).prev 0
      (unlinkHead s.next s.prev 0 (s.head (classOf block.units)) block.addr)
      ((lists (classOf block.units)).erase block.addr) := by
  have hmem := h.pending_mem hfree
  have hbounds := h.listed_bounds hmem
  rcases h.neighbours hfree with ⟨hprev, hnext⟩
  have hword {w : Nat} (hw : w % 8 = block.addr % 8) :=
    h.word_unlinked_pending hfree (classOf block.units) hw
  apply ((h.linked _).unlink hmem).congr
  · intro y hy
    have hbounds' := h.listed_bounds (List.mem_of_mem_erase hy)
    show (unlinked s _ block.addr).word (y + 8) = _
    rw [hword (by omega), unlinkNext]
    by_cases hzero : s.prev block.addr = 0
    · rw [if_neg (by simp [hzero]), if_neg, if_pos hzero]
      · rfl
      · intro hcase
        have := hnext hcase.1
        omega
    · rw [if_neg hzero]
      by_cases hyprev : y = s.prev block.addr
      · rw [if_pos ⟨hzero, by rw [hyprev]⟩, hyprev, Function.update_self]
      · rw [if_neg (by omega), if_neg, Function.update_of_ne hyprev]
        · rfl
        · intro hcase
          have := hnext hcase.1
          omega
  · intro y hy
    have hbounds' := h.listed_bounds (List.mem_of_mem_erase hy)
    show (unlinked s _ block.addr).word (y + 16) = _
    rw [hword (by omega), unlinkPrev, if_neg]
    · by_cases hzero : s.next block.addr = 0
      · rw [if_neg (by simp [hzero]), if_pos hzero]
        rfl
      · rw [if_neg hzero]
        by_cases hynext : y = s.next block.addr
        · rw [if_pos ⟨hzero, by rw [hynext]⟩, hynext, Function.update_self]
        · rw [if_neg (by omega), Function.update_of_ne hynext]
          rfl
    · intro hcase
      have := hprev hcase.1
      omega

/-- The other lists stay. -/
theorem linked_unlinked_of_ne (h : Gapped P checked orig keep s front lo hi back [block] lists)
    (hfree : block.allocated = false) {i : Fin 4} (hi : i ≠ classOf block.units) :
    IsList (unlinked s (classOf block.units) block.addr).next
      (unlinked s (classOf block.units) block.addr).prev 0 (s.head i) (lists i) := by
  have hbounds := h.listed_bounds (h.pending_mem hfree)
  rcases h.neighbours hfree with ⟨hprev, hnext⟩
  have hword {w : Nat} (hw : w % 8 = block.addr % 8) :=
    h.word_unlinked_pending hfree (classOf block.units) hw
  have hother {y a : Nat} (hy : y ∈ lists i) (ha : a ∈ lists (classOf block.units)) :
      y ≠ a := by
    intro heq
    exact hi (h.list_unique (by simp) hy (heq ▸ ha))
  apply (h.linked i).congr
  · intro y hy
    have hbounds' := h.listed_bounds hy
    show (unlinked s _ block.addr).word (y + 8) = _
    rw [hword (by omega), if_neg, if_neg]
    · rfl
    · intro hcase
      have := hnext hcase.1
      omega
    · intro hcase
      have := hother hy (h.prev_mem hfree hcase.1)
      omega
  · intro y hy
    have hbounds' := h.listed_bounds hy
    show (unlinked s _ block.addr).word (y + 16) = _
    rw [hword (by omega), if_neg, if_neg]
    · rfl
    · intro hcase
      have := hother hy (h.next_mem hfree hcase.1)
      omega
    · intro hcase
      have := hprev hcase.1
      omega

/-- Without the pending block the lists hold the free blocks outside the gap. -/
theorem listed_erase (h : Gapped P checked orig keep s front lo hi back [block] lists) (i : Fin 4)
    (a : Nat) :
    a ∈ Function.update lists (classOf block.units)
        ((lists (classOf block.units)).erase block.addr) i ↔
      ∃ b ∈ front ++ [] ++ back,
        b.allocated = false ∧ b.addr = a ∧ classOf b.units = i := by
  have hpending := h.pendingGap block List.mem_cons_self
  have hne {b : Block} (hb : b ∈ front ++ back) : b.addr ≠ block.addr := by
    have hout := h.outside hb
    unfold Block.stop at *
    omega
  have hold (b : Block) : b ∈ front ++ [block] ++ back ↔ b = block ∨ b ∈ front ++ back := by
    simp only [List.mem_append, List.mem_singleton]
    tauto
  rw [List.append_nil]
  by_cases hi : i = classOf block.units
  · rw [hi, Function.update_self, (h.linked _).nodup.mem_erase_iff, h.listed]
    constructor
    · intro hcase
      rcases hcase with ⟨hane, b, hb, hfree', haddr, hclass⟩
      rcases (hold b).mp hb with rfl | hb
      · exact absurd haddr.symm hane
      · exact ⟨b, hb, hfree', haddr, hclass⟩
    · intro hcase
      rcases hcase with ⟨b, hb, hfree', rfl, hclass⟩
      exact ⟨hne hb, b, (hold b).mpr (Or.inr hb), hfree', rfl, hclass⟩
  · rw [Function.update_of_ne hi, h.listed]
    constructor
    · intro hcase
      rcases hcase with ⟨b, hb, hfree', haddr, hclass⟩
      rcases (hold b).mp hb with rfl | hb
      · exact absurd hclass.symm hi
      · exact ⟨b, hb, hfree', haddr, hclass⟩
    · intro hcase
      rcases hcase with ⟨b, hb, hrest⟩
      exact ⟨b, (hold b).mpr (Or.inr hb), hrest⟩

/-- Unlinking the pending block takes it out of its list. -/
theorem unlink (h : Gapped P checked orig keep s front lo hi back [block] lists)
    (hfree : block.allocated = false) :
    Gapped P checked orig keep (unlinked s (classOf block.units) block.addr) front lo hi back []
      (Function.update lists (classOf block.units)
        ((lists (classOf block.units)).erase block.addr)) := by
  refine ⟨h.frontTiles, by rw [heapEnd_unlinked]; exact h.backTiles, h.gap_le, h.gap_mod,
    by rw [heapEnd_unlinked]; exact h.pages, ?_, by simp, ?_, h.listed_erase, h.keepMem,
    ?_⟩
  · intro b hb
    exact (h.tagged b hb).congr (h.tag_unlinked hfree hb (Or.inl rfl))
      (h.tag_unlinked hfree hb (Or.inr rfl))
  · intro i
    rw [head_unlinked]
    by_cases hi : i = classOf block.units
    · rw [hi, Function.update_self, Function.update_self]
      exact h.linked_unlinked_self hfree
    · rw [Function.update_of_ne hi, Function.update_of_ne hi]
      exact h.linked_unlinked_of_ne hfree hi
  · intro b hkeep a hlow hhigh
    rw [← h.kept b hkeep a hlow hhigh]
    apply mem_unlinked
    · intro hne
      have := h.links_apart_kept (h.prev_mem hfree hne) hkeep
      omega
    · intro hne
      have := h.links_apart_kept (h.next_mem hfree hne) hkeep
      omega

/-! ## Putting blocks in -/

/-- An allocated block at the start of the gap. -/
theorem putAllocated {block : Block}
    (h : Gapped P checked orig keep s front lo hi back [] lists) (haddr : block.addr = lo)
    (hunits : 2 ≤ block.units) (hstop : block.stop ≤ hi)
    (hallocated : block.allocated = true) (htagged : Tagged checked s block) :
    Gapped P checked orig keep s (front ++ [block]) block.stop hi back [] lists := by
  have hmod := h.gap_mod
  have hstop' : block.stop = lo + 16 * block.units := by rw [Block.stop, haddr]
  refine ⟨tiles_append.mpr ⟨lo, h.frontTiles, haddr, hunits, rfl⟩, h.backTiles, hstop,
    by omega, h.pages, ?_, by simp, h.linked, ?_, ?_, h.kept⟩
  · intro b hb
    rcases List.mem_append.mp hb with hb | hb
    · rcases List.mem_append.mp hb with hb | hb
      · exact h.tagged b (List.mem_append_left _ hb)
      · rw [List.mem_singleton.mp hb]
        exact htagged
    · exact h.tagged b (List.mem_append_right _ hb)
  · intro i a
    rw [h.listed, List.append_nil, List.append_nil, List.append_assoc, List.singleton_append]
    exact (exists_free_insert hallocated _).symm
  · intro b hb
    have hold := h.keepMem b hb
    refine ⟨?_, hold.2⟩
    rcases List.mem_append.mp hold.1 with hmem | hmem
    · exact List.mem_append_left _ (List.mem_append_left _ hmem)
    · exact List.mem_append_right _ hmem

end Gapped

/-! ## Inserting -/

/-- The state after a block has been pushed to list {lit}`i`. -/
def inserted (s : Heap) (i : Fin 4) (block : Nat) : Heap :=
  let s' := s.setWord (block + 8) (s.head i)
  let s' := if s.head i = 0 then s' else s'.setWord (s.head i + 16) block
  s'.setHead i block

@[simp] theorem heapEnd_inserted (s : Heap) (i : Fin 4) (block : Nat) :
    (inserted s i block).heapEnd = s.heapEnd := by
  unfold inserted
  dsimp only
  split_ifs <;> rfl

theorem head_inserted (s : Heap) (i : Fin 4) (block : Nat) :
    (inserted s i block).head = Function.update s.head i block := by
  unfold inserted
  dsimp only
  split_ifs <;> rfl

/-- Pushing changes the forward link of the block and the backward link of the old
head. -/
theorem mem_inserted (s : Heap) (i : Fin 4) {block a : Nat}
    (hblock : a < block + 8 ∨ block + 16 ≤ a)
    (hhead : s.head i ≠ 0 → a < s.head i + 16 ∨ s.head i + 24 ≤ a) :
    (inserted s i block).mem a = s.mem a := by
  have hnext : (s.setWord (block + 8) (s.head i)).mem a = s.mem a :=
    Memory.writeWord_of_outside _ (by omega)
  unfold inserted
  dsimp only
  split_ifs with hzero
  · exact hnext
  · rw [← hnext]
    exact Memory.writeWord_of_outside _ (by have := hhead hzero; omega)

/-- The words after pushing, at addresses aligned like the links. -/
theorem word_inserted (s : Heap) (i : Fin 4) {block w : Nat} (hlt : block < 2 ^ 64)
    (hheadLt : s.head i < 2 ^ 64) (hblock : block % 16 = w % 16 ∨ block % 16 = (w + 8) % 16)
    (hhead : s.head i ≠ 0 → s.head i % 16 = block % 16) :
    (inserted s i block).word w =
      if w = block + 8 then s.head i
      else if s.head i ≠ 0 ∧ w = s.head i + 16 then block
      else s.word w := by
  unfold inserted
  dsimp only
  by_cases hzero : s.head i = 0
  · rw [if_pos hzero, Heap.word_setHead, Heap.word_setWord _ hheadLt (by omega)]
    simp [hzero]
  · have halign := hhead hzero
    rw [if_neg hzero, Heap.word_setHead, Heap.word_setWord _ hlt (by omega),
      Heap.word_setWord _ hheadLt (by omega)]
    by_cases hw : w = block + 8
    · have hw' : w ≠ s.head i + 16 := by omega
      rw [if_neg hw', if_pos hw, if_pos hw]
    · simp [hzero, hw]

namespace Gapped

variable {P : Platform} {checked : Prop} {orig : Memory} {keep : Block → Prop} {s : Heap}
  {front back : List Block} {lo hi : Nat} {lists : Fin 4 → List Nat} {block : Block}

/-- What pushing a block that fills the gap needs to know about the addresses. -/
theorem insert_bounds (h : Gapped P checked orig keep s front lo hi back [] lists)
    (haddr : block.addr = lo) (hstop : block.stop = hi) (hunits : 2 ≤ block.units)
    (i : Fin 4) :
    P.heapStart ≤ block.addr ∧ block.addr + 32 ≤ s.heapEnd ∧ block.addr < 2 ^ 64 ∧
      block.addr % 16 = P.heapStart % 16 ∧ s.head i < 2 ^ 64 ∧
      (s.head i ≠ 0 → s.head i ∈ lists i ∧ s.head i ≠ block.addr ∧
        P.heapStart ≤ s.head i ∧ s.head i + 32 ≤ s.heapEnd ∧
        s.head i % 16 = P.heapStart % 16) := by
  have hlo := h.frontTiles.le
  have hhi := h.backTiles.le
  have hmod := h.frontTiles.stop_mod
  have hend := h.heapEnd_le
  have htop := P.heapTop_lt
  have hin : block.addr + 32 ≤ s.heapEnd := by
    unfold Block.stop at hstop
    omega
  have hhead (hne : s.head i ≠ 0) : s.head i ∈ lists i ∧ s.head i ≠ block.addr ∧
      P.heapStart ≤ s.head i ∧ s.head i + 32 ≤ s.heapEnd ∧
      s.head i % 16 = P.heapStart % 16 := by
    have hmem := (h.linked i).head_mem hne
    have hbounds := h.listed_bounds hmem
    refine ⟨hmem, ?_, hbounds⟩
    intro heq
    rcases h.listed_cases hmem with ⟨b, hb, -, hb', -⟩ | ⟨b, hb, -⟩
    · have hout := h.outside hb
      unfold Block.stop at *
      omega
    · exact absurd hb List.not_mem_nil
  refine ⟨by omega, hin, by omega, by omega, ?_, hhead⟩
  by_cases hzero : s.head i = 0
  · omega
  · have := hhead hzero
    omega

/-- The words at addresses aligned like the links after the block has been pushed. -/
theorem word_inserted_gap (h : Gapped P checked orig keep s front lo hi back [] lists)
    (haddr : block.addr = lo) (hstop : block.stop = hi) (hunits : 2 ≤ block.units)
    (i : Fin 4) {w : Nat} (hw : w % 8 = block.addr % 8) :
    (inserted s i block.addr).word w =
      if w = block.addr + 8 then s.head i
      else if s.head i ≠ 0 ∧ w = s.head i + 16 then block.addr
      else s.word w := by
  rcases h.insert_bounds haddr hstop hunits i with ⟨-, -, hlt, hmod, hheadLt, hhead⟩
  apply word_inserted s i hlt hheadLt
  · omega
  · intro hne
    have := hhead hne
    omega

/-- Tags outside the gap and those of the block itself survive the push. -/
theorem tag_inserted (h : Gapped P checked orig keep s front lo hi back [] lists)
    (haddr : block.addr = lo) (hstop : block.stop = hi) (hunits : 2 ≤ block.units)
    (i : Fin 4) {b : Block} (hb : b ∈ front ++ back ∨ b = block) {w : Nat}
    (hw : w = b.addr ∨ w = b.stop - 8) :
    (inserted s i block.addr).tag w = s.tag w := by
  rcases h.insert_bounds haddr hstop hunits i with ⟨hstart, hend, hlt, hmod, hheadLt, hhead⟩
  have hapart : b = block ∨ (2 ≤ b.units ∧ b.addr % 16 = P.heapStart % 16 ∧
      (b.stop ≤ lo ∨ hi ≤ b.addr)) := by
    rcases hb with hb | hb
    · have hout := h.outside hb
      exact Or.inr ⟨hout.2.2.1, hout.2.2.2.1, hout.2.2.2.2⟩
    · exact Or.inl hb
  have halign : w % 8 = block.addr % 8 := by
    rcases hapart with rfl | hapart
    · unfold Block.stop at *
      omega
    · unfold Block.stop at *
      omega
  unfold Heap.tag
  rw [h.word_inserted_gap haddr hstop hunits i halign, if_neg, if_neg]
  · intro hcase
    have hmem := (hhead hcase.1).1
    rcases hb with hb | rfl
    · have hlinks := h.links_apart hmem hb
      have hout := h.outside hb
      unfold Block.stop at *
      omega
    · rcases h.listed_cases hmem with ⟨b', hb', -, hhead', -⟩ | ⟨b', hb', -⟩
      · have hout := h.outside hb'
        unfold Block.stop at *
        omega
      · exact absurd hb' List.not_mem_nil
  · rcases hapart with rfl | hapart
    · unfold Block.stop at *
      omega
    · unfold Block.stop at *
      omega

/-- The list of the pushed block gains it. -/
theorem linked_inserted_self (h : Gapped P checked orig keep s front lo hi back [] lists)
    (haddr : block.addr = lo) (hstop : block.stop = hi) (hunits : 2 ≤ block.units)
    (hprev : s.prev block.addr = 0) (i : Fin 4) :
    IsList (inserted s i block.addr).next (inserted s i block.addr).prev 0 block.addr
      (block.addr :: lists i) := by
  rcases h.insert_bounds haddr hstop hunits i with ⟨hstart, hend, hlt, hmod, hheadLt, hhead⟩
  have hpage := P.heapStart_ge
  have hword {w : Nat} (hw : w % 8 = block.addr % 8) :=
    h.word_inserted_gap haddr hstop hunits i hw
  have hnotMem {j : Fin 4} : block.addr ∉ lists j := by
    intro hmem
    rcases h.listed_cases hmem with ⟨b, hb, -, hb', -⟩ | ⟨b, hb, -⟩
    · have hout := h.outside hb
      unfold Block.stop at *
      omega
    · exact absurd hb List.not_mem_nil
  -- the links as they are in between, with the forward link of the block set
  have hlinked : IsList (Function.update s.next block.addr (s.head i)) s.prev 0 (s.head i)
      (lists i) := by
    apply (h.linked i).congr
    · intro y hy
      exact Function.update_of_ne (ne_of_mem_of_not_mem hy hnotMem) ..
    · intro y _
      rfl
  have hnull : block.addr ≠ 0 := by
    unfold PAGE_SZ at hpage
    omega
  apply (hlinked.insert hnotMem hnull (Function.update_self ..) hprev).congr
  · intro y hy
    show (inserted s i block.addr).word (y + 8) = _
    have hy16 : y % 16 = block.addr % 16 := by
      rcases List.mem_cons.mp hy with rfl | hy
      · rfl
      · have := h.listed_bounds hy
        omega
    rw [hword (by omega)]
    by_cases hyblock : y = block.addr
    · rw [if_pos (by omega), hyblock, Function.update_self]
    · rw [if_neg (by omega), if_neg, Function.update_of_ne hyblock]
      · rfl
      · intro hcase
        have := hhead hcase.1
        omega
  · intro y hy
    show (inserted s i block.addr).word (y + 16) = _
    have hy16 : y % 16 = block.addr % 16 := by
      rcases List.mem_cons.mp hy with rfl | hy
      · rfl
      · have := h.listed_bounds hy
        omega
    rw [hword (by omega), if_neg (by omega)]
    by_cases hzero : s.head i = 0
    · rw [if_neg (by simp [hzero]), if_pos hzero]
      rfl
    · rw [if_neg hzero]
      by_cases hyhead : y = s.head i
      · rw [if_pos ⟨hzero, by rw [hyhead]⟩, hyhead, Function.update_self]
      · rw [if_neg (by omega), Function.update_of_ne hyhead]
        rfl

/-- The other lists stay. -/
theorem linked_inserted_of_ne (h : Gapped P checked orig keep s front lo hi back [] lists)
    (haddr : block.addr = lo) (hstop : block.stop = hi) (hunits : 2 ≤ block.units)
    {i j : Fin 4} (hj : j ≠ i) :
    IsList (inserted s i block.addr).next (inserted s i block.addr).prev 0 (s.head j)
      (lists j) := by
  rcases h.insert_bounds haddr hstop hunits i with ⟨hstart, hend, hlt, hmod, hheadLt, hhead⟩
  have hword {w : Nat} (hw : w % 8 = block.addr % 8) :=
    h.word_inserted_gap haddr hstop hunits i hw
  have hblock {y : Nat} (hy : y ∈ lists j) : y ≠ block.addr := by
    intro heq
    rcases h.listed_cases hy with ⟨b, hb, -, hb', -⟩ | ⟨b, hb, -⟩
    · have hout := h.outside hb
      unfold Block.stop at *
      omega
    · exact absurd hb List.not_mem_nil
  apply (h.linked j).congr
  · intro y hy
    have hbounds := h.listed_bounds hy
    have hyblock := hblock hy
    show (inserted s i block.addr).word (y + 8) = _
    rw [hword (by omega), if_neg (by omega), if_neg]
    · rfl
    · intro hcase
      have := hhead hcase.1
      omega
  · intro y hy
    have hbounds := h.listed_bounds hy
    show (inserted s i block.addr).word (y + 16) = _
    rw [hword (by omega), if_neg (by omega), if_neg]
    · rfl
    · intro hcase
      have hyhead : y = s.head i := by omega
      exact hj (h.list_unique (by simp) hy (hyhead ▸ (hhead hcase.1).1))

/-- With the pushed block the lists hold the free blocks of the closed layout. -/
theorem listed_cons (h : Gapped P checked orig keep s front lo hi back [] lists)
    (hfree : block.allocated = false) (i : Fin 4) (a : Nat) :
    a ∈ Function.update lists (classOf block.units)
        (block.addr :: lists (classOf block.units)) i ↔
      ∃ b ∈ front ++ [block] ++ [] ++ back,
        b.allocated = false ∧ b.addr = a ∧ classOf b.units = i := by
  have hold (b : Block) :
      b ∈ front ++ [block] ++ [] ++ back ↔ b = block ∨ b ∈ front ++ back := by
    simp only [List.mem_append, List.mem_singleton, List.append_nil]
    tauto
  have hlisted := h.listed i a
  rw [List.append_nil] at hlisted
  by_cases hi : i = classOf block.units
  · rw [hi, Function.update_self, List.mem_cons, ← hi, hlisted]
    constructor
    · intro hcase
      rcases hcase with rfl | ⟨b, hb, hrest⟩
      · exact ⟨block, (hold _).mpr (Or.inl rfl), hfree, rfl, hi.symm⟩
      · exact ⟨b, (hold b).mpr (Or.inr hb), hrest⟩
    · intro hcase
      rcases hcase with ⟨b, hb, hrest⟩
      rcases (hold b).mp hb with rfl | hb
      · exact Or.inl hrest.2.1.symm
      · exact Or.inr ⟨b, hb, hrest⟩
  · rw [Function.update_of_ne hi, hlisted]
    constructor
    · intro hcase
      rcases hcase with ⟨b, hb, hrest⟩
      exact ⟨b, (hold b).mpr (Or.inr hb), hrest⟩
    · intro hcase
      rcases hcase with ⟨b, hb, hrest⟩
      rcases (hold b).mp hb with rfl | hb
      · exact absurd hrest.2.2.symm hi
      · exact ⟨b, hb, hrest⟩

/-- All lists after the push. -/
theorem linked_inserted (h : Gapped P checked orig keep s front lo hi back [] lists)
    (haddr : block.addr = lo) (hstop : block.stop = hi) (hunits : 2 ≤ block.units)
    (hprev : s.prev block.addr = 0) (i j : Fin 4) :
    IsList (inserted s i block.addr).next (inserted s i block.addr).prev 0
      ((inserted s i block.addr).head j)
      (Function.update lists i (block.addr :: lists i) j) := by
  rw [head_inserted]
  by_cases hj : j = i
  · subst hj
    rw [Function.update_self, Function.update_self]
    exact h.linked_inserted_self haddr hstop hunits hprev j
  · rw [Function.update_of_ne hj, Function.update_of_ne hj]
    exact h.linked_inserted_of_ne haddr hstop hunits hj

/-- The tags of the other blocks and of the pushed one after the push. -/
theorem tagged_inserted (h : Gapped P checked orig keep s front lo hi back [] lists)
    (haddr : block.addr = lo) (hstop : block.stop = hi) (hunits : 2 ≤ block.units)
    (htagged : Tagged checked s block) (i : Fin 4) {b : Block}
    (hb : b ∈ front ++ [block] ++ back) : Tagged checked (inserted s i block.addr) b := by
  have hmem : b ∈ front ++ back ∨ b = block := by
    simp only [List.mem_append, List.mem_singleton] at hb ⊢
    tauto
  have hbTagged : Tagged checked s b := by
    rcases hmem with hb' | rfl
    · exact h.tagged b hb'
    · exact htagged
  apply hbTagged.congr
  · exact h.tag_inserted haddr hstop hunits i hmem (Or.inl rfl)
  · exact h.tag_inserted haddr hstop hunits i hmem (Or.inr rfl)

/-- The push does not write to kept blocks. -/
theorem kept_inserted (h : Gapped P checked orig keep s front lo hi back [] lists)
    (haddr : block.addr = lo) (hstop : block.stop = hi) (hunits : 2 ≤ block.units)
    (i : Fin 4) {b : Block} (hkeep : keep b) {a : Nat} (hlow : b.addr ≤ a)
    (hhigh : a < b.stop) : (inserted s i block.addr).mem a = orig a := by
  have hout := h.outside (h.keepMem b hkeep).1
  rw [← h.kept b hkeep a hlow hhigh]
  apply mem_inserted
  · unfold Block.stop at *
    omega
  · intro hne
    have hhead := (h.linked i).head_mem hne
    have hapart := h.links_apart_kept hhead hkeep
    omega

/-- A free block that fills the gap and is pushed to the list of its size closes the
gap. -/
theorem insert (h : Gapped P checked orig keep s front lo hi back [] lists)
    (haddr : block.addr = lo) (hstop : block.stop = hi) (hunits : 2 ≤ block.units)
    (hfree : block.allocated = false) (htagged : Tagged checked s block)
    (hprev : s.prev block.addr = 0) :
    Gapped P checked orig keep (inserted s (classOf block.units) block.addr)
        (front ++ [block]) hi hi
      back []
      (Function.update lists (classOf block.units)
        (block.addr :: lists (classOf block.units))) where
  frontTiles := tiles_append.mpr ⟨lo, h.frontTiles, haddr, hunits, hstop⟩
  backTiles := by
    rw [heapEnd_inserted]
    exact h.backTiles
  gap_le := le_rfl
  gap_mod := rfl
  pages := by
    rw [heapEnd_inserted]
    exact h.pages
  tagged _ hb := h.tagged_inserted haddr hstop hunits htagged _ hb
  pendingGap _ hb := absurd hb List.not_mem_nil
  linked j := h.linked_inserted haddr hstop hunits hprev _ j
  listed := h.listed_cons hfree
  keepMem b hkeep := by
    have hb := h.keepMem b hkeep
    refine ⟨?_, hb.2⟩
    rcases List.mem_append.mp hb.1 with hb | hb
    · exact List.mem_append_left _ (List.mem_append_left _ hb)
    · exact List.mem_append_right _ hb
  kept _ hkeep _ hlow hhigh := h.kept_inserted haddr hstop hunits _ hkeep hlow hhigh

end Gapped

end SystemFundamentals.Sfmm
