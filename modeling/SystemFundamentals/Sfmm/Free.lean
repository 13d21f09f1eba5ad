import SystemFundamentals.Library.Fuel
import SystemFundamentals.Sfmm.Links

/-!
# sf_free

Main results:

- Theorem {lit}`Gapped.absorb`: one turn of the forward merging.
- Theorem {lit}`Gapped.coalesceForward_returns`: the forward merging takes in the free
  blocks that follow.
- Theorem {lit}`sfFree_returns`: freeing an allocated block of a well-formed heap
  returns, makes one free block of it and the free blocks that follow, and leaves the
  others alone.
-/

namespace SystemFundamentals.Sfmm

open Library Library.LinkedList

/-! ## What is merged -/

/-- The free blocks that some blocks start with. -/
def leadingRun (blocks : List Block) : List Block :=
  blocks.takeWhile fun block => !block.allocated

/-- The blocks behind them. -/
def behindRun (blocks : List Block) : List Block :=
  blocks.dropWhile fun block => !block.allocated

/-- The units of some blocks together. -/
def unitsOf (run : List Block) : Nat := (run.map Block.units).sum

/-- The free block that a block and the ones that follow it become. -/
def Block.mergedWith (block : Block) (run : List Block) : Block :=
  ⟨block.addr, block.units + unitsOf run, false⟩

/-- The lists after the blocks of {lit}`run` have left them and a block has been pushed to the
list of its size. -/
def freedLists (lists : Fin 4 → List Nat) (run : List Block) (block : Block) :
    Fin 4 → List Nat :=
  Function.update (fun i => without run (lists i)) (classOf block.units)
    (block.addr :: without run (lists (classOf block.units)))

namespace Gapped

variable {P : Platform} {checked : Prop} {orig : Memory} {keep : Block → Prop} {s : Heap}
  {front back pending : List Block} {lo hi : Nat} {lists : Fin 4 → List Nat} {block : Block}

/-- The gap is not larger than the heap can grow. -/
theorem size_le (h : Gapped P checked orig keep s front lo hi back pending lists) :
    hi ≤ lo + 61440 := by
  have hfront := h.frontTiles.le
  have hback := h.backTiles.le
  have hend := h.heapEnd_le
  have hlimit := P.pageLimit_le
  unfold PAGE_SZ at hend
  omega

/-- The gap takes in the free block behind it, the header at the start of the gap grows
by the size of the block, and the block is unlinked. -/
theorem absorb (h : Gapped P checked orig keep s front lo hi (block :: back) [] lists)
    (hfree : block.allocated = false) (hroom : lo + 32 ≤ hi)
    (hsize : (s.tag lo).blockSize * 16 = hi - lo) :
    ∃ s', unlinkMerged P block.addr (s.setWord lo
        { s.tag lo with blockSize := (s.tag lo).blockSize + block.units }.toWord) = .ok s' ∧
      Gapped P checked orig keep s' front lo block.stop back []
        (fun i => without [block] (lists i)) ∧
      (s'.tag lo).allocated = (s.tag lo).allocated ∧
      (s'.tag lo).blockSize * 16 = block.stop - lo ∧
      (s'.tag block.addr).blockSize = block.units ∧ Spares lists lo block.stop s s' := by
  have hblock := h.tagged block (List.mem_append_right _ List.mem_cons_self)
  have haddr : block.addr = hi := h.backTiles.1
  have hunits : 2 ≤ block.units := h.backTiles.2.1
  have hwide := h.takeBack hfree
  have hlimit := hwide.size_le
  have hmod := h.gap_mod
  have hstop : block.stop = hi + 16 * block.units := by rw [Block.stop, haddr]
  let header := { s.tag lo with blockSize := (s.tag lo).blockSize + block.units }
  let s' := s.setWord lo header.toWord
  have hgrown : Gapped P checked orig keep s' front lo block.stop back [block] lists :=
    hwide.setWord_pending _ le_rfl (by omega) (Or.inl (by omega))
  have htag : s'.tag block.addr = s.tag block.addr :=
    Heap.tag_setWord_of_ne s _ (by omega) (by omega)
  have hclass : listIndex ((s'.tag block.addr).blockSize * 16) =
      .ok (classOf block.units) := by
    rw [htag, hblock.headerSize]
    apply listIndex_eq
    omega
  have hheader : s'.tag lo = .ofWord header.toWord := Heap.tag_setWord_self ..
  have hkept {w : Nat} (hlow : lo ≤ w) (hhigh : w + 8 ≤ block.stop) :
      (unlinked s' (classOf block.units) block.addr).tag w = s'.tag w := by
    unfold Heap.tag
    rw [hgrown.word_unlinked_gap hfree _ hlow hhigh]
  have herase := h.update_erase (List.mem_append_right _ List.mem_cons_self) hfree
  have hspares : Spares lists lo block.stop s s' := .setWord s _ le_rfl (by omega)
  refine ⟨unlinked s' (classOf block.units) block.addr,
    hgrown.unlinkMerged_eq hfree (fun _ => hclass), herase ▸ hgrown.unlink hfree, ?_, ?_, ?_,
    hspares.trans (hgrown.unlinked_spares hfree _)⟩
  · rw [hkept le_rfl (by omega), hheader, Tag.ofWord_toWord]
  · rw [hkept le_rfl (by omega), hheader, Tag.ofWord_toWord]
    show ((s.tag lo).blockSize + block.units) % 2 ^ 28 * 16 = _
    omega
  · rw [hkept (by omega) (by omega), htag, hblock.headerSize]

/-- The forward merging takes in the free blocks that follow the gap. -/
theorem coalesceForward_returns (h : Gapped P checked orig keep s front lo hi back [] lists)
    (hroom : lo + 32 ≤ hi) (hsize : (s.tag lo).blockSize * 16 = hi - lo) :
    ∃ s', Returns (fun fuel => coalesceForward P fuel lo hi s) s' ∧
      Gapped P checked orig keep s' front lo (hi + 16 * unitsOf (leadingRun back))
        (behindRun back) [] (fun i => without (leadingRun back) (lists i)) ∧
      (s'.tag lo).allocated = (s.tag lo).allocated ∧
      (s'.tag lo).blockSize * 16 = hi + 16 * unitsOf (leadingRun back) - lo ∧
      Spares lists lo (hi + 16 * unitsOf (leadingRun back)) s s' := by
  -- induction on the blocks behind the gap
  induction back generalizing s hi lists with
  | nil =>
      have hend : hi = s.heapEnd := h.backTiles
      refine ⟨s, ?_, by simpa [leadingRun, behindRun, unitsOf] using h, rfl, hsize, .refl s⟩
      apply Returns.succ
      apply Returns.of_eq
      intro fuel
      rw [coalesceForward, if_neg (by omega)]
  | cons block back ih =>
      have hblock := h.tagged block (List.mem_append_right _ List.mem_cons_self)
      rcases h.backTiles with ⟨rfl, hunits, hrest⟩
      have hle := hrest.le
      have hstart := h.frontTiles.le
      have hstop : block.addr + block.units * 16 = block.stop := by
        rw [Block.stop, Nat.mul_comm]
      have hheader : readTag P s block.addr = .ok (s.tag block.addr) :=
        readTag_eq ⟨by omega, by omega⟩
      cases hfree : block.allocated with
      | true =>
          have hrun : leadingRun (block :: back) = [] := by simp [leadingRun, hfree]
          have hbehind : behindRun (block :: back) = block :: back := by simp [behindRun, hfree]
          rw [hrun, hbehind]
          refine ⟨s, ?_, by simpa [unitsOf] using h, rfl, hsize, .refl s⟩
          apply Returns.succ
          apply Returns.of_eq
          intro fuel
          rw [coalesceForward, if_pos (by omega), hheader, ok_bind, hblock.headerAllocated,
            hfree]
          rfl
      | false =>
          have hrun : leadingRun (block :: back) = block :: leadingRun back := by
            simp [leadingRun, hfree]
          have hbehind : behindRun (block :: back) = behindRun back := by
            simp [behindRun, hfree]
          have hsum : block.addr + 16 * unitsOf (block :: leadingRun back) =
              block.stop + 16 * unitsOf (leadingRun back) := by
            rw [← hstop]
            simp only [unitsOf, List.map_cons, List.sum_cons]
            omega
          rcases h.absorb hfree hroom hsize with
            ⟨s₁, hunlink, hgapped, hallocated, hsize₁, hunits₁, hspares⟩
          rcases ih hgapped (by omega) hsize₁ with
            ⟨s', hreturns, hgapped', hallocated', hsize', hspares'⟩
          have hlists : (fun i => without (block :: leadingRun back) (lists i)) =
              fun i => without (leadingRun back) (without [block] (lists i)) := by
            funext i
            exact without_cons ..
          have hwithout (i : Fin 4) : without [block] (lists i) ⊆ lists i := without_subset ..
          rw [hrun, hbehind, hsum, hlists]
          refine ⟨s', ?_, hgapped', hallocated'.trans hallocated, hsize',
            (hspares.mono le_rfl (Nat.le_add_right ..) fun _ _ => id).trans
              (hspares'.mono le_rfl le_rfl hwithout)⟩
          apply Returns.succ
          apply hreturns.congr
          intro fuel
          have hread : readTag P s₁ block.addr = .ok (s₁.tag block.addr) := by
            have hback := hgapped.backTiles.le
            exact readTag_eq ⟨by omega, by omega⟩
          have hwrite : InHeap P s lo := ⟨hstart, by omega⟩
          rw [coalesceForward, if_pos (by omega), hheader, ok_bind, hblock.headerAllocated,
            hfree, if_pos (by rfl), hblock.headerSize, writeTag_eq hwrite, ok_bind, hunlink,
            ok_bind, hread, ok_bind, hunits₁, hstop]

/-- The first part of {lit}`sf_free` marks both tags of the gap free.  The footer is read in
between, as it was. -/
theorem clearAllocated (h : Gapped P checked orig keep s front lo hi back [] lists)
    (hroom : lo + 32 ≤ hi) (hsize : (s.tag lo).blockSize * 16 = hi - lo) :
    ∃ s₁ s₂, writeTag P s lo (fun header => { header with allocated := false }) = .ok s₁ ∧
      s₁.heapEnd = s.heapEnd ∧ readTag P s₁ (hi - 8) = .ok (s.tag (hi - 8)) ∧
      writeTag P s₁ (hi - 8) (fun footer => { footer with allocated := false }) = .ok s₂ ∧
      Gapped P checked orig keep s₂ front lo hi back [] lists ∧
      (s₂.tag lo).allocated = false ∧ (s₂.tag lo).blockSize = (s.tag lo).blockSize ∧
      Spares lists lo hi s s₂ := by
  have hmod := h.gap_mod
  have hlimit := h.size_le
  let header : Tag := { s.tag lo with allocated := false }
  let s₁ := s.setWord lo header.toWord
  let footer : Tag := { s₁.tag (hi - 8) with allocated := false }
  let s₂ := s₁.setWord (hi - 8) footer.toWord
  have h₁ : Gapped P checked orig keep s₁ front lo hi back [] lists :=
    h.setWord _ le_rfl (by omega)
  have h₂ : Gapped P checked orig keep s₂ front lo hi back [] lists :=
    h₁.setWord _ (by omega) (by omega)
  have hfooter₁ : s₁.tag (hi - 8) = s.tag (hi - 8) :=
    Heap.tag_setWord_of_ne s _ (by omega) (by omega)
  have hheader₂ : s₂.tag lo = .ofWord header.toWord := by
    rw [Heap.tag_setWord_of_ne _ _ (by omega) (by omega)]
    exact Heap.tag_setWord_self ..
  have hsize₂ : (s₂.tag lo).blockSize = (s.tag lo).blockSize := by
    rw [hheader₂, Tag.ofWord_toWord]
    show (s.tag lo).blockSize % 2 ^ 28 = (s.tag lo).blockSize
    omega
  have hspares₁ : Spares lists lo hi s s₁ := .setWord s _ le_rfl (by omega)
  have hspares₂ : Spares lists lo hi s₁ s₂ := .setWord s₁ _ (by omega) (by omega)
  refine ⟨s₁, s₂, writeTag_eq (h.inHeap_gap le_rfl (by omega)) _, rfl, ?_,
    writeTag_eq (h₁.inHeap_gap (by omega) (by omega)) _, h₂, ?_, hsize₂,
    hspares₁.trans hspares₂⟩
  · rw [readTag_eq (h₁.inHeap_gap (by omega) (by omega)), hfooter₁]
  · rw [hheader₂, Tag.ofWord_toWord]

/-- The last part of {lit}`sf_free` closes the gap with a free block. -/
theorem pushFreed_eq (h : Gapped P checked orig keep s front lo hi back [] lists)
    (hroom : lo + 32 ≤ hi)
    (hallocated : (s.tag lo).allocated = false) (hsize : (s.tag lo).blockSize * 16 = hi - lo) :
    ∃ s', pushFreed P lo s = .ok s' ∧
      Gapped P checked orig keep s' (front ++ [⟨lo, (hi - lo) / 16, false⟩]) hi hi back []
        (Function.update lists (classOf ((hi - lo) / 16))
          (lo :: lists (classOf ((hi - lo) / 16)))) ∧
      Spares lists lo hi s s' := by
  have hmod := h.gap_mod
  have hlimit := h.size_le
  let s₁ := s.setWord (lo + 8) 0
  let s₂ := s₁.setWord (lo + 16) 0
  have h₁ : Gapped P checked orig keep s₁ front lo hi back [] lists := h.setWord 0 (by omega)
      (by omega)
  have h₂ : Gapped P checked orig keep s₂ front lo hi back [] lists :=
    h₁.setWord 0 (by omega) (by omega)
  have htag : s₂.tag lo = s.tag lo := by
    rw [Heap.tag_setWord_of_ne _ _ (by omega) (by omega),
      Heap.tag_setWord_of_ne _ _ (by omega) (by omega)]
  let footer : Tag :=
    { s₂.tag (hi - 8) with allocated := false, blockSize := (s₂.tag lo).blockSize, upper := 0 }
  let s₃ := s₂.setWord (hi - 8) footer.toWord
  have h₃ : Gapped P checked orig keep s₃ front lo hi back [] lists :=
    h₂.setWord _ (by omega) (by omega)
  have hheader : s₃.tag lo = s.tag lo := by
    rw [Heap.tag_setWord_of_ne _ _ (by omega) (by omega), htag]
  have hfooter : s₃.tag (hi - 8) = .ofWord footer.toWord := Heap.tag_setWord_self ..
  have hprev : s₃.prev lo = 0 := by
    show (s₂.setWord (hi - 8) footer.toWord).word (lo + 16) = 0
    rw [Heap.word_setWord_of_ne _ _ (by omega) (by omega)]
    exact Heap.word_setWord_self ..
  have hfooterSize : (s₃.tag (hi - 8)).blockSize * 16 = hi - lo := by
    rw [hfooter, Tag.ofWord_toWord]
    show (s₂.tag lo).blockSize % 2 ^ 28 * 16 = hi - lo
    rw [htag]
    omega
  have hfooterFree : (s₃.tag (hi - 8)).allocated = false := by
    rw [hfooter, Tag.ofWord_toWord]
  rcases h₃.closeFree hroom (by rw [hheader]; exact ⟨hallocated, hsize⟩)
    ⟨hfooterFree, hfooterSize⟩ hprev with ⟨s', hinsert, hclosed, hspares⟩
  have hspares₁ : Spares lists lo hi s s₁ := .setWord s 0 (by omega) (by omega)
  have hspares₂ : Spares lists lo hi s₁ s₂ := .setWord s₁ 0 (by omega) (by omega)
  have hspares₃ : Spares lists lo hi s₂ s₃ := .setWord s₂ _ (by omega) (by omega)
  refine ⟨s', ?_, hclosed, ((hspares₁.trans hspares₂).trans hspares₃).trans hspares⟩
  have haddress : lo + (s₂.tag lo).blockSize * 16 - 8 = hi - 8 := by
    rw [htag, hsize]
    omega
  have hin {w : Nat} (hlow : lo ≤ w) (hhigh : w + 8 ≤ hi) := h.inHeap_gap hlow hhigh
  rw [pushFreed, store_eq (hin (by omega) (by omega)), ok_bind,
    store_eq (h₁.inHeap_gap (by omega) (by omega)), ok_bind,
    readTag_eq (h₂.inHeap_gap le_rfl (by omega)), ok_bind, haddress,
    writeTag_eq (h₂.inHeap_gap (by omega) (by omega)), ok_bind]
  exact hinsert

end Gapped

variable {P : Platform} {checked : Prop} {orig : Memory} {keep : Block → Prop} {s : Heap}
  {front back : List Block} {lo hi : Nat} {lists : Fin 4 → List Nat} {block : Block}

/-- An allocated block of a well-formed heap passes the checks. -/
theorem checkTags_eq {header footer : Tag} {units : Nat} (hfooter : footer.allocated = true)
    (hsize : header.blockSize = units) (hpadded : footer.padded = header.padded)
    (hfits : footer.upper + 16 ≤ units * 16)
    (hiff : header.padded = true ↔ footer.upper + 16 ≠ units * 16) :
    checkTags header footer = .ok () := by
  unfold checkTags
  rw [hfooter, hpadded, hsize]
  cases hcase : header.padded with
  | true =>
      have hne := hiff.mp hcase
      simp [hne, Nat.not_lt.mpr hfits]
  | false =>
      have heq : footer.upper + 16 = units * 16 := by
        by_contra hne
        rw [hiff.mpr hne] at hcase
        exact absurd hcase (by simp)
      simp [heq]

theorem checkBounds_eq {address : Nat} (hlow : P.heapStart ≤ address)
    (hhigh : address ≤ s.heapEnd) : checkBounds P s address = .ok () := by
  apply if_neg
  omega

/-- Freeing an allocated block of a well-formed heap returns.  The block and the free blocks
that follow it become one free block, which is the first of the list of its size.  The other
blocks change in their links only, and the allocated ones not at all. -/
theorem sfFree_returns
    (h : Gapped P checked orig keep s (front ++ block :: back) lo lo [] [] lists)
    (hallocated : block.allocated = true) (hconsistent : Consistent s block)
    (hkeep : ¬ keep block) :
    ∃ s', Returns (fun fuel => sfFree P fuel (block.addr + 8) s) s' ∧
      Gapped P checked orig keep s'
        (front ++ block.mergedWith (leadingRun back) :: behindRun back) s'.heapEnd s'.heapEnd
        [] [] (freedLists lists (leadingRun back) (block.mergedWith (leadingRun back))) ∧
      ∀ b ∈ front ++ behindRun back, ∀ a, b.addr ≤ a → a < b.stop →
        b.allocated = true ∨ a < b.addr + 8 ∨ b.addr + 24 ≤ a → s'.mem a = s.mem a := by
  rcases h.move with ⟨middle, hmoved⟩
  rw [List.append_nil] at hmoved
  have htagged := hmoved.tagged block (List.mem_append_right _ List.mem_cons_self)
  rcases hmoved.backTiles with ⟨rfl, hunits, hrest⟩
  have hgap := hmoved.takeAllocated hallocated hkeep
  have hstart := hgap.frontTiles.le
  have hend := hgap.backTiles.le
  have hstop : block.stop = block.addr + 16 * block.units := rfl
  have hsize : (s.tag block.addr).blockSize * 16 = block.stop - block.addr := by
    rw [htagged.headerSize]
    omega
  rcases hgap.clearAllocated (by omega) hsize with
    ⟨s₁, s₂, hheader, hend₁, hfooter, hclear, h₂, hfree₂, hsize₂, hspares₂⟩
  rw [htagged.headerSize] at hsize₂
  rcases h₂.coalesceForward_returns (by omega) (by omega) with
    ⟨s₃, hreturns, h₃, hfree₃, hsize₃, hspares₃⟩
  rcases h₃.pushFreed_eq (by omega) (hfree₃.trans hfree₂) hsize₃ with
    ⟨s', hpush, hclosed, hspares'⟩
  have hunits' : (block.stop + 16 * unitsOf (leadingRun back) - block.addr) / 16 =
      block.units + unitsOf (leadingRun back) := by omega
  have hwithout (i : Fin 4) : without (leadingRun back) (lists i) ⊆ lists i :=
    without_subset ..
  have hspares : Spares lists block.addr (block.stop + 16 * unitsOf (leadingRun back)) s s' :=
    ((hspares₂.mono le_rfl (Nat.le_add_right ..) fun _ _ => id).trans hspares₃).trans
      (hspares'.mono le_rfl le_rfl hwithout)
  have hlayout := hclosed.close
  rw [hunits', List.append_assoc] at hlayout
  have hframe (b : Block) (hb : b ∈ front ++ behindRun back) (a : Nat) (hlow : b.addr ≤ a)
      (hhigh : a < b.stop)
      (hcase : b.allocated = true ∨ a < b.addr + 8 ∨ b.addr + 24 ≤ a) : s'.mem a = s.mem a := by
    have hmem : b ∈ front ++ back := by
      rcases List.mem_append.mp hb with hb | hb
      · exact List.mem_append_left _ hb
      · exact List.mem_append_right _ ((List.dropWhile_suffix _).subset hb)
    exact hgap.spared hspares hmem (h₃.outside hb).2.2.2.2 hlow hhigh hcase
  refine ⟨s', ?_, hlayout, hframe⟩
  have hlast : Returns (fun _ : Nat => pushFreed P block.addr s₃) s' :=
    Returns.of_eq fun _ => hpush
  have hboth := hreturns.bind (k := fun _ => pushFreed P block.addr) hlast
  apply hboth.congr
  intro fuel
  have haddress : block.addr + (s.tag block.addr).blockSize * 16 - 8 = block.stop - 8 := by
    rw [htagged.headerSize]
    omega
  have hnext : block.addr + block.units * 16 = block.stop := by omega
  have hchecks : checkTags (s.tag block.addr) (s.tag (block.stop - 8)) = .ok () :=
    checkTags_eq (htagged.footerAllocated.trans hallocated) htagged.headerSize
      hconsistent.padded hconsistent.fits hconsistent.padded_iff
  rw [sfFree, Nat.add_sub_cancel, checkBounds_eq (by omega) (by omega), ok_bind,
    readTag_eq (hgap.inHeap_gap le_rfl (by omega)), ok_bind, htagged.headerAllocated,
    hallocated, if_neg (by simp), hheader, ok_bind, haddress]
  dsimp only
  rw [checkBounds_eq (by omega) (by omega), ok_bind, hfooter, ok_bind, hchecks, ok_bind, hclear,
    ok_bind, readTag_eq (h₂.inHeap_gap le_rfl (by omega)), ok_bind, hsize₂, hnext]

end SystemFundamentals.Sfmm
