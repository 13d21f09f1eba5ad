import SystemFundamentals.Sfmm.Free

/-!
# Placing a request in a free block

Main results:

- Theorem {lit}`place_eq`: a request is placed in the chosen block, and the remainder
  becomes a free block, provided the stale link words of the remainder read like those
  of a head.
-/

namespace SystemFundamentals.Sfmm

open Library Library.LinkedList

/-! ## The condition on the remainder -/

/-- The link words in the remainder of a block of list {lit}`i` read like those of the
head of that list, once the block itself is unlinked. -/
def RemainderClean (s : Heap) (i : Fin 4) (block required : Nat) : Prop :=
  s.prev (block + required) = 0 ∧
    s.next (block + required) = unlinkHead s.next s.prev 0 (s.head i) block

instance (s : Heap) (i : Fin 4) (block required : Nat) :
    Decidable (RemainderClean s i block required) :=
  inferInstanceAs (Decidable (_ ∧ _))

/-- The request fills the block, up to a splinter, or the remainder is clean. -/
def PlaceSafe (s : Heap) (i : Fin 4) (block required : Nat) : Prop :=
  (s.tag block).blockSize ≤ required / 16 + 1 ∨ RemainderClean s i block required

instance (s : Heap) (i : Fin 4) (block required : Nat) :
    Decidable (PlaceSafe s i block required) :=
  inferInstanceAs (Decidable (_ ∨ _))

namespace Gapped

variable {P : Platform} {checked : Prop} {orig : Memory} {keep : Block → Prop} {s : Heap}
  {front back pending : List Block} {lo hi : Nat} {lists : Fin 4 → List Nat} {block : Block}

/-- Kept blocks do not start in the gap. -/
theorem keep_ne (h : Gapped P checked orig keep s front lo hi back pending lists) (hlt : lo < hi)
    {b : Block} (hkeep : keep b) : b.addr ≠ lo := by
  have hout := h.outside (h.keepMem b hkeep).1
  unfold Block.stop at hout
  omega

/-! ## Unlinking the chosen block -/

/-- The forward link of the chosen block is cleared after the unlinking, unless it is
null. -/
theorem clearNext (h : Gapped P checked orig keep s front block.addr block.stop back [block] lists)
    (hfree : block.allocated = false) (i : Fin 4) {lists' : Fin 4 → List Nat}
    (hunlinked : Gapped P checked orig keep (unlinked s i block.addr) front block.addr
      block.stop back [] lists') :
    ∃ s', (if s.next block.addr = 0 then unlinked s i block.addr
        else (unlinked s i block.addr).setWord (block.addr + 8) 0) = s' ∧
      Gapped P checked orig keep s' front block.addr block.stop back [] lists' ∧
      s'.next block.addr = 0 ∧ s'.head = (unlinked s i block.addr).head ∧
      ∀ w, block.addr ≤ w → w + 8 ≤ block.stop → w % 8 = block.addr % 8 →
        w ≠ block.addr + 8 → s'.word w = s.word w := by
  have hunits := (h.pendingGap block List.mem_cons_self).2.2.1
  have hstop : block.stop = block.addr + 16 * block.units := rfl
  have hword {w : Nat} (hlow : block.addr ≤ w) (hhigh : w + 8 ≤ block.stop) :
      (unlinked s i block.addr).word w = s.word w := h.word_unlinked_gap hfree _ hlow hhigh
  by_cases hzero : s.next block.addr = 0
  · refine ⟨unlinked s i block.addr, if_pos hzero, hunlinked, ?_, rfl, ?_⟩
    · exact (hword (by omega) (by omega)).trans hzero
    · intro w hlow hhigh _ _
      exact hword hlow hhigh
  · refine ⟨(unlinked s i block.addr).setWord (block.addr + 8) 0, if_neg hzero, ?_, ?_,
      Heap.head_setWord .., ?_⟩
    · exact hunlinked.setWord 0 (by omega) (by omega)
    · show ((unlinked s i block.addr).setWord (block.addr + 8) 0).word (block.addr + 8) = 0
      rw [Heap.word_setWord_self, Nat.zero_mod]
    · intro w hlow hhigh halign hne
      rw [Heap.word_setWord_of_ne _ _ (by omega) (Ne.symm hne)]
      exact hword hlow hhigh

/-- The chosen block is unlinked and its links are cleared. -/
theorem chosen (h : Gapped P checked orig keep s front block.addr block.stop back [block] lists)
    (hfree : block.allocated = false) :
    ∃ s' lists', unlinkChosen P (classOf block.units) block.addr s = .ok s' ∧
      Gapped P checked orig keep s' front block.addr block.stop back [] lists' ∧
      s'.next block.addr = 0 ∧
      s'.head (classOf block.units) =
        unlinkHead s.next s.prev 0 (s.head (classOf block.units)) block.addr ∧
      ∀ w, block.addr ≤ w → w + 8 ≤ block.stop → w % 8 = block.addr % 8 →
        w ≠ block.addr + 8 → w ≠ block.addr + 16 → s'.word w = s.word w := by
  have hunits := (h.pendingGap block List.mem_cons_self).2.2.1
  have hstop : block.stop = block.addr + 16 * block.units := rfl
  rcases h.clearNext hfree _ (h.unlink hfree) with ⟨s', hs', hgapped, hnext, hhead, hword⟩
  have hunlink := h.unlinkChosen_eq hfree (classOf block.units)
  rw [unlinkedChosen, hs'] at hunlink
  refine ⟨_, _, hunlink, hgapped.setWord 0 (by omega) (by omega), ?_, ?_, ?_⟩
  · show (s'.setWord (block.addr + 16) 0).word (block.addr + 8) = 0
    rw [Heap.word_setWord_of_ne _ _ (by omega) (by omega)]
    exact hnext
  · rw [Heap.head_setWord, hhead, head_unlinked, Function.update_self]
  · intro w hlow hhigh halign hne hne'
    rw [Heap.word_setWord_of_ne _ _ (by omega) (Ne.symm hne')]
    exact hword w hlow hhigh halign hne

/-- The chosen block is off its list and marked as allocated. -/
theorem claimBlock_eq
    (h : Gapped P checked orig keep s front block.addr block.stop back [block] lists)
    (hfree : block.allocated = false) (hsize : (s.tag block.addr).blockSize = block.units) :
    ∃ s' lists', claimBlock P (classOf block.units) block.addr s = .ok s' ∧
      Gapped P checked orig keep s' front block.addr block.stop back [] lists' ∧
      (s'.tag block.addr).allocated = true ∧ (s'.tag block.addr).blockSize = block.units ∧
      s'.next block.addr = 0 ∧
      s'.head (classOf block.units) =
        unlinkHead s.next s.prev 0 (s.head (classOf block.units)) block.addr ∧
      ∀ w, block.addr + 24 ≤ w → w + 16 ≤ block.stop → w % 8 = block.addr % 8 →
        s'.word w = s.word w := by
  have hunits := (h.pendingGap block List.mem_cons_self).2.2.1
  have hstop : block.stop = block.addr + 16 * block.units := rfl
  have hlimit := h.size_le
  rcases h.chosen hfree with ⟨s₁, lists₁, hchosen, h₁, hnext₁, hhead₁, hword₁⟩
  have hsize₁ : (s₁.tag block.addr).blockSize = block.units := by
    have hword := hword₁ block.addr le_rfl (by omega) rfl (by omega) (by omega)
    rw [Heap.tag_congr hword]
    exact hsize
  rcases h₁.writeTag_gap block.addr (fun header => { header with allocated := true }) le_rfl
    (by omega) with ⟨s₂, hwrite₂, h₂, htag₂, hhead₂, hword₂⟩
  rw [Tag.ofWord_toWord] at htag₂
  have hallocated₂ : (s₂.tag block.addr).allocated = true := by rw [htag₂]
  have hsize₂ : (s₂.tag block.addr).blockSize = block.units := by
    rw [htag₂]
    show (s₁.tag block.addr).blockSize % 2 ^ 28 = block.units
    rw [hsize₁]
    exact Nat.mod_eq_of_lt (by omega)
  rcases h₂.store_gap (block.stop - 8) 0 (by omega) (by omega) with
    ⟨s₃, hstore₃, h₃, -, hhead₃, hword₃⟩
  have htag₃ : s₃.tag block.addr = s₂.tag block.addr :=
    Heap.tag_congr (hword₃ _ (by omega) (by omega))
  have haddress : block.addr + (s₂.tag block.addr).blockSize * 16 - 8 = block.stop - 8 := by
    rw [hsize₂]
    omega
  refine ⟨s₃, lists₁, ?_, h₃, by rw [htag₃]; exact hallocated₂, by rw [htag₃]; exact hsize₂,
    ?_, ?_, ?_⟩
  · rw [claimBlock, hchosen, ok_bind, hwrite₂, ok_bind, h₂.readTag_gap le_rfl (by omega),
      ok_bind, haddress]
    exact hstore₃
  · show s₃.word (block.addr + 8) = 0
    rw [hword₃ _ (by omega) (by omega), hword₂ _ (by omega) (by omega)]
    exact hnext₁
  · rw [hhead₃, hhead₂]
    exact hhead₁
  · intro w hlow hhigh halign
    rw [hword₃ w (by omega) (by omega), hword₂ w halign (by omega)]
    exact hword₁ w (by omega) (by omega) halign (by omega) (by omega)

/-! ## The block that is handed out -/

/-- The tags of the block that is handed out.  The padded bit tells whether the request
leaves room. -/
theorem writeAllocated_eq (h : Gapped P checked orig keep s front lo hi back [] lists)
    {size units : Nat} {padding : Bool} (hunits : 2 ≤ units) (hroom : lo + 16 * units ≤ hi)
    (hallocated : (s.tag lo).allocated = true) (hsize : size + 16 ≤ units * 16)
    (hpadding : padding = true ↔ size + 16 ≠ units * 16) :
    ∃ s', writeAllocated P size units padding lo s = .ok s' ∧
      Gapped P checked orig keep s' front lo hi back [] lists ∧
      Tagged checked s' ⟨lo, units, true⟩ ∧ Records s' ⟨lo, units, true⟩ size ∧
      s'.head = s.head ∧
      ∀ w, w % 8 = lo % 8 → w ≠ lo → w ≠ lo + 16 * units - 8 → s'.word w = s.word w := by
  have hlimit := h.size_le
  have hunitsMod : units % 2 ^ 28 = units := Nat.mod_eq_of_lt (by omega)
  have hsizeMod : size % 2 ^ 32 = size := Nat.mod_eq_of_lt (by omega)
  rcases h.writeTag_gap lo
    (fun header => { header with blockSize := units, padded := padding }) le_rfl
    (by omega) with ⟨s₁, hwrite₁, h₁, htag₁, hhead₁, hword₁⟩
  rw [Tag.ofWord_toWord] at htag₁
  have hsize₁ : (s₁.tag lo).blockSize = units := by
    rw [htag₁]
    exact hunitsMod
  have hsizeMod₁ : (s₁.tag lo).blockSize % 2 ^ 28 = units := by rw [hsize₁, hunitsMod]
  have haddress : lo + (s₁.tag lo).blockSize * 16 - 8 = lo + 16 * units - 8 := by
    rw [hsize₁]
    omega
  rcases h₁.writeTag_gap (lo + 16 * units - 8) (fun footer =>
      { footer with
        allocated := true, padded := padding, blockSize := (s₁.tag lo).blockSize
        upper := size }) (by omega) (by omega) with
    ⟨s₂, hwrite₂, h₂, htag₂, hhead₂, hword₂⟩
  rw [Tag.ofWord_toWord] at htag₂
  have hheader₂ : s₂.tag lo = s₁.tag lo := Heap.tag_congr (hword₂ lo (by omega) (by omega))
  have htagged : Tagged checked s₂ ⟨lo, units, true⟩ ∧ Records s₂ ⟨lo, units, true⟩ size := by
    refine tagged_of_request ?_ ?_ hsize hpadding
    · rw [hheader₂, htag₁]
      exact ⟨hallocated, hunitsMod, rfl⟩
    · rw [htag₂]
      exact ⟨rfl, hsizeMod₁, rfl, hsizeMod⟩
  refine ⟨s₂, ?_, h₂, htagged.1, htagged.2, hhead₂.trans hhead₁, ?_⟩
  · rw [writeAllocated, hwrite₁, ok_bind, h₁.readTag_gap le_rfl (by omega), ok_bind,
      haddress]
    exact hwrite₂
  · intro w halign hne hne'
    rw [hword₂ w (by omega) hne', hword₁ w halign hne]

/-! ## The remainder -/

/-- A clean remainder is not linked to anything, and taking it off the list only clears
its forward link. -/
theorem unlinkRemainder_eq (h : Gapped P checked orig keep s front lo hi back [] lists)
    (hroom : lo + 32 ≤ hi) {i : Fin 4} (hprev : s.prev lo = 0) (hnext : s.next lo = s.head i) :
    ∃ s', unlinkRemainder P i lo s = .ok s' ∧
      Gapped P checked orig keep s' front lo hi back [] lists ∧
      ∀ w, w % 8 = lo % 8 → w ≠ lo + 8 → s'.word w = s.word w := by
  have hprevLoad : load P s (lo + 16) = .ok 0 := by
    rw [← hprev]
    exact load_eq (h.inHeap_gap (by omega) (by omega))
  have hnextLoad : load P s (lo + 8) = .ok (s.head i) := by
    rw [← hnext]
    exact load_eq (h.inHeap_gap (by omega) (by omega))
  unfold unlinkRemainder
  rw [hprevLoad, ok_bind, hnextLoad, ok_bind, if_neg (by simp), Heap.setHead_eq_self rfl]
  simp only [ok_bind, hnextLoad]
  by_cases hzero : s.head i = 0
  · rw [if_neg (not_not.mpr hzero)]
    exact ⟨s, rfl, h, fun _ _ _ => rfl⟩
  · -- the backward link of the head is null already
    have hmem := (h.linked i).head_mem hzero
    have hbounds := h.listed_bounds hmem
    have hheadPrev : s.word (s.head i + 16) = 0 := ((h.linked i).prev_eq_null_iff hmem).mpr rfl
    have hstore : store P s (s.head i + 16) 0 = .ok s := by
      rw [store_eq ⟨by omega, by omega⟩, Heap.setWord_eq_self hheadPrev]
    rcases h.store_gap (lo + 8) 0 (by omega) (by omega) with
      ⟨s', hclear, h', -, -, hword⟩
    rw [if_pos hzero, hprevLoad, ok_bind, hstore, ok_bind]
    refine ⟨s', hclear, h', ?_⟩
    intro w halign hne
    exact hword w (by omega) hne

/-- A clean remainder becomes a free block of the list of its size. -/
theorem placeRemainder_eq (h : Gapped P checked orig keep s front lo hi back [] lists)
    (hroom : lo + 32 ≤ hi) {i : Fin 4} {units : Nat} (hunits : units * 16 = hi - lo)
    (hprev : s.prev lo = 0) (hnext : s.next lo = s.head i) :
    ∃ s' lists', placeRemainder P i lo units s = .ok s' ∧
      Gapped P checked orig keep s' (front ++ [⟨lo, (hi - lo) / 16, false⟩]) hi hi back [] lists' ∧
      ∀ b ∈ front ++ back, b.allocated = true → ∀ w, w % 8 = lo % 8 → b.addr ≤ w →
        w + 8 ≤ b.stop → s'.word w = s.word w := by
  have hlimit := h.size_le
  have hmod := h.gap_mod
  have hunitsMod : units % 2 ^ 28 = units := Nat.mod_eq_of_lt (by omega)
  rcases h.writeTag_gap lo (fun header => { header with allocated := false, blockSize := units })
    le_rfl (by omega) with ⟨s₁, hwrite₁, h₁, htag₁, hhead₁, hword₁⟩
  rw [Tag.ofWord_toWord] at htag₁
  have hsize₁ : (s₁.tag lo).blockSize = units := by
    rw [htag₁]
    exact hunitsMod
  have hfree₁ : (s₁.tag lo).allocated = false := by rw [htag₁]
  rcases h₁.writeTag_gap (hi - 8)
    (fun footer => { footer with allocated := false, blockSize := units }) (by omega)
    (by omega) with ⟨s₂, hwrite₂, h₂, htag₂, hhead₂, hword₂⟩
  rw [Tag.ofWord_toWord] at htag₂
  have hsize₂ : (s₂.tag (hi - 8)).blockSize = units := by
    rw [htag₂]
    exact hunitsMod
  have hfree₂ : (s₂.tag (hi - 8)).allocated = false := by rw [htag₂]
  -- the link words are still the stale ones
  have hstale {w : Nat} (halign : w % 8 = lo % 8) (hne : w ≠ lo) (hne' : w ≠ hi - 8) :
      s₂.word w = s.word w := by
    rw [hword₂ w (by omega) hne', hword₁ w halign hne]
  have hprev₂ : s₂.prev lo = 0 := (hstale (by omega) (by omega) (by omega)).trans hprev
  have hnext₂ : s₂.next lo = s₂.head i := by
    rw [hhead₂, hhead₁, ← hnext]
    exact hstale (by omega) (by omega) (by omega)
  rcases h₂.unlinkRemainder_eq hroom hprev₂ hnext₂ with ⟨s₃, hunlink, h₃, hword₃⟩
  have hheader₃ : s₃.tag lo = s₁.tag lo := by
    apply Heap.tag_congr
    rw [hword₃ lo rfl (by omega), hword₂ lo (by omega) (by omega)]
  have hfooter₃ : s₃.tag (hi - 8) = s₂.tag (hi - 8) :=
    Heap.tag_congr (hword₃ _ (by omega) (by omega))
  have hprev₃ : s₃.prev lo = 0 := (hword₃ _ (by omega) (by omega)).trans hprev₂
  rcases h₃.closeFree hroom (by rw [hheader₃, hsize₁]; exact ⟨hfree₁, hunits⟩)
    (by rw [hfooter₃, hsize₂]; exact ⟨hfree₂, hunits⟩) hprev₃ with
    ⟨s', hinsert, hclosed, hspares⟩
  have haddress : lo + (s₁.tag lo).blockSize * 16 - 8 = hi - 8 := by
    rw [hsize₁, hunits]
    omega
  refine ⟨s', _, ?_, hclosed, ?_⟩
  · rw [placeRemainder, hwrite₁, ok_bind, h₁.readTag_gap le_rfl (by omega), ok_bind, haddress,
      hwrite₂, ok_bind, hunlink, ok_bind]
    exact hinsert
  · intro b hb hallocated w halign hlow hhigh
    have hout := h.outside hb
    have hlast : s'.word w = s₃.word w := by
      apply Memory.readWord_congr
      intro k hk
      exact h₃.spared hspares hb hout.2.2.2.2 (by omega) (by omega) (Or.inl hallocated)
    rw [hlast, hword₃ w halign (by omega)]
    exact hstale halign (by omega) (by omega)

end Gapped

/-! ## Placing -/

variable {P : Platform} {checked : Prop} {orig : Memory} {keep : Block → Prop} {s : Heap}
  {front back : List Block} {lo : Nat} {lists : Fin 4 → List Nat} {block : Block}

/-- The state after a request has been placed: a well-formed heap in which an allocated
block at the chosen address has room for the request within the free block that was
there, and which is none of the kept blocks. -/
structure Placed (P : Platform) (checked : Prop) (orig : Memory) (keep : Block → Prop)
    (size room addr : Nat) (s : Heap) : Prop where
  layout : ∃ blocks lists, Gapped P checked orig keep s blocks s.heapEnd s.heapEnd [] [] lists ∧
    ∃ units, ⟨addr, units, true⟩ ∈ blocks ∧ Records s ⟨addr, units, true⟩ size ∧ units ≤ room
  fresh : ∀ b, keep b → b.addr ≠ addr
  next_eq : s.next addr = 0
  header : (s.tag addr).allocated = true

/-- A request that fills the claimed block. -/
theorem place_whole (h : Gapped P checked orig keep s front block.addr block.stop back [] lists)
    (hunits : 2 ≤ block.units) (hallocated : (s.tag block.addr).allocated = true)
    (hnext : s.next block.addr = 0) {size : Nat} {padding : Bool}
    (hsize : size + 16 ≤ block.units * 16)
    (hpadding : padding = true ↔ size + 16 ≠ block.units * 16) :
    ∃ s', writeAllocated P size block.units padding block.addr s = .ok s' ∧
      Placed P checked orig keep size block.units block.addr s' := by
  have hstop : block.stop = block.addr + 16 * block.units := rfl
  rcases h.writeAllocated_eq hunits (by omega) hallocated hsize hpadding with
    ⟨s', hwrite, h', htagged, hrecords, -, hword⟩
  have haddr : (⟨block.addr, block.units, true⟩ : Block).addr = block.addr := rfl
  have hput := h'.putAllocated haddr hunits le_rfl rfl htagged
  refine ⟨s', hwrite, ⟨⟨_, _, hput.close, block.units, by simp, hrecords, le_rfl⟩, ?_, ?_, ?_⟩⟩
  · intro b hkeep
    exact h.keep_ne (by omega) hkeep
  · exact (hword _ (by omega) (by omega) (by omega)).trans hnext
  · exact htagged.headerAllocated

/-- A request that leaves a remainder of the claimed block. -/
theorem place_split (h : Gapped P checked orig keep s front block.addr block.stop back [] lists)
    (hallocated : (s.tag block.addr).allocated = true) (hnext : s.next block.addr = 0)
    {size units : Nat} {padding : Bool} (hunits : 2 ≤ units) (hroom : units + 2 ≤ block.units)
    (hsize : size + 16 ≤ units * 16) (hpadding : padding = true ↔ size + 16 ≠ units * 16)
    {i : Fin 4} (hstalePrev : s.prev (block.addr + units * 16) = 0)
    (hstaleNext : s.next (block.addr + units * 16) = s.head i) :
    ∃ s₁ s', writeAllocated P size units padding block.addr s = .ok s₁ ∧
      readTag P s₁ block.addr = .ok (s₁.tag block.addr) ∧
      (s₁.tag block.addr).blockSize = units ∧
      placeRemainder P i (block.addr + units * 16) (block.units - units) s₁ = .ok s' ∧
      Placed P checked orig keep size block.units block.addr s' := by
  have hstop : block.stop = block.addr + 16 * block.units := rfl
  rcases h.writeAllocated_eq hunits (by omega) hallocated hsize hpadding with
    ⟨s₁, hwrite, h₁, htagged, hrecords, hhead, hword⟩
  let first : Block := ⟨block.addr, units, true⟩
  have hfirst : first.stop = block.addr + units * 16 := by
    show block.addr + 16 * units = _
    omega
  have hput : Gapped P checked orig keep s₁ (front ++ [first])
      (block.addr + units * 16) block.stop back
      [] lists := by
    rw [← hfirst]
    exact h₁.putAllocated rfl hunits (by omega) rfl htagged
  have hprev₁ : s₁.prev (block.addr + units * 16) = 0 :=
    (hword _ (by omega) (by omega) (by omega)).trans hstalePrev
  have hnext₁ : s₁.next (block.addr + units * 16) = s₁.head i := by
    rw [hhead, ← hstaleNext]
    exact hword _ (by omega) (by omega) (by omega)
  have hrest : (block.units - units) * 16 = block.stop - (block.addr + units * 16) := by omega
  rcases hput.placeRemainder_eq (by omega) hrest hprev₁ hnext₁ with
    ⟨s', lists', hplace, hclosed, hkept⟩
  have hmem : first ∈ front ++ [first] ++ back := by simp
  have hfirstTagged := hclosed.tagged first (by simp)
  -- the words of the first block stay as they are
  have hfirstWord {w : Nat} (halign : w % 8 = block.addr % 8) (hlow : block.addr ≤ w)
      (hhigh : w + 8 ≤ block.addr + units * 16) : s'.word w = s₁.word w :=
    hkept first hmem rfl w (by omega) hlow (by rw [hfirst]; exact hhigh)
  have hrecords' : Records s' first size := by
    apply hrecords.congr
    · exact Heap.tag_congr (hfirstWord rfl le_rfl
        (show block.addr + 8 ≤ block.addr + units * 16 by omega))
    · rw [show Block.stop ⟨block.addr, units, true⟩ = block.addr + units * 16 from hfirst]
      exact Heap.tag_congr (hfirstWord (by omega) (by omega) (by omega))
  refine ⟨s₁, s', hwrite, h₁.readTag_gap le_rfl (by omega), htagged.headerSize, hplace,
    ⟨⟨_, _, hclosed.close, units, by simp [first], hrecords', by omega⟩, ?_, ?_, ?_⟩⟩
  · intro b hkeep
    exact h.keep_ne (by omega) hkeep
  · have hlast : s'.word (block.addr + 8) = s₁.word (block.addr + 8) :=
      hfirstWord (by omega) (by omega) (by omega)
    exact hlast.trans ((hword _ (by omega) (by omega) (by omega)).trans hnext)
  · exact hfirstTagged.headerAllocated

/-- A request is placed in a free block with room for it, provided the remainder of the
block, if there is one, is clean. -/
theorem place_eq (h : Gapped P checked orig keep s (front ++ block :: back) lo lo [] [] lists)
    (hfree : block.allocated = false) {size required allocatedBlock : Nat} {padding : Bool}
    (hrequired : required % 16 = 0) (hmin : 32 ≤ required) (hsize : size + 16 ≤ required)
    (hroom : required / 16 ≤ block.units) (hpadding : padding = true ↔ size + 16 ≠ required)
    (hsafe : PlaceSafe s (classOf block.units) block.addr required) :
    ∃ s' required' padding', place P size (classOf block.units) block.addr
        ⟨s, required, padding, allocatedBlock⟩ =
          .ok ⟨s', required', padding', block.addr + 8⟩ ∧
      Placed P checked orig keep size block.units block.addr s' := by
  rcases h.move with ⟨middle, hmoved⟩
  rw [List.append_nil] at hmoved
  have htagged := hmoved.tagged block (List.mem_append_right _ List.mem_cons_self)
  rcases hmoved.backTiles with ⟨rfl, hunits, -⟩
  rcases (hmoved.takeBack hfree).claimBlock_eq hfree htagged.headerSize with
    ⟨s₁, lists₁, hclaim, h₁, hallocated₁, hsize₁, hnext₁, hhead₁, hword₁⟩
  have hstop : block.stop = block.addr + 16 * block.units := rfl
  have hread : readTag P s₁ block.addr = .ok (s₁.tag block.addr) :=
    h₁.readTag_gap le_rfl (by omega)
  unfold place
  rw [hclaim, ok_bind, hread, ok_bind, hsize₁]
  by_cases hsplinter : block.units - required / 16 = 1
  · -- a remainder of one unit is given to the request
    have hwholeUnits : (required + 16) / 16 = block.units := by omega
    have hpadding' : true = true ↔ size + 16 ≠ block.units * 16 := by
      constructor
      · intro _
        omega
      · intro _
        rfl
    rcases place_whole h₁ hunits hallocated₁ hnext₁ (by omega) hpadding' with
      ⟨s', hwrite, hplaced⟩
    refine ⟨s', required + 16, true, ?_, hplaced⟩
    simp only [if_pos hsplinter, hwholeUnits, lt_irrefl, if_false, ne_eq, not_true, hwrite,
      ok_bind]
  · by_cases hwhole : required / 16 = block.units
    · have hpadding' : padding = true ↔ size + 16 ≠ block.units * 16 := by
        rw [hpadding, ← hwhole]
        omega
      rcases place_whole h₁ hunits hallocated₁ hnext₁ (by omega) hpadding' with
        ⟨s', hwrite, hplaced⟩
      refine ⟨s', required, padding, ?_, hplaced⟩
      simp only [if_neg hsplinter]
      simp only [hwhole, lt_irrefl, if_false, ne_eq, not_true, hwrite, ok_bind]
    · have hclean : RemainderClean s (classOf block.units) block.addr required := by
        rcases hsafe with hfits | hclean
        · rw [htagged.headerSize] at hfits
          omega
        · exact hclean
      have hexact : required / 16 * 16 = required := by omega
      have hpadding' : padding = true ↔ size + 16 ≠ required / 16 * 16 := by
        rw [hpadding, hexact]
      have hprev₁ : s₁.prev (block.addr + required / 16 * 16) = 0 := by
        rw [hexact, ← hclean.1]
        exact hword₁ _ (by omega) (by omega) (by omega)
      have hnext₁' : s₁.next (block.addr + required / 16 * 16) =
          s₁.head (classOf block.units) := by
        rw [hexact, hhead₁, ← hclean.2]
        exact hword₁ _ (by omega) (by omega) (by omega)
      rcases place_split h₁ hallocated₁ hnext₁ (by omega) (by omega) (by omega) hpadding' hprev₁
        hnext₁' with ⟨s₂, s', hwrite, hread₂, hsize₂, hremainder, hplaced⟩
      refine ⟨s', required, padding, ?_, hplaced⟩
      have hsecond : block.units - required / 16 ≠ 0 := by omega
      have hlt : required / 16 < block.units := by omega
      simp only [if_neg hsplinter]
      simp only [if_pos hlt, hwrite, ok_bind]
      rw [if_pos hsecond, hread₂, ok_bind, hsize₂, hremainder]
      rfl

end SystemFundamentals.Sfmm
