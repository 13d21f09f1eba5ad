import SystemFundamentals.Sfmm.Search
import Mathlib.Data.List.DropRight

/-!
# Growing the heap

A new page is merged with the free blocks before it, down to an allocated block or to
the first block of the heap.  The merging keeps the memory right whatever the heads
are, and it always resets the head of the last list.  So the blocks and the links are
those of a layout with other heads, and the heads are right when every merged head was
the head of the last list.

Main results:

- Theorem {lit}`mergePage_eq`: one turn of the backward merging.
- Theorem {lit}`coalesceBackward_returns`: what the merging makes of the blocks, the
  lists and the heads.
-/

namespace SystemFundamentals.Sfmm

open Library Library.LinkedList

/-! ## Other heads -/

/-- The heap with other heads. -/
def Heap.withHead (s : Heap) (head : Fin 4 → Nat) : Heap := { s with head }

@[simp] theorem Heap.head_withHead (s : Heap) (head : Fin 4 → Nat) :
    (s.withHead head).head = head := rfl

@[simp] theorem Heap.heapEnd_withHead (s : Heap) (head : Fin 4 → Nat) :
    (s.withHead head).heapEnd = s.heapEnd := rfl

@[simp] theorem Heap.word_withHead (s : Heap) (head : Fin 4 → Nat) (w : Nat) :
    (s.withHead head).word w = s.word w := rfl

@[simp] theorem Heap.tag_withHead (s : Heap) (head : Fin 4 → Nat) (w : Nat) :
    (s.withHead head).tag w = s.tag w := Heap.tag_congr rfl

theorem Heap.withHead_self (s : Heap) : s.withHead s.head = s := rfl

/-- The heads do not matter for what unlinking does to the memory. -/
theorem unlinked_withHead (s : Heap) (head : Fin 4 → Nat) (i j : Fin 4) (block : Nat) :
    (unlinked s j block).withHead (unlinked (s.withHead head) i block).head =
      unlinked (s.withHead head) i block := by
  unfold unlinked forwarded
  by_cases hprev : s.prev block = 0
  · by_cases hnext : s.next block = 0
    · rw [if_pos hnext, if_pos hprev, if_pos (show (s.withHead head).next block = 0 from hnext),
        if_pos (show (s.withHead head).prev block = 0 from hprev)]
      rfl
    · rw [if_neg hnext, if_pos hprev, if_neg (show ¬ (s.withHead head).next block = 0 from hnext),
        if_pos (show (s.withHead head).prev block = 0 from hprev)]
      rfl
  · by_cases hnext : s.next block = 0
    · rw [if_pos hnext, if_neg hprev, if_pos (show (s.withHead head).next block = 0 from hnext),
        if_neg (show ¬ (s.withHead head).prev block = 0 from hprev)]
      rfl
    · rw [if_neg hnext, if_neg hprev, if_neg (show ¬ (s.withHead head).next block = 0 from hnext),
        if_neg (show ¬ (s.withHead head).prev block = 0 from hprev)]
      rfl

variable {P : Platform} {checked : Prop} {orig : Memory} {keep : Block → Prop} {s : Heap}
  {front back run : List Block} {lo hi : Nat} {lists : Fin 4 → List Nat}
  {heads : Fin 4 → Nat} {block stopper : Block}

/-! ## One turn -/

theorem classOf_eq_last {units : Nat} (h : 2048 < units * 16) : classOf units = 3 := by
  unfold classOf
  rw [if_neg (by omega), if_neg (by omega), if_neg (by omega)]

/-- One turn of the backward merging: the block before the gap is taken in.  The heads
that the layout asks for are kept apart from those of the heap, of which only that of
the last list can change. -/
theorem mergePage_eq
    (h : Gapped P checked orig keep (s.withHead heads) (front ++ [block]) lo hi back [] lists)
    (hfree : block.allocated = false) (hpage : lo + PAGE_SZ ≤ hi)
    (hsize : (s.tag lo).blockSize * 16 = hi - lo) :
    ∃ s' heads', mergePage P lo block.addr s = .ok s' ∧
      Gapped P checked orig keep (s'.withHead heads') front block.addr hi back []
        (Function.update lists (classOf block.units)
          ((lists (classOf block.units)).erase block.addr)) ∧
      (s'.tag block.addr).blockSize * 16 = hi - block.addr ∧
      s'.prev block.addr = s.prev block.addr ∧ s'.heapEnd = s.heapEnd ∧
      s'.head = Function.update s.head 3 (unlinkHead s.next s.prev 0 (s.head 3) block.addr) ∧
      heads' = Function.update heads (classOf block.units)
        (unlinkHead s.next s.prev 0 (heads (classOf block.units)) block.addr) := by
  have htagged := h.tagged block (by simp)
  have htag : (s.tag block.addr).blockSize = block.units := by
    rw [← Heap.tag_withHead s heads]
    exact htagged.headerSize
  rcases tiles_append.mp h.frontTiles with ⟨middle, hfront, rfl, hunits, hstop⟩
  have hstop' : block.addr + 16 * block.units = lo := hstop
  have hback := h.backTiles.le
  have hstart := h.frontTiles.le
  have hwide := h.takeFront hfree
  have hlimit := hwide.size_le
  have hmod := h.gap_mod
  unfold PAGE_SZ at hpage
  rw [Heap.heapEnd_withHead] at hback
  -- the header of the block grows first
  let header : Tag :=
    { s.tag block.addr with blockSize := (s.tag block.addr).blockSize + (s.tag lo).blockSize }
  let s₁ := s.setWord block.addr header.toWord
  have hgrown : Gapped P checked orig keep (s₁.withHead heads) front block.addr hi back [block]
      lists := hwide.setWord_pending _ le_rfl (by omega) (Or.inl le_rfl)
  have hsize₁ : (s₁.tag block.addr).blockSize * 16 = hi - block.addr := by
    rw [Heap.tag_setWord_self, Tag.ofWord_toWord]
    show ((s.tag block.addr).blockSize + (s.tag lo).blockSize) % 2 ^ 28 * 16 = hi - block.addr
    rw [htag]
    omega
  have hnext₁ : s₁.next block.addr = s.next block.addr :=
    Heap.word_setWord_of_ne s _ (by omega) (by omega)
  have hprev₁ : s₁.prev block.addr = s.prev block.addr :=
    Heap.word_setWord_of_ne s _ (by omega) (by omega)
  -- so that the last list is looked up when the block is a head
  have hlast : listIndex ((s₁.tag block.addr).blockSize * 16) = .ok 3 := by
    have hclass : classOf (s₁.tag block.addr).blockSize = 3 := classOf_eq_last (by omega)
    rw [← hclass]
    exact listIndex_eq (by omega)
  have hlinks : LinksInHeap P s₁ block.addr := by
    have hlinks := hgrown.linksInHeap hfree
    exact ⟨hlinks.low, hlinks.high, hlinks.prev, hlinks.next⟩
  have hunlink := hlinks.unlinkMerged_eq (fun _ => hlast)
  have hsame := unlinked_withHead s₁ heads (classOf block.units) 3 block.addr
  have hclosed := hgrown.unlink hfree
  rw [← hsame] at hclosed
  have hword {w : Nat} (hlow : block.addr ≤ w) (hhigh : w + 8 ≤ hi) :
      (unlinked s₁ 3 block.addr).word w = s₁.word w := by
    have hgap := hgrown.word_unlinked_gap hfree (classOf block.units) hlow hhigh
    rw [← hsame, Heap.word_withHead, Heap.word_withHead] at hgap
    exact hgap
  refine ⟨unlinked s₁ 3 block.addr, _, ?_, hclosed, ?_, ?_, heapEnd_unlinked .., ?_, ?_⟩
  · have hpageHeader : InHeap P s lo := ⟨hstart, by omega⟩
    have hheader : InHeap P s block.addr := ⟨hlinks.low, by omega⟩
    rw [mergePage, readTag_eq hpageHeader, ok_bind, writeTag_eq hheader, ok_bind]
    exact hunlink
  · rw [Heap.tag_congr (hword le_rfl (by omega))]
    exact hsize₁
  · exact (hword (by omega) (by omega)).trans hprev₁
  · rw [head_unlinked]
    unfold unlinkHead
    rw [hnext₁, hprev₁]
    rfl
  · rw [head_unlinked]
    unfold unlinkHead
    rw [show (s₁.withHead heads).next block.addr = s.next block.addr from hnext₁,
      show (s₁.withHead heads).prev block.addr = s.prev block.addr from hprev₁]
    rfl

/-! ## The whole merging -/

/-- A free block has no predecessor exactly when it is the first of its list. -/
theorem Gapped.prev_eq_zero_iff (h : Gapped P checked orig keep s front lo hi back [] lists)
    (hblock : block ∈ front ++ back) (hfree : block.allocated = false) :
    (s.prev block.addr = 0 ↔ s.head (classOf block.units) = block.addr) ∧
      (s.prev block.addr = 0 ↔ (lists (classOf block.units)).head? = some block.addr) := by
  have hmem : block.addr ∈ lists (classOf block.units) := by
    apply (h.listed _ _).mpr
    exact ⟨block, by simpa using hblock, hfree, rfl, rfl⟩
  have hlinked := h.linked (classOf block.units)
  have hiff := hlinked.prev_eq_null_iff hmem
  refine ⟨hiff, hiff.trans ?_⟩
  rw [hlinked.head_eq]
  cases hcase : lists (classOf block.units) with
  | nil =>
      rw [hcase] at hmem
      exact absurd hmem List.not_mem_nil
  | cons a nodes => simp

/-- The block that ends where the gap starts is found by way of its footer. -/
theorem Gapped.subAddress_footer
    (h : Gapped P checked orig keep s (front ++ [block]) lo hi back [] lists) :
    InHeap P s (lo - 8) ∧
      subAddress lo ((s.tag (lo - 8)).blockSize * 16) = block.addr := by
  have htagged := h.tagged block (by simp)
  rcases tiles_append.mp h.frontTiles with ⟨middle, hfront, rfl, hunits, hstop⟩
  have hstop' : block.stop = lo := hstop
  have hsum : block.addr + 16 * block.units = lo := hstop
  have hstart := hfront.le
  have hend := h.heapEnd_le
  have htop := P.heapTop_lt
  have hback := h.backTiles.le
  have hgap := h.gap_le
  have hsize := htagged.footerSize
  rw [hstop'] at hsize
  constructor
  · exact ⟨by omega, by omega⟩
  · rw [hsize]
    unfold subAddress
    omega

/-- What merging a new page with the free blocks {lit}`run` before it makes of the heap:
the gap now starts at the lowest of them, they are off the lists, and only the head of
the last list can have changed. -/
structure Merged (P : Platform) (checked : Prop) (orig : Memory) (keep : Block → Prop)
    (front run : List Block) (lo hi : Nat) (back : List Block) (lists : Fin 4 → List Nat)
    (heads : Fin 4 → Nat) (s s' : Heap) (start : Nat) : Prop where
  gapped : ∃ heads', Gapped P checked orig keep (s'.withHead heads') front start hi back []
      (fun i => without run (lists i)) ∧
    (s.head = heads →
      (∀ b ∈ run, classOf b.units ≠ 3 → heads (classOf b.units) ≠ b.addr) → s'.head = heads')
  size : (s'.tag start).blockSize * 16 = hi - start
  heapEnd_eq : s'.heapEnd = s.heapEnd
  head_eq : ∀ i, i ≠ 3 → s'.head i = s.head i
  start_eq : start = (run.map Block.addr).headD lo
  unmerged : run = [] → s' = s
  prev_eq : ∀ first rest, run = first :: rest →
    (s'.prev first.addr = 0 ↔
      (without rest (lists (classOf first.units))).head? = some first.addr)

/-- The merging stops where it starts when there is no free block before the page, or
only the first block of the heap. -/
theorem coalesceBackward_stop
    (h : Gapped P checked orig keep (s.withHead heads) (front ++ [stopper]) lo hi back [] lists)
    (hstopper : stopper.allocated = true ∨ stopper.addr = P.heapStart) :
    Returns (fun fuel => coalesceBackward P fuel lo stopper.addr s) (s, lo) := by
  have htagged := h.tagged stopper (by simp)
  have hbounds := h.outside (List.mem_append_left back (List.mem_append_right front
    (List.mem_singleton_self stopper)))
  rw [Heap.heapEnd_withHead] at hbounds
  unfold Block.stop at hbounds
  apply Returns.succ
  apply Returns.of_eq
  intro fuel
  rw [coalesceBackward]
  by_cases hstart : P.heapStart < stopper.addr
  · have hallocated : (s.tag stopper.addr).allocated = true := by
      rw [← Heap.tag_withHead s heads, htagged.headerAllocated]
      rcases hstopper with hallocated | heq
      · exact hallocated
      · omega
    have hheader : InHeap P s stopper.addr := ⟨by omega, by omega⟩
    rw [if_pos hstart, readTag_eq hheader, ok_bind, hallocated]
    rfl
  · rw [if_neg hstart]

/-- Without a free block before the page nothing is merged. -/
theorem Merged.nil {front : List Block}
    (h : Gapped P checked orig keep (s.withHead heads) front lo hi back [] lists)
    (hsize : (s.tag lo).blockSize * 16 = hi - lo) :
    Merged P checked orig keep front [] lo hi back lists heads s s lo := by
  have hlists : (fun i => without [] (lists i)) = lists := by
    funext i
    exact without_nil _
  refine ⟨⟨heads, ?_, fun heq _ => heq⟩, hsize, rfl, fun _ _ => rfl, rfl, fun _ => rfl, ?_⟩
  · rw [hlists]
    exact h
  · intro first rest hnil
    exact absurd hnil (List.cons_ne_nil first rest).symm

section Turn

variable {s₁ s' : Heap} {heads₁ : Fin 4 → Nat} {start : Nat}

/-- Off its list, a block that is not the first of another list leaves the heads that the layout
asks for in step with those of the heap. -/
theorem heads_of_mergePage (heq : s.head = heads)
    (hhead₁ : s₁.head = Function.update s.head 3
      (unlinkHead s.next s.prev 0 (s.head 3) block.addr))
    (hheads₁ : heads₁ = Function.update heads (classOf block.units)
      (unlinkHead s.next s.prev 0 (heads (classOf block.units)) block.addr))
    (hlast : s.prev block.addr = 0 → classOf block.units = 3) :
    s₁.head = heads₁ ∧
      ∀ i, i ≠ 3 → heads₁ i = heads i := by
  rw [hhead₁, hheads₁, heq]
  by_cases hzero : s.prev block.addr = 0
  · rw [hlast hzero]
    exact ⟨rfl, fun i hi => Function.update_of_ne hi _ _⟩
  · unfold unlinkHead
    rw [if_neg hzero, if_neg hzero, Function.update_eq_self, Function.update_eq_self]
    exact ⟨rfl, fun _ _ => rfl⟩

/-- What is merged behind a turn, with the block of the turn. -/
theorem Merged.concat {front before : List Block}
    (h : Gapped P checked orig keep (s.withHead heads) (before ++ [block]) lo hi back [] lists)
    (hfree : block.allocated = false)
    (hprev₁ : s₁.prev block.addr = s.prev block.addr) (hend₁ : s₁.heapEnd = s.heapEnd)
    (hhead₁ : s₁.head = Function.update s.head 3
      (unlinkHead s.next s.prev 0 (s.head 3) block.addr))
    (hheads₁ : heads₁ = Function.update heads (classOf block.units)
      (unlinkHead s.next s.prev 0 (heads (classOf block.units)) block.addr))
    (hmerged : Merged P checked orig keep front run block.addr hi back
      (fun i => without [block] (lists i)) heads₁ s₁ s' start) :
    Merged P checked orig keep front (run ++ [block]) lo hi back lists heads s s' start := by
  rcases hmerged with ⟨⟨heads', hgapped', hheads'⟩, hsize', hend', hhead', hstart',
    hunmerged', hprev'⟩
  have hlists : (fun i => without (run ++ [block]) (lists i)) =
      fun i => without run (without [block] (lists i)) := by
    funext i
    exact without_concat ..
  have hprevIff := h.prev_eq_zero_iff (by simp) hfree
  rw [Heap.head_withHead] at hprevIff
  refine ⟨⟨heads', ?_, ?_⟩, hsize', hend'.trans hend₁, ?_, ?_, ?_, ?_⟩
  · rw [hlists]
    exact hgapped'
  · intro heq hsafe
    have hlast (hzero : s.prev block.addr = 0) : classOf block.units = 3 := by
      by_contra hne
      exact hsafe block (by simp) hne (hprevIff.1.mp hzero)
    have hkept := heads_of_mergePage heq hhead₁ hheads₁ hlast
    refine hheads' hkept.1 fun b hb hne => ?_
    rw [hkept.2 _ hne]
    exact hsafe b (by simp [hb]) hne
  · intro i hi
    rw [hhead' i hi, hhead₁, Function.update_of_ne hi]
  · rw [hstart']
    cases run <;> simp
  · intro hnil
    exact absurd hnil (by simp)
  · intro first rest hcons
    cases run with
    | nil =>
        simp only [List.nil_append, List.cons.injEq] at hcons
        rcases hcons with ⟨rfl, rfl⟩
        rw [hunmerged' rfl, hprev₁, without_nil]
        exact hprevIff.2
    | cons first' rest' =>
        simp only [List.cons_append, List.cons.injEq] at hcons
        rcases hcons with ⟨rfl, rfl⟩
        rw [without_concat]
        exact hprev' first' rest' rfl

/-- A turn of the loop on a free block, and the turns behind it. -/
theorem coalesceBackward_turn {before : List Block} {prior : Block}
    (h : Gapped P checked orig keep (s.withHead heads) (before ++ [prior] ++ [block]) lo hi back
      [] lists)
    (hfree : block.allocated = false) (hpage : lo + PAGE_SZ ≤ hi)
    (hmerge : mergePage P lo block.addr s = .ok s₁)
    (hgapped₁ : Gapped P checked orig keep (s₁.withHead heads₁) (before ++ [prior]) block.addr hi
      back [] (fun i => without [block] (lists i)))
    (hreturns : Returns (fun fuel => coalesceBackward P fuel block.addr prior.addr s₁)
      (s', start)) :
    Returns (fun fuel => coalesceBackward P fuel lo block.addr s) (s', start) := by
  rcases tiles_append.mp h.frontTiles with ⟨middle, hfront, rfl, -, hstop⟩
  have hsum : block.addr + 16 * block.units = lo := hstop
  have hstart : P.heapStart < block.addr := by
    have hbounds := hfront.bounds (show prior ∈ before ++ [prior] by simp)
    unfold Block.stop at hbounds
    omega
  rcases hgapped₁.subAddress_footer with ⟨hfooter, haddress⟩
  rw [Heap.tag_withHead] at haddress
  have hfooter' : InHeap P s₁ (block.addr - 8) := hfooter
  have hheader : InHeap P s block.addr := by
    have hback := h.backTiles.le
    rw [Heap.heapEnd_withHead] at hback
    unfold PAGE_SZ at hpage
    exact ⟨by omega, by omega⟩
  have htagged := h.tagged block (by simp)
  have hallocated : (s.tag block.addr).allocated = false := by
    rw [← Heap.tag_withHead s heads, htagged.headerAllocated, hfree]
  apply Returns.succ
  apply hreturns.congr
  intro fuel
  rw [coalesceBackward, if_pos hstart, readTag_eq hheader, ok_bind, hallocated,
    if_pos (by rfl), hmerge, ok_bind, readTag_eq hfooter', ok_bind, haddress]

end Turn

/-- The backward merging. -/
theorem coalesceBackward_returns
    (h : Gapped P checked orig keep (s.withHead heads) (front ++ stopper :: run) lo hi back []
      lists)
    (hstopper : stopper.allocated = true ∨ stopper.addr = P.heapStart)
    (hrun : ∀ b ∈ run, b.allocated = false) (hpage : lo + PAGE_SZ ≤ hi)
    (hsize : (s.tag lo).blockSize * 16 = hi - lo) :
    ∃ s' start, Returns (fun fuel => coalesceBackward P fuel lo
        ((stopper :: run).getLast (List.cons_ne_nil _ _)).addr s) (s', start) ∧
      Merged P checked orig keep (front ++ [stopper]) run lo hi back lists heads s s' start := by
  -- induction on the free blocks before the page, the last one first
  induction run using List.reverseRecOn generalizing s heads lists lo with
  | nil => exact ⟨s, lo, coalesceBackward_stop h hstopper, Merged.nil h hsize⟩
  | append_singleton run block ih =>
      have hsplit : front ++ stopper :: run = front ++ (stopper :: run).dropLast ++
          [(stopper :: run).getLast (List.cons_ne_nil _ _)] := by
        rw [List.append_assoc, List.dropLast_append_getLast]
      have hlist : front ++ stopper :: (run ++ [block]) = front ++ stopper :: run ++ [block] := by
        simp
      have hlast : (stopper :: (run ++ [block])).getLast (List.cons_ne_nil _ _) = block := by simp
      have hfree : block.allocated = false := hrun block (by simp)
      rw [hlist] at h
      rcases mergePage_eq h hfree hpage hsize with
        ⟨s₁, heads₁, hmerge, hgapped₁, hsize₁, hprev₁, hend₁, hhead₁, hheads₁⟩
      rw [h.update_erase (by simp) hfree] at hgapped₁
      have hpage₁ : block.addr + PAGE_SZ ≤ hi := by
        rcases tiles_append.mp h.frontTiles with ⟨middle, -, rfl, -, hstop⟩
        have hsum : block.addr + 16 * block.units = lo := hstop
        omega
      rcases ih hgapped₁ (fun b hb => hrun b (by simp [hb])) hpage₁ hsize₁ with
        ⟨s', start, hreturns, hmerged⟩
      refine ⟨s', start, ?_, hmerged.concat h hfree hprev₁ hend₁ hhead₁ hheads₁⟩
      rw [hsplit] at h hgapped₁
      rw [hlast]
      exact coalesceBackward_turn h hfree hpage hmerge hgapped₁ hreturns

/-! ## The new page -/

/-- The heap with one more page. -/
def Heap.extend (s : Heap) : Heap := { s with heapEnd := s.heapEnd + PAGE_SZ }

theorem sfSbrk_eq (hroom : s.heapEnd + PAGE_SZ ≤ P.heapStart + PAGE_SZ * P.pageLimit) :
    sfSbrk P s = some (s.extend, s.heapEnd) := if_pos hroom

theorem sfSbrk_eq_none (hroom : ¬ s.heapEnd + PAGE_SZ ≤ P.heapStart + PAGE_SZ * P.pageLimit) :
    sfSbrk P s = none := if_neg hroom

/-- The new page is a gap at the end of the heap. -/
theorem Gapped.extend {blocks : List Block}
    (h : Gapped P checked orig keep s blocks s.heapEnd s.heapEnd [] [] lists)
    (hroom : s.heapEnd + PAGE_SZ ≤ P.heapStart + PAGE_SZ * P.pageLimit) :
    Gapped P checked orig keep s.extend blocks s.heapEnd (s.heapEnd + PAGE_SZ) [] [] lists where
  frontTiles := h.frontTiles
  backTiles := rfl
  gap_le := Nat.le_add_right ..
  gap_mod := by
    unfold PAGE_SZ
    omega
  pages := by
    rcases h.pages with ⟨k, hk, heq⟩
    refine ⟨k + 1, ?_, ?_⟩
    · unfold PAGE_SZ at hroom heq
      omega
    · show s.heapEnd + PAGE_SZ = P.heapStart + PAGE_SZ * (k + 1)
      unfold PAGE_SZ at heq ⊢
      omega
  tagged block hblock :=
    (h.tagged block hblock).congr (Heap.tag_congr rfl) (Heap.tag_congr rfl)
  pendingGap := by simp
  linked := h.linked
  listed := h.listed
  keepMem := h.keepMem
  kept := h.kept

/-- An assignment to bit-fields in the gap, whatever the heads are. -/
theorem Gapped.writeTag_withHead
    (h : Gapped P checked orig keep (s.withHead heads) front lo hi back [] lists)
    (address : Nat) (f : Tag → Tag) (hlow : lo ≤ address) (hhigh : address + 8 ≤ hi) :
    ∃ s', writeTag P s address f = .ok s' ∧
      Gapped P checked orig keep (s'.withHead heads) front lo hi back [] lists ∧
      s'.tag address = .ofWord (f (s.tag address)).toWord ∧ s'.head = s.head ∧
      s'.heapEnd = s.heapEnd ∧
      ∀ w, w % 8 = address % 8 → w ≠ address → s'.word w = s.word w := by
  have hin : InHeap P s address := h.inHeap_gap hlow hhigh
  refine ⟨s.setWord address (f (s.tag address)).toWord, writeTag_eq hin f,
    h.setWord _ hlow hhigh, Heap.tag_setWord_self .., Heap.head_setWord ..,
    Heap.heapEnd_setWord .., ?_⟩
  intro w halign hne
  exact Heap.word_setWord_of_ne s _ (by omega) (Ne.symm hne)

/-- The state in which {lit}`addPage` pushes the merged block, whatever the heads are. -/
structure ReadyToPush (P : Platform) (checked : Prop) (orig : Memory) (keep : Block → Prop)
    (front run : List Block) (lists : Fin 4 → List Nat) (s s' : Heap) (start : Nat) :
    Prop where
  gapped : ∃ heads', Gapped P checked orig keep (s'.withHead heads') front start
      (s.heapEnd + PAGE_SZ) [] [] (fun i => without run (lists i)) ∧
    ((∀ b ∈ run, classOf b.units ≠ 3 → s.head (classOf b.units) ≠ b.addr) → s'.head = heads')
  header : (s'.tag start).allocated = false ∧
    (s'.tag start).blockSize * 16 = s.heapEnd + PAGE_SZ - start
  footer : (s'.tag (s.heapEnd + PAGE_SZ - 8)).allocated = false ∧
    (s'.tag (s.heapEnd + PAGE_SZ - 8)).blockSize * 16 = s.heapEnd + PAGE_SZ - start
  head_eq : ∀ i, i ≠ 3 → s'.head i = s.head i
  start_eq : start = (run.map Block.addr).headD s.heapEnd
  start_le : start ≤ s.heapEnd
  prev_eq_nil : run = [] → s'.prev start = s.prev s.heapEnd
  prev_eq_cons : ∀ first rest, run = first :: rest →
    (s'.prev start = 0 ↔
      (without rest (lists (classOf first.units))).head? = some first.addr)

/-- The merged page gets its header bit and its footer. -/
theorem closePage_eq
    (h : Gapped P checked orig keep (s.withHead heads) front lo s.heapEnd [] [] lists)
    (hroom : lo + 32 ≤ s.heapEnd) (hsize : (s.tag lo).blockSize * 16 = s.heapEnd - lo) :
    ∃ s', closePage P lo s = .ok s' ∧
      Gapped P checked orig keep (s'.withHead heads) front lo s.heapEnd [] [] lists ∧
      ((s'.tag lo).allocated = false ∧ (s'.tag lo).blockSize * 16 = s.heapEnd - lo) ∧
      ((s'.tag (s.heapEnd - 8)).allocated = false ∧
        (s'.tag (s.heapEnd - 8)).blockSize * 16 = s.heapEnd - lo) ∧
      s'.head = s.head ∧ s'.prev lo = s.prev lo := by
  have hlimit := h.size_le
  have hmod := h.gap_mod
  rcases h.writeTag_withHead lo (fun header => { header with allocated := false }) le_rfl
    (by omega) with ⟨s₁, hwrite₁, h₁, htag₁, hhead₁, hend₁, hword₁⟩
  rw [Tag.ofWord_toWord] at htag₁
  have hfree₁ : (s₁.tag lo).allocated = false := by rw [htag₁]
  have hsize₁ : (s₁.tag lo).blockSize * 16 = s.heapEnd - lo := by
    rw [htag₁]
    show (s.tag lo).blockSize % 2 ^ 28 * 16 = s.heapEnd - lo
    omega
  rcases h₁.writeTag_withHead (s.heapEnd - 8) (fun footer =>
      { footer with allocated := false, blockSize := (s₁.tag lo).blockSize, upper := 0 })
    (by omega) (by omega) with ⟨s₂, hwrite₂, h₂, htag₂, hhead₂, hend₂, hword₂⟩
  rw [Tag.ofWord_toWord] at htag₂
  have hheader₂ : s₂.tag lo = s₁.tag lo := Heap.tag_congr (hword₂ lo (by omega) (by omega))
  refine ⟨s₂, ?_, h₂, ?_, ?_, hhead₂.trans hhead₁, ?_⟩
  · have hheader : InHeap P s₁ lo := h₁.inHeap_gap le_rfl (by omega)
    rw [closePage, hwrite₁, ok_bind, readTag_eq hheader, ok_bind, hend₁]
    exact hwrite₂
  · rw [hheader₂]
    exact ⟨hfree₁, hsize₁⟩
  · constructor
    · rw [htag₂]
    · rw [htag₂]
      show (s₁.tag lo).blockSize % 2 ^ 28 * 16 = s.heapEnd - lo
      omega
  · exact (hword₂ _ (by omega) (by omega)).trans (hword₁ _ (by omega) (by omega))

/-- Up to the push the new page is merged and gets its header and its footer. -/
theorem addPage_eq
    (h : Gapped P checked orig keep s (front ++ stopper :: run) s.heapEnd s.heapEnd [] []
      lists)
    (hroom : s.heapEnd + PAGE_SZ ≤ P.heapStart + PAGE_SZ * P.pageLimit)
    (hstopper : stopper.allocated = true ∨ stopper.addr = P.heapStart)
    (hrun : ∀ b ∈ run, b.allocated = false) :
    ∃ s' start bound,
      (∀ fuel, bound ≤ fuel → addPage P fuel s.heapEnd s.extend = insertHead P start s') ∧
      ReadyToPush P checked orig keep (front ++ [stopper]) run lists s s' start := by
  have hextended := h.extend hroom
  have hpageEnd : s.extend.heapEnd = s.heapEnd + PAGE_SZ := rfl
  have hpage : s.heapEnd + 16 ≤ s.heapEnd + PAGE_SZ := by
    unfold PAGE_SZ
    omega
  rcases hextended.writeTag_gap s.heapEnd
      (fun header => { header with blockSize := (s.extend.heapEnd - s.heapEnd) / 16 }) le_rfl
      (by omega) with ⟨s₁, hwrite₁, h₁, htag₁, hhead₁, hword₁⟩
  rw [Tag.ofWord_toWord] at htag₁
  have hsize₁ : (s₁.tag s.heapEnd).blockSize * 16 = s.heapEnd + PAGE_SZ - s.heapEnd := by
    rw [htag₁]
    show (s.extend.heapEnd - s.heapEnd) / 16 % 2 ^ 28 * 16 = s.heapEnd + PAGE_SZ - s.heapEnd
    rw [hpageEnd]
    unfold PAGE_SZ
    omega
  have hpage₁ : s.heapEnd + PAGE_SZ ≤ s.heapEnd + PAGE_SZ := le_rfl
  have h₁' : Gapped P checked orig keep (s₁.withHead s₁.head) (front ++ stopper :: run)
      s.heapEnd (s.heapEnd + PAGE_SZ) [] [] lists := h₁
  rcases coalesceBackward_returns h₁' hstopper hrun hpage₁ hsize₁ with
    ⟨s₂, start, ⟨bound, hreturns⟩, hmerged⟩
  rcases hmerged with ⟨⟨heads', h₂, hheads⟩, hsize₂, hend₂, hhead₂, hstart, hunmerged, hprev₂⟩
  have hend₁ : s₁.heapEnd = s.heapEnd + PAGE_SZ := by
    have hback : s.heapEnd + PAGE_SZ = s₁.heapEnd := h₁.backTiles
    exact hback.symm
  have hstartLe : start ≤ s.heapEnd := by
    rw [hstart]
    cases run with
    | nil => exact le_rfl
    | cons first rest =>
        have hbounds := h.outside (show first ∈ front ++ stopper :: first :: rest ++ [] by simp)
        unfold Block.stop at hbounds
        simp only [List.map_cons, List.headD_cons]
        omega
  rw [hend₁] at hend₂
  rw [← hend₂] at h₂ hsize₂
  have hroom₂ : start + 32 ≤ s₂.heapEnd := by
    rw [hend₂]
    unfold PAGE_SZ
    omega
  rcases closePage_eq h₂ hroom₂ hsize₂ with
    ⟨s', hclose, h', hheader', hfooter', hhead', hprev'⟩
  rw [hend₂] at h' hheader' hfooter'
  refine ⟨s', start, bound, ?_, ?_⟩
  · intro fuel hfuel
    have hsplit : front ++ stopper :: run = front ++ (stopper :: run).dropLast ++
        [(stopper :: run).getLast (List.cons_ne_nil _ _)] := by
      rw [List.append_assoc, List.dropLast_append_getLast]
    rw [hsplit] at h₁
    rcases h₁.subAddress_footer with ⟨hfooter, haddress⟩
    have hloop := hreturns fuel hfuel
    rw [← haddress] at hloop
    beta_reduce at hloop
    rw [addPage, hwrite₁, ok_bind, readTag_eq hfooter, ok_bind, hloop, ok_bind]
    dsimp only
    rw [hclose, ok_bind]
  · refine ⟨⟨heads', h', ?_⟩, hheader', hfooter', ?_, hstart, hstartLe, ?_, ?_⟩
    · intro hsafe
      rw [hhead']
      apply hheads rfl
      rw [hhead₁]
      exact hsafe
    · intro i hi
      rw [hhead', hhead₂ i hi, hhead₁]
      rfl
    · intro hnil
      subst hnil
      have hsame : start = s.heapEnd := hstart
      subst hsame
      rw [hprev', hunmerged rfl]
      exact hword₁ _ (by omega) (by omega)
    · intro first rest hcons
      subst hcons
      have hsame : start = first.addr := hstart
      rw [hprev', hsame]
      exact hprev₂ first rest rfl

/-! ## When the growth is right -/

/-- What merging the free blocks {lit}`run` before a new page needs to know of the
lists.  A merged block of at most 2048 bytes must not be the head of its list, since the
list is looked up by the size after the merging.  The block that is pushed in the end
must have a null backward link, since that is never reset: the new page has to come with
one, or the lowest merged block has to be the first of the last list but for the other
merged ones. -/
def RunSafe (s : Heap) (run : List Block) : Prop :=
  (∀ b ∈ run, classOf b.units ≠ 3 → s.head (classOf b.units) ≠ b.addr) ∧
    match run with
    | [] => s.prev s.heapEnd = 0
    | first :: rest => (without rest (freeList s 3)).head? = some first.addr

instance (s : Heap) : (run : List Block) → Decidable (RunSafe s run)
  | [] => inferInstanceAs (Decidable (_ ∧ s.prev s.heapEnd = 0))
  | first :: rest =>
      inferInstanceAs (Decidable (_ ∧ (without rest (freeList s 3)).head? = some first.addr))

/-- The lists after a growth step: the merged blocks have left them, and the new free
block is the first of the last list. -/
def grownLists (lists : Fin 4 → List Nat) (run : List Block) (start : Nat) :
    Fin 4 → List Nat :=
  Function.update (fun i => without run (lists i)) 3 (start :: without run (lists 3))

/-- The merged block is pushed to the last list, when nothing is wrong with the heads. -/
theorem addPage_returns
    (h : Gapped P checked orig keep s (front ++ stopper :: run) s.heapEnd s.heapEnd [] []
      lists)
    (hroom : s.heapEnd + PAGE_SZ ≤ P.heapStart + PAGE_SZ * P.pageLimit)
    (hstopper : stopper.allocated = true ∨ stopper.addr = P.heapStart)
    (hrun : ∀ b ∈ run, b.allocated = false) (hsafe : RunSafe s run) :
    ∃ s' start, Returns (fun fuel => addPage P fuel s.heapEnd s.extend) s' ∧
      start = (run.map Block.addr).headD s.heapEnd ∧
      s'.heapEnd = s.heapEnd + PAGE_SZ ∧
      Gapped P checked orig keep s'
        (front ++ [stopper] ++ [⟨start, (s'.heapEnd - start) / 16, false⟩])
        s'.heapEnd s'.heapEnd [] [] (grownLists lists run start) := by
  rcases addPage_eq h hroom hstopper hrun with ⟨s₁, start, bound, heq, hready⟩
  rcases hready.gapped with ⟨heads', hgapped, hheads⟩
  rw [← hheads hsafe.1, Heap.withHead_self] at hgapped
  have hstartLe := hready.start_le
  have hprev : s₁.prev start = 0 := by
    cases run with
    | nil =>
        rw [hready.prev_eq_nil rfl]
        exact hsafe.2
    | cons first rest =>
        have hfirst : (without rest (lists 3)).head? = some first.addr := by
          rw [← h.freeList_eq]
          exact hsafe.2
        have hmem : first.addr ∈ lists 3 := (mem_without.mp (List.mem_of_mem_head? hfirst)).1
        have hclass : classOf first.units = 3 := by
          have hmem' : first.addr ∈ lists (classOf first.units) := by
            apply (h.listed _ _).mpr
            exact ⟨first, by simp, hrun first List.mem_cons_self, rfl, rfl⟩
          exact h.list_unique (by simp) hmem' hmem
        apply (hready.prev_eq_cons first rest rfl).mpr
        rw [hclass]
        exact hfirst
  have hroom₁ : start + 32 ≤ s.heapEnd + PAGE_SZ := by
    unfold PAGE_SZ
    omega
  rcases hgapped.closeFree hroom₁ hready.header hready.footer hprev with
    ⟨s', hinsert, hclosed, -⟩
  have hend : s.heapEnd + PAGE_SZ = s'.heapEnd := hclosed.backTiles
  have hlast : classOf ((s.heapEnd + PAGE_SZ - start) / 16) = 3 := by
    apply classOf_eq_last
    unfold PAGE_SZ
    have hmod := hgapped.gap_mod
    unfold PAGE_SZ at hmod
    omega
  rw [hlast, hend] at hclosed
  refine ⟨s', start, ?_, hready.start_eq, hend.symm, hclosed⟩
  refine ⟨bound, ?_⟩
  intro fuel hfuel
  show addPage P fuel s.heapEnd s.extend = .ok s'
  rw [heq fuel hfuel]
  exact hinsert

end SystemFundamentals.Sfmm
