import SystemFundamentals.Sfmm.Extent
import SystemFundamentals.Sfmm.Grow
import Mathlib.Logic.Relation

/-!
# sf_malloc

A call of {lit}`sf_malloc` searches, grows the heap by a page and calls itself, until
the request is placed or there are no more pages.  It is safe when every search that it
starts ends well: the first fit leaves a clean remainder, or the growth is right.

Main results:

- Theorem {lit}`Gapped.heapBlocks_eq`: the blocks of a well-formed heap are found by
  their headers.
- Theorem {lit}`sfMalloc_returns`: a safe call returns, and the heap stays well formed.
-/

namespace SystemFundamentals.Sfmm

open Library Library.LinkedList Relation

/-! ## The blocks of a heap -/

/-- The blocks from {lit}`addr` on, as their headers tell. -/
def scanBlocks (s : Heap) : Nat → Nat → List Block
  | 0, _ => []
  | fuel + 1, addr =>
      if addr < s.heapEnd then
        ⟨addr, (s.tag addr).blockSize, (s.tag addr).allocated⟩ ::
          scanBlocks s fuel (addr + 16 * (s.tag addr).blockSize)
      else []

/-- The blocks of the heap. -/
def heapBlocks (P : Platform) (s : Heap) : List Block := scanBlocks s s.heapEnd P.heapStart

/-- The free blocks at the end of the heap that a new page is merged with.  The block at
the start of the heap is never one of them. -/
def trailingRun (P : Platform) (s : Heap) : List Block :=
  (heapBlocks P s).tail.rtakeWhile fun block => !block.allocated

/-- A layout without a gap. -/
abbrev Layout (P : Platform) (checked : Prop) (orig : Memory) (keep : Block → Prop) (s : Heap)
    (blocks : List Block) (lists : Fin 4 → List Nat) : Prop :=
  Gapped P checked orig keep s blocks s.heapEnd s.heapEnd [] [] lists

variable {P : Platform} {checked : Prop} {orig : Memory} {keep : Block → Prop} {s : Heap}
  {blocks : List Block} {lists : Fin 4 → List Nat} {size : Nat}

/-- The representation invariant: the blocks tile the heap with tags that agree, and the
four lists hold the free blocks, each in the list of its size. -/
def WellFormed (P : Platform) (s : Heap) : Prop :=
  ∃ blocks lists, Layout P False s.mem (fun _ => False) s blocks lists

/-- A heap with a single free block, which is the only one of its list. -/
theorem layout_of_one_free (free : Block) (htiles : Tiles P.heapStart blocks s.heapEnd)
    (hpages : ∃ k ≤ P.pageLimit, s.heapEnd = P.heapStart + PAGE_SZ * k)
    (htags : ∀ block ∈ blocks,
      TagsAgree s block ∧ (block.allocated = true → Consistent s block))
    (hfree : (blocks.filter fun block => !block.allocated) = [free])
    (hlinks : s.next free.addr = 0 ∧ s.prev free.addr = 0)
    (hhead : ∀ i, s.head i = if i = classOf free.units then free.addr else 0) :
    Layout P checked s.mem (fun _ => False) s blocks
      (fun i => if i = classOf free.units then [free.addr] else []) where
  frontTiles := htiles
  backTiles := rfl
  gap_le := le_rfl
  gap_mod := rfl
  pages := hpages
  tagged block hblock := by
    rw [List.append_nil] at hblock
    exact ⟨(htags block hblock).1, fun _ => (htags block hblock).2⟩
  pendingGap := by simp
  linked i := by
    have hmem : free ∈ blocks.filter fun block => !block.allocated := by simp [hfree]
    have hbounds := htiles.bounds (List.mem_filter.mp hmem).1
    have hstart := P.heapStart_ge
    have hne : free.addr ≠ 0 := by
      unfold PAGE_SZ at hstart
      omega
    rw [hhead]
    split_ifs
    · refine ⟨by simpa using hne.symm, List.nodup_singleton _, free.addr, rfl, hlinks.2, ?_⟩
      exact ⟨hlinks.1, rfl⟩
    · exact ⟨List.not_mem_nil, List.nodup_nil, 0, rfl, rfl⟩
  listed i a := by
    have hiff (block : Block) : (block ∈ blocks ∧ block.allocated = false) ↔ block = free := by
      have hmem : block ∈ (blocks.filter fun block => !block.allocated) ↔ block ∈ [free] := by
        rw [hfree]
      simpa using hmem
    rw [List.append_nil, List.append_nil]
    constructor
    · intro ha
      have hfound := (hiff free).mpr rfl
      split_ifs at ha with hclass
      · exact ⟨free, hfound.1, hfound.2, (List.mem_singleton.mp ha).symm, hclass.symm⟩
      · exact absurd ha List.not_mem_nil
    · intro hblock
      rcases hblock with ⟨block, hmem, hnot, rfl, rfl⟩
      rw [(hiff block).mp ⟨hmem, hnot⟩, if_pos rfl]
      exact List.mem_singleton_self _
  keepMem _ hkeep := absurd hkeep id
  kept _ hkeep := absurd hkeep id

/-- The heap with the header and the footer of a block set. -/
def Heap.withBlock (s : Heap) (block : Block) (padded : Bool) (requested : Nat) : Heap :=
  let header : Tag := ⟨block.allocated, padded, 0, block.units, 0⟩
  let footer : Tag := ⟨block.allocated, padded, 0, block.units, requested⟩
  (s.setWord block.addr header.toWord).setWord (block.stop - 8) footer.toWord

/-- The heap of the tests: up to four pages from 65536 on. -/
def fourPages : Platform where
  heapStart := 65536
  pageLimit := 4
  heapStart_ge := by decide
  pageLimit_pos := by decide
  pageLimit_le := by decide
  heapTop_lt := by decide

/-- The scan goes through the blocks of a tiling. -/
theorem scanBlocks_eq {start fuel : Nat} (htiles : Tiles start blocks s.heapEnd)
    (htagged : ∀ block ∈ blocks, Tagged checked s block) (hfuel : blocks.length ≤ fuel) :
    scanBlocks s fuel start = blocks := by
  induction blocks generalizing start fuel with
  | nil =>
      have hend : start = s.heapEnd := htiles
      cases fuel with
      | zero => rfl
      | succ fuel => exact if_neg (by omega)
  | cons block blocks ih =>
      rcases htiles with ⟨rfl, hunits, hrest⟩
      have hblock := htagged block List.mem_cons_self
      have hle := hrest.le
      have hstop : block.stop = block.addr + 16 * block.units := rfl
      cases fuel with
      | zero => exact absurd hfuel (by simp)
      | succ fuel =>
          have htail := ih hrest (fun b hb => htagged b (List.mem_cons_of_mem _ hb))
            (Nat.le_of_succ_le_succ hfuel)
          rw [scanBlocks, if_pos (by omega), hblock.headerSize, hblock.headerAllocated,
            ← hstop, htail]

theorem Tiles.length_le {start stop : Nat} (h : Tiles start blocks stop) :
    start + blocks.length ≤ stop := by
  induction blocks generalizing start with
  | nil => exact (show start = stop from h).le
  | cons block blocks ih =>
      have hrest := ih h.2.2
      have hstop : block.stop = start + 16 * block.units := by rw [Block.stop, h.1]
      have hunits := h.2.1
      rw [List.length_cons]
      omega

/-- The blocks of a well-formed heap are found by their headers. -/
theorem Gapped.heapBlocks_eq (h : Layout P checked orig keep s blocks lists) :
    heapBlocks P s = blocks := by
  have hlength := h.frontTiles.length_le
  apply scanBlocks_eq h.frontTiles
  · intro block hblock
    exact h.tagged block (List.mem_append_left _ hblock)
  · omega

/-- The blocks before the trailing run: none of them is missing, and the last one is
allocated or the first block of the heap. -/
theorem Gapped.exists_trailingRun (h : Layout P checked orig keep s blocks lists)
    (hne : blocks ≠ []) :
    ∃ front stopper, blocks = front ++ stopper :: trailingRun P s ∧
      (stopper.allocated = true ∨ stopper.addr = P.heapStart) ∧
      ∀ b ∈ trailingRun P s, b.allocated = false := by
  have hfree : ∀ b ∈ trailingRun P s, b.allocated = false := by
    intro b hb
    have hnot := List.mem_rtakeWhile_imp hb
    simpa using hnot
  cases hblocks : blocks with
  | nil => exact absurd hblocks hne
  | cons first rest =>
      have hrun : trailingRun P s = rest.rtakeWhile fun block => !block.allocated := by
        rw [trailingRun, h.heapBlocks_eq, hblocks, List.tail_cons]
      have hsplit : (rest.rdropWhile fun block => !block.allocated) ++
          (rest.rtakeWhile fun block => !block.allocated) = rest :=
        List.rdropWhile_append_rtakeWhile
      rw [← hrun] at hsplit
      rcases List.eq_nil_or_concat (rest.rdropWhile fun block => !block.allocated) with
        hnil | ⟨front, stopper, hconcat⟩
      · rw [hnil, List.nil_append] at hsplit
        have htiles := h.frontTiles
        rw [hblocks] at htiles
        refine ⟨[], first, ?_, Or.inr htiles.1, hfree⟩
        rw [hsplit, List.nil_append]
      · have hlast := List.rdropWhile_last_not (fun block => !block.allocated) rest
          (by rw [hconcat]; simp)
        rw [List.concat_eq_append] at hconcat
        simp only [hconcat, List.getLast_append_singleton] at hlast
        refine ⟨first :: front, stopper, ?_, Or.inl (by simpa using hlast), hfree⟩
        rw [hconcat] at hsplit
        rw [← hsplit]
        simp

/-! ## The first page -/

/-- {lit}`sf_errno` is not part of the layout. -/
theorem Gapped.withErrno (h : Layout P checked orig keep s blocks lists) (errno : Errno) :
    Layout P checked orig keep { s with sfErrno := errno } blocks lists :=
  h.of_gap_change rfl rfl fun _ _ => rfl

/-- Nor is it part of what the memory holds. -/
theorem tag_withErrno (s : Heap) (errno : Errno) (w : Nat) :
    ({ s with sfErrno := errno } : Heap).tag w = s.tag w := Heap.tag_congr rfl

theorem firstFit_withErrno (s : Heap) (errno : Errno) (required : Nat) :
    firstFit { s with sfErrno := errno } required = firstFit s required := by
  unfold firstFit fitIn
  simp only [tag_withErrno]
  rfl

theorem placeSafe_withErrno {s : Heap} {errno : Errno} {i : Fin 4} {block required : Nat} :
    PlaceSafe { s with sfErrno := errno } i block required ↔ PlaceSafe s i block required := by
  unfold PlaceSafe
  rw [tag_withErrno]
  rfl

/-- A heap that is smaller than a page is empty. -/
theorem Gapped.eq_empty (h : Layout P checked orig keep s blocks lists)
    (hsmall : s.heapEnd - P.heapStart < PAGE_SZ) :
    s.heapEnd = P.heapStart ∧ blocks = [] ∧ ∀ i, lists i = [] := by
  rcases h.pages with ⟨k, -, hend⟩
  have hzero : k = 0 := by
    unfold PAGE_SZ at hsmall hend
    omega
  rw [hzero, Nat.mul_zero, Nat.add_zero] at hend
  have hlength := h.frontTiles.length_le
  have hblocks : blocks = [] := List.length_eq_zero_iff.mp (by omega)
  refine ⟨hend, hblocks, ?_⟩
  intro i
  apply List.eq_nil_iff_forall_not_mem.mpr
  intro a ha
  have hbounds := h.listed_bounds ha
  omega

/-- The first page becomes one free block. -/
theorem Gapped.firstPage_eq (h : Layout P checked orig keep s blocks lists)
    (hsmall : s.heapEnd - P.heapStart < PAGE_SZ) :
    ∃ s' blocks' lists', firstPage P s = .ok s' ∧
      Layout P checked orig keep s' blocks' lists' ∧ blocks' ≠ [] ∧
      s'.heapEnd = P.heapStart + PAGE_SZ := by
  rcases h.eq_empty hsmall with ⟨hend, rfl, hlists⟩
  have hroom : s.heapEnd + PAGE_SZ ≤ P.heapStart + PAGE_SZ * P.pageLimit := by
    have hpos := P.pageLimit_pos
    unfold PAGE_SZ
    omega
  have hlow := P.heapStart_ge
  have htop := P.heapTop_lt
  have hlist : ((List.finRange 4).reverse.find? fun i => listMin i < PAGE_SZ) = some 3 := by
    decide
  have hpage := h.extend hroom
  rw [hend] at hpage
  unfold PAGE_SZ at hpage hlow
  rcases hpage.writeTag_gap P.heapStart
      (fun header =>
        { header with
          allocated := false, padded := false, twoZeroes := 0, blockSize := PAGE_SZ / 16 })
      le_rfl (by omega) with ⟨s₁, hwrite₁, h₁, htag₁, hhead₁, -⟩
  rw [Tag.ofWord_toWord] at htag₁
  rcases h₁.store_gap (P.heapStart + 8) 0 (by omega) (by omega) with
    ⟨s₂, hstore₂, h₂, hword₂, hhead₂, hkept₂⟩
  rcases h₂.store_gap (P.heapStart + 16) 0 (by omega) (by omega) with
    ⟨s₃, hstore₃, h₃, hword₃, hhead₃, hkept₃⟩
  have htag₃ : s₃.tag P.heapStart = s₁.tag P.heapStart := by
    apply Heap.tag_congr
    rw [hkept₃ _ (by omega) (by omega), hkept₂ _ (by omega) (by omega)]
  have hsize₃ : (s₃.tag P.heapStart).blockSize = 256 := by
    rw [htag₃, htag₁]
    rfl
  rcases h₃.writeTag_gap (P.heapStart + 4096 - 8)
      (fun _ =>
        { allocated := false, padded := false, twoZeroes := 0, blockSize := PAGE_SZ / 16
          upper := 4096 })
      (by omega) (by omega) with ⟨s₄, hwrite₄, h₄, htag₄, hhead₄, hkept₄⟩
  rw [Tag.ofWord_toWord] at htag₄
  have htag₄' : s₄.tag P.heapStart = s₃.tag P.heapStart :=
    Heap.tag_congr (hkept₄ _ (by omega) (by omega))
  have hprev₄ : s₄.prev P.heapStart = 0 :=
    (hkept₄ _ (by omega) (by omega)).trans hword₃
  have hnext₄ : s₄.word (P.heapStart + 8) = 0 := by
    rw [hkept₄ _ (by omega) (by omega), hkept₃ _ (by omega) (by omega)]
    exact hword₂
  have hhead : s₄.head 3 = 0 := by
    rw [(h₄.linked 3).head_eq, hlists]
    rfl
  have hsize₄ : (s₄.tag P.heapStart).blockSize * 16 =
      P.heapStart + 4096 - P.heapStart := by
    rw [htag₄', hsize₃]
    omega
  rcases h₄.closeFree (by omega) ⟨by rw [htag₄', htag₃, htag₁], hsize₄⟩
    ⟨by rw [htag₄], by rw [htag₄]; show PAGE_SZ / 16 % 2 ^ 28 * 16 = _; unfold PAGE_SZ; omega⟩
    hprev₄ with ⟨s', hinsert, hclosed, -⟩
  -- the head is set without a look at the list, which is empty
  have hheader : InHeap P s₄ P.heapStart := h₄.inHeap_gap le_rfl (by omega)
  have hlink : InHeap P s₄ (P.heapStart + 8) := h₄.inHeap_gap (by omega) (by omega)
  have hindex : listIndex (256 * 16) = .ok 3 := by decide
  rw [insertHead, readTag_eq hheader, ok_bind, htag₄', hsize₃, hindex, ok_bind, hhead,
    store_eq hlink, Heap.setWord_eq_self hnext₄, ok_bind, hhead, if_neg (not_not.mpr rfl),
    ok_bind] at hinsert
  have hs' := Except.ok.inj hinsert
  refine ⟨s', _, _, ?_, hclosed.close, by simp, ?_⟩
  · unfold firstPage
    rw [sfSbrk_eq hroom]
    dsimp only
    rw [hlist]
    dsimp only
    rw [hwrite₁, ok_bind, hstore₂, ok_bind, hstore₃, ok_bind,
      readTag_eq (h₃.inHeap_gap le_rfl (by omega)), ok_bind, hsize₃]
    show (writeTag P s₃ (P.heapStart + 4096 - 8) _ >>= fun s => _) = _
    rw [hwrite₄, ok_bind, hs']
  · exact hclosed.backTiles.symm

/-- The heap that {lit}`sf_malloc` searches has a page. -/
theorem Gapped.openHeap_eq (h : Layout P checked orig keep s blocks lists) :
    ∃ s' blocks' lists', openHeap P s = .ok s' ∧
      Layout P checked orig keep s' blocks' lists' ∧ blocks' ≠ [] ∧
      s.heapEnd ≤ s'.heapEnd ∧ P.heapStart + PAGE_SZ ≤ s'.heapEnd := by
  by_cases hsmall : s.heapEnd - P.heapStart < PAGE_SZ
  · rcases h.firstPage_eq hsmall with ⟨s', blocks', lists', heq, hlayout, hne, hend⟩
    refine ⟨s', blocks', lists', ?_, hlayout, hne, ?_, hend.ge⟩
    · rw [openHeap, if_pos hsmall]
      exact heq
    · omega
  · refine ⟨s, blocks, lists, if_neg hsmall, h, ?_, le_rfl, ?_⟩
    · intro hnil
      have hend : P.heapStart = s.heapEnd := by
        have htiles := h.frontTiles
        rw [hnil] at htiles
        exact htiles
      unfold PAGE_SZ at hsmall
      omega
    · have hle := h.frontTiles.le
      unfold PAGE_SZ at *
      omega

/-! ## Placing at the first fit -/

/-- What {lit}`sf_malloc` makes of the requested size. -/
theorem roundUp_spec (hpos : size ≠ 0) :
    (roundUp (size + 16)).1 % 16 = 0 ∧ 32 ≤ (roundUp (size + 16)).1 ∧
      size + 16 ≤ (roundUp (size + 16)).1 ∧ (roundUp (size + 16)).1 < size + 32 ∧
      ((roundUp (size + 16)).2 = true ↔ size + 16 ≠ (roundUp (size + 16)).1) := by
  by_cases hmod : (size + 16) % 16 ≠ 0
  · rw [roundUp, if_pos hmod]
    simp only [true_iff]
    omega
  · rw [roundUp, if_neg hmod]
    simp only [Bool.false_eq_true, false_iff]
    omega

/-- The first fit is a free block that is large enough. -/
theorem Gapped.exists_firstFit (h : Layout P checked orig keep s blocks lists) {required : Nat}
    {i : Fin 4} {found : Nat} (hfit : firstFit s required = some (i, found)) :
    ∃ front block back, blocks = front ++ block :: back ∧ block.allocated = false ∧
      block.addr = found ∧ classOf block.units = i ∧ required / 16 ≤ block.units := by
  rcases List.exists_of_findSome?_eq_some hfit with ⟨j, -, hj⟩
  rcases fitIn_eq_some hj with ⟨rfl, -, hfind⟩
  have hmem : found ∈ lists j := by
    rw [← h.freeList_eq]
    exact List.mem_of_find?_eq_some hfind
  have hfits := List.find?_some hfind
  rcases (h.listed j found).mp hmem with ⟨block, hblock, hfree, haddr, hclass⟩
  rw [List.append_nil, List.append_nil] at hblock
  have htagged := h.tagged block (List.mem_append_left _ hblock)
  rcases List.append_of_mem hblock with ⟨front, back, hsplit⟩
  refine ⟨front, block, back, hsplit, hfree, haddr, hclass, ?_⟩
  simp only [fits, ← haddr, htagged.headerSize, Bool.and_eq_true, decide_eq_true_eq] at hfits
  exact hfits.2

/-- The search places the request at the first fit, when the remainder is clean. -/
theorem searchLists_returns_placed (h : Layout P checked orig keep s blocks lists)
    (hpos : size ≠ 0) {i : Fin 4} {found : Nat}
    (hfit : firstFit s (roundUp (size + 16)).1 = some (i, found))
    (hsafe : PlaceSafe s i found (roundUp (size + 16)).1) :
    ∃ s' required padding, Returns (fun fuel => searchLists P fuel size (List.finRange 4)
        ⟨s, (roundUp (size + 16)).1, (roundUp (size + 16)).2, 0⟩)
          ⟨s', required, padding, found + 8⟩ ∧
      Placed P checked orig keep size (s.tag found).blockSize found s' := by
  rcases h.exists_firstFit hfit with ⟨front, block, back, rfl, hfree, rfl, rfl, hroom⟩
  rw [(h.tagged block (by simp)).headerSize]
  rcases roundUp_spec hpos with ⟨hmod, hmin, hsize, -, hpadding⟩
  have hplaces : ∃ s' required padding, place P size (classOf block.units) block.addr
      ⟨s, (roundUp (size + 16)).1, (roundUp (size + 16)).2, 0⟩ =
        .ok ⟨s', required, padding, block.addr + 8⟩ ∧
      Placed P checked orig keep size block.units block.addr s' :=
    place_eq h hfree hmod hmin hsize hroom hpadding hsafe
  rcases hplaces with ⟨s', required, padding, hplace, hplaced⟩
  rcases hplaced.layout with ⟨blocks', lists', hlayout, units, hmem, -, -⟩
  have hbounds := hlayout.outside (List.mem_append_left _ hmem)
  unfold Block.stop at hbounds
  dsimp only at hbounds
  have hheader : InHeap P s' block.addr := ⟨by omega, by omega⟩
  have hlink : InHeap P s' (block.addr + 8) := ⟨by omega, by omega⟩
  refine ⟨s', required, padding, ?_, hplaced⟩
  exact searchLists_returns_some h hfit hplace hheader hlink hplaced.header hplaced.next_eq
    (Nat.succ_ne_zero _)

/-! ## When a call is safe -/

/-- With enough fuel {lit}`sf_malloc` returns {lit}`ptr`, with the heap in state
{lit}`s'`. -/
def MallocReturns (P : Platform) (size : Nat) (s s' : Heap) (ptr : Nat) : Prop :=
  ∃ bound, ∀ fuel calls, bound ≤ fuel → bound ≤ calls →
    sfMalloc P fuel calls size s = .ok (s', ptr)

/-- A search that starts in this state ends well: the remainder of the first fit is
clean, or, when there is none and the heap can grow, the growth is right. -/
def AttemptSafe (P : Platform) (size : Nat) (s : Heap) : Prop :=
  match firstFit s (roundUp (size + 16)).1 with
  | some (i, block) => PlaceSafe s i block (roundUp (size + 16)).1
  | none => s.heapEnd + PAGE_SZ ≤ P.heapStart + PAGE_SZ * P.pageLimit →
      RunSafe s (trailingRun P s)

/-- A call of {lit}`sf_malloc` in the first state finds nothing, grows the heap and calls
itself in the second state. -/
def Regrows (P : Platform) (size : Nat) (s s' : Heap) : Prop :=
  ∃ fuel s₁ s₂ page, openHeap P { s with sfErrno := .zero } = .ok s₁ ∧
    firstFit s₁ (roundUp (size + 16)).1 = none ∧ sfSbrk P s₁ = some (s₂, page) ∧
    addPage P fuel page s₂ = .ok s'

/-- Every search that a call of {lit}`sf_malloc` starts, those of the calls it makes to
itself among them, ends well. -/
def MallocSafe (P : Platform) (size : Nat) (s : Heap) : Prop :=
  size = 0 ∨ PAGE_SZ * 4 < size ∨ ∀ s', ReflTransGen (Regrows P size) s s' →
    ∀ s₁, openHeap P { s' with sfErrno := .zero } = .ok s₁ → AttemptSafe P size s₁

/-- What {lit}`sf_malloc` answers: the null pointer, or a pointer to a block with room
for the request. -/
def Answered (P : Platform) (checked : Prop) (orig : Memory) (keep : Block → Prop)
    (size ptr : Nat) (s : Heap) : Prop :=
  (ptr = 0 ∧ ∃ blocks lists, Layout P checked orig keep s blocks lists) ∨
    ∃ addr room, ptr = addr + 8 ∧ Placed P checked orig keep size room addr s

/-! ## The whole call -/

/-- A call returns once. -/
theorem MallocReturns.unique {s' s'' : Heap} {ptr ptr' : Nat} (h : MallocReturns P size s s' ptr)
    (h' : MallocReturns P size s s'' ptr') : s' = s'' ∧ ptr = ptr' := by
  rcases h with ⟨bound, h⟩
  rcases h' with ⟨bound', h'⟩
  have heq := h (max bound bound') (max bound bound') (le_max_left ..) (le_max_left ..)
  rw [h' _ _ (le_max_right ..) (le_max_right ..)] at heq
  exact ⟨(Prod.mk.inj (Except.ok.inj heq)).1.symm, (Prod.mk.inj (Except.ok.inj heq)).2.symm⟩

theorem MallocSafe.attempt (h : MallocSafe P size s) (hpos : size ≠ 0)
    (hmax : ¬ PAGE_SZ * 4 < size) {s₁ : Heap}
    (hopen : openHeap P { s with sfErrno := .zero } = .ok s₁) : AttemptSafe P size s₁ := by
  rcases h with hzero | hlarge | hsafe
  · exact absurd hzero hpos
  · exact absurd hlarge hmax
  · exact hsafe s .refl s₁ hopen

/-- The call that a safe call makes to itself is safe. -/
theorem MallocSafe.again (h : MallocSafe P size s) {s' : Heap} (hregrows : Regrows P size s s') :
    MallocSafe P size s' := by
  rcases h with hzero | hlarge | hsafe
  · exact Or.inl hzero
  · exact Or.inr (Or.inl hlarge)
  · refine Or.inr (Or.inr ?_)
    intro t hreach
    exact hsafe t (.head hregrows hreach)

/-- A call with a size that is zero or too large changes {lit}`sf_errno` only. -/
theorem sfMalloc_invalid {fuel calls : Nat} (hinvalid : size = 0 ∨ PAGE_SZ * 4 < size) :
    sfMalloc P fuel (calls + 1) size s = .ok ({ s with sfErrno := .EINVAL }, 0) := by
  rw [sfMalloc, if_pos hinvalid]

section Attempt

variable {s₁ : Heap} (hvalid : ¬ (size = 0 ∨ PAGE_SZ * 4 < size))
  (hopen : openHeap P { s with sfErrno := .zero } = .ok s₁)

include hvalid hopen

/-- A call that finds a fit with a clean remainder places the request there. -/
theorem sfMalloc_found (h : Layout P checked orig keep s₁ blocks lists) {i : Fin 4}
    {found : Nat} (hfit : firstFit s₁ (roundUp (size + 16)).1 = some (i, found))
    (hsafe : PlaceSafe s₁ i found (roundUp (size + 16)).1) :
    ∃ s', MallocReturns P size s s' (found + 8) ∧ s'.heapEnd = s₁.heapEnd ∧
      Placed P checked orig keep size (s₁.tag found).blockSize found s' := by
  have hpos : size ≠ 0 := fun hzero => hvalid (Or.inl hzero)
  rcases searchLists_returns_placed h hpos hfit hsafe with
    ⟨s', required, padding, ⟨bound, hsearch⟩, hplaced⟩
  refine ⟨s', ⟨bound + 1, ?_⟩, searchLists_eq_ok (hsearch bound le_rfl), hplaced⟩
  intro fuel calls hfuel hcalls
  cases calls with
  | zero => exact absurd hcalls (by omega)
  | succ calls =>
      have hloop := hsearch fuel (by omega)
      beta_reduce at hloop
      rw [sfMalloc, if_neg hvalid, hopen, ok_bind, hloop, ok_bind]
      exact if_neg (Nat.succ_ne_zero _)

/-- A call that finds no fit asks for a page. -/
theorem sfMalloc_none (h : Layout P checked orig keep s₁ blocks lists)
    (hfit : firstFit s₁ (roundUp (size + 16)).1 = none) :
    ∃ bound, ∀ fuel calls, bound ≤ fuel → sfMalloc P fuel (calls + 1) size s =
      match sfSbrk P s₁ with
      | none => .ok ({ s₁ with sfErrno := .ENOMEM }, 0)
      | some (s, page) => addPage P fuel page s >>= fun s => sfMalloc P fuel calls size s := by
  have hreturns : Returns (fun fuel => searchLists P fuel size (List.finRange 4)
      ⟨s₁, (roundUp (size + 16)).1, (roundUp (size + 16)).2, 0⟩) _ :=
    searchLists_returns_none h hfit
  rcases hreturns with ⟨bound, hsearch⟩
  refine ⟨bound, ?_⟩
  intro fuel calls hfuel
  have hloop := hsearch fuel hfuel
  beta_reduce at hloop
  rw [sfMalloc, if_neg hvalid, hopen, ok_bind, hloop, ok_bind]
  rfl

end Attempt

/-- A safe call of {lit}`sf_malloc` returns, and the heap stays well formed. -/
theorem sfMalloc_returns (h : Layout P checked orig keep s blocks lists)
    (hsafe : MallocSafe P size s) :
    ∃ s' ptr, MallocReturns P size s s' ptr ∧ Answered P checked orig keep size ptr s' := by
  by_cases hinvalid : size = 0 ∨ PAGE_SZ * 4 < size
  · refine ⟨{ s with sfErrno := .EINVAL }, 0, ⟨1, ?_⟩, Or.inl ⟨rfl, blocks, lists, ?_⟩⟩
    · intro fuel calls _ hcalls
      cases calls with
      | zero => exact absurd hcalls (by omega)
      | succ calls => exact sfMalloc_invalid hinvalid
    · exact h.withErrno .EINVAL
  have hpos : size ≠ 0 := fun hzero => hinvalid (Or.inl hzero)
  have hmax : ¬ PAGE_SZ * 4 < size := fun hlarge => hinvalid (Or.inr hlarge)
  -- induction on the room that is left for pages
  induction hleft : P.heapStart + PAGE_SZ * P.pageLimit - s.heapEnd using Nat.strongRecOn
    generalizing s blocks lists with
  | ind left ih =>
      rcases (h.withErrno .zero).openHeap_eq with
        ⟨s₁, blocks₁, lists₁, hopen, h₁, hne, hend₁, hstart₁⟩
      have hend₁ : s.heapEnd ≤ s₁.heapEnd := hend₁
      have hattempt := hsafe.attempt hpos hmax hopen
      unfold AttemptSafe at hattempt
      cases hfit : firstFit s₁ (roundUp (size + 16)).1 with
      | some fit =>
          rw [hfit] at hattempt
          rcases sfMalloc_found hinvalid hopen h₁ hfit hattempt with
            ⟨s', hreturns, -, hplaced⟩
          exact ⟨s', fit.2 + 8, hreturns, Or.inr ⟨fit.2, _, rfl, hplaced⟩⟩
      | none =>
          rw [hfit] at hattempt
          rcases sfMalloc_none hinvalid hopen h₁ hfit with ⟨bound, hgrow⟩
          by_cases hroom : s₁.heapEnd + PAGE_SZ ≤ P.heapStart + PAGE_SZ * P.pageLimit
          · rcases h₁.exists_trailingRun hne with ⟨front, stopper, hsplit, hstopper, hrun⟩
            rw [hsplit] at h₁
            rcases addPage_returns h₁ hroom hstopper hrun (hattempt hroom) with
              ⟨s₂, start, ⟨bound₂, hadd⟩, -, hend₂, h₂⟩
            have hregrows : Regrows P size s s₂ :=
              ⟨bound₂, s₁, s₁.extend, s₁.heapEnd, hopen, hfit, sfSbrk_eq hroom,
                hadd bound₂ le_rfl⟩
            have hless : P.heapStart + PAGE_SZ * P.pageLimit - s₂.heapEnd < left := by
              unfold PAGE_SZ at *
              omega
            rcases ih _ hless h₂ (hsafe.again hregrows) rfl with
              ⟨s', ptr, ⟨bound₃, hagain⟩, hanswer⟩
            refine ⟨s', ptr, ⟨max bound (max bound₂ bound₃) + 1, ?_⟩, hanswer⟩
            intro fuel calls hfuel hcalls
            cases calls with
            | zero => exact absurd hcalls (by omega)
            | succ calls =>
                have hadd' := hadd fuel (by omega)
                beta_reduce at hadd'
                rw [hgrow fuel calls (by omega), sfSbrk_eq hroom]
                dsimp only
                rw [hadd', ok_bind]
                exact hagain fuel calls (by omega) (by omega)
          · refine ⟨{ s₁ with sfErrno := .ENOMEM }, 0, ⟨bound + 1, ?_⟩,
              Or.inl ⟨rfl, blocks₁, lists₁, h₁.withErrno .ENOMEM⟩⟩
            intro fuel calls hfuel hcalls
            cases calls with
            | zero => exact absurd hcalls (by omega)
            | succ calls => rw [hgrow fuel calls (by omega), sfSbrk_eq_none hroom]

end SystemFundamentals.Sfmm
