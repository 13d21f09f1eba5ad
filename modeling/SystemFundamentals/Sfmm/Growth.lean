import SystemFundamentals.Sfmm.Complete

/-!
# Exactness of the growth

The growth step should merge the new page with the whole run of free blocks at the end
of the heap, and leave everything else as it is.  It does so exactly when some block of
the heap is allocated, so that the run does not reach the first block, and the heads and
the backward links of the run are as {lit}`RunSafe` asks.

Main results:

- Theorem {lit}`exists_grown`: the growth is exact under this condition.
- Theorem {lit}`Grown.runSafe`: and under no other.
- Theorem {lit}`ptr_ne_zero_of_room`: after an exact growth a request that the run and all
  the obtainable pages have room for is served.
-/

namespace SystemFundamentals.Sfmm

open Library Library.LinkedList

/-! ## The run at the end of the heap -/

/-- The maximal run of free blocks that ends at the heap end. -/
def freeRun (P : Platform) (s : Heap) : List Block :=
  (heapBlocks P s).rtakeWhile fun block => !block.allocated

/-- The blocks before that run. -/
def keptBlocks (P : Platform) (s : Heap) : List Block :=
  (heapBlocks P s).rdropWhile fun block => !block.allocated

/-- Where the run starts. -/
def runStart (P : Platform) (s : Heap) : Nat :=
  ((freeRun P s).map Block.addr).headD s.heapEnd

/-- The heap after an exact growth: one free block covers the run and the new page, and is
in the list of its size, which is the last one.  The other blocks and lists are as they
were. -/
structure Grown (P : Platform) (s s' : Heap) : Prop where
  wellFormed : WellFormed P s'
  heapEnd_eq : s'.heapEnd = s.heapEnd + PAGE_SZ
  blocks_eq : heapBlocks P s' =
    keptBlocks P s ++ [⟨runStart P s, (s'.heapEnd - runStart P s) / 16, false⟩]
  lists_eq : ∀ i, freeList s' i = grownLists (freeList s) (freeRun P s) (runStart P s) i

/-- Some block is allocated, and the merging of the run finds the right heads. -/
def GrowthSafe (P : Platform) (s : Heap) : Prop :=
  (∃ block ∈ heapBlocks P s, block.allocated = true) ∧ RunSafe s (freeRun P s)

instance (P : Platform) (s : Heap) : Decidable (GrowthSafe P s) :=
  inferInstanceAs (Decidable (_ ∧ _))

/-- The growth step returns and is exact, and after it {lit}`sf_malloc` returns null only
when the run and all the obtainable pages have no room for the request. -/
def GrowthExact (P : Platform) (size : Nat) (s : Heap) : Prop :=
  (∃ s₁ page s', sfSbrk P s = some (s₁, page) ∧
    Returns (fun fuel => addPage P fuel page s₁) s' ∧ Grown P s s') ∧
  ∀ t, MallocReturns P size s t 0 →
    P.heapStart + PAGE_SZ * P.pageLimit < runStart P s + (roundUp (size + 16)).1

variable {P : Platform} {checked : Prop} {orig : Memory} {keep : Block → Prop} {s s' : Heap}
  {blocks : List Block} {lists : Fin 4 → List Nat} {size : Nat}

theorem keptBlocks_append_freeRun (P : Platform) (s : Heap) :
    keptBlocks P s ++ freeRun P s = heapBlocks P s := List.rdropWhile_append_rtakeWhile

theorem freeRun_free {block : Block} (h : block ∈ freeRun P s) : block.allocated = false := by
  simpa using List.mem_rtakeWhile_imp h

/-- The run ends at an allocated block if there is one. -/
theorem exists_stopper (h : ∃ block ∈ heapBlocks P s, block.allocated = true) :
    ∃ front stopper, keptBlocks P s = front ++ [stopper] ∧ stopper.allocated = true := by
  have hne : keptBlocks P s ≠ [] := by
    intro hnil
    rcases h with ⟨block, hblock, hallocated⟩
    have hfree := List.rdropWhile_eq_nil_iff.mp hnil block hblock
    rw [hallocated] at hfree
    exact absurd hfree (by simp)
  have hlast : (!((keptBlocks P s).getLast hne).allocated) ≠ true :=
    List.rdropWhile_last_not _ _ hne
  refine ⟨(keptBlocks P s).dropLast, (keptBlocks P s).getLast hne, ?_, by simpa using hlast⟩
  rw [List.dropLast_append_getLast]

/-- Nothing needs to be kept for a heap to be well formed. -/
theorem Gapped.wellFormed (h : Layout P checked orig keep s blocks lists) : WellFormed P s := by
  refine ⟨blocks, lists, { h with tagged := ?_, keepMem := ?_, kept := ?_ }⟩
  · intro block hblock
    exact ⟨(h.tagged block hblock).toTagsAgree, fun hfalse => hfalse.elim⟩
  · intro _ hfalse
    exact hfalse.elim
  · intro _ hfalse
    exact hfalse.elim

/-- A list with an address in it does not start at null. -/
theorem Gapped.head_eq (h : Layout P checked orig keep s blocks lists) (i : Fin 4) :
    s.head i = (freeList s i).headD 0 := by
  rw [h.freeList_eq]
  exact (h.linked i).head_eq

/-! ## The growth is exact when it is safe -/

/-- Under the condition the growth step returns, and its growth is exact. -/
theorem exists_grown (h : Layout P checked orig keep s blocks lists)
    (hroom : s.heapEnd + PAGE_SZ ≤ P.heapStart + PAGE_SZ * P.pageLimit)
    (hsafe : GrowthSafe P s) :
    ∃ s' lists', Returns (fun fuel => addPage P fuel s.heapEnd s.extend) s' ∧ Grown P s s' ∧
      Layout P checked orig keep s'
        (keptBlocks P s ++ [⟨runStart P s, (s'.heapEnd - runStart P s) / 16, false⟩]) lists' := by
  rcases exists_stopper hsafe.1 with ⟨front, stopper, hkept, hstopper⟩
  have hsplit : blocks = front ++ stopper :: freeRun P s := by
    rw [← h.heapBlocks_eq, ← keptBlocks_append_freeRun, hkept, List.append_assoc,
      List.singleton_append]
  rw [hsplit] at h
  rcases addPage_returns h hroom (Or.inl hstopper) (fun _ hb => freeRun_free hb) hsafe.2 with
    ⟨s', start, hreturns, rfl, hend, h'⟩
  rw [← hkept] at h'
  refine ⟨s', _, hreturns, ⟨h'.wellFormed, hend, h'.heapBlocks_eq, ?_⟩, h'⟩
  intro i
  rw [h'.freeList_eq, show freeList s = lists from funext h.freeList_eq]
  rfl

/-! ## The growth is exact only when it is safe -/

/-- The heads after a block of more than 2048 bytes has been pushed. -/
theorem insertHead_head {block : Nat} (h : insertHead P block s = .ok s')
    (hlarge : 2048 < (s.tag block).blockSize * 16)
    (hsmall : (s.tag block).blockSize * 16 ≤ 65535) :
    s'.head = Function.update s.head 3 block := by
  unfold insertHead at h
  rcases bind_eq_ok.mp h with ⟨header, hheader, h⟩
  have htag : s.tag block = header := by
    unfold readTag at hheader
    split_ifs at hheader
    exact Except.ok.inj hheader
  rw [← htag, listIndex_eq hsmall, classOf_eq_last hlarge, ok_bind] at h
  rcases bind_eq_ok.mp h with ⟨s₁, hstore, h⟩
  have hhead₁ : s₁.head = s.head := by
    unfold store at hstore
    split_ifs at hstore
    rw [← Except.ok.inj hstore]
    exact Heap.head_setWord ..
  dsimp only at h
  split_ifs at h
  · rcases bind_eq_ok.mp h with ⟨s₂, hstore, h⟩
    have hhead₂ : s₂.head = s₁.head := by
      unfold store at hstore
      split_ifs at hstore
      rw [← Except.ok.inj hstore]
      exact Heap.head_setWord ..
    rw [← Except.ok.inj h, ← hhead₁, ← hhead₂]
    rfl
  · rw [← Except.ok.inj h, ← hhead₁]
    rfl

/-- The blocks behind the last allocated one are the run. -/
theorem freeRun_eq {front run : List Block} {stopper : Block}
    (hblocks : heapBlocks P s = front ++ stopper :: run) (hstopper : stopper.allocated = true)
    (hrun : ∀ b ∈ run, b.allocated = false) : freeRun P s = run := by
  unfold freeRun List.rtakeWhile
  rw [hblocks, List.reverse_append, List.reverse_cons, List.append_assoc,
    List.takeWhile_append_of_pos, List.singleton_append, List.takeWhile_cons_of_neg,
    List.append_nil, List.reverse_reverse]
  · simp [hstopper]
  · intro b hb
    simp [hrun b (List.mem_reverse.mp hb)]

/-- When all blocks are free, the run starts with the heap. -/
theorem Gapped.runStart_eq (h : Layout P checked orig keep s blocks lists) (hne : blocks ≠ [])
    (hfree : ∀ b ∈ heapBlocks P s, b.allocated = false) : runStart P s = P.heapStart := by
  have hrun : freeRun P s = heapBlocks P s := by
    apply List.rtakeWhile_eq_self_iff.mpr
    intro b hb
    simp [hfree b hb]
  rw [runStart, hrun, h.heapBlocks_eq]
  cases blocks with
  | nil => exact absurd rfl hne
  | cons first rest => exact h.frontTiles.1

/-- The block that an exact growth pushes is not one that it merges at the start of the
heap, so some block is allocated. -/
theorem Gapped.exists_allocated (h : Layout P checked orig keep s blocks lists)
    (hne : blocks ≠ []) (hstart : P.heapStart < runStart P s) :
    ∃ block ∈ heapBlocks P s, block.allocated = true := by
  by_contra hnone
  have hfree : ∀ b ∈ heapBlocks P s, b.allocated = false := by
    intro b hb
    apply Bool.eq_false_of_not_eq_true
    intro hallocated
    exact hnone ⟨b, hb, hallocated⟩
  have heq := h.runStart_eq hne hfree
  omega

/-- When no merged block of at most 2048 bytes is a head, the lowest merged block can only
be the first of the last list. -/
theorem Gapped.classOf_first (h : Layout P checked orig keep s blocks lists) {first : Block}
    {rest : List Block} (hmem : ∀ b ∈ first :: rest, b ∈ blocks ∧ b.allocated = false)
    (hheads : ∀ b ∈ first :: rest, classOf b.units ≠ 3 → s.head (classOf b.units) ≠ b.addr)
    (hfirst : (without rest (lists (classOf first.units))).head? = some first.addr) :
    classOf first.units = 3 := by
  have hlisted (b : Block) (hb : b ∈ first :: rest) : b.addr ∈ lists (classOf b.units) := by
    apply (h.listed _ _).mpr
    exact ⟨b, by simp [(hmem b hb).1], (hmem b hb).2, rfl, rfl⟩
  by_contra hclass
  have hhead := (h.linked (classOf first.units)).head_eq
  cases hlist : lists (classOf first.units) with
  | nil =>
      rw [hlist] at hfirst
      exact absurd hfirst (by simp [without])
  | cons a nodes =>
      rw [hlist, List.headD_cons] at hhead
      by_cases hrest : a ∈ rest.map Block.addr
      · rcases List.mem_map.mp hrest with ⟨b, hb, rfl⟩
        have hb := List.mem_cons_of_mem first hb
        have hsame : classOf b.units = classOf first.units := by
          apply h.list_unique (by simp) (hlisted b hb)
          rw [hlist]
          exact List.mem_cons_self
        exact hheads b hb (hsame ▸ hclass) (hsame ▸ hhead)
      · rw [hlist, without, List.filter_cons_of_pos (by simpa using hrest), List.head?_cons]
          at hfirst
        rw [Option.some.inj hfirst] at hhead
        exact hheads first List.mem_cons_self hclass hhead

/-- When some block is allocated, the merging stops at an allocated block. -/
theorem Gapped.stopper_allocated {front run : List Block} {stopper : Block}
    (h : Layout P checked orig keep s (front ++ stopper :: run) lists)
    (hstopper : stopper.allocated = true ∨ stopper.addr = P.heapStart)
    (hrun : ∀ b ∈ run, b.allocated = false)
    (hallocated : ∃ block ∈ heapBlocks P s, block.allocated = true) :
    stopper.allocated = true := by
  rcases hstopper with hstopper | haddr
  · exact hstopper
  rcases tiles_append.mp h.frontTiles with ⟨middle, hfront, hmiddle, -⟩
  have hlength := hfront.length_le
  have hnil : front = [] := List.length_eq_zero_iff.mp (by omega)
  rcases hallocated with ⟨block, hblock, hallocated⟩
  rw [h.heapBlocks_eq, hnil, List.nil_append] at hblock
  rcases List.mem_cons.mp hblock with rfl | hmem
  · exact hallocated
  · rw [hrun block hmem] at hallocated
    exact absurd hallocated (by simp)

/-- A merged block of at most 2048 bytes is not a head, since the heads of the other lists
are never reset. -/
theorem Grown.head_ne (hgrown : Grown P s s') (hhead : ∀ i, i ≠ 3 → s'.head i = s.head i)
    {b : Block} (hb : b ∈ freeRun P s) (hpos : b.addr ≠ 0) (hclass : classOf b.units ≠ 3) :
    s.head (classOf b.units) ≠ b.addr := by
  intro heq
  rcases hgrown.wellFormed with ⟨blocks', lists', h'⟩
  have hmem : b.addr ∈ freeList s' (classOf b.units) := by
    rw [h'.freeList_eq, ← heq, ← hhead _ hclass]
    apply (h'.linked _).head_mem
    rw [hhead _ hclass, heq]
    exact hpos
  rw [hgrown.lists_eq, grownLists, Function.update_of_ne hclass, mem_without] at hmem
  exact hmem.2 b hb rfl

/-- The backward link of a block that fills the gap is not changed by the push, and the
block is a head then. -/
theorem Gapped.prev_eq_zero_of_push {front : List Block} {lo : Nat}
    (h : Gapped P checked orig keep s front lo s.heapEnd [] [] lists)
    (hroom : lo + 4096 ≤ s.heapEnd)
    (hsize : (s.tag lo).blockSize * 16 = s.heapEnd - lo) (hinsert : insertHead P lo s = .ok s')
    (hwell : WellFormed P s') : s.prev lo = 0 := by
  have hmod := h.gap_mod
  have hlimit := h.size_le
  let block : Block := ⟨lo, (s.heapEnd - lo) / 16, false⟩
  have hstop : block.stop = s.heapEnd := by
    show lo + 16 * ((s.heapEnd - lo) / 16) = s.heapEnd
    omega
  have hunits : 2 ≤ block.units := by
    show 2 ≤ (s.heapEnd - lo) / 16
    omega
  have hheader : (s.tag block.addr).blockSize = block.units := by
    show (s.tag lo).blockSize = (s.heapEnd - lo) / 16
    omega
  have hclass : classOf block.units = 3 := by
    apply classOf_eq_last
    show 2048 < (s.heapEnd - lo) / 16 * 16
    omega
  have heq := h.insertHead_eq rfl hstop hunits hheader
  rw [hclass] at heq
  have hs' : s' = inserted s 3 lo := Except.ok.inj (hinsert.symm.trans heq)
  -- the word behind the old head is another one
  have hprev : s'.prev lo = s.prev lo := by
    have hword := h.word_inserted_gap (show block.addr = lo from rfl) hstop hunits 3
      (show (lo + 16) % 8 = lo % 8 by omega)
    have hbounds := h.insert_bounds (show block.addr = lo from rfl) hstop hunits 3
    rw [hs']
    show (inserted s 3 lo).word (lo + 16) = s.word (lo + 16)
    rw [hword, if_neg (show ¬ lo + 16 = lo + 8 by omega), if_neg]
    intro hcase
    exact (hbounds.2.2.2.2.2 hcase.1).2.1 (show s.head 3 = lo by omega)
  rw [← hprev]
  rcases hwell with ⟨blocks', lists', h'⟩
  have hhead : s'.head 3 = lo := by
    rw [hs', head_inserted, Function.update_self]
  have hpos : lo ≠ 0 := by
    have hle := h.frontTiles.le
    have hstart := P.heapStart_ge
    unfold PAGE_SZ at hstart
    omega
  have hmem : lo ∈ lists' 3 := by
    rw [← hhead]
    apply (h'.linked 3).head_mem
    rw [hhead]
    exact hpos
  exact ((h'.linked 3).prev_eq_null_iff hmem).mpr hhead

/-- The growth is exact under no other condition. -/
theorem growthSafe_of_grown (h : Layout P checked orig keep s blocks lists) (hne : blocks ≠ [])
    (hroom : s.heapEnd + PAGE_SZ ≤ P.heapStart + PAGE_SZ * P.pageLimit)
    (hreturns : Returns (fun fuel => addPage P fuel s.heapEnd s.extend) s')
    (hgrown : Grown P s s') : GrowthSafe P s := by
  have hwhole := h
  rcases h.exists_trailingRun hne with ⟨front, stopper, hsplit, hstopper, hrun⟩
  rw [hsplit] at h
  rcases addPage_eq h hroom hstopper hrun with ⟨s₁, start, bound, heq, hready⟩
  have hinsert : insertHead P start s₁ = .ok s' := by
    rcases hreturns with ⟨bound', hreturns⟩
    rw [← heq (max bound bound') (le_max_left ..)]
    exact hreturns _ (le_max_right ..)
  rcases hready.gapped with ⟨heads', hgapped, hheads'⟩
  have hlength := hgapped.frontTiles.length_le
  rw [List.length_append, List.length_singleton] at hlength
  have hstartLe := hready.start_le
  have hsize := hready.header.2
  have hlimit := hgapped.size_le
  have hhead : s'.head = Function.update s₁.head 3 start :=
    insertHead_head hinsert (by unfold PAGE_SZ at hsize; omega) (by omega)
  have hstart : start = runStart P s := by
    rcases hgrown.wellFormed with ⟨blocks', lists', h'⟩
    have hfirst := h'.head_eq 3
    rw [hhead, hgrown.lists_eq, grownLists, Function.update_self, Function.update_self,
      List.headD_cons] at hfirst
    exact hfirst
  have hallocated := hwhole.exists_allocated hne (by omega)
  have hstopper' := h.stopper_allocated hstopper hrun hallocated
  have hfreeRun : freeRun P s = trailingRun P s :=
    freeRun_eq (hwhole.heapBlocks_eq.trans hsplit) hstopper' hrun
  have hheads : ∀ b ∈ freeRun P s, classOf b.units ≠ 3 → s.head (classOf b.units) ≠ b.addr := by
    intro b hb hclass
    have hbounds := hwhole.outside (show b ∈ blocks ++ [] by rw [hsplit, ← hfreeRun]; simp [hb])
    have hlow := P.heapStart_ge
    unfold PAGE_SZ at hlow
    refine hgrown.head_ne ?_ hb (by omega) hclass
    intro i hi
    rw [hhead, Function.update_of_ne hi]
    exact hready.head_eq i hi
  have hprev : s₁.prev start = 0 := by
    rw [← hheads' (by rw [← hfreeRun]; exact hheads), Heap.withHead_self] at hgapped
    have hend : s.heapEnd + PAGE_SZ = s₁.heapEnd := hgapped.backTiles
    rw [hend] at hgapped hsize
    refine hgapped.prev_eq_zero_of_push ?_ hsize hinsert hgrown.wellFormed
    unfold PAGE_SZ at hend
    omega
  refine ⟨hallocated, hheads, ?_⟩
  rw [hfreeRun] at hheads ⊢
  cases hcase : trailingRun P s with
  | nil =>
      rw [hready.prev_eq_nil hcase] at hprev
      exact hprev
  | cons first rest =>
      rw [hcase] at hheads hrun hsplit
      have hfirst := (hready.prev_eq_cons first rest hcase).mp hprev
      have hclass := hwhole.classOf_first
        (fun b hb => ⟨by rw [hsplit]; simp [List.mem_cons.mp hb], hrun b hb⟩) hheads hfirst
      rw [hclass] at hfirst
      show (without rest (freeList s 3)).head? = some first.addr
      rw [hwhole.freeList_eq]
      exact hfirst

/-! ## Requests that find room after the growth -/

/-- A walk that succeeds has allocated the first block that fits, or changed nothing. -/
theorem walk_eq_ok_cases {fuel : Nat} {i : Fin 4} (search : Search) {search' : Search}
    {nodes : List Nat} {before first last : Nat}
    (hsegment : Segment search.heap.next search.heap.prev before first nodes 0 last)
    (hnull : 0 ∉ nodes)
    (hin : ∀ a ∈ nodes, InHeap P search.heap a ∧ InHeap P search.heap (a + 8))
    (hwalk : walk P size i fuel first search = .ok search') :
    (nodes.find? fun a => fits search.required (search.heap.tag a)) = none ∧ search' = search ∨
      search'.allocatedBlock ≠ 0 := by
  induction nodes generalizing before first fuel with
  | nil =>
      cases fuel with
      | zero => cases hwalk
      | succ fuel =>
          rw [walk, if_neg (not_not.mpr hsegment.1)] at hwalk
          exact Or.inl ⟨rfl, (Except.ok.inj hwalk).symm⟩
  | cons a nodes ih =>
      rcases hsegment with ⟨rfl, -, hrest⟩
      have hne : first ≠ 0 := by
        intro heq
        apply hnull
        rw [← heq]
        exact List.mem_cons_self
      have hfirst := hin first List.mem_cons_self
      cases fuel with
      | zero => cases hwalk
      | succ fuel =>
          cases hfit : fits search.required (search.heap.tag first) with
          | true =>
              rw [walk, if_pos hne, readTag_eq hfirst.1, ok_bind, if_pos hfit] at hwalk
              rcases bind_eq_ok.mp hwalk with ⟨search₁, hplace, hwalk⟩
              right
              apply (walk_eq_ok hwalk).2
              rw [(place_eq_ok hplace).2]
              exact Nat.succ_ne_zero _
          | false =>
              rw [walk_step hne hfirst.1 hfirst.2 hfit] at hwalk
              rw [List.find?_cons, hfit]
              exact ih hrest (fun hmem => hnull (List.mem_cons_of_mem _ hmem))
                (fun b hb => hin b (List.mem_cons_of_mem _ hb)) hwalk

/-- A search that succeeds although there is a first fit has allocated a block. -/
theorem searchLists_allocated (h : Layout P checked orig keep s blocks lists) {fuel required : Nat}
    {padding : Bool} {is : List (Fin 4)} {fit : Fin 4 × Nat} {search' : Search}
    (hfit : is.findSome? (fitIn s required) = some fit)
    (hsearch : searchLists P fuel size is ⟨s, required, padding, 0⟩ = .ok search') :
    search'.allocatedBlock ≠ 0 := by
  induction is with
  | nil => exact absurd hfit (by simp)
  | cons i is ih =>
      rw [List.findSome?_cons] at hfit
      rw [searchLists, if_pos rfl] at hsearch
      by_cases hmax : required < listMax i
      · rw [if_pos hmax] at hsearch
        rcases bind_eq_ok.mp hsearch with ⟨search₁, hwalk, hsearch⟩
        rcases (h.linked i).segment with ⟨last, hsegment⟩
        rcases walk_eq_ok_cases ⟨s, required, padding, 0⟩ hsegment (h.linked i).null_notMem
          (fun a ha => h.inHeap_listed ha) hwalk with ⟨hnone, rfl⟩ | hne
        · rw [fitIn, if_pos hmax, h.freeList_eq, hnone, Option.map_none] at hfit
          exact ih hfit hsearch
        · cases is with
          | nil =>
              rw [← Except.ok.inj hsearch]
              exact hne
          | cons j is =>
              rw [searchLists, if_neg hne] at hsearch
              rw [← Except.ok.inj hsearch]
              exact hne
      · rw [if_neg hmax] at hsearch
        rw [fitIn, if_neg hmax] at hfit
        exact ih hfit hsearch

/-- A call that returns although there is a first fit does not return null. -/
theorem sfMalloc_ptr_ne_zero (h : Layout P checked orig keep s blocks lists) (hne : blocks ≠ [])
    (hvalid : ¬ (size = 0 ∨ PAGE_SZ * 4 < size)) {fit : Fin 4 × Nat}
    (hfit : firstFit s (roundUp (size + 16)).1 = some fit) {ptr : Nat}
    (hreturns : MallocReturns P size s s' ptr) : ptr ≠ 0 := by
  rcases hreturns with ⟨bound, hreturns⟩
  have hcall := hreturns bound (bound + 1) le_rfl (by omega)
  rw [sfMalloc, if_neg hvalid, h.openHeap_self hne .zero, ok_bind] at hcall
  rcases bind_eq_ok.mp hcall with ⟨search, hsearch, hcall⟩
  rw [← firstFit_withErrno s .zero] at hfit
  have hallocated := searchLists_allocated (h.withErrno .zero) hfit hsearch
  rw [if_neg hallocated] at hcall
  rw [← (Prod.mk.inj (Except.ok.inj hcall)).2]
  exact hallocated

/-- {lit}`sf_errno` does not matter for the growth. -/
theorem Gapped.growthSafe_withErrno (h : Layout P checked orig keep s blocks lists)
    (errno : Errno) : (GrowthSafe P { s with sfErrno := errno } ↔ GrowthSafe P s) ∧
      runStart P { s with sfErrno := errno } = runStart P s := by
  have hblocks : heapBlocks P { s with sfErrno := errno } = heapBlocks P s :=
    (h.withErrno errno).heapBlocks_eq.trans h.heapBlocks_eq.symm
  have hrun : freeRun P { s with sfErrno := errno } = freeRun P s := by
    unfold freeRun
    rw [hblocks]
  constructor
  · unfold GrowthSafe
    rw [hblocks, hrun]
    cases freeRun P s <;> exact Iff.rfl
  · unfold runStart
    rw [hrun]

theorem Gapped.runStart_le (h : Layout P checked orig keep s blocks lists) :
    runStart P s ≤ s.heapEnd := by
  unfold runStart
  cases hrun : freeRun P s with
  | nil => exact le_rfl
  | cons first rest =>
      have hmem : first ∈ blocks := by
        rw [← h.heapBlocks_eq, ← keptBlocks_append_freeRun, hrun]
        simp
      have hbounds := h.frontTiles.bounds hmem
      unfold Block.stop at hbounds
      simp only [List.map_cons, List.headD_cons]
      omega

/-- The block that an exact growth has pushed is the run from then on, and the next growth
is safe. -/
theorem Grown.again (hgrown : Grown P s s') (hroom : s.heapEnd + PAGE_SZ ≤ s'.heapEnd)
    (hstart : runStart P s ≤ s.heapEnd)
    (hallocated : ∃ block ∈ heapBlocks P s, block.allocated = true) :
    GrowthSafe P s' ∧ runStart P s' = runStart P s := by
  rcases exists_stopper hallocated with ⟨front, stopper, hkept, hstopper⟩
  have hblocks := hgrown.blocks_eq
  rw [hkept, List.append_assoc, List.singleton_append] at hblocks
  have hrun := freeRun_eq hblocks hstopper (by simp)
  have hclass : classOf ((s'.heapEnd - runStart P s) / 16) = 3 := by
    apply classOf_eq_last
    unfold PAGE_SZ at hroom
    omega
  refine ⟨⟨⟨stopper, by rw [hblocks]; simp, hstopper⟩, ?_⟩, ?_⟩
  · rw [hrun]
    refine ⟨?_, ?_⟩
    · intro b hb hne
      rw [List.mem_singleton.mp hb] at hne
      exact absurd hclass hne
    · show (without [] (freeList s' 3)).head? = some (runStart P s)
      rw [without_nil, hgrown.lists_eq, grownLists, Function.update_self, List.head?_cons]
  · unfold runStart
    rw [hrun]
    rfl

/-- A request that does not find room behind an exact growth needs more than the run and
the new page. -/
theorem Grown.lt_required (hgrown : Grown P s s') (hlayout : Layout P checked orig keep s'
      (keptBlocks P s ++ [⟨runStart P s, (s'.heapEnd - runStart P s) / 16, false⟩]) lists)
    (hpos : size ≠ 0) (hmax : size ≤ PAGE_SZ * 4)
    (hfit : firstFit s' (roundUp (size + 16)).1 = none) :
    s'.heapEnd < runStart P s + (roundUp (size + 16)).1 := by
  rcases roundUp_spec hpos with ⟨hmod, -, -, hlt, -⟩
  have hmem : runStart P s ∈ freeList s' 3 := by
    rw [hgrown.lists_eq, grownLists, Function.update_self]
    exact List.mem_cons_self
  have hsize := (hlayout.tagged ⟨runStart P s, (s'.heapEnd - runStart P s) / 16, false⟩
    (by simp)).headerSize
  dsimp only at hsize
  rcases tiles_append.mp hlayout.frontTiles with ⟨middle, -, haddr, -, hstop⟩
  have hstop' : runStart P s + 16 * ((s'.heapEnd - runStart P s) / 16) = s'.heapEnd := hstop
  by_contra hle
  have hlast := (hlayout.firstFit_eq_none_iff hmod).mp hfit 3 _ hmem (by omega)
  unfold PAGE_SZ at hmax
  have hmaximum : listMax 3 = 65535 := rfl
  omega

/-- After an exact growth a request that the run and all the obtainable pages have room for
is served. -/
theorem ptr_ne_zero_of_room (h : Layout P checked orig keep s blocks lists)
    (hpos : size ≠ 0) (hmax : size ≤ PAGE_SZ * 4)
    (hfit : firstFit s (roundUp (size + 16)).1 = none)
    (hroom : s.heapEnd + PAGE_SZ ≤ P.heapStart + PAGE_SZ * P.pageLimit)
    (hsafe : GrowthSafe P s)
    (henough : runStart P s + (roundUp (size + 16)).1 ≤ P.heapStart + PAGE_SZ * P.pageLimit)
    {t : Heap} {ptr : Nat} (hreturns : MallocReturns P size s t ptr) : ptr ≠ 0 := by
  have hvalid : ¬ (size = 0 ∨ PAGE_SZ * 4 < size) := by omega
  -- induction on the room that is left for pages
  induction hleft : P.heapStart + PAGE_SZ * P.pageLimit - s.heapEnd using Nat.strongRecOn
    generalizing s blocks lists with
  | ind left ih =>
      have hne : blocks ≠ [] := by
        intro hnil
        rcases hsafe.1 with ⟨block, hblock, -⟩
        rw [h.heapBlocks_eq, hnil] at hblock
        exact List.not_mem_nil hblock
      rcases h.growthSafe_withErrno .zero with ⟨hsafe₀, hstart₀⟩
      have hsafe' := hsafe₀.mpr hsafe
      rcases exists_grown (h.withErrno .zero) hroom hsafe' with
        ⟨s₁, lists₁, ⟨bound, hadd⟩, hgrown, h₁⟩
      have hend₁ : s₁.heapEnd = s.heapEnd + PAGE_SZ := hgrown.heapEnd_eq
      have hagain : MallocReturns P size s₁ t ptr := by
        rw [← firstFit_withErrno s .zero] at hfit
        rcases sfMalloc_none hvalid (h.openHeap_self hne .zero) (h.withErrno .zero) hfit with
          ⟨bound', hnone⟩
        rcases hreturns with ⟨bound'', hreturns⟩
        have hbrk : sfSbrk P { s with sfErrno := .zero } =
            some (({ s with sfErrno := .zero } : Heap).extend, s.heapEnd) := sfSbrk_eq hroom
        refine ⟨max bound (max bound' bound''), ?_⟩
        intro fuel calls hfuel hcalls
        have hcall := hreturns fuel (calls + 1) (by omega) (by omega)
        have hadd := hadd fuel (by omega)
        beta_reduce at hadd
        rw [hnone fuel calls (by omega), hbrk] at hcall
        dsimp only at hcall
        rw [hadd, ok_bind] at hcall
        exact hcall
      cases hfit₁ : firstFit s₁ (roundUp (size + 16)).1 with
      | some fit => exact sfMalloc_ptr_ne_zero h₁ (by simp) hvalid hfit₁ hagain
      | none =>
          have hlt := hgrown.lt_required h₁ hpos hmax hfit₁
          rcases hgrown.again hend₁.ge (h.withErrno .zero).runStart_le hsafe'.1 with
            ⟨hsafe₁, hstart₁⟩
          have hroom₁ : s₁.heapEnd + PAGE_SZ ≤ P.heapStart + PAGE_SZ * P.pageLimit := by
            rcases h₁.pages with ⟨k, hk, hend⟩
            unfold PAGE_SZ at *
            omega
          have hless : P.heapStart + PAGE_SZ * P.pageLimit - s₁.heapEnd < left := by
            unfold PAGE_SZ at *
            omega
          exact ih _ hless h₁ hfit₁ hroom₁ hsafe₁ (by rw [hstart₁, hstart₀]; exact henough)
            hagain rfl

/-! ## When the growth is exact -/

/-- When the search fails and there is a page left, the growth is exact if and only if it
is safe. -/
theorem growthExact_iff (h : WellFormed P s) (hheap : P.heapStart < s.heapEnd)
    (hpos : 1 ≤ size) (hmax : size ≤ PAGE_SZ * 4)
    (hfit : firstFit s (roundUp (size + 16)).1 = none) (hbrk : (sfSbrk P s).isSome) :
    GrowthExact P size s ↔ GrowthSafe P s := by
  rcases h with ⟨blocks, lists, h⟩
  have hne : blocks ≠ [] := by
    intro hnil
    have htiles := h.frontTiles
    rw [hnil] at htiles
    exact hheap.ne htiles
  have hroom : s.heapEnd + PAGE_SZ ≤ P.heapStart + PAGE_SZ * P.pageLimit := by
    by_contra hfull
    rw [sfSbrk_eq_none hfull] at hbrk
    exact absurd hbrk (by simp)
  constructor
  · intro hexact
    rcases hexact.1 with ⟨s₁, page, s', hsome, hreturns, hgrown⟩
    rw [sfSbrk_eq hroom] at hsome
    rcases Prod.mk.inj (Option.some.inj hsome) with ⟨rfl, rfl⟩
    exact growthSafe_of_grown h hne hroom hreturns hgrown
  · intro hsafe
    rcases exists_grown h hroom hsafe with ⟨s', lists', hreturns, hgrown, -⟩
    refine ⟨⟨_, _, s', sfSbrk_eq hroom, hreturns, hgrown⟩, ?_⟩
    intro t hnull
    by_contra henough
    exact ptr_ne_zero_of_room h (by omega) hmax hfit hroom hsafe (by omega) hnull rfl

/-- A page that is free, as after a request of 48 bytes that has been freed. -/
def freePage : Heap :=
  Heap.withBlock ⟨fun _ => 0, 69632, ![0, 0, 0, 65536], .zero⟩ ⟨65536, 256, false⟩ false 0

theorem freePage_wellFormed : WellFormed fourPages freePage :=
  ⟨[⟨65536, 256, false⟩], _,
    layout_of_one_free ⟨65536, 256, false⟩ (by decide +kernel) ⟨1, by decide, by decide⟩
      (by decide +kernel) (by decide) (by decide +kernel) (by decide +kernel)⟩

/-- A request of 5000 bytes makes the heap grow, and the free page at its start is not
merged with the new one. -/
theorem freePage_not_exact :
    WellFormed fourPages freePage ∧ fourPages.heapStart < freePage.heapEnd ∧
      firstFit freePage (roundUp (5000 + 16)).1 = none ∧
      (sfSbrk fourPages freePage).isSome ∧ ¬ GrowthExact fourPages 5000 freePage := by
  have hfit : firstFit freePage (roundUp (5000 + 16)).1 = none := by decide +kernel
  refine ⟨freePage_wellFormed, by decide, hfit, by decide, ?_⟩
  intro hexact
  have hroom : freePage.heapEnd + PAGE_SZ ≤
      fourPages.heapStart + PAGE_SZ * fourPages.pageLimit := by decide
  rcases freePage_wellFormed with ⟨blocks, lists, h⟩
  have hne : blocks ≠ [] := by
    rw [← h.heapBlocks_eq]
    decide +kernel
  rcases hexact.1 with ⟨s₁, page, s', hsome, hreturns, hgrown⟩
  rw [sfSbrk_eq hroom] at hsome
  rcases Prod.mk.inj (Option.some.inj hsome) with ⟨rfl, rfl⟩
  have hsafe := growthSafe_of_grown h hne hroom hreturns hgrown
  exact absurd hsafe (by decide +kernel)

/-- The page after a request of 112 bytes. -/
def halfPage : Heap :=
  (Heap.withBlock ⟨fun _ => 0, 69632, ![0, 0, 0, 65664], .zero⟩
    ⟨65536, 8, true⟩ false 112).withBlock ⟨65664, 248, false⟩ false 0

theorem halfPage_wellFormed : WellFormed fourPages halfPage :=
  ⟨[⟨65536, 8, true⟩, ⟨65664, 248, false⟩], _,
    layout_of_one_free ⟨65664, 248, false⟩ (by decide +kernel) ⟨1, by decide, by decide⟩
      (by decide +kernel) (by decide) (by decide +kernel) (by decide +kernel)⟩

/-- There the free block is merged with the new page. -/
theorem halfPage_exact : GrowthExact fourPages 5000 halfPage :=
  (growthExact_iff halfPage_wellFormed (by decide) (by decide) (by decide) (by decide +kernel)
    (by decide)).mpr (by decide +kernel)

end SystemFundamentals.Sfmm
