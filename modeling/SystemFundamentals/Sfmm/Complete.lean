import SystemFundamentals.Sfmm.Malloc

/-!
# Completeness of the search

The search looks at a list only when its maximum exceeds the required size, but a block
whose size is the maximum is in the list.  So a block of 128, 512 or 2048 bytes is not
found by the requests that it fits exactly.

Main results:

- Theorem {lit}`servedInPlace_of_firstFit`: a request with a first fit is served from it.
- Theorem {lit}`not_servedInPlace`: a request without one is not served from the free
  blocks there are.
-/

namespace SystemFundamentals.Sfmm

open Library Library.LinkedList

/-- Some free block has room for the required size. -/
def HasFit (s : Heap) (required : Nat) : Prop :=
  ∃ i, ∃ block ∈ freeList s i, required ≤ (s.tag block).blockSize * 16

/-- {lit}`sf_malloc` returns a block that it carves from a free block of the heap, and
does not call {lit}`sf_sbrk`. -/
def ServedInPlace (P : Platform) (size : Nat) (s : Heap) : Prop :=
  ∃ i, ∃ block ∈ freeList s i, ∃ s', MallocReturns P size s s' (block + 8) ∧
    s'.heapEnd = s.heapEnd ∧ (s'.tag block).allocated = true ∧
    size + 16 ≤ (s'.tag block).blockSize * 16 ∧
    (s'.tag block).blockSize ≤ (s.tag block).blockSize

/-- The first fit of the search exists, and its remainder is clean. -/
def FirstFitSafe (s : Heap) (required : Nat) : Prop :=
  ∃ i block, firstFit s required = some (i, block) ∧ PlaceSafe s i block required

variable {P : Platform} {checked : Prop} {orig : Memory} {keep : Block → Prop} {s : Heap}
  {blocks : List Block} {lists : Fin 4 → List Nat} {size : Nat}

/-! ## Heaps that are not empty -/

/-- A heap with a block has a page. -/
theorem Gapped.page_le (h : Layout P checked orig keep s blocks lists) (hne : blocks ≠ []) :
    P.heapStart + PAGE_SZ ≤ s.heapEnd := by
  by_contra hsmall
  have hle := h.frontTiles.le
  exact hne (h.eq_empty (by omega)).2.1

/-- {lit}`sf_malloc` searches a heap with a page as it is. -/
theorem openHeap_of_page {s : Heap} (hpage : ¬ s.heapEnd - P.heapStart < PAGE_SZ)
    (errno : Errno) : openHeap P { s with sfErrno := errno } = .ok { s with sfErrno := errno } :=
  if_neg hpage

theorem Gapped.openHeap_self (h : Layout P checked orig keep s blocks lists) (hne : blocks ≠ [])
    (errno : Errno) : openHeap P { s with sfErrno := errno } = .ok { s with sfErrno := errno } := by
  have hpage := h.page_le hne
  exact openHeap_of_page (by omega) errno

/-- A heap with a listed block is not empty. -/
theorem Gapped.ne_nil_of_mem (h : Layout P checked orig keep s blocks lists) {i : Fin 4} {a : Nat}
    (ha : a ∈ freeList s i) : blocks ≠ [] := by
  intro hnil
  rw [h.freeList_eq, h.listed, hnil] at ha
  rcases ha with ⟨block, hmem, -⟩
  exact List.not_mem_nil hmem

/-! ## With and without a first fit -/

/-- A request with a first fit is served from it. -/
theorem servedInPlace_of_firstFit (h : WellFormed P s)
    (hvalid : ¬ (size = 0 ∨ PAGE_SZ * 4 < size))
    (hsafe : FirstFitSafe s (roundUp (size + 16)).1) : ServedInPlace P size s := by
  rcases h with ⟨blocks, lists, h⟩
  rcases hsafe with ⟨i, found, hfit, hsafe⟩
  rcases h.exists_firstFit hfit with ⟨front, block, back, hsplit, hfree, haddr, hclass, -⟩
  have hmem : found ∈ freeList s i := by
    rw [h.freeList_eq, h.listed]
    exact ⟨block, by simp [hsplit], hfree, haddr, hclass⟩
  have hopen := h.openHeap_self (h.ne_nil_of_mem hmem) .zero
  rw [← firstFit_withErrno s .zero] at hfit
  rcases sfMalloc_found hvalid hopen (h.withErrno .zero) hfit (placeSafe_withErrno.mpr hsafe) with
    ⟨s', hreturns, hend, hplaced⟩
  rw [tag_withErrno] at hplaced
  rcases hplaced.layout with ⟨blocks', lists', h', units, hblock, hrecords, hroom⟩
  have hunits : (s'.tag found).blockSize = units :=
    (h'.tagged _ (List.mem_append_left _ hblock)).headerSize
  refine ⟨i, found, hmem, s', hreturns, hend, hplaced.header, ?_, ?_⟩
  · rw [hunits]
    exact hrecords.room
  · rw [hunits]
    exact hroom

/-- A call that finds no fit fails or has the heap grown. -/
theorem sfMalloc_grows (h : Layout P checked orig keep s blocks lists) (hne : blocks ≠ [])
    (hvalid : ¬ (size = 0 ∨ PAGE_SZ * 4 < size))
    (hfit : firstFit s (roundUp (size + 16)).1 = none) :
    ∃ bound, ∀ fuel calls s' ptr, bound ≤ fuel →
      sfMalloc P fuel (calls + 1) size s = .ok (s', ptr) → ptr = 0 ∨ s.heapEnd < s'.heapEnd := by
  have hopen := h.openHeap_self hne .zero
  rw [← firstFit_withErrno s .zero] at hfit
  rcases sfMalloc_none hvalid hopen (h.withErrno .zero) hfit with ⟨bound, hnone⟩
  refine ⟨bound, ?_⟩
  intro fuel calls s' ptr hfuel hreturns
  rw [hnone fuel calls hfuel] at hreturns
  cases hbrk : sfSbrk P { s with sfErrno := .zero } with
  | none =>
      rw [hbrk] at hreturns
      exact Or.inl (Prod.mk.inj (Except.ok.inj hreturns)).2.symm
  | some grown =>
      rw [hbrk] at hreturns
      rcases bind_eq_ok.mp hreturns with ⟨s₁, hadd, hagain⟩
      have hgrown := EndKept.addPage (sfSbrk_heapEnd hbrk) _ _ _ hadd
      have hle := sfMalloc_heapEnd_le hagain
      unfold PAGE_SZ at hgrown
      dsimp only at hgrown
      exact Or.inr (by omega)

/-- A request without a first fit is not served from the free blocks there are. -/
theorem not_servedInPlace (h : WellFormed P s) (hvalid : ¬ (size = 0 ∨ PAGE_SZ * 4 < size))
    (hfit : firstFit s (roundUp (size + 16)).1 = none) : ¬ ServedInPlace P size s := by
  intro hserved
  rcases h with ⟨blocks, lists, h⟩
  rcases hserved with ⟨i, block, hmem, s', ⟨bound, hreturns⟩, hend, -⟩
  rcases sfMalloc_grows h (h.ne_nil_of_mem hmem) hvalid hfit with ⟨bound', hgrows⟩
  have hreturns := hreturns (max bound bound') (bound + 1) (le_max_left ..) (by omega)
  rcases hgrows _ _ _ _ (le_max_right ..) hreturns with hzero | hlt
  · omega
  · omega

/-- A call whose first search has a safe first fit is safe. -/
theorem mallocSafe_of_attempt {s₁ : Heap} (hopen : openHeap P { s with sfErrno := .zero } = .ok s₁)
    (hsafe : FirstFitSafe s₁ (roundUp (size + 16)).1) : MallocSafe P size s := by
  rcases hsafe with ⟨i, found, hfit, hsafe⟩
  refine Or.inr (Or.inr ?_)
  intro s' hreach t hopen'
  rcases hreach.cases_head with rfl | ⟨r, hregrows, -⟩
  · rw [← Except.ok.inj (hopen.symm.trans hopen'), AttemptSafe, hfit]
    exact hsafe
  · rcases hregrows with ⟨fuel, s₂, s₃, page, hopen₂, hnone, -⟩
    rw [← Except.ok.inj (hopen.symm.trans hopen₂), hfit] at hnone
    exact absurd hnone (by simp)

/-! ## The blocks that are not found -/

/-- There is no first fit exactly when the blocks with room are all in lists whose maximum
does not exceed the required size. -/
theorem Gapped.firstFit_eq_none_iff (h : Layout P checked orig keep s blocks lists)
    {required : Nat} (hmod : required % 16 = 0) :
    firstFit s required = none ↔ ∀ i, ∀ block ∈ freeList s i,
      required ≤ (s.tag block).blockSize * 16 → listMax i ≤ required := by
  have hfits {i : Fin 4} {block : Nat} (hmem : block ∈ freeList s i) :
      fits required (s.tag block) = true ↔ required ≤ (s.tag block).blockSize * 16 := by
    rw [h.freeList_eq, h.listed] at hmem
    rcases hmem with ⟨b, hb, hfree, rfl, -⟩
    rw [List.append_nil, List.append_nil] at hb
    have hheader := (h.tagged b (List.mem_append_left _ hb)).headerAllocated
    unfold fits
    rw [hheader, hfree, Bool.not_false, Bool.true_and, decide_eq_true_eq]
    omega
  unfold firstFit
  rw [List.findSome?_eq_none_iff]
  constructor
  · intro hnone i block hmem hroom
    by_contra hmax
    have hfind := hnone i (List.mem_finRange i)
    rw [fitIn, if_pos (by omega), Option.map_eq_none_iff, List.find?_eq_none] at hfind
    exact hfind block hmem ((hfits hmem).mpr hroom)
  · intro hall i _
    by_cases hmax : required < listMax i
    · rw [fitIn, if_pos hmax, Option.map_eq_none_iff, List.find?_eq_none]
      intro block hmem hfit
      have hle := hall i block hmem ((hfits hmem).mp hfit)
      omega
    · rw [fitIn, if_neg hmax]

/-- A request is served from a free block when the first fit is safe, and is not when all
the blocks with room are in lists whose maximum is the required size. -/
theorem sfMalloc_search_complete (h : WellFormed P s) (hpos : 1 ≤ size)
    (hmax : size ≤ PAGE_SZ * 4) :
    (FirstFitSafe s (roundUp (size + 16)).1 → ServedInPlace P size s) ∧
      ((∀ i, ∀ block ∈ freeList s i,
          (roundUp (size + 16)).1 ≤ (s.tag block).blockSize * 16 →
          listMax i ≤ (roundUp (size + 16)).1) → ¬ ServedInPlace P size s) := by
  have hvalid : ¬ (size = 0 ∨ PAGE_SZ * 4 < size) := by omega
  refine ⟨servedInPlace_of_firstFit h hvalid, ?_⟩
  intro hall
  rcases h with ⟨blocks, lists, hlayout⟩
  have hmod := (roundUp_spec (show size ≠ 0 by omega)).1
  exact not_servedInPlace ⟨blocks, lists, hlayout⟩ hvalid
    ((hlayout.firstFit_eq_none_iff hmod).mpr hall)

/-- A page with one free block of 128 bytes, as after two requests of 112 and 3952 bytes
of which the first has been freed. -/
def exactFit : Heap :=
  (Heap.withBlock ⟨fun _ => 0, 69632, ![65536, 0, 0, 0], .zero⟩ ⟨65536, 8, false⟩ false 0).withBlock
    ⟨65664, 248, true⟩ false 3952

theorem exactFit_wellFormed : WellFormed fourPages exactFit :=
  ⟨[⟨65536, 8, false⟩, ⟨65664, 248, true⟩], _,
    layout_of_one_free ⟨65536, 8, false⟩ (by decide +kernel) ⟨1, by decide, by decide⟩
      (by decide +kernel) (by decide) (by decide +kernel) (by decide +kernel)⟩

/-- The free block of 128 bytes has room for 112 bytes, but the request is not served
from it. -/
theorem exactFit_not_served :
    WellFormed fourPages exactFit ∧ HasFit exactFit (roundUp (112 + 16)).1 ∧
      ¬ ServedInPlace fourPages 112 exactFit := by
  refine ⟨exactFit_wellFormed, ⟨0, 65536, by decide +kernel, by decide +kernel⟩, ?_⟩
  exact not_servedInPlace exactFit_wellFormed (by decide) (by decide +kernel)

/-- A request of 40 bytes is served from it. -/
theorem exactFit_served : ServedInPlace fourPages 40 exactFit :=
  (sfMalloc_search_complete exactFit_wellFormed (by decide) (by decide)).1
    ⟨0, 65536, by decide +kernel, by decide +kernel⟩

end SystemFundamentals.Sfmm
