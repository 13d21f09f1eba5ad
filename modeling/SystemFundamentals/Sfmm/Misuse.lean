import SystemFundamentals.Sfmm.RunContract

/-!
# Pointers that the client no longer holds

{lit}`sf_free` and {lit}`sf_realloc` look at the header in front of the pointer they are given.
The header of a block that has just been freed is still in place and says so: whatever the run
was, freeing a pointer twice aborts, and so does {lit}`sf_realloc` with a pointer that has been
freed.

Main results:

- Theorem {lit}`refuses_of_free`: the calls abort on every free block of a well-formed heap.
- Theorem {lit}`reachable_refuses_freed`: the calls abort on a pointer that has been freed.
-/

namespace SystemFundamentals.Sfmm

open Library

variable {P : Platform} {checked : Prop} {orig : Memory} {keep : Block → Prop} {s s' : Heap}
  {blocks front back : List Block} {lists : Fin 4 → List Nat} {block : Block} {ptr : Nat}

/-- {lit}`sf_free` and {lit}`sf_realloc` abort on the pointer. -/
def Refuses (P : Platform) (s : Heap) (ptr : Nat) : Prop :=
  ∀ fuel, sfFree P fuel ptr s = .error .abort ∧
    ∀ size, sfRealloc P fuel ptr size s = .error .abort

/-- What {lit}`sf_free` aborts on, {lit}`sf_realloc` aborts on. -/
theorem refuses_of_header (h : checkBounds P s (ptr - 8) = .error .abort ∨
    checkBounds P s (ptr - 8) = .ok () ∧ InHeap P s (ptr - 8) ∧
      (s.tag (ptr - 8)).allocated = false) : Refuses P s ptr := by
  intro fuel
  have hfree : sfFree P fuel ptr s = .error .abort := by
    unfold sfFree
    dsimp only
    rcases h with hbounds | ⟨hbounds, hin, hallocated⟩
    · rw [hbounds]
      rfl
    · rw [hbounds, ok_bind, readTag_eq hin, ok_bind, hallocated]
      rfl
  refine ⟨hfree, ?_⟩
  intro size
  unfold sfRealloc
  by_cases hsize : size = 0
  · rw [if_pos hsize, hfree]
    rfl
  · rw [if_neg hsize]
    dsimp only
    rcases h with hbounds | ⟨hbounds, hin, hallocated⟩
    · rw [hbounds]
      rfl
    · rw [hbounds, ok_bind, readTag_eq hin, ok_bind, hallocated]
      rfl

/-- A pointer outside of the heap is refused, whatever the heap holds. -/
theorem refuses_of_outside (h : ptr - 8 < P.heapStart ∨ s.heapEnd < ptr - 8) :
    Refuses P s ptr :=
  refuses_of_header (Or.inl (if_pos h))

/-- A free block is refused. -/
theorem refuses_of_free (h : Layout P checked orig keep s blocks lists) (hmem : block ∈ blocks)
    (hfree : block.allocated = false) : Refuses P s (block.addr + 8) := by
  have hbounds := h.frontTiles.bounds hmem
  have htagged := h.tagged block (List.mem_append_left _ hmem)
  have hin : InHeap P s block.addr := by
    unfold Block.stop at hbounds
    exact ⟨by omega, by omega⟩
  apply refuses_of_header
  rw [Nat.add_sub_cancel]
  refine Or.inr ⟨checkBounds_eq hin.1 ?_, hin, htagged.headerAllocated.trans hfree⟩
  have hend := hin.2
  omega

/-- Freeing an allocated block leaves a free block in its place. -/
theorem refuses_of_returns
    (h : Gapped P checked orig keep s (front ++ block :: back) s.heapEnd s.heapEnd [] [] lists)
    (hallocated : block.allocated = true) (hconsistent : Consistent s block)
    (hkeep : ¬ keep block)
    (hreturns : Returns (fun fuel => sfFree P fuel (block.addr + 8) s) s') :
    Refuses P s' (block.addr + 8) := by
  obtain ⟨s'', hreturns', hlayout, -⟩ := sfFree_returns h hallocated hconsistent hkeep
  have hmerged : Refuses P s'' ((block.mergedWith (leadingRun back)).addr + 8) :=
    refuses_of_free hlayout (List.mem_append_right _ List.mem_cons_self) rfl
  rw [hreturns.unique hreturns']
  exact hmerged

/-- {lit}`sf_realloc` with size zero returns when {lit}`sf_free` does. -/
theorem returns_of_realloc_zero {new : Nat} (h : ReallocReturns P 0 ptr s s' new) :
    Returns (fun fuel => sfFree P fuel ptr s) s' := by
  obtain ⟨bound, h⟩ := h
  refine ⟨bound, ?_⟩
  intro fuel hfuel
  have hrealloc := h fuel hfuel
  simp only [sfRealloc, if_true] at hrealloc
  cases hfree : sfFree P fuel ptr s with
  | error stop =>
      rw [hfree] at hrealloc
      cases hrealloc
  | ok heap =>
      rw [hfree] at hrealloc
      cases hrealloc
      exact hfree

/-- A call that frees the pointer it is given. -/
def Call.Frees (ptr : Nat) : Call → Prop
  | .malloc _ => False
  | .realloc given size => given = ptr ∧ size = 0
  | .free given => given = ptr

/-- In every run of safe calls, a pointer that a call has freed is refused by the next one. -/
theorem reachable_refuses_freed {s t : Session} (h : (safeAllocator P).Reachable s) {call : Call}
    {ptr : Nat} (hfrees : call.Frees ptr) (hserves : Serves P s call t) :
    Refuses P t.heap ptr := by
  obtain ⟨blocks, lists, hholding⟩ := reachable_sound h
  have hfreed {a : Allocation} (ha : a ∈ s.live) {heap : Heap}
      (hreturns : Returns (fun fuel => sfFree P fuel a.ptr s.heap) heap) :
      Refuses P heap a.ptr := by
    obtain ⟨block, howns⟩ := hholding.owned a ha
    obtain ⟨front, back, rfl⟩ := List.append_of_mem howns.mem
    have htagged := hholding.layout.tagged block (List.mem_append_left _ howns.mem)
    rw [howns.ptr_eq] at hreturns ⊢
    exact refuses_of_returns hholding.layout howns.allocated
      (htagged.consistent trivial howns.allocated) id hreturns
  cases hserves with
  | malloc hlt hreturns => exact hfrees.elim
  | realloc ha hlt hreturns =>
      obtain ⟨rfl, rfl⟩ := hfrees
      exact hfreed ha (returns_of_realloc_zero hreturns)
  | free ha hreturns =>
      obtain rfl : _ = ptr := hfrees
      exact hfreed ha hreturns

/-- Freeing the only pointer of a run twice. -/
theorem smallHeap_refuses_freed :
    ∃ t, Serves fourPages ⟨smallHeap, [⟨65544, 64⟩]⟩ (.free 65544) t ∧
      Refuses fourPages t.heap 65544 := by
  obtain ⟨blocks, lists, hholding⟩ := reachable_sound smallHeap_reachable
  have hlive : (⟨65544, 64⟩ : Allocation) ∈ [(⟨65544, 64⟩ : Allocation)] := List.mem_cons_self
  obtain ⟨heap, hreturns, -⟩ := hholding.free hlive
  have hserves : Serves fourPages ⟨smallHeap, [⟨65544, 64⟩]⟩ (.free 65544) ⟨heap, _⟩ :=
    .free hlive hreturns
  have hfrees : Call.Frees 65544 (.free 65544) := rfl
  exact ⟨_, hserves, reachable_refuses_freed smallHeap_reachable hfrees hserves⟩

end SystemFundamentals.Sfmm
