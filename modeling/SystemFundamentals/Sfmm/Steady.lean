import SystemFundamentals.Sfmm.Malloc

/-!
# Enough fuel

The calls of the allocator give the same answer with any fuel that is enough for one.

Main results:

- Theorem {lit}`mallocReturns_of_eq`: a call of {lit}`sf_malloc` that yields an answer
  returns it.
- Theorem {lit}`steady_sfFree`: the same for {lit}`sf_free`.
-/

namespace SystemFundamentals.Sfmm

open Library

variable {P : Platform} {size : Nat}

/-- A walk that has come to its end stops there with more fuel, too. -/
theorem steady_walk (i : Fin 4) (block : Nat) (search : Search) :
    Steady fun fuel => walk P size i fuel block search := by
  intro fuel a h
  induction fuel generalizing block search with
  | zero => cases h
  | succ fuel ih =>
      show walk P size i (fuel + 1 + 1) block search = .ok a
      have h : walk P size i (fuel + 1) block search = .ok a := h
      rw [walk] at h ⊢
      split_ifs at h ⊢
      · rcases bind_eq_ok.mp h with ⟨header, hheader, h⟩
        rw [hheader, ok_bind]
        split_ifs at h ⊢
        · rcases bind_eq_ok.mp h with ⟨search₁, hplace, h⟩
          exact bind_eq_ok.mpr ⟨search₁, hplace, ih _ _ h⟩
        · rcases bind_eq_ok.mp h with ⟨next, hnext, h⟩
          exact bind_eq_ok.mpr ⟨next, hnext, ih _ _ h⟩
      · exact h

/-- The walks along the lists, one behind the other. -/
theorem steady_searchLists (is : List (Fin 4)) (search : Search) :
    Steady fun fuel => searchLists P fuel size is search := by
  induction is generalizing search with
  | nil => exact Steady.const _
  | cons i is ih =>
      simp only [searchLists]
      exact .ite (.ite ((steady_walk i _ _).bind ih) (ih search)) (.const _)

/-- The merging of a new page, by induction on the fuel. -/
theorem steady_coalesceBackward (startPage prevCoalesce : Nat) (s : Heap) :
    Steady fun fuel => coalesceBackward P fuel startPage prevCoalesce s := by
  intro fuel a h
  induction fuel generalizing startPage prevCoalesce s with
  | zero => cases h
  | succ fuel ih =>
      show coalesceBackward P (fuel + 1 + 1) startPage prevCoalesce s = .ok a
      have h : coalesceBackward P (fuel + 1) startPage prevCoalesce s = .ok a := h
      rw [coalesceBackward] at h ⊢
      split_ifs at h ⊢
      · rcases bind_eq_ok.mp h with ⟨header, hheader, h⟩
        rw [hheader, ok_bind]
        split_ifs at h ⊢
        · rcases bind_eq_ok.mp h with ⟨s₁, hmerge, h⟩
          rcases bind_eq_ok.mp h with ⟨footer, hfooter, h⟩
          exact bind_eq_ok.mpr ⟨s₁, hmerge, bind_eq_ok.mpr ⟨footer, hfooter, ih _ _ _ h⟩⟩
        · exact h
      · exact h

/-- The only loop that a new page goes through is the merging. -/
theorem steady_addPage (page : Nat) (s : Heap) : Steady fun fuel => addPage P fuel page s := by
  unfold addPage
  refine (Steady.const _).bind fun s₁ => (Steady.const _).bind fun footer => ?_
  exact (steady_coalesceBackward _ _ _).bind fun merged => .const _

/-- More fuel of either kind does not change an answer of {lit}`sf_malloc`. -/
theorem sfMalloc_le {fuel fuel' calls calls' : Nat} {s : Heap} {answer : Heap × Nat}
    (hfuel : fuel ≤ fuel') (hcalls : calls ≤ calls')
    (h : sfMalloc P fuel calls size s = .ok answer) :
    sfMalloc P fuel' calls' size s = .ok answer := by
  induction calls generalizing calls' s with
  | zero => cases h
  | succ calls ih =>
      cases calls' with
      | zero => exact absurd hcalls (Nat.not_succ_le_zero calls)
      | succ calls' =>
          have hcalls : calls ≤ calls' := Nat.le_of_succ_le_succ hcalls
          rw [sfMalloc] at h ⊢
          split_ifs at h ⊢
          · exact h
          · rcases bind_eq_ok.mp h with ⟨s₁, hopen, h⟩
            rcases bind_eq_ok.mp h with ⟨search, hsearch, h⟩
            have hsearch' := (steady_searchLists _ _).le hfuel hsearch
            refine bind_eq_ok.mpr ⟨s₁, hopen, bind_eq_ok.mpr ⟨search, hsearch', ?_⟩⟩
            split_ifs at h ⊢
            · cases hbrk : sfSbrk P search.heap with
              | none =>
                  rw [hbrk] at h
                  exact h
              | some grown =>
                  rw [hbrk] at h
                  rcases bind_eq_ok.mp h with ⟨s₂, hadd, h⟩
                  have hadd' := (steady_addPage _ _).le hfuel hadd
                  exact bind_eq_ok.mpr ⟨s₂, hadd', ih hcalls h⟩
            · exact h

/-- A call of {lit}`sf_malloc` that yields an answer returns it. -/
theorem mallocReturns_of_eq {fuel calls : Nat} {s s' : Heap} {ptr : Nat}
    (h : sfMalloc P fuel calls size s = .ok (s', ptr)) : MallocReturns P size s s' ptr := by
  refine ⟨max fuel calls, ?_⟩
  intro fuel' calls' hfuel hcalls
  exact sfMalloc_le (by omega) (by omega) h

/-- The merging of a freed block, by induction on the fuel. -/
theorem steady_coalesceForward (freed nextCoalesce : Nat) (s : Heap) :
    Steady fun fuel => coalesceForward P fuel freed nextCoalesce s := by
  intro fuel a h
  induction fuel generalizing nextCoalesce s with
  | zero => cases h
  | succ fuel ih =>
      show coalesceForward P (fuel + 1 + 1) freed nextCoalesce s = .ok a
      have h : coalesceForward P (fuel + 1) freed nextCoalesce s = .ok a := h
      rw [coalesceForward] at h ⊢
      split_ifs at h ⊢
      · rcases bind_eq_ok.mp h with ⟨header, hheader, h⟩
        rw [hheader, ok_bind]
        split_ifs at h ⊢
        · rcases bind_eq_ok.mp h with ⟨s₁, hwrite, h⟩
          rcases bind_eq_ok.mp h with ⟨s₂, hunlink, h⟩
          rcases bind_eq_ok.mp h with ⟨next, hnext, h⟩
          exact bind_eq_ok.mpr ⟨s₁, hwrite, bind_eq_ok.mpr ⟨s₂, hunlink,
            bind_eq_ok.mpr ⟨next, hnext, ih _ _ h⟩⟩⟩
        · exact h
      · exact h

/-- An answer of {lit}`sf_free` does not change with more fuel. -/
theorem steady_sfFree (ptr : Nat) (s : Heap) : Steady fun fuel => sfFree P fuel ptr s := by
  unfold sfFree
  refine (Steady.const _).bind fun _ => (Steady.const _).bind fun header => ?_
  refine .ite (.const _) ?_
  refine (Steady.const _).bind fun s₁ => (Steady.const _).bind fun _ =>
    (Steady.const _).bind fun footer => (Steady.const _).bind fun _ =>
    (Steady.const _).bind fun s₂ => (Steady.const _).bind fun header => ?_
  exact (steady_coalesceForward _ _ _).bind fun s₃ => .const _

end SystemFundamentals.Sfmm
