import SystemFundamentals.Sfmm.Place
import Mathlib.Data.List.Perm.Subperm

/-!
# The search of sf_malloc

The walks along the lists of a well-formed heap end, and find the first block that fits
in the first list that has one.

Main results:

- Theorem {lit}`searchLists_returns_none`: a search without a fit changes nothing.
- Theorem {lit}`searchLists_returns_some`: otherwise the request is placed in the first
  fit.
-/

namespace SystemFundamentals.Sfmm

open Library Library.LinkedList

/-! ## The first fit -/

/-- The addresses in list {lit}`i`, as far as the heap has room for blocks. -/
def freeList (s : Heap) (i : Fin 4) : List Nat := traverse s.next 0 s.heapEnd (s.head i)

/-- The first block that fits in list {lit}`i`, which is only looked at when its maximum
exceeds the required size. -/
def fitIn (s : Heap) (required : Nat) (i : Fin 4) : Option (Fin 4 × Nat) :=
  if required < listMax i then
    ((freeList s i).find? fun block => fits required (s.tag block)).map (i, ·)
  else none

/-- The list and the block that the search ends at. -/
def firstFit (s : Heap) (required : Nat) : Option (Fin 4 × Nat) :=
  (List.finRange 4).findSome? (fitIn s required)

variable {P : Platform} {checked : Prop} {orig : Memory} {keep : Block → Prop} {s : Heap}
  {blocks front back pending : List Block} {lo hi : Nat} {lists : Fin 4 → List Nat}
  {block : Block}

/-- The lists of a well-formed heap are traversed to the end. -/
theorem Gapped.freeList_eq (h : Gapped P checked orig keep s front lo hi back pending lists)
    (i : Fin 4) : freeList s i = lists i := by
  apply (h.linked i).traverse_eq
  have hsub : lists i ⊆ List.range s.heapEnd := by
    intro a ha
    have hbounds := h.listed_bounds ha
    exact List.mem_range.mpr (by omega)
  have hlength := ((h.linked i).nodup.subperm hsub).length_le
  rw [List.length_range] at hlength
  exact hlength

/-- What the walk needs to know about a listed address. -/
theorem Gapped.inHeap_listed (h : Gapped P checked orig keep s front lo hi back pending lists)
    {i : Fin 4} {a : Nat} (ha : a ∈ lists i) : InHeap P s a ∧ InHeap P s (a + 8) := by
  have hbounds := h.listed_bounds ha
  exact ⟨⟨by omega, by omega⟩, ⟨by omega, by omega⟩⟩

/-! ## The walk along one list -/

/-- One turn of the walk at a block that does not fit. -/
theorem walk_step {size fuel : Nat} {i : Fin 4} {a : Nat} {search : Search} (hne : a ≠ 0)
    (hheader : InHeap P search.heap a) (hlink : InHeap P search.heap (a + 8))
    (hfit : fits search.required (search.heap.tag a) = false) :
    walk P size i (fuel + 1) a search =
      walk P size i fuel (search.heap.next a) search := by
  rw [walk, if_pos hne, readTag_eq hheader, ok_bind, hfit, if_neg (by simp), load_eq hlink,
    ok_bind]
  rfl

/-- A walk along blocks that do not fit ends at null. -/
theorem walk_returns_none (size : Nat) (i : Fin 4) (search : Search) {nodes : List Nat}
    {before first last : Nat}
    (hsegment : Segment search.heap.next search.heap.prev before first nodes 0 last)
    (hnull : 0 ∉ nodes)
    (hin : ∀ a ∈ nodes, InHeap P search.heap a ∧ InHeap P search.heap (a + 8))
    (hfit : ∀ a ∈ nodes, fits search.required (search.heap.tag a) = false) :
    Returns (fun fuel => walk P size i fuel first search) search := by
  induction nodes generalizing before first with
  | nil =>
      apply Returns.succ
      apply Returns.of_eq
      intro fuel
      rw [walk, if_neg (not_not.mpr hsegment.1)]
  | cons a nodes ih =>
      rcases hsegment with ⟨rfl, -, hrest⟩
      have hne : first ≠ 0 := by
        intro heq
        apply hnull
        rw [← heq]
        exact List.mem_cons_self
      have hfirst := hin first List.mem_cons_self
      apply Returns.succ
      have hreturns := ih hrest (fun hmem => hnull (List.mem_cons_of_mem _ hmem))
        (fun b hb => hin b (List.mem_cons_of_mem _ hb))
        (fun b hb => hfit b (List.mem_cons_of_mem _ hb))
      apply hreturns.congr
      intro fuel
      exact walk_step hne hfirst.1 hfirst.2 (hfit first List.mem_cons_self)

/-- A walk places the request in the first block that fits, and then ends by way of the
cleared link of that block. -/
theorem walk_returns_some {size : Nat} {i : Fin 4} (search : Search) {search' : Search}
    {nodes : List Nat} {before first last found : Nat}
    (hsegment : Segment search.heap.next search.heap.prev before first nodes 0 last)
    (hnull : 0 ∉ nodes)
    (hin : ∀ a ∈ nodes, InHeap P search.heap a ∧ InHeap P search.heap (a + 8))
    (hfind : (nodes.find? fun a => fits search.required (search.heap.tag a)) = some found)
    (hplace : place P size i found search = .ok search')
    (hheader : InHeap P search'.heap found) (hlink : InHeap P search'.heap (found + 8))
    (hallocated : (search'.heap.tag found).allocated = true)
    (hnext : search'.heap.next found = 0) :
    Returns (fun fuel => walk P size i fuel first search) search' := by
  induction nodes generalizing before first with
  | nil => exact absurd hfind (by simp)
  | cons a nodes ih =>
      rcases hsegment with ⟨rfl, -, hrest⟩
      have hne : first ≠ 0 := by
        intro heq
        apply hnull
        rw [← heq]
        exact List.mem_cons_self
      have hfirst := hin first List.mem_cons_self
      apply Returns.succ
      cases hfit : fits search.required (search.heap.tag first) with
      | true =>
          simp only [List.find?_cons, hfit] at hfind
          have heq : first = found := Option.some.inj hfind
          subst heq
          have hfit' : fits search'.required (search'.heap.tag first) = false := by
            unfold fits
            rw [hallocated]
            rfl
          apply Returns.succ
          apply Returns.succ
          apply Returns.of_eq
          intro fuel
          rw [walk, if_pos hne, readTag_eq hfirst.1, ok_bind, if_pos hfit, hplace, ok_bind,
            walk_step hne hheader hlink hfit', hnext, walk, if_neg (by simp)]
      | false =>
          simp only [List.find?_cons, hfit] at hfind
          have hreturns := ih hrest (fun hmem => hnull (List.mem_cons_of_mem _ hmem))
            (fun b hb => hin b (List.mem_cons_of_mem _ hb)) hfind
          apply hreturns.congr
          intro fuel
          exact walk_step hne hfirst.1 hfirst.2 hfit

/-! ## The loop over the lists -/

/-- The loop leaves the lists that have no fit. -/
theorem searchLists_returns_none {size required : Nat} {padding : Bool}
    (h : Gapped P checked orig keep s front lo hi back pending lists) {is : List (Fin 4)}
    (hfit : is.findSome? (fitIn s required) = none) :
    Returns (fun fuel => searchLists P fuel size is ⟨s, required, padding, 0⟩)
      ⟨s, required, padding, 0⟩ := by
  induction is with
  | nil => exact Returns.of_eq fun _ => rfl
  | cons i is ih =>
      rw [List.findSome?_cons] at hfit
      cases hfirst : fitIn s required i with
      | some found =>
          rw [hfirst] at hfit
          exact absurd hfit (by simp)
      | none =>
          rw [hfirst] at hfit
          by_cases hmax : required < listMax i
          · rw [fitIn, if_pos hmax, Option.map_eq_none_iff, h.freeList_eq,
              List.find?_eq_none] at hfirst
            rcases (h.linked i).segment with ⟨last, hsegment⟩
            have hwalk := walk_returns_none size i ⟨s, required, padding, 0⟩ hsegment
              (h.linked i).null_notMem (fun a ha => h.inHeap_listed ha)
              (fun a ha => Bool.eq_false_of_not_eq_true (hfirst a ha))
            have hboth := hwalk.bind (k := fun fuel => searchLists P fuel size is) (ih hfit)
            apply hboth.congr
            intro fuel
            rw [searchLists, if_pos rfl, if_pos hmax]
          · apply (ih hfit).congr
            intro fuel
            rw [searchLists, if_pos rfl, if_neg hmax]

/-- A fit belongs to the list it was found in. -/
theorem fitIn_eq_some {required : Nat} {i j : Fin 4} {found : Nat}
    (h : fitIn s required j = some (i, found)) :
    j = i ∧ required < listMax j ∧
      ((freeList s j).find? fun block => fits required (s.tag block)) = some found := by
  unfold fitIn at h
  split_ifs at h with hmax
  rcases Option.map_eq_some_iff.mp h with ⟨block, hfind, heq⟩
  rcases Prod.mk.inj heq with ⟨rfl, rfl⟩
  exact ⟨rfl, hmax, hfind⟩

/-- The loop ends at the first list that has a fit, and with the request placed there. -/
theorem searchLists_returns_some {size required : Nat} {padding : Bool}
    (h : Gapped P checked orig keep s front lo hi back pending lists) {is : List (Fin 4)}
    {i : Fin 4} {found : Nat} {search' : Search}
    (hfit : is.findSome? (fitIn s required) = some (i, found))
    (hplace : place P size i found ⟨s, required, padding, 0⟩ = .ok search')
    (hheader : InHeap P search'.heap found) (hlink : InHeap P search'.heap (found + 8))
    (hallocated : (search'.heap.tag found).allocated = true)
    (hnext : search'.heap.next found = 0) (hne : search'.allocatedBlock ≠ 0) :
    Returns (fun fuel => searchLists P fuel size is ⟨s, required, padding, 0⟩) search' := by
  induction is with
  | nil => exact absurd hfit (by simp)
  | cons j is ih =>
      rw [List.findSome?_cons] at hfit
      rcases (h.linked j).segment with ⟨last, hsegment⟩
      have hnull := (h.linked j).null_notMem
      cases hfirst : fitIn s required j with
      | some pair =>
          rw [hfirst] at hfit
          rw [Option.some.inj hfit] at hfirst
          rcases fitIn_eq_some hfirst with ⟨rfl, hmax, hfind⟩
          rw [h.freeList_eq] at hfind
          have hwalk := walk_returns_some ⟨s, required, padding, 0⟩ hsegment hnull
            (fun a ha => h.inHeap_listed ha) hfind hplace hheader hlink hallocated hnext
          -- the other lists are not looked at
          have hrest : Returns (fun fuel => searchLists P fuel size is search') search' := by
            apply Returns.of_eq
            intro fuel
            cases is with
            | nil => rfl
            | cons k is => rw [searchLists, if_neg hne]
          have hboth := hwalk.bind (k := fun fuel => searchLists P fuel size is) hrest
          apply hboth.congr
          intro fuel
          rw [searchLists, if_pos rfl, if_pos hmax]
      | none =>
          rw [hfirst] at hfit
          by_cases hmax : required < listMax j
          · rw [fitIn, if_pos hmax, Option.map_eq_none_iff, h.freeList_eq,
              List.find?_eq_none] at hfirst
            have hwalk := walk_returns_none size j ⟨s, required, padding, 0⟩ hsegment hnull
              (fun a ha => h.inHeap_listed ha)
              (fun a ha => Bool.eq_false_of_not_eq_true (hfirst a ha))
            have hboth := hwalk.bind (k := fun fuel => searchLists P fuel size is) (ih hfit)
            apply hboth.congr
            intro fuel
            rw [searchLists, if_pos rfl, if_pos hmax]
          · apply (ih hfit).congr
            intro fuel
            rw [searchLists, if_pos rfl, if_neg hmax]

end SystemFundamentals.Sfmm
