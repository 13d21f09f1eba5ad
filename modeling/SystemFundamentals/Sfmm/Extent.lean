import SystemFundamentals.Library.Fuel
import SystemFundamentals.Sfmm.Alloc

/-!
# The extent of the heap

The heap end moves by {lit}`sf_sbrk` only, whatever state the heap is in.

Main results:

- Theorem {lit}`sfMalloc_heapEnd_le`: {lit}`sf_malloc` never gives memory back.
-/

namespace SystemFundamentals.Sfmm

open Library

variable {P : Platform} {s : Heap} {heapEnd : Nat}

/-! ## Computations that keep the heap end -/

/-- Where the computation succeeds, the heap ends at {lit}`heapEnd`. -/
def EndKept (heapEnd : Nat) (x : Except Stop Heap) : Prop :=
  ∀ s, x = .ok s → s.heapEnd = heapEnd

namespace EndKept

/-- A heap with the heap end. -/
theorem ok (h : s.heapEnd = heapEnd) : EndKept heapEnd (.ok s) := by
  intro s' hs
  rw [← Except.ok.inj hs]
  exact h

/-- A computation that fails has no heap end to move. -/
theorem error (stop : Stop) : EndKept heapEnd (.error stop) := by
  intro s' hs
  cases hs

/-- Reading does not move the heap end. -/
theorem read {α : Type} {x : Except Stop α} {f : α → Except Stop Heap}
    (hf : ∀ a, EndKept heapEnd (f a)) : EndKept heapEnd (x >>= f) := by
  intro s hs
  rcases bind_eq_ok.mp hs with ⟨a, -, ha⟩
  exact hf a s ha

/-- One computation behind another. -/
theorem bind {x : Except Stop Heap} {f : Heap → Except Stop Heap} (hx : EndKept heapEnd x)
    (hf : ∀ s, s.heapEnd = heapEnd → EndKept heapEnd (f s)) : EndKept heapEnd (x >>= f) := by
  intro s hs
  rcases bind_eq_ok.mp hs with ⟨s₁, hs₁, hrest⟩
  exact hf s₁ (hx s₁ hs₁) s hrest

/-- A store changes the memory only. -/
theorem store (h : s.heapEnd = heapEnd) (address value : Nat) :
    EndKept heapEnd (store P s address value) := by
  unfold Sfmm.store
  split_ifs
  · exact .ok h
  · exact .error _

/-- So does the write of a tag. -/
theorem writeTag (h : s.heapEnd = heapEnd) (address : Nat) (f : Tag → Tag) :
    EndKept heapEnd (writeTag P s address f) := by
  unfold Sfmm.writeTag
  split_ifs
  · exact .ok h
  · exact .error _

/-! ## The parts of sf_malloc -/

/-- Unlinking is loads and stores. -/
theorem unlinkChosen (h : s.heapEnd = heapEnd) (i : Fin 4) (block : Nat) :
    EndKept heapEnd (unlinkChosen P i block s) := by
  unfold Sfmm.unlinkChosen
  refine read fun prev => read fun next => ?_
  extract_lets rest
  have hrest (s₁ : Heap) (h₁ : s₁.heapEnd = heapEnd) : EndKept heapEnd (rest s₁) := by
    refine read fun next => ?_
    split_ifs
    · exact read fun prev => bind (store h₁ _ _) fun s₂ h₂ =>
        bind (store h₂ _ _) fun s₃ h₃ => store h₃ _ _
    · exact store h₁ _ _
  split_ifs
  · exact bind (store h _ _) hrest
  · exact bind (ok h) hrest

theorem unlinkRemainder (h : s.heapEnd = heapEnd) (i : Fin 4) (block : Nat) :
    EndKept heapEnd (unlinkRemainder P i block s) := by
  unfold Sfmm.unlinkRemainder
  refine read fun prev => read fun next => ?_
  extract_lets rest
  have hrest (s₁ : Heap) (h₁ : s₁.heapEnd = heapEnd) : EndKept heapEnd (rest s₁) := by
    refine read fun next => ?_
    split_ifs
    · exact read fun prev => bind (store h₁ _ _) fun s₂ h₂ => store h₂ _ _
    · exact ok h₁
  split_ifs
  · exact bind (store h _ _) fun s₂ h₂ => bind (store h₂ _ _) hrest
  · exact bind (ok h) hrest

theorem unlinkMerged (h : s.heapEnd = heapEnd) (block : Nat) :
    EndKept heapEnd (unlinkMerged P block s) := by
  unfold Sfmm.unlinkMerged
  refine read fun prev => read fun next => ?_
  extract_lets rest
  have hrest (s₁ : Heap) (h₁ : s₁.heapEnd = heapEnd) : EndKept heapEnd (rest s₁) := by
    refine read fun next => ?_
    split_ifs
    · exact read fun prev => store h₁ _ _
    · exact ok h₁
  split_ifs
  · exact bind (store h _ _) hrest
  · refine read fun header => read fun i => ?_
    have hset : (s.setHead i next).heapEnd = heapEnd := h
    dsimp only
    split_ifs
    · exact bind (store hset _ _) hrest
    · exact bind (ok hset) hrest

/-- A block is put at the head of its list. -/
theorem insertHead (h : s.heapEnd = heapEnd) (block : Nat) :
    EndKept heapEnd (insertHead P block s) := by
  unfold Sfmm.insertHead
  refine read fun header => read fun i => bind (store h _ _) fun s₁ h₁ => ?_
  dsimp only
  split_ifs
  · exact bind (store h₁ _ _) fun s₂ h₂ => ok h₂
  · exact bind (ok h₁) fun s₂ h₂ => ok h₂

/-- A first fit is unlinked and marked. -/
theorem claimBlock (h : s.heapEnd = heapEnd) (i : Fin 4) (block : Nat) :
    EndKept heapEnd (claimBlock P i block s) :=
  bind (unlinkChosen h _ _) fun _ h₁ => bind (writeTag h₁ _ _) fun _ h₂ =>
    read fun _ => store h₂ _ _

/-- A remainder is tagged and put into its list. -/
theorem placeRemainder (h : s.heapEnd = heapEnd) (i : Fin 4) (second secondSize : Nat) :
    EndKept heapEnd (placeRemainder P i second secondSize s) :=
  bind (writeTag h _ _) fun _ h₁ => read fun _ => bind (writeTag h₁ _ _) fun _ h₂ =>
    bind (unlinkRemainder h₂ _ _) fun _ h₃ => insertHead h₃ _

theorem writeAllocated (h : s.heapEnd = heapEnd) (size units : Nat) (padding : Bool)
    (block : Nat) : EndKept heapEnd (writeAllocated P size units padding block s) :=
  bind (writeTag h _ _) fun _ h₁ => read fun _ => writeTag h₁ _ _

theorem mergePage (h : s.heapEnd = heapEnd) (startPage prevCoalesce : Nat) :
    EndKept heapEnd (mergePage P startPage prevCoalesce s) :=
  read fun _ => bind (writeTag h _ _) fun _ h₁ => unlinkMerged h₁ _

theorem closePage (h : s.heapEnd = heapEnd) (startPage : Nat) :
    EndKept heapEnd (closePage P startPage s) :=
  bind (writeTag h _ _) fun _ h₁ => read fun _ => writeTag h₁ _ _

/-- The first page is at the heap end that {lit}`sf_sbrk` has moved. -/
theorem firstPage (h : (match sfSbrk P s with | some (s, _) => s | none => s).heapEnd = heapEnd) :
    EndKept heapEnd (firstPage P s) := by
  unfold Sfmm.firstPage
  extract_lets s₁
  split
  · exact ok h
  · exact bind (writeTag h _ _) fun _ h₁ => bind (store h₁ _ _) fun _ h₂ =>
      bind (store h₂ _ _) fun _ h₃ => read fun _ => bind (writeTag h₃ _ _) fun _ h₄ => ok h₄

end EndKept

/-! ## The search -/

/-- The split of a block leaves the heap end and finds the block. -/
theorem place_eq_ok {size block : Nat} {i : Fin 4} {search search' : Search}
    (h : place P size i block search = .ok search') :
    search'.heap.heapEnd = search.heap.heapEnd ∧ search'.allocatedBlock = block + 8 := by
  unfold place at h
  rcases bind_eq_ok.mp h with ⟨s₁, hclaim, h⟩
  rcases bind_eq_ok.mp h with ⟨header, -, h⟩
  extract_lets splinter required padding secondSize finish at h
  rcases bind_eq_ok.mp h with ⟨s₂, hwrite, h⟩
  have hend₂ := EndKept.writeAllocated (EndKept.claimBlock rfl _ _ _ hclaim) _ _ _ _ _ hwrite
  split_ifs at h
  · rcases bind_eq_ok.mp h with ⟨header', -, h⟩
    rcases bind_eq_ok.mp h with ⟨s₃, hrest, h⟩
    rw [← Except.ok.inj h]
    exact ⟨EndKept.placeRemainder hend₂ _ _ _ _ hrest, rfl⟩
  · rw [← Except.ok.inj h]
    exact ⟨hend₂, rfl⟩

/-- The walk does not move the heap end, and it never forgets a block that it has
allocated. -/
theorem walk_eq_ok {size : Nat} {i : Fin 4} {fuel block : Nat} {search search' : Search}
    (h : walk P size i fuel block search = .ok search') :
    search'.heap.heapEnd = search.heap.heapEnd ∧
      (search.allocatedBlock ≠ 0 → search'.allocatedBlock ≠ 0) := by
  induction fuel generalizing block search with
  | zero => cases h
  | succ fuel ih =>
      rw [walk] at h
      split_ifs at h
      · rcases bind_eq_ok.mp h with ⟨header, -, h⟩
        split_ifs at h
        · rcases bind_eq_ok.mp h with ⟨search₁, hplace, h⟩
          rcases place_eq_ok hplace with ⟨hend, hblock⟩
          rcases ih h with ⟨hend', hblock'⟩
          refine ⟨hend'.trans hend, ?_⟩
          intro _
          apply hblock'
          rw [hblock]
          exact Nat.succ_ne_zero _
        · rcases bind_eq_ok.mp h with ⟨next, -, h⟩
          exact ih h
      · rw [← Except.ok.inj h]
        exact ⟨rfl, id⟩

/-- The search moves no heap end. -/
theorem searchLists_eq_ok {fuel size : Nat} {is : List (Fin 4)} {search search' : Search}
    (h : searchLists P fuel size is search = .ok search') :
    search'.heap.heapEnd = search.heap.heapEnd := by
  induction is generalizing search with
  | nil => rw [← Except.ok.inj h]
  | cons i is ih =>
      rw [searchLists] at h
      split_ifs at h
      · rcases bind_eq_ok.mp h with ⟨search₁, hwalk, h⟩
        exact (ih h).trans (walk_eq_ok hwalk).1
      · exact ih h
      · rw [← Except.ok.inj h]

/-! ## Growing -/

/-- {lit}`sf_sbrk` moves the heap end by a page. -/
theorem sfSbrk_heapEnd {s' : Heap} {page : Nat} (h : sfSbrk P s = some (s', page)) :
    s'.heapEnd = s.heapEnd + PAGE_SZ := by
  unfold sfSbrk at h
  split_ifs at h
  rw [← (Prod.mk.inj (Option.some.inj h)).1]

/-- The first call may move it. -/
theorem openHeap_heapEnd_le {s' : Heap} (h : openHeap P s = .ok s') :
    s.heapEnd ≤ s'.heapEnd := by
  unfold openHeap at h
  split_ifs at h
  · cases hbrk : sfSbrk P s with
    | none =>
        rw [EndKept.firstPage (by rw [hbrk]) _ h]
    | some grown =>
        have hgrown := sfSbrk_heapEnd (P := P) (s := s) hbrk
        rw [EndKept.firstPage (by rw [hbrk]) _ h, hgrown]
        omega
  · rw [Except.ok.inj h]

/-- The merging of a new page does not, by induction on the blocks in front of it. -/
theorem coalesceBackward_eq_ok {fuel startPage prevCoalesce : Nat} {s s' : Heap} {start : Nat}
    (h : coalesceBackward P fuel startPage prevCoalesce s = .ok (s', start)) :
    s'.heapEnd = s.heapEnd := by
  induction fuel generalizing startPage prevCoalesce s with
  | zero => cases h
  | succ fuel ih =>
      rw [coalesceBackward] at h
      split_ifs at h
      · rcases bind_eq_ok.mp h with ⟨header, -, h⟩
        split_ifs at h
        · rcases bind_eq_ok.mp h with ⟨s₁, hmerge, h⟩
          rcases bind_eq_ok.mp h with ⟨footer, -, h⟩
          exact (ih h).trans (EndKept.mergePage rfl _ _ _ hmerge)
        · rw [← (Prod.mk.inj (Except.ok.inj h)).1]
      · rw [← (Prod.mk.inj (Except.ok.inj h)).1]

/-- Nor does the rest of what is done to a new page. -/
theorem EndKept.addPage (h : s.heapEnd = heapEnd) (fuel page : Nat) :
    EndKept heapEnd (addPage P fuel page s) := by
  refine bind (writeTag h _ _) fun s₁ h₁ => read fun footer => ?_
  intro s' hs
  rcases bind_eq_ok.mp hs with ⟨⟨s₂, start⟩, hmerge, hs⟩
  have h₂ := (coalesceBackward_eq_ok hmerge).trans h₁
  exact (bind (closePage h₂ _) fun _ h₃ => insertHead h₃ _) s' hs

/-- {lit}`sf_malloc` never gives memory back. -/
theorem sfMalloc_heapEnd_le {fuel calls size : Nat} {s' : Heap} {ptr : Nat}
    (h : sfMalloc P fuel calls size s = .ok (s', ptr)) : s.heapEnd ≤ s'.heapEnd := by
  induction calls generalizing s with
  | zero => cases h
  | succ calls ih =>
      rw [sfMalloc] at h
      split_ifs at h
      · rw [← (Prod.mk.inj (Except.ok.inj h)).1]
      · rcases bind_eq_ok.mp h with ⟨s₁, hopen, h⟩
        have hend₁ := openHeap_heapEnd_le hopen
        dsimp only at hend₁
        rcases bind_eq_ok.mp h with ⟨search, hsearch, h⟩
        have hend₂ := searchLists_eq_ok hsearch
        dsimp only at hend₂
        split_ifs at h
        · cases hbrk : sfSbrk P search.heap with
          | none =>
              rw [hbrk] at h
              rw [← (Prod.mk.inj (Except.ok.inj h)).1]
              exact hend₁.trans hend₂.ge
          | some grown =>
              rw [hbrk] at h
              rcases bind_eq_ok.mp h with ⟨s₂, hadd, h⟩
              have hle := ih h
              rw [EndKept.addPage (sfSbrk_heapEnd hbrk) _ _ _ hadd] at hle
              omega
        · rw [← (Prod.mk.inj (Except.ok.inj h)).1]
          exact hend₁.trans hend₂.ge

end SystemFundamentals.Sfmm
