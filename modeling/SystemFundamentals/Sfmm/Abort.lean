import SystemFundamentals.Library.Fuel
import SystemFundamentals.Sfmm.Alloc

/-!
# What the calls abort on

{lit}`sf_malloc` never aborts, and {lit}`sf_free` aborts at the checks on the tags of the block
it is given, and nowhere else.

Main results:

- Theorem {lit}`sfMalloc_avoids`: {lit}`sf_malloc` never aborts.
- Theorem {lit}`PassesChecks.sfFree_avoids`: {lit}`sf_free` does not abort on a block that
  passes the checks.
-/

namespace SystemFundamentals.Sfmm

open Library

variable {P : Platform} {s : Heap}

/-! ## Accesses and lists -/

/-- A load outside the heap is a fault and not an abort. -/
theorem load_avoids (s : Heap) (address : Nat) : Avoids .abort (load P s address) :=
  .ite (fun _ => .ok _) fun _ => .error nofun

/-- So is a store. -/
theorem store_avoids (s : Heap) (address value : Nat) :
    Avoids .abort (store P s address value) :=
  .ite (fun _ => .ok _) fun _ => .error nofun

/-- A tag is read by a load. -/
theorem readTag_avoids (s : Heap) (address : Nat) : Avoids .abort (readTag P s address) :=
  .ite (fun _ => .ok _) fun _ => .error nofun

/-- A tag is written by a store. -/
theorem writeTag_avoids (s : Heap) (address : Nat) (f : Tag → Tag) :
    Avoids .abort (writeTag P s address f) :=
  .ite (fun _ => .ok _) fun _ => .error nofun

/-- A copy that leaves the heap is a fault. -/
theorem memcpy_avoids (target source count : Nat) (s : Heap) :
    Avoids .abort (memcpy P target source count s) :=
  .ite (fun _ => .ok _) fun _ => .ite (fun _ => .ok _) fun _ => .error nofun

/-- A size that no list takes leads outside the array of the lists. -/
theorem listIndex_avoids (size : Nat) : Avoids .abort (listIndex size) := by
  unfold listIndex
  split
  · exact .ok _
  · exact .error nofun

/-- The links of a block may lead anywhere, but they are only loaded and stored. -/
theorem unlinkChosen_avoids (i : Fin 4) (block : Nat) (s : Heap) :
    Avoids .abort (unlinkChosen P i block s) := by
  unfold unlinkChosen
  refine .bind (load_avoids _ _) fun prev _ => .bind (load_avoids _ _) fun next _ => ?_
  extract_lets rest
  have hrest (s₁ : Heap) : Avoids .abort (rest s₁) := by
    refine .bind (load_avoids _ _) fun next _ => ?_
    split_ifs
    · exact .bind (load_avoids _ _) fun prev _ => .bind (store_avoids _ _ _) fun s₂ _ =>
        .bind (store_avoids _ _ _) fun s₃ _ => store_avoids _ _ _
    · exact store_avoids _ _ _
  split_ifs
  · exact .bind (store_avoids _ _ _) fun s₁ _ => hrest s₁
  · exact .bind (.ok _) fun s₁ _ => hrest s₁

/-- The same for a remainder, whose links are what the client has left there. -/
theorem unlinkRemainder_avoids (i : Fin 4) (block : Nat) (s : Heap) :
    Avoids .abort (unlinkRemainder P i block s) := by
  unfold unlinkRemainder
  refine .bind (load_avoids _ _) fun prev _ => .bind (load_avoids _ _) fun next _ => ?_
  extract_lets rest
  have hrest (s₁ : Heap) : Avoids .abort (rest s₁) := by
    refine .bind (load_avoids _ _) fun next _ => ?_
    split_ifs
    · exact .bind (load_avoids _ _) fun prev _ => .bind (store_avoids _ _ _) fun s₂ _ =>
        store_avoids _ _ _
    · exact .ok _
  split_ifs
  · exact .bind (store_avoids _ _ _) fun s₁ _ => .bind (store_avoids _ _ _) fun s₂ _ => hrest s₂
  · exact .bind (.ok _) fun s₁ _ => hrest s₁

/-- The same for a block that is merged. -/
theorem unlinkMerged_avoids (block : Nat) (s : Heap) :
    Avoids .abort (unlinkMerged P block s) := by
  unfold unlinkMerged
  refine .bind (load_avoids _ _) fun prev _ => .bind (load_avoids _ _) fun next _ => ?_
  extract_lets rest
  have hrest (s₁ : Heap) : Avoids .abort (rest s₁) := by
    refine .bind (load_avoids _ _) fun next _ => ?_
    split_ifs
    · exact .bind (load_avoids _ _) fun prev _ => store_avoids _ _ _
    · exact .ok _
  split_ifs
  · exact .bind (store_avoids _ _ _) fun s₁ _ => hrest s₁
  · refine .bind (readTag_avoids _ _) fun header _ => .bind (listIndex_avoids _) fun i _ => ?_
    dsimp only
    split_ifs
    · exact .bind (store_avoids _ _ _) fun s₁ _ => hrest s₁
    · exact .bind (.ok _) fun s₁ _ => hrest s₁

theorem insertHead_avoids (block : Nat) (s : Heap) : Avoids .abort (insertHead P block s) := by
  unfold insertHead
  refine .bind (readTag_avoids _ _) fun header _ => .bind (listIndex_avoids _) fun i _ =>
    .bind (store_avoids _ _ _) fun s₁ _ => ?_
  dsimp only
  split_ifs
  · exact .bind (store_avoids _ _ _) fun s₂ _ => .ok _
  · exact .bind (.ok _) fun s₂ _ => .ok _

/-! ## sf_malloc -/

/-- A first fit is unlinked and marked. -/
theorem claimBlock_avoids (i : Fin 4) (block : Nat) (s : Heap) :
    Avoids .abort (claimBlock P i block s) :=
  .bind (unlinkChosen_avoids _ _ _) fun _ _ => .bind (writeTag_avoids _ _ _) fun _ _ =>
    .bind (readTag_avoids _ _) fun _ _ => store_avoids _ _ _

/-- A remainder is tagged, unlinked and put at the head of its list. -/
theorem placeRemainder_avoids (i : Fin 4) (second secondSize : Nat) (s : Heap) :
    Avoids .abort (placeRemainder P i second secondSize s) :=
  .bind (writeTag_avoids _ _ _) fun _ _ => .bind (readTag_avoids _ _) fun _ _ =>
    .bind (writeTag_avoids _ _ _) fun _ _ => .bind (unlinkRemainder_avoids _ _ _) fun _ _ =>
    insertHead_avoids _ _

theorem writeAllocated_avoids (size units : Nat) (padding : Bool) (block : Nat) (s : Heap) :
    Avoids .abort (writeAllocated P size units padding block s) :=
  .bind (writeTag_avoids _ _ _) fun _ _ => .bind (readTag_avoids _ _) fun _ _ =>
    writeTag_avoids _ _ _

/-- Nothing in the split of a block is checked. -/
theorem place_avoids (size : Nat) (i : Fin 4) (block : Nat) (search : Search) :
    Avoids .abort (place P size i block search) := by
  unfold place
  refine .bind (claimBlock_avoids _ _ _) fun s₁ _ => .bind (readTag_avoids _ _) fun header _ => ?_
  dsimp only
  refine .bind (writeAllocated_avoids _ _ _ _ _) fun s₂ _ => ?_
  split_ifs
  all_goals first
    | exact .bind (.ok _) fun s₃ _ => .ok _
    | exact .bind (readTag_avoids _ _) fun header' _ =>
        .bind (placeRemainder_avoids _ _ _ _) fun s₃ _ => .ok _

/-- A walk along a list, by induction on its steps. -/
theorem walk_avoids (size : Nat) (i : Fin 4) (fuel block : Nat) (search : Search) :
    Avoids .abort (walk P size i fuel block search) := by
  induction fuel generalizing block search with
  | zero => exact .error nofun
  | succ fuel ih =>
      rw [walk]
      refine .ite (fun _ => .bind (readTag_avoids _ _) fun header _ => ?_) fun _ => .ok _
      refine .ite (fun _ => ?_) fun _ => ?_
      · exact .bind (place_avoids _ _ _ _) fun search' _ => ih _ _
      · exact .bind (load_avoids _ _) fun next _ => ih _ _

/-- The walks along the four lists. -/
theorem searchLists_avoids (fuel size : Nat) (is : List (Fin 4)) (search : Search) :
    Avoids .abort (searchLists P fuel size is search) := by
  induction is generalizing search with
  | nil => exact .ok _
  | cons i is ih =>
      rw [searchLists]
      refine .ite (fun _ => .ite (fun _ => ?_) fun _ => ih _) fun _ => .ok _
      exact .bind (walk_avoids _ _ _ _ _) fun search' _ => ih _

theorem mergePage_avoids (startPage prevCoalesce : Nat) (s : Heap) :
    Avoids .abort (mergePage P startPage prevCoalesce s) :=
  .bind (readTag_avoids _ _) fun _ _ => .bind (writeTag_avoids _ _ _) fun _ _ =>
    unlinkMerged_avoids _ _

/-- The merging of a new page, by induction on the blocks in front of it. -/
theorem coalesceBackward_avoids (fuel startPage prevCoalesce : Nat) (s : Heap) :
    Avoids .abort (coalesceBackward P fuel startPage prevCoalesce s) := by
  induction fuel generalizing startPage prevCoalesce s with
  | zero => exact .error nofun
  | succ fuel ih =>
      rw [coalesceBackward]
      refine .ite (fun _ => .bind (readTag_avoids _ _) fun header _ => ?_) fun _ => .ok _
      refine .ite (fun _ => ?_) fun _ => .ok _
      exact .bind (mergePage_avoids _ _ _) fun s₁ _ =>
        .bind (readTag_avoids _ _) fun footer _ => ih _ _ _

theorem closePage_avoids (startPage : Nat) (s : Heap) :
    Avoids .abort (closePage P startPage s) :=
  .bind (writeTag_avoids _ _ _) fun _ _ => .bind (readTag_avoids _ _) fun _ _ =>
    writeTag_avoids _ _ _

/-- A page is tagged, merged and put into its list. -/
theorem addPage_avoids (fuel page : Nat) (s : Heap) : Avoids .abort (addPage P fuel page s) :=
  .bind (writeTag_avoids _ _ _) fun _ _ => .bind (readTag_avoids _ _) fun _ _ =>
    .bind (coalesceBackward_avoids _ _ _ _) fun _ _ => .bind (closePage_avoids _ _) fun _ _ =>
    insertHead_avoids _ _

/-- The first page comes without a check as well. -/
theorem firstPage_avoids (s : Heap) : Avoids .abort (firstPage P s) := by
  unfold firstPage
  extract_lets s₁
  split
  · exact .ok _
  · exact .bind (writeTag_avoids _ _ _) fun _ _ => .bind (store_avoids _ _ _) fun _ _ =>
      .bind (store_avoids _ _ _) fun _ _ => .bind (readTag_avoids _ _) fun _ _ =>
      .bind (writeTag_avoids _ _ _) fun _ _ => .ok _

/-- {lit}`sf_malloc` never aborts. -/
theorem sfMalloc_avoids (fuel calls size : Nat) (s : Heap) :
    Avoids .abort (sfMalloc P fuel calls size s) := by
  induction calls generalizing s with
  | zero => exact .error nofun
  | succ calls ih =>
      rw [sfMalloc]
      refine .ite (fun _ => .ok _) fun _ => ?_
      refine .bind (.ite (fun _ => firstPage_avoids _) fun _ => .ok _) fun s₁ _ => ?_
      refine .bind (searchLists_avoids _ _ _ _) fun search _ => .ite (fun _ => ?_) fun _ => .ok _
      split
      · exact .ok _
      · exact .bind (addPage_avoids _ _ _) fun s₂ _ => ih s₂

/-! ## sf_free -/

/-- The merging of a freed block, by induction on the blocks behind it. -/
theorem coalesceForward_avoids (fuel freed nextCoalesce : Nat) (s : Heap) :
    Avoids .abort (coalesceForward P fuel freed nextCoalesce s) := by
  induction fuel generalizing nextCoalesce s with
  | zero => exact .error nofun
  | succ fuel ih =>
      rw [coalesceForward]
      refine .ite (fun _ => .bind (readTag_avoids _ _) fun header _ => ?_) fun _ => .ok _
      refine .ite (fun _ => ?_) fun _ => .ok _
      exact .bind (writeTag_avoids _ _ _) fun s₁ _ => .bind (unlinkMerged_avoids _ _) fun s₂ _ =>
        .bind (readTag_avoids _ _) fun header' _ => ih _ _

/-- A freed block is tagged and put into its list. -/
theorem pushFreed_avoids (freed : Nat) (s : Heap) : Avoids .abort (pushFreed P freed s) :=
  .bind (store_avoids _ _ _) fun _ _ => .bind (store_avoids _ _ _) fun _ _ =>
    .bind (readTag_avoids _ _) fun _ _ => .bind (writeTag_avoids _ _ _) fun _ _ =>
    insertHead_avoids _ _

/-- The address of the footer, as the header at {lit}`block` tells. -/
def footerOf (s : Heap) (block : Nat) : Nat := block + (s.tag block).blockSize * 16 - 8

/-- The block at {lit}`block` passes the checks that {lit}`sf_free` and {lit}`sf_realloc`
start with. -/
structure PassesChecks (P : Platform) (s : Heap) (block : Nat) : Prop where
  bounds : checkBounds P s block = .ok ()
  allocated : (s.tag block).allocated = true
  footerBounds : checkBounds P s (footerOf s block) = .ok ()
  tags : checkTags (s.tag block) (s.tag (footerOf s block)) = .ok ()

/-- What was read is in the heap. -/
theorem eq_of_readTag {address : Nat} {tag : Tag} (h : readTag P s address = .ok tag) :
    InHeap P s address ∧ s.tag address = tag := by
  unfold readTag at h
  split_ifs at h with hin
  exact ⟨hin, Except.ok.inj h⟩

/-- The footer does not overlap the header, whatever the size. -/
theorem footerOf_apart {block : Nat} (hlow : P.heapStart ≤ block) :
    block % 8 = footerOf s block % 8 ∧ block ≠ footerOf s block := by
  have hstart := P.heapStart_ge
  unfold PAGE_SZ at hstart
  unfold footerOf
  omega

/-! ## Where sf_free aborts -/

section Checks

variable {α : Type} {address block : Nat}

/-- A check on an address is passed or aborts. -/
theorem checkBounds_cases (s : Heap) (address : Nat) :
    checkBounds P s address = .ok () ∨ checkBounds P s address = .error .abort := by
  unfold checkBounds
  split_ifs <;> simp

/-- So is the check on two tags. -/
theorem checkTags_cases (header footer : Tag) :
    checkTags header footer = .ok () ∨ checkTags header footer = .error .abort := by
  unfold checkTags
  split_ifs <;> simp

/-- A tag that cannot be read is a fault and not an abort. -/
theorem readTag_bind_avoids_iff {k : Tag → Except Stop α} :
    Avoids .abort (readTag P s address >>= k) ↔
      (InHeap P s address → Avoids .abort (k (s.tag address))) := by
  by_cases hin : InHeap P s address
  · rw [readTag_eq hin]
    exact ⟨fun h _ => h, fun h => h hin⟩
  · rw [readTag, if_neg hin]
    exact iff_of_true (.error nofun) fun h => absurd h hin

/-- The same for a tag that cannot be written. -/
theorem writeTag_bind_avoids_iff {f : Tag → Tag} {k : Heap → Except Stop α} :
    Avoids .abort (writeTag P s address f >>= k) ↔
      (InHeap P s address →
        Avoids .abort (k (s.setWord address (f (s.tag address)).toWord))) := by
  by_cases hin : InHeap P s address
  · rw [writeTag_eq hin]
    exact ⟨fun h _ => h, fun h => h hin⟩
  · rw [writeTag, if_neg hin]
    exact iff_of_true (.error nofun) fun h => absurd h hin

/-- {lit}`sf_free` gets through its checks on the block at {lit}`block`, or faults on the way
because a tag reaches over the end of the heap. -/
def FreeSpares (P : Platform) (s : Heap) (block : Nat) : Prop :=
  checkBounds P s block = .ok () ∧
    (InHeap P s block →
      (s.tag block).allocated = true ∧ checkBounds P s (footerOf s block) = .ok () ∧
        (InHeap P s (footerOf s block) →
          checkTags (s.tag block) (s.tag (footerOf s block)) = .ok ()))

/-- A block that passes the checks is spared. -/
theorem PassesChecks.freeSpares (h : PassesChecks P s block) : FreeSpares P s block :=
  ⟨h.bounds, fun _ => ⟨h.allocated, h.footerBounds, fun _ => h.tags⟩⟩

/-- {lit}`sf_free` aborts at its checks and nowhere else. -/
theorem sfFree_avoids_iff (fuel block : Nat) (s : Heap) :
    Avoids .abort (sfFree P fuel (block + 8) s) ↔ FreeSpares P s block := by
  unfold sfFree
  rw [Nat.add_sub_cancel, Avoids.check_bind_iff (checkBounds_cases s block)]
  refine and_congr_right fun hbounds => ?_
  rw [readTag_bind_avoids_iff]
  refine imp_congr_right fun hin => ?_
  by_cases hallocated : (s.tag block).allocated = true
  · -- clearing the bit of the header keeps the footer
    have hfooter (value : Nat) :
        (s.setWord block value).tag (footerOf s block) = s.tag (footerOf s block) := by
      rcases footerOf_apart hin.1 with ⟨halign, hne⟩
      exact Heap.tag_setWord_of_ne s _ halign hne
    simp only [hallocated, Bool.not_true, Bool.false_eq_true, if_false, true_and]
    rw [writeTag_bind_avoids_iff, forall_prop_of_true hin,
      Avoids.check_bind_iff (checkBounds_cases _ _)]
    refine and_congr_right fun _ => ?_
    rw [readTag_bind_avoids_iff]
    refine imp_congr_right fun _ => ?_
    rw [Avoids.check_bind_iff (checkTags_cases _ _)]
    rw [← footerOf, hfooter]
    refine and_iff_left ?_
    exact .bind (writeTag_avoids _ _ _) fun s₂ _ => .bind (readTag_avoids _ _) fun header _ =>
      .bind (coalesceForward_avoids _ _ _ _) fun s₃ _ => pushFreed_avoids _ _
  · rw [if_pos (by simp [hallocated])]
    exact iff_of_false (fun h => h rfl) fun h => hallocated h.1

end Checks

/-- {lit}`sf_free` does not abort on a block that passes the checks. -/
theorem PassesChecks.sfFree_avoids {block : Nat} (h : PassesChecks P s block) (fuel : Nat) :
    Avoids .abort (sfFree P fuel (block + 8) s) :=
  (sfFree_avoids_iff fuel block s).mpr h.freeSpares

end SystemFundamentals.Sfmm
