import SystemFundamentals.Sfmm.Gap

/-!
# The list operations of the calls

What the three ways of taking a block off a list and the one way of pushing a block
do on a layout with a gap.

Main results:

- Theorem {lit}`Gapped.unlinkMerged_eq`: a merged block is unlinked, provided its size
  field leads to its list when it is the head.
- Theorem {lit}`Gapped.unlinkChosen_eq`: the chosen block is unlinked and loses its
  links.
- Theorem {lit}`Gapped.insertHead_eq`: a block that fills the gap is pushed to the list
  of its size.
- Theorem {lit}`Gapped.spared`: list operations change a block outside the gap in its links
  only, and an allocated one not at all.
-/

namespace SystemFundamentals.Sfmm

open Library Library.LinkedList

theorem ok_bind {α β : Type} (a : α) (f : α → Except Stop β) :
    (Except.ok a >>= f) = f a := rfl

/-- Reading a word after another one has been stored. -/
theorem load_setWord_of_ne {P : Platform} {s : Heap} {address value a : Nat}
    (halign : address % 8 = a % 8) (hne : address ≠ a) :
    load P (s.setWord address value) a = load P s a := by
  unfold load
  rw [Heap.word_setWord_of_ne s value halign hne]
  rfl

/-- Storing the same word twice. -/
theorem store_again {P : Platform} {s : Heap} {address value : Nat} (hin : InHeap P s address)
    (hvalue : value < 2 ^ 64) :
    store P (s.setWord address value) address value = .ok (s.setWord address value) := by
  have hword : (s.setWord address value).word address = value := by
    rw [Heap.word_setWord_self, Nat.mod_eq_of_lt hvalue]
  rw [store_eq ((inHeap_setWord ..).mpr hin), Heap.setWord_eq_self hword]

/-- A block whose links lead to other places for blocks in the heap, or nowhere. -/
structure LinksInHeap (P : Platform) (s : Heap) (block : Nat) : Prop where
  low : P.heapStart ≤ block
  high : block + 32 ≤ s.heapEnd
  prev : s.prev block ≠ 0 → s.prev block ≠ block ∧ s.prev block % 16 = block % 16 ∧
    P.heapStart ≤ s.prev block ∧ s.prev block + 32 ≤ s.heapEnd
  next : s.next block ≠ 0 → s.next block ≠ block ∧ s.next block % 16 = block % 16 ∧
    P.heapStart ≤ s.next block ∧ s.next block + 32 ≤ s.heapEnd

namespace LinksInHeap

variable {P : Platform} {s : Heap} {block : Nat}

/-- The header and the links can be read. -/
theorem inHeap (h : LinksInHeap P s block) {w : Nat} (hlow : block ≤ w) (hhigh : w ≤ block + 24) :
    InHeap P s w := by
  have hstart := h.low
  have hend := h.high
  exact ⟨by omega, by omega⟩

/-- Redirecting the forward link to the block does not change its own links. -/
theorem links_forwarded (h : LinksInHeap P s block) (i : Fin 4) :
    (forwarded s i block).next block = s.next block ∧
      (forwarded s i block).prev block = s.prev block := by
  unfold forwarded
  split_ifs with hzero
  · exact ⟨rfl, rfl⟩
  · have hbounds := h.prev hzero
    constructor
    · exact Heap.word_setWord_of_ne _ _ (by omega) (by omega)
    · exact Heap.word_setWord_of_ne _ _ (by omega) (by omega)

/-- The links of the block can be read after the forward link to it has been redirected,
and the backward link of the successor can be written. -/
theorem load_forwarded (h : LinksInHeap P s block) (i : Fin 4) :
    load P (forwarded s i block) (block + 8) = .ok (s.next block) ∧
      load P (forwarded s i block) (block + 16) = .ok (s.prev block) ∧
      (s.next block ≠ 0 → InHeap P (forwarded s i block) (s.next block + 16)) := by
  have hlinks := h.links_forwarded i
  have hin {w : Nat} (hw : InHeap P s w) : InHeap P (forwarded s i block) w := by
    unfold InHeap at hw ⊢
    rw [heapEnd_forwarded]
    exact hw
  refine ⟨?_, ?_, ?_⟩
  · rw [← hlinks.1]
    exact load_eq (hin (h.inHeap (by omega) (by omega)))
  · rw [← hlinks.2]
    exact load_eq (hin (h.inHeap (by omega) (by omega)))
  · intro hne
    have hbounds := h.next hne
    exact hin ⟨by omega, by omega⟩

/-- Redirecting the forward link to a block that has a predecessor. -/
theorem store_forwarded (h : LinksInHeap P s block) (i : Fin 4) (hne : s.prev block ≠ 0) :
    store P s (s.prev block + 8) (s.next block) = .ok (forwarded s i block) := by
  have hbounds := h.prev hne
  rw [forwarded, if_neg hne]
  exact store_eq ⟨by omega, by omega⟩ _

/-- The links of the block can still be read after the backward link of its successor
has been stored. -/
theorem load_relinked (h : LinksInHeap P s block) (i : Fin 4) (hne : s.next block ≠ 0)
    (value : Nat) :
    load P ((forwarded s i block).setWord (s.next block + 16) value) (block + 8) =
        .ok (s.next block) ∧
      load P ((forwarded s i block).setWord (s.next block + 16) value) (block + 16) =
        .ok (s.prev block) := by
  have hbounds := h.next hne
  rcases h.load_forwarded i with ⟨hnext, hprev, -⟩
  rw [load_setWord_of_ne (by omega) (by omega), load_setWord_of_ne (by omega) (by omega)]
  exact ⟨hnext, hprev⟩

/-- Unlinking a merged block.  When it is the head, the list is looked up by the size
that its header holds, and that list loses its head. -/
theorem unlinkMerged_eq (h : LinksInHeap P s block) {i : Fin 4}
    (hlist : s.prev block = 0 → listIndex ((s.tag block).blockSize * 16) = .ok i) :
    unlinkMerged P block s = .ok (unlinked s i block) := by
  have hnext : load P s (block + 8) = .ok (s.next block) :=
    load_eq (h.inHeap (by omega) (by omega))
  have hprev : load P s (block + 16) = .ok (s.prev block) :=
    load_eq (h.inHeap (by omega) (by omega))
  rcases h.load_forwarded i with ⟨hnext', hprev', hnextIn⟩
  unfold unlinkMerged unlinked
  rw [hprev, ok_bind, hnext, ok_bind]
  by_cases hprevZero : s.prev block = 0
  · have hheader : InHeap P s block := h.inHeap le_rfl (by omega)
    have hforwarded : s.setHead i (s.next block) = forwarded s i block := by
      rw [forwarded, if_pos hprevZero]
    have hhead : (forwarded s i block).head i = s.next block := by
      rw [← hforwarded, Heap.head_setHead_self]
    rw [if_neg (not_not.mpr hprevZero), readTag_eq hheader, ok_bind, hlist hprevZero, ok_bind]
    simp only [hforwarded]
    by_cases hnextZero : s.next block = 0
    · rw [if_neg (by rw [hhead, hnextZero]; exact not_not.mpr rfl), if_pos hnextZero]
      simp only [ok_bind, hnext', if_neg (not_not.mpr hnextZero)]
    · -- the backward link of the new head is stored twice
      rcases h.load_relinked i hnextZero 0 with ⟨hnext'', hprev''⟩
      rw [hprevZero] at hprev''
      rw [if_pos (by rw [hhead]; exact hnextZero), hhead, store_eq (hnextIn hnextZero),
        if_neg hnextZero]
      simp only [ok_bind]
      rw [hnext'', ok_bind, if_pos hnextZero, hprev'', ok_bind, hprevZero]
      exact store_again (hnextIn hnextZero) (by omega)
  · rw [if_pos hprevZero, h.store_forwarded i hprevZero]
    simp only [ok_bind, hnext']
    by_cases hnextZero : s.next block = 0
    · rw [if_neg (not_not.mpr hnextZero), if_pos hnextZero]
    · rw [if_pos hnextZero, hprev', ok_bind, store_eq (hnextIn hnextZero), if_neg hnextZero]

end LinksInHeap

namespace Gapped

variable {P : Platform} {checked : Prop} {orig : Memory} {keep : Block → Prop} {s : Heap}
  {front back pending : List Block} {lo hi : Nat} {lists : Fin 4 → List Nat} {block : Block}

/-- The words of the gap are in the heap. -/
theorem inHeap_gap (h : Gapped P checked orig keep s front lo hi back pending lists) {w : Nat}
    (hlow : lo ≤ w) (hhigh : w + 8 ≤ hi) : InHeap P s w := by
  have hfront := h.frontTiles.le
  have hback := h.backTiles.le
  exact ⟨by omega, by omega⟩

/-- A store in the gap, as a step. -/
theorem store_gap (h : Gapped P checked orig keep s front lo hi back [] lists)
    (address value : Nat) (hlow : lo ≤ address) (hhigh : address + 8 ≤ hi) :
    ∃ s', store P s address value = .ok s' ∧
      Gapped P checked orig keep s' front lo hi back [] lists ∧ s'.word address = value % 2 ^ 64 ∧
      s'.head = s.head ∧
      ∀ w, w % 8 = address % 8 → w ≠ address → s'.word w = s.word w := by
  refine ⟨s.setWord address value, store_eq (h.inHeap_gap hlow hhigh) value,
    h.setWord value hlow hhigh, Heap.word_setWord_self .., Heap.head_setWord .., ?_⟩
  intro w halign hne
  exact Heap.word_setWord_of_ne s value (by omega) (Ne.symm hne)

/-- An assignment to bit-fields in the gap, as a step. -/
theorem writeTag_gap (h : Gapped P checked orig keep s front lo hi back [] lists)
    (address : Nat) (f : Tag → Tag) (hlow : lo ≤ address) (hhigh : address + 8 ≤ hi) :
    ∃ s', writeTag P s address f = .ok s' ∧
      Gapped P checked orig keep s' front lo hi back [] lists ∧
      s'.tag address = .ofWord (f (s.tag address)).toWord ∧ s'.head = s.head ∧
      ∀ w, w % 8 = address % 8 → w ≠ address → s'.word w = s.word w := by
  refine ⟨s.setWord address (f (s.tag address)).toWord,
    writeTag_eq (h.inHeap_gap hlow hhigh) f, h.setWord _ hlow hhigh,
    Heap.tag_setWord_self .., Heap.head_setWord .., ?_⟩
  intro w halign hne
  exact Heap.word_setWord_of_ne s _ (by omega) (Ne.symm hne)

theorem readTag_gap
    (h : Gapped P checked orig keep s front lo hi back pending lists) {address : Nat}
    (hlow : lo ≤ address) (hhigh : address + 8 ≤ hi) :
    readTag P s address = .ok (s.tag address) :=
  readTag_eq (h.inHeap_gap hlow hhigh)

/-- The links of the pending block lead into the heap. -/
theorem linksInHeap (h : Gapped P checked orig keep s front lo hi back [block] lists)
    (hfree : block.allocated = false) : LinksInHeap P s block.addr := by
  have hbounds := h.listed_bounds (h.pending_mem hfree)
  rcases h.neighbours hfree with ⟨hprev, hnext⟩
  exact ⟨hbounds.1, hbounds.2.1, hprev, hnext⟩

/-- Unlinking a merged block.  When it is the head, the list is looked up by the size
that its header holds. -/
theorem unlinkMerged_eq (h : Gapped P checked orig keep s front lo hi back [block] lists)
    (hfree : block.allocated = false) {i : Fin 4}
    (hlist : s.prev block.addr = 0 →
      listIndex ((s.tag block.addr).blockSize * 16) = .ok i) :
    unlinkMerged P block.addr s = .ok (unlinked s i block.addr) :=
  (h.linksInHeap hfree).unlinkMerged_eq hlist

end Gapped

/-- The state after {lit}`sf_malloc` has unlinked the block it has chosen from list
{lit}`i` and cleared its links. -/
def unlinkedChosen (s : Heap) (i : Fin 4) (block : Nat) : Heap :=
  (if s.next block = 0 then unlinked s i block
    else (unlinked s i block).setWord (block + 8) 0).setWord (block + 16) 0

/-- Unlinking the chosen block. -/
theorem LinksInHeap.unlinkChosen_eq {P : Platform} {s : Heap} {block : Nat}
    (h : LinksInHeap P s block) (i : Fin 4) :
    unlinkChosen P i block s = .ok (unlinkedChosen s i block) := by
  have hnext : load P s (block + 8) = .ok (s.next block) :=
    load_eq (h.inHeap (by omega) (by omega))
  have hprev : load P s (block + 16) = .ok (s.prev block) :=
    load_eq (h.inHeap (by omega) (by omega))
  rcases h.load_forwarded i with ⟨hnext', hprev', hnextIn⟩
  have hself {t : Heap} (ht : t.heapEnd = s.heapEnd) {w : Nat} (hlow : block ≤ w)
      (hhigh : w ≤ block + 16) : InHeap P t w := by
    have hin : InHeap P s w := h.inHeap hlow (by omega)
    exact ⟨hin.1, ht ▸ hin.2⟩
  have hafter : (do
      let next ← load P (forwarded s i block) (block + 8)
      if next ≠ 0 then
        let prev ← load P (forwarded s i block) (block + 16)
        let s ← store P (forwarded s i block) (next + 16) prev
        let s ← store P s (block + 8) 0
        store P s (block + 16) 0
      else store P (forwarded s i block) (block + 16) 0) = .ok (unlinkedChosen s i block) := by
    unfold unlinkedChosen unlinked
    rw [hnext', ok_bind]
    by_cases hzero : s.next block = 0
    · rw [if_neg (not_not.mpr hzero), if_pos hzero, if_pos hzero]
      exact store_eq (hself (by simp) (by omega) (by omega)) 0
    · rw [if_pos hzero, hprev', ok_bind, store_eq (hnextIn hzero), ok_bind,
        store_eq (hself (by simp) (by omega) (by omega)), ok_bind,
        store_eq (hself (by simp) (by omega) (by omega)), if_neg hzero, if_neg hzero]
  unfold unlinkChosen
  rw [hprev, ok_bind, hnext, ok_bind]
  by_cases hzero : s.prev block = 0
  · rw [if_neg (not_not.mpr hzero)]
    have hforwarded : s.setHead i (s.next block) = forwarded s i block := by
      rw [forwarded, if_pos hzero]
    rw [hforwarded]
    exact hafter
  · rw [if_pos hzero, h.store_forwarded i hzero]
    exact hafter

namespace Gapped

variable {P : Platform} {checked : Prop} {orig : Memory} {keep : Block → Prop} {s : Heap}
  {front back pending : List Block} {lo hi : Nat} {lists : Fin 4 → List Nat} {block : Block}

/-- Unlinking the chosen block. -/
theorem unlinkChosen_eq (h : Gapped P checked orig keep s front lo hi back [block] lists)
    (hfree : block.allocated = false) (i : Fin 4) :
    unlinkChosen P i block.addr s = .ok (unlinkedChosen s i block.addr) :=
  (h.linksInHeap hfree).unlinkChosen_eq i

end Gapped

/-! ## Lists without some blocks -/

/-- The addresses that are not those of the given blocks. -/
def without (run : List Block) (nodes : List Nat) : List Nat :=
  nodes.filter fun a => a ∉ run.map Block.addr

@[simp] theorem without_nil (nodes : List Nat) : without [] nodes = nodes := by
  simp [without]

theorem without_concat (run : List Block) (block : Block) (nodes : List Nat) :
    without (run ++ [block]) nodes = without run (without [block] nodes) := by
  unfold without
  rw [List.filter_filter]
  apply List.filter_congr
  intro a _
  simp [not_or]

theorem without_cons (run : List Block) (block : Block) (nodes : List Nat) :
    without (block :: run) nodes = without run (without [block] nodes) := by
  unfold without
  rw [List.filter_filter]
  apply List.filter_congr
  intro a _
  simp [Bool.and_comm]

theorem without_subset (run : List Block) (nodes : List Nat) : without run nodes ⊆ nodes :=
  List.filter_subset_self ..

theorem mem_without {nodes : List Nat} {a : Nat} :
    a ∈ without run nodes ↔ a ∈ nodes ∧ ∀ b ∈ run, b.addr ≠ a := by
  unfold without
  rw [List.mem_filter]
  simp

/-! ## What the list operations leave alone -/

/-- Outside the gap nothing but the links of listed blocks has changed. -/
def Spares (lists : Fin 4 → List Nat) (lo hi : Nat) (s s' : Heap) : Prop :=
  ∀ a, a < lo ∨ hi ≤ a → (∀ i, ∀ node ∈ lists i, a < node + 8 ∨ node + 24 ≤ a) →
    s'.mem a = s.mem a

namespace Spares

variable {s s₁ s₂ : Heap} {lo lo' hi hi' : Nat} {lists lists' : Fin 4 → List Nat}

theorem refl (s : Heap) : Spares lists lo hi s s := fun _ _ _ => rfl

theorem trans (h : Spares lists lo hi s s₁) (h' : Spares lists lo hi s₁ s₂) :
    Spares lists lo hi s s₂ := by
  intro a hout hlinks
  rw [h' a hout hlinks, h a hout hlinks]

/-- A larger gap and longer lists promise less. -/
theorem mono (h : Spares lists lo hi s s₁) (hlo : lo' ≤ lo) (hhi : hi ≤ hi')
    (hsub : ∀ i, lists i ⊆ lists' i) : Spares lists' lo' hi' s s₁ := by
  intro a hout hlinks
  apply h a (by omega)
  intro i node hnode
  exact hlinks i node (hsub i hnode)

/-- Stores in the gap. -/
theorem setWord (s : Heap) {address : Nat} (value : Nat) (hlow : lo ≤ address)
    (hhigh : address + 8 ≤ hi) : Spares lists lo hi s (s.setWord address value) := by
  intro a hout _
  exact Memory.writeWord_of_outside _ (by omega)

end Spares

namespace Gapped

variable {P : Platform} {checked : Prop} {orig : Memory} {keep : Block → Prop} {s s' : Heap}
  {front back pending : List Block} {lo hi : Nat} {lists : Fin 4 → List Nat} {block : Block}

/-- Erasing a block from the list that it is in takes it out of all lists. -/
theorem update_erase (h : Gapped P checked orig keep s front lo hi back [] lists)
    (hblock : block ∈ front ++ back) (hfree : block.allocated = false) :
    Function.update lists (classOf block.units)
      ((lists (classOf block.units)).erase block.addr) = fun i => without [block] (lists i) := by
  have hmem : block.addr ∈ lists (classOf block.units) := by
    apply (h.listed _ _).mpr
    exact ⟨block, by simpa using hblock, hfree, rfl, rfl⟩
  funext i
  by_cases hi : i = classOf block.units
  · subst hi
    rw [Function.update_self, (h.linked _).nodup.erase_eq_filter]
    unfold without
    apply List.filter_congr
    intro a _
    simp [bne, beq_eq_decide]
  · rw [Function.update_of_ne hi]
    symm
    apply List.filter_eq_self.mpr
    intro a ha
    simp only [List.map_cons, List.map_nil, List.mem_singleton, decide_eq_true_eq]
    intro heq
    exact hi (h.list_unique (by simp) ha (heq ▸ hmem))

/-- What list operations change of a block outside their gap. -/
theorem spared (h : Gapped P checked orig keep s front lo hi back pending lists) {lo' hi' : Nat}
    (hspares : Spares lists lo' hi' s s') {b : Block} (hb : b ∈ front ++ back)
    (hout : b.stop ≤ lo' ∨ hi' ≤ b.addr) {a : Nat} (hlow : b.addr ≤ a) (hhigh : a < b.stop)
    (hcase : b.allocated = true ∨ a < b.addr + 8 ∨ b.addr + 24 ≤ a) : s'.mem a = s.mem a := by
  apply hspares a (by omega)
  intro i node hnode
  rcases h.links_apart hnode hb with hapart | hapart | ⟨hfree, hsame, -⟩
  · exact Or.inr (by omega)
  · exact Or.inl (by omega)
  · rw [hfree] at hcase
    rcases hcase with hcase | hcase
    · exact absurd hcase Bool.false_ne_true
    · rw [← hsame]
      exact hcase

/-- Unlinking the pending block. -/
theorem unlinked_spares (h : Gapped P checked orig keep s front lo hi back [block] lists)
    (hfree : block.allocated = false) (i : Fin 4) :
    Spares lists lo hi s (unlinked s i block.addr) := by
  intro a _ hlinks
  apply mem_unlinked
  · intro hne
    have := hlinks _ _ (h.prev_mem hfree hne)
    omega
  · intro hne
    have := hlinks _ _ (h.next_mem hfree hne)
    omega

/-- Pushing a block that fills the gap. -/
theorem insertHead_eq (h : Gapped P checked orig keep s front lo hi back [] lists)
    (haddr : block.addr = lo) (hstop : block.stop = hi) (hunits : 2 ≤ block.units)
    (hsize : (s.tag block.addr).blockSize = block.units) :
    insertHead P block.addr s = .ok (inserted s (classOf block.units) block.addr) := by
  have hbounds := h.insert_bounds haddr hstop hunits (classOf block.units)
  rcases hbounds with ⟨hlow, hhigh, -, -, -, hhead⟩
  have hfront := h.frontTiles.le
  have hback := h.backTiles.le
  have hend := h.heapEnd_le
  have hlimit := P.pageLimit_le
  have hclass : listIndex (block.units * 16) = .ok (classOf block.units) := by
    apply listIndex_eq
    unfold Block.stop at hstop
    unfold PAGE_SZ at hend
    omega
  have hheader : InHeap P s block.addr := ⟨by omega, by omega⟩
  have hnextIn : InHeap P s (block.addr + 8) := ⟨by omega, by omega⟩
  unfold insertHead inserted
  rw [readTag_eq hheader, ok_bind, hsize, hclass, ok_bind, store_eq hnextIn, ok_bind]
  dsimp only
  rw [Heap.head_setWord]
  by_cases hzero : s.head (classOf block.units) = 0
  · rw [if_neg (not_not.mpr hzero), if_pos hzero]
    rfl
  · have hheadIn : InHeap P (s.setWord (block.addr + 8) (s.head (classOf block.units)))
        (s.head (classOf block.units) + 16) := by
      have := hhead hzero
      exact ⟨by omega, by rw [Heap.heapEnd_setWord]; omega⟩
    rw [if_pos hzero, store_eq hheadIn, if_neg hzero]
    rfl

/-- A free block that fills the gap is pushed to the list of its size, which closes the
gap and spares the allocated blocks. -/
theorem closeFree (h : Gapped P checked orig keep s front lo hi back [] lists)
    (hroom : lo + 32 ≤ hi)
    (hheader : (s.tag lo).allocated = false ∧ (s.tag lo).blockSize * 16 = hi - lo)
    (hfooter : (s.tag (hi - 8)).allocated = false ∧ (s.tag (hi - 8)).blockSize * 16 = hi - lo)
    (hprev : s.prev lo = 0) :
    ∃ s', insertHead P lo s = .ok s' ∧
      Gapped P checked orig keep s' (front ++ [⟨lo, (hi - lo) / 16, false⟩]) hi hi back []
        (Function.update lists (classOf ((hi - lo) / 16))
          (lo :: lists (classOf ((hi - lo) / 16)))) ∧
      Spares lists lo hi s s' := by
  have hmod := h.gap_mod
  let block : Block := ⟨lo, (hi - lo) / 16, false⟩
  have hunits : block.units = (hi - lo) / 16 := rfl
  have hstop : block.stop = hi := by
    show lo + 16 * ((hi - lo) / 16) = hi
    omega
  have htagged : Tagged checked s block := by
    refine ⟨⟨hheader.1, ?_, ?_, ?_⟩, ?_⟩
    · show (s.tag lo).blockSize = (hi - lo) / 16
      omega
    · rw [hstop]
      exact hfooter.1
    · rw [hstop]
      show (s.tag (hi - 8)).blockSize = (hi - lo) / 16
      omega
    · intro _ hallocated
      exact absurd hallocated (by simp [block])
  have hinsert : insertHead P block.addr s = _ :=
    h.insertHead_eq rfl hstop (by omega) htagged.headerSize
  refine ⟨_, hinsert, h.insert rfl hstop (by omega) rfl htagged hprev, ?_⟩
  intro a hout hlinks
  apply mem_inserted
  · show a < lo + 8 ∨ lo + 16 ≤ a
    omega
  · intro hne
    have := hlinks _ _ ((h.linked _).head_mem hne)
    omega

end Gapped

end SystemFundamentals.Sfmm
