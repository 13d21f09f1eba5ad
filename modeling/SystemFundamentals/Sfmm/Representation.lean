import SystemFundamentals.Sfmm.Malloc
import Mathlib.Data.Fintype.Basic
import Mathlib.Tactic.FinCases

/-!
# The representation invariant

What the allocator should keep: blocks that tile the heap and four lists that hold the free
ones.  It says of the memory what a layout says of it, without the bookkeeping of a call that
is under way.

Main results:

- Theorem {lit}`Gapped.represents`: the blocks and lists of a layout represent the heap.
- Theorem {lit}`Intact.layout`: a represented heap of whole pages has a layout.
-/

namespace SystemFundamentals.Sfmm

open Library Library.LinkedList

/-- The blocks tile the heap, with headers and footers that agree.  The lists are linked in
both directions from a head without a predecessor, without repetition, and hold the free
blocks, each in the list whose range contains its size. -/
structure Represents (P : Platform) (s : Heap) (blocks : List Block)
    (lists : Fin 4 → List Nat) : Prop where
  tiles : Tiles P.heapStart blocks s.heapEnd
  tags : ∀ block ∈ blocks, TagsAgree s block
  linked : ∀ i, IsList s.next s.prev 0 (s.head i) (lists i)
  listed : ∀ i a, a ∈ lists i ↔ ∃ block ∈ blocks, block.allocated = false ∧ block.addr = a ∧
    listMin i ≤ block.units * 16 ∧ block.units * 16 ≤ listMax i

/-- The representation invariant of the allocator. -/
def Represented (P : Platform) (s : Heap) : Prop := ∃ blocks lists, Represents P s blocks lists

/-- A represented heap of as many pages as {lit}`sf_sbrk` gives out, which is at most 65535
bytes. -/
structure Intact (P : Platform) (s : Heap) (blocks : List Block)
    (lists : Fin 4 → List Nat) : Prop extends Represents P s blocks lists where
  pages : ∃ k ≤ P.pageLimit, s.heapEnd = P.heapStart + PAGE_SZ * k

variable {P : Platform} {checked : Prop} {orig : Memory} {keep : Block → Prop} {s : Heap}
  {blocks : List Block} {lists : Fin 4 → List Nat}

/-- The class of a size is the list whose range contains it, up to the maximum of the last
list. -/
theorem classOf_eq_iff {units : Nat} (hmin : 2 ≤ units) (hmax : units * 16 ≤ 65535) (i : Fin 4) :
    classOf units = i ↔ listMin i ≤ units * 16 ∧ units * 16 ≤ listMax i := by
  unfold classOf listMin listMax
  fin_cases i <;> simp <;> split_ifs <;> simp <;> omega

/-- The sizes of the blocks that tile a heap of whole pages. -/
theorem Tiles.size_bounds (h : Tiles P.heapStart blocks s.heapEnd)
    (hpages : ∃ k ≤ P.pageLimit, s.heapEnd = P.heapStart + PAGE_SZ * k) {block : Block}
    (hblock : block ∈ blocks) : 2 ≤ block.units ∧ block.units * 16 ≤ 65535 := by
  rcases hpages with ⟨k, hk, hend⟩
  have hbounds := h.bounds hblock
  have hlimit := P.pageLimit_le
  unfold Block.stop at hbounds
  unfold PAGE_SZ at hend
  omega

/-- Being in the list of a class, for blocks of a heap of whole pages. -/
theorem exists_free_iff (h : Tiles P.heapStart blocks s.heapEnd)
    (hpages : ∃ k ≤ P.pageLimit, s.heapEnd = P.heapStart + PAGE_SZ * k) (i : Fin 4) (a : Nat) :
    (∃ block ∈ blocks, block.allocated = false ∧ block.addr = a ∧ classOf block.units = i) ↔
      ∃ block ∈ blocks, block.allocated = false ∧ block.addr = a ∧
        listMin i ≤ block.units * 16 ∧ block.units * 16 ≤ listMax i := by
  apply exists_congr
  intro block
  apply and_congr_right
  intro hblock
  rcases h.size_bounds hpages hblock with ⟨hmin, hmax⟩
  rw [classOf_eq_iff hmin hmax]

/-- The blocks and lists of a layout represent the heap. -/
theorem Gapped.represents (h : Layout P checked orig keep s blocks lists) :
    Represents P s blocks lists where
  tiles := h.frontTiles
  tags block hblock := (h.tagged block (List.mem_append_left _ hblock)).toTagsAgree
  linked := h.linked
  listed i a := by
    rw [← exists_free_iff h.frontTiles h.pages, h.listed, List.append_nil, List.append_nil]

theorem Gapped.intact (h : Layout P checked orig keep s blocks lists) :
    Intact P s blocks lists :=
  ⟨h.represents, h.pages⟩

/-- A represented heap of whole pages has a layout. -/
theorem Intact.layout (h : Intact P s blocks lists) :
    Layout P False s.mem (fun _ => False) s blocks lists where
  frontTiles := h.tiles
  backTiles := rfl
  gap_le := le_rfl
  gap_mod := rfl
  pages := h.pages
  tagged block hblock :=
    ⟨h.tags block (by simpa using hblock), fun hchecked => absurd hchecked id⟩
  pendingGap _ hblock := absurd hblock List.not_mem_nil
  linked := h.linked
  listed i a := by
    rw [h.listed, List.append_nil, List.append_nil, exists_free_iff h.tiles h.pages]
  keepMem _ hkeep := absurd hkeep id
  kept _ hkeep := absurd hkeep id

end SystemFundamentals.Sfmm
