import SystemFundamentals.Sfmm.ReallocContract
import SystemFundamentals.Sfmm.Representation

/-!
# What sf_free promises

A freed block becomes one free block with all the free blocks that follow it, at the head of
the list of the new size.  The other blocks stay as they are and keep their places in the
lists.

Main results:

- Theorem {lit}`sfFree_intact`: freeing keeps the representation invariant.
-/

namespace SystemFundamentals.Sfmm

open Library Library.LinkedList

variable {P : Platform} {s : Heap} {front back : List Block} {lists : Fin 4 → List Nat}
  {block : Block}

/-- Nothing has changed in the blocks, except for the links of the free ones. -/
def BlocksKept (blocks : List Block) (s s' : Heap) : Prop :=
  ∀ block ∈ blocks, ∀ a, block.addr ≤ a → a < block.stop →
    block.allocated = true ∨ a < block.addr + 8 ∨ block.addr + 24 ≤ a → s'.mem a = s.mem a

/-- The run that is merged is the longest one. -/
theorem leadingRun_maximal (blocks : List Block) :
    leadingRun blocks ++ behindRun blocks = blocks ∧
      (∀ b ∈ leadingRun blocks, b.allocated = false) ∧
      ∀ b, (behindRun blocks).head? = some b → b.allocated = true := by
  refine ⟨List.takeWhile_append_dropWhile, ?_, ?_⟩
  · intro b hb
    simpa using List.mem_takeWhile_imp hb
  · intro b hb
    have hnot := List.head?_dropWhile_not (fun block : Block => !block.allocated) blocks
    rw [show (blocks.dropWhile fun block => !block.allocated).head? = some b from hb] at hnot
    simpa using hnot

/-- Freeing a live block whose tags are as {lit}`sf_malloc` writes them does not abort and
keeps the representation invariant.  The block and the longest run of free blocks behind it
become one free block, which is pushed to the list of its size. -/
theorem sfFree_intact (h : Intact P s (front ++ block :: back) lists)
    (hlive : block.allocated = true) (htags : Consistent s block) :
    ∃ s', Returns (fun fuel => sfFree P fuel (block.addr + 8) s) s' ∧
      Intact P s' (front ++ block.mergedWith (leadingRun back) :: behindRun back)
        (freedLists lists (leadingRun back) (block.mergedWith (leadingRun back))) ∧
      BlocksKept (front ++ behindRun back) s s' := by
  rcases sfFree_returns h.layout hlive htags id with ⟨s', hreturns, hlayout, hkept⟩
  exact ⟨s', hreturns, hlayout.intact, hkept⟩

theorem halfPage_intact :
    Intact fourPages halfPage [⟨65536, 8, true⟩, ⟨65664, 248, false⟩]
      (fun i => if i = 3 then [65664] else []) := by
  have hlayout : Layout fourPages False halfPage.mem (fun _ => False) halfPage
      [⟨65536, 8, true⟩, ⟨65664, 248, false⟩] (fun i => if i = 3 then [65664] else []) :=
    layout_of_one_free ⟨65664, 248, false⟩ (by decide +kernel) ⟨1, by decide, by decide⟩
      (by decide +kernel) (by decide) (by decide +kernel) (by decide +kernel)
  exact hlayout.intact

/-- Freeing the only live block of a page makes one free block of the page. -/
theorem halfPage_freed :
    ∃ s' lists', Returns (fun fuel => sfFree fourPages fuel 65544 halfPage) s' ∧
      Intact fourPages s' [⟨65536, 256, false⟩] lists' ∧ lists' 3 = [65536] := by
  have hfreed := @sfFree_intact fourPages halfPage [] [⟨65664, 248, false⟩] _ ⟨65536, 8, true⟩
    halfPage_intact rfl halfPage_live.consistent
  rcases hfreed with ⟨s', hreturns, hintact, -⟩
  exact ⟨s', _, hreturns, hintact, rfl⟩

end SystemFundamentals.Sfmm
