import Mathlib.Init

/-!
# Chains of nodes

A store gives some addresses a node, and a node tells the address of the next one.  A chain
is what a walk along these addresses passes.

Main results:

- Theorem {lit}`chain_append`: a chain splits at any place.
- Theorem {lit}`Chain.congr`: only the nodes of a chain matter.
- Theorem {lit}`Chain.notMem_of_none`: an address without a node is not on a chain.
-/

namespace SystemFundamentals.Library

universe u v

variable {α : Type u} {ν : Type v}

/-- The cells that a walk from {lit}`first` passes before it is at {lit}`last`, each with
its address. -/
def Chain (nodes : α → Option ν) (next : ν → α) : α → List (α × ν) → α → Prop
  | first, [], last => first = last
  | first, (address, node) :: cells, last =>
      address = first ∧ nodes address = some node ∧ Chain nodes next (next node) cells last

variable {nodes nodes' : α → Option ν} {next : ν → α} {first last : α}
  {cells front back : List (α × ν)}

/-- A chain splits at any place. -/
theorem chain_append :
    Chain nodes next first (front ++ back) last ↔
      ∃ middle, Chain nodes next first front middle ∧ Chain nodes next middle back last := by
  induction front generalizing first with
  | nil =>
      constructor
      · intro h
        exact ⟨first, rfl, h⟩
      · intro h
        rcases h with ⟨middle, rfl, hback⟩
        exact hback
  | cons cell front ih =>
      constructor
      · intro h
        rcases h with ⟨hfirst, hnode, hrest⟩
        rcases ih.mp hrest with ⟨middle, hfront, hback⟩
        exact ⟨middle, ⟨hfirst, hnode, hfront⟩, hback⟩
      · intro h
        rcases h with ⟨middle, ⟨hfirst, hnode, hfront⟩, hback⟩
        exact ⟨hfirst, hnode, ih.mpr ⟨middle, hfront, hback⟩⟩

/-- Only the nodes of a chain matter. -/
theorem Chain.congr (h : Chain nodes next first cells last)
    (hnodes : ∀ cell ∈ cells, nodes' cell.1 = nodes cell.1) :
    Chain nodes' next first cells last := by
  induction cells generalizing first with
  | nil => exact h
  | cons cell cells ih =>
      rcases h with ⟨hfirst, hnode, hrest⟩
      refine ⟨hfirst, ?_, ih hrest fun c hc => hnodes c (List.mem_cons_of_mem _ hc)⟩
      rw [hnodes cell List.mem_cons_self]
      exact hnode

/-- The cells of a chain are nodes of the store. -/
theorem Chain.node_eq (h : Chain nodes next first cells last) {cell : α × ν}
    (hmem : cell ∈ cells) : nodes cell.1 = some cell.2 := by
  induction cells generalizing first with
  | nil => exact absurd hmem List.not_mem_nil
  | cons c cells ih =>
      rcases List.mem_cons.mp hmem with rfl | hmem
      · exact h.2.1
      · exact ih h.2.2 hmem

/-- An address without a node is not on a chain. -/
theorem Chain.notMem_of_none (h : Chain nodes next first cells last) {address : α}
    (hnone : nodes address = none) : address ∉ cells.map Prod.fst := by
  intro hmem
  rcases List.mem_map.mp hmem with ⟨cell, hcell, rfl⟩
  rw [h.node_eq hcell] at hnone
  cases hnone

end SystemFundamentals.Library
