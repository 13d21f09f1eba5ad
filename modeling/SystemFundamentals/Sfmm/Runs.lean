import SystemFundamentals.Library.Transition
import SystemFundamentals.Sfmm.ReallocContract

/-!
# Runs of the allocator

A client starts with an empty heap.  It calls {lit}`sf_malloc`, and {lit}`sf_realloc` and
{lit}`sf_free` with the pointers it holds, and it writes what it likes to the bytes that it
has asked for.  As long as every call that searches for a block is safe, the heap stays
well formed and every pointer that the client holds has a block of its own.

Main results:

- Theorem {lit}`Sound.call`: a safe call keeps the heap sound and the other payloads as
  they are.
- Theorem {lit}`reachable_sound`: every state that safe calls can reach is sound.
-/

namespace SystemFundamentals.Sfmm

open Library Library.LinkedList

/-! ## The client -/

/-- A live pointer and the size that it was requested with. -/
structure Allocation where
  ptr : Nat
  requested : Nat
deriving DecidableEq

/-- The heap and the live pointers. -/
structure Session where
  heap : Heap
  live : List Allocation

/-- The calls of the allocator. -/
inductive Call
  | malloc (size : Nat)
  | realloc (ptr size : Nat)
  | free (ptr : Nat)
deriving DecidableEq

/-- The pointer that a call is given. -/
def Call.given : Call → Option Nat
  | .malloc _ => none
  | .realloc ptr _ => some ptr
  | .free ptr => some ptr

/-- What happens in a run. -/
inductive Event
  | call (call : Call)
  | write (address : Nat) (byte : UInt8)

/-- The live pointers after {lit}`sf_malloc` has returned {lit}`ptr`. -/
def afterMalloc (size ptr : Nat) (live : List Allocation) : List Allocation :=
  if ptr = 0 then live else ⟨ptr, size⟩ :: live

/-- The live pointers after {lit}`sf_realloc` has returned {lit}`new`.  A call with size
zero frees the block, and a call that fails leaves it. -/
def afterRealloc (a : Allocation) (size new : Nat) (live : List Allocation) :
    List Allocation :=
  if size = 0 then live.erase a
  else if new = 0 then live
  else ⟨new, size⟩ :: live.erase a

/-- A call returns. -/
inductive Serves (P : Platform) : Session → Call → Session → Prop
  | malloc {s : Session} {heap : Heap} {size ptr : Nat} : size < 2 ^ 64 →
      MallocReturns P size s.heap heap ptr →
      Serves P s (.malloc size) ⟨heap, afterMalloc size ptr s.live⟩
  | realloc {s : Session} {heap : Heap} {a : Allocation} {size new : Nat} : a ∈ s.live →
      size < 2 ^ 64 → ReallocReturns P size a.ptr s.heap heap new →
      Serves P s (.realloc a.ptr size) ⟨heap, afterRealloc a size new s.live⟩
  | free {s : Session} {heap : Heap} {a : Allocation} : a ∈ s.live →
      Returns (fun fuel => sfFree P fuel a.ptr s.heap) heap →
      Serves P s (.free a.ptr) ⟨heap, s.live.erase a⟩

/-- The heap after a byte has been written. -/
def Heap.setByte (s : Heap) (address : Nat) (byte : UInt8) : Heap :=
  { s with mem := s.mem.writeByte address byte }

/-- A call returns, or the client writes a byte of one of its payloads. -/
inductive Step (P : Platform) : Session → Event → Session → Prop
  | call {s t : Session} {call : Call} : Serves P s call t → Step P s (.call call) t
  | write {s : Session} {a : Allocation} {offset : Nat} (byte : UInt8) : a ∈ s.live →
      offset < a.requested →
      Step P s (.write (a.ptr + offset) byte)
        { s with heap := s.heap.setByte (a.ptr + offset) byte }

/-- Before the first call the heap has no page, whatever the memory behind its start
holds. -/
structure Empty (P : Platform) (s : Session) : Prop where
  heapEnd_eq : s.heap.heapEnd = P.heapStart
  head_eq : ∀ i, s.heap.head i = 0
  live_eq : s.live = []

/-- The allocator and its client. -/
def allocator (P : Platform) : System Session Event where
  initial := Empty P
  step := Step P

/-- The searches that a call starts end well, and {lit}`sf_realloc` gets no size that wraps
around. -/
def CallSafe (P : Platform) (s : Session) : Call → Prop
  | .malloc size => MallocSafe P size s.heap
  | .realloc ptr size => size + 16 < 2 ^ 64 ∧
      ((s.heap.tag (ptr - 8)).blockSize * 16 < size + 16 → MallocSafe P size s.heap)
  | .free _ => True

/-- Writes are always safe. -/
def EventSafe (P : Platform) (s : Session) : Event → Prop
  | .call call => CallSafe P s call
  | .write _ _ => True

/-- The allocator with safe calls only. -/
def safeAllocator (P : Platform) : System Session Event :=
  (allocator P).guarded (EventSafe P)

/-! ## Blocks of live pointers -/

/-- The block that was handed out for a live pointer. -/
structure Owns (blocks : List Block) (a : Allocation) (block : Block) : Prop where
  mem : block ∈ blocks
  allocated : block.allocated = true
  ptr_eq : a.ptr = block.addr + 8
  room : a.requested + 16 ≤ block.units * 16

/-- The blocks of some live pointers. -/
def Owned (blocks : List Block) (live : List Allocation) (block : Block) : Prop :=
  ∃ a ∈ live, Owns blocks a block

/-- The payloads of some live pointers are the same in two heaps. -/
def SamePayloads (live : List Allocation) (s s' : Heap) : Prop :=
  ∀ a ∈ live, ∀ j < a.requested, s'.mem (a.ptr + j) = s.mem (a.ptr + j)

/-- The heap is well formed, allocated blocks have tags that pass the checks of
{lit}`sf_free`, and every live pointer has a block. -/
structure Holding (P : Platform) (s : Heap) (live : List Allocation) (blocks : List Block)
    (lists : Fin 4 → List Nat) : Prop where
  layout : Layout P True s.mem (fun _ => False) s blocks lists
  owned : ∀ a ∈ live, ∃ block, Owns blocks a block
  nodup : (live.map Allocation.ptr).Nodup

/-- The invariant of the runs. -/
def Sound (P : Platform) (s : Session) : Prop :=
  ∃ blocks lists, Holding P s.heap s.live blocks lists

variable {P : Platform} {checked : Prop} {orig : Memory} {keep : Block → Prop} {s s' : Heap}
  {live : List Allocation} {blocks blocks' : List Block} {lists lists' : Fin 4 → List Nat}
  {a : Allocation} {block block' : Block} {size : Nat}

/-- Blocks of a layout are told by their addresses. -/
theorem Gapped.eq_of_addr (h : Layout P checked orig keep s blocks lists) (hmem : block ∈ blocks)
    (hmem' : block' ∈ blocks) (haddr : block.addr = block'.addr) : block = block' := by
  have hbounds := h.frontTiles.bounds hmem
  have hbounds' := h.frontTiles.bounds hmem'
  rcases h.frontTiles.disjoint hmem hmem' with heq | hdisjoint
  · exact heq
  · unfold Block.stop at hdisjoint
    omega

theorem mem_of_erase {a' : Allocation} (hmem : a' ∈ live) (hne : a'.ptr ≠ a.ptr) :
    a' ∈ live.erase a := by
  refine (List.mem_erase_of_ne ?_).mpr hmem
  rintro rfl
  exact hne rfl

namespace Holding

/-- The block of a live pointer is not that of another. -/
theorem not_owned_erase (h : Holding P s live blocks lists) (ha : a ∈ live)
    (howns : Owns blocks a block) : ¬ Owned blocks (live.erase a) block := by
  rintro ⟨a', ha', howns'⟩
  have hptr : a'.ptr = a.ptr := howns'.ptr_eq.trans howns.ptr_eq.symm
  have heq : a' = a :=
    List.inj_on_of_nodup_map h.nodup (List.mem_of_mem_erase ha') ha hptr
  rw [heq] at ha'
  exact h.nodup.of_map.not_mem_erase ha'

/-- Another live pointer's block, or its own. -/
theorem owned_cases (h : Holding P s live blocks lists) (howns : Owns blocks a block)
    (howned : Owned blocks live block') : Owned blocks (live.erase a) block' ∨ block' = block := by
  rcases howned with ⟨a', ha', howns'⟩
  by_cases hptr : a'.ptr = a.ptr
  · right
    apply h.layout.eq_of_addr howns'.mem howns.mem
    have haddr := howns'.ptr_eq
    rw [hptr, howns.ptr_eq] at haddr
    omega
  · exact Or.inl ⟨a', mem_of_erase ha' hptr, howns'⟩

theorem erase (h : Holding P s live blocks lists) (a : Allocation) :
    Holding P s (live.erase a) blocks lists where
  layout := h.layout
  owned b hb := h.owned b (List.mem_of_mem_erase hb)
  nodup := h.nodup.sublist (List.erase_sublist.map _)

/-- The layout from which on the blocks of the live pointers are kept. -/
theorem keeping (h : Holding P s live blocks lists) :
    Layout P True s.mem (Owned blocks live) s blocks lists := by
  apply h.layout.rebase
  rintro b ⟨a, -, howns⟩
  exact ⟨List.mem_append_left _ howns.mem, howns.allocated⟩

/-- A call that keeps the blocks of live pointers keeps their payloads. -/
theorem of_kept (h : Holding P s live blocks lists)
    (h' : Layout P True s.mem (Owned blocks live) s' blocks' lists') :
    Holding P s' live blocks' lists' ∧ SamePayloads live s s' := by
  have hmoved {a : Allocation} (ha : a ∈ live) {block : Block} (howns : Owns blocks a block) :
      Owns blocks' a block := by
    have hkept := (h'.keepMem block ⟨a, ha, howns⟩).1
    rw [List.append_nil] at hkept
    exact { howns with mem := hkept }
  refine ⟨⟨?_, ?_, h.nodup⟩, ?_⟩
  · exact h'.rebase _ fun _ hfalse => hfalse.elim
  · intro a ha
    rcases h.owned a ha with ⟨block, howns⟩
    exact ⟨block, hmoved ha howns⟩
  · intro a ha j hj
    rcases h.owned a ha with ⟨block, howns⟩
    have hptr := howns.ptr_eq
    have hroom := howns.room
    apply h'.kept block ⟨a, ha, howns⟩
    · omega
    · unfold Block.stop
      omega

/-- A new live pointer. -/
theorem cons (h : Holding P s live blocks lists) {addr units : Nat}
    (hmem : ⟨addr, units, true⟩ ∈ blocks) (hroom : size + 16 ≤ units * 16)
    (hfresh : ∀ b, Owned blocks live b → b.addr ≠ addr) :
    Holding P s (⟨addr + 8, size⟩ :: live) blocks lists where
  layout := h.layout
  owned a ha := by
    rcases List.mem_cons.mp ha with rfl | ha
    · exact ⟨_, hmem, rfl, rfl, hroom⟩
    · exact h.owned a ha
  nodup := by
    rw [List.map_cons, List.nodup_cons]
    refine ⟨?_, h.nodup⟩
    intro hptr
    rcases List.mem_map.mp hptr with ⟨a, ha, hptr⟩
    rcases h.owned a ha with ⟨block, howns⟩
    have haddr : addr + 8 = block.addr + 8 := hptr.symm.trans howns.ptr_eq
    exact hfresh block ⟨a, ha, howns⟩ (by omega)

end Holding

/-! ## The calls -/

/-- A block of the heap with room for the request, which is none of the kept ones. -/
structure Provides (P : Platform) (checked : Prop) (orig : Memory) (keep : Block → Prop)
    (size addr : Nat) (s : Heap) : Prop where
  layout : ∃ blocks lists, Layout P checked orig keep s blocks lists ∧
    ∃ units, ⟨addr, units, true⟩ ∈ blocks ∧ size + 16 ≤ units * 16
  fresh : ∀ b, keep b → b.addr ≠ addr

theorem Placed.provides {room addr : Nat} (h : Placed P checked orig keep size room addr s) :
    Provides P checked orig keep size addr s := by
  rcases h.layout with ⟨blocks, lists, hlayout, units, hmem, hrecords, -⟩
  exact ⟨⟨blocks, lists, hlayout, units, hmem, hrecords.room⟩, h.fresh⟩

theorem Holds.provides {addr : Nat} (h : Holds P checked orig keep size addr s) :
    Provides P checked orig keep size addr s := by
  rcases h.layout with ⟨blocks, lists, hlayout, units, hmem, hrecords⟩
  exact ⟨⟨blocks, lists, hlayout, units, hmem, hrecords.room⟩, h.fresh⟩

/-- A block that is provided while the blocks of live pointers are kept. -/
theorem Holding.provided (h : Holding P s live blocks lists) {addr : Nat}
    (h' : Provides P True s.mem (Owned blocks live) size addr s') :
    (∃ blocks' lists', Holding P s' (⟨addr + 8, size⟩ :: live) blocks' lists') ∧
      SamePayloads live s s' := by
  rcases h'.layout with ⟨blocks', lists', hlayout, units, hmem, hroom⟩
  rcases h.of_kept hlayout with ⟨hholding, hsame⟩
  refine ⟨⟨blocks', lists', hholding.cons hmem hroom ?_⟩, hsame⟩
  rintro b ⟨a, ha, howns⟩
  rcases h.owned a ha with ⟨block, howns'⟩
  have hptr := howns.ptr_eq
  have hptr' := howns'.ptr_eq
  have hne := h'.fresh block ⟨a, ha, howns'⟩
  omega

/-- A safe reallocation that does not wrap around returns a block with room for the new
size, or null and leaves the old block alone. -/
theorem sfRealloc_returns (h : Layout P checked orig keep s blocks lists) (hmem : block ∈ blocks)
    (hallocated : block.allocated = true) (hconsistent : Consistent s block)
    (hkeep : ¬ keep block) (hsize : size ≠ 0) (hwidth : size + 16 < 2 ^ 64)
    (hsafe : block.units * 16 < size + 16 → MallocSafe P size s) :
    ∃ s' new, ReallocReturns P size (block.addr + 8) s s' new ∧
      ((new = 0 ∧ ∃ blocks' lists',
          Layout P checked s.mem (fun b => keep b ∨ b = block) s' blocks' lists') ∨
        ∃ addr, new = addr + 8 ∧ Provides P checked orig keep size addr s') := by
  by_cases hgrow : block.units * 16 < size + 16
  · rcases moved_returns h hmem hallocated hconsistent hkeep (hsafe hgrow) hsize hgrow hwidth with
      ⟨s', new, hreturns, hcase⟩
    refine ⟨s', new, hreturns, ?_⟩
    rcases hcase with ⟨hnull, -, hlayout⟩ | ⟨addr, heq, hholds, -⟩
    · exact Or.inl ⟨hnull, hlayout⟩
    · exact Or.inr ⟨addr, heq, hholds.provides⟩
  · have hwrap : (size + 16) % 2 ^ 64 = size + 16 := Nat.mod_eq_of_lt hwidth
    have heq (fuel : Nat) := sfRealloc_eq h hmem hallocated hconsistent hsize fuel
    simp only [hwrap, if_neg hgrow] at heq
    have hfresh {units : Nat} {t : Heap} {blocks' : List Block} {lists' : Fin 4 → List Nat}
        (h' : Layout P checked orig keep t blocks' lists')
        (hnew : ⟨block.addr, units, true⟩ ∈ blocks') : ∀ b, keep b → b.addr ≠ block.addr := by
      intro b hb haddr
      have hold := (h.keepMem b hb).1
      rw [List.append_nil] at hold
      exact hkeep (h.eq_of_addr hold hmem haddr ▸ hb)
    by_cases hshrink : size + 16 < block.units * 16
    · simp only [if_pos hshrink] at heq
      rcases List.append_of_mem hmem with ⟨front, back, rfl⟩
      rcases shrink_returns h hallocated hkeep hsize hshrink with
        ⟨s', blocks', lists', units, hreturns, hlayout, hmem', hrecords, -⟩
      refine ⟨s', _, ?_, Or.inr ⟨block.addr, rfl,
        ⟨⟨blocks', lists', hlayout, units, hmem', hrecords.room⟩, hfresh hlayout hmem'⟩⟩⟩
      let answer (_ : Nat) (s : Heap) : Except Stop (Heap × Nat) := .ok (s, block.addr + 8)
      have hlast : Returns (fun fuel => answer fuel s') (s', block.addr + 8) :=
        Returns.of_eq fun _ => rfl
      exact (hreturns.bind hlast).congr heq
    · simp only [if_neg hshrink] at heq
      have hblock : (⟨block.addr, block.units, true⟩ : Block) ∈ blocks := by
        rw [← hallocated]
        exact hmem
      exact ⟨s, _, Returns.of_eq heq, Or.inr ⟨block.addr, rfl,
        ⟨⟨blocks, lists, h, block.units, hblock, by omega⟩, hfresh h hblock⟩⟩⟩

namespace Holding

/-- {lit}`sf_malloc`. -/
theorem malloc (h : Holding P s live blocks lists) (hsafe : MallocSafe P size s) :
    ∃ s' ptr, MallocReturns P size s s' ptr ∧
      (∃ blocks' lists', Holding P s' (afterMalloc size ptr live) blocks' lists') ∧
      SamePayloads live s s' := by
  rcases sfMalloc_returns h.keeping hsafe with ⟨s', ptr, hreturns, hanswer⟩
  refine ⟨s', ptr, hreturns, ?_⟩
  rcases hanswer with ⟨rfl, blocks', lists', hlayout⟩ | ⟨addr, room, rfl, hplaced⟩
  · rcases h.of_kept hlayout with ⟨hholding, hsame⟩
    rw [afterMalloc, if_pos rfl]
    exact ⟨⟨blocks', lists', hholding⟩, hsame⟩
  · rw [afterMalloc, if_neg (Nat.succ_ne_zero _)]
    exact h.provided hplaced.provides

/-- {lit}`sf_free`. -/
theorem free (h : Holding P s live blocks lists) (ha : a ∈ live) :
    ∃ s', Returns (fun fuel => sfFree P fuel a.ptr s) s' ∧
      (∃ blocks' lists', Holding P s' (live.erase a) blocks' lists') ∧
      SamePayloads (live.erase a) s s' := by
  rcases h.owned a ha with ⟨block, howns⟩
  rcases List.append_of_mem howns.mem with ⟨front, back, rfl⟩
  have hconsistent : Consistent s block :=
    (h.layout.tagged block (List.mem_append_left _ howns.mem)).consistent trivial howns.allocated
  rcases sfFree_returns (h.erase a).keeping howns.allocated hconsistent
      (h.not_owned_erase ha howns) with ⟨s', hreturns, hlayout, -⟩
  rw [← howns.ptr_eq] at hreturns
  rcases (h.erase a).of_kept hlayout with ⟨hholding, hsame⟩
  exact ⟨s', hreturns, ⟨_, _, hholding⟩, hsame⟩

/-- {lit}`sf_realloc` with a size that is not zero and does not wrap around. -/
theorem realloc (h : Holding P s live blocks lists) (ha : a ∈ live) (hsize : size ≠ 0)
    (hwidth : size + 16 < 2 ^ 64)
    (hsafe : (s.tag (a.ptr - 8)).blockSize * 16 < size + 16 → MallocSafe P size s) :
    ∃ s' new, ReallocReturns P size a.ptr s s' new ∧
      (∃ blocks' lists', Holding P s' (afterRealloc a size new live) blocks' lists') ∧
      SamePayloads (live.erase a) s s' := by
  rcases h.owned a ha with ⟨block, howns⟩
  have htagged := h.layout.tagged block (List.mem_append_left _ howns.mem)
  have hheader : a.ptr - 8 = block.addr := by
    rw [howns.ptr_eq, Nat.add_sub_cancel]
  rw [hheader, htagged.headerSize] at hsafe
  rcases sfRealloc_returns (h.erase a).keeping howns.mem howns.allocated
      (htagged.consistent trivial howns.allocated) (h.not_owned_erase ha howns) hsize hwidth
      hsafe with ⟨s', new, hreturns, hcase⟩
  rw [← howns.ptr_eq] at hreturns
  refine ⟨s', new, hreturns, ?_⟩
  rw [afterRealloc, if_neg hsize]
  rcases hcase with ⟨rfl, blocks', lists', hlayout⟩ | ⟨addr, rfl, hprovides⟩
  · rw [if_pos rfl]
    have hall : Layout P True s.mem (Owned blocks live) s' blocks' lists' :=
      hlayout.restore (fun b hb => h.owned_cases howns hb) fun _ _ _ _ _ => rfl
    rcases h.of_kept hall with ⟨hholding, hsame⟩
    refine ⟨⟨blocks', lists', hholding⟩, ?_⟩
    intro a' ha'
    exact hsame a' (List.mem_of_mem_erase ha')
  · rw [if_neg (Nat.succ_ne_zero _)]
    exact (h.erase a).provided hprovides

/-- {lit}`sf_realloc` with size zero is {lit}`sf_free`. -/
theorem realloc_zero (h : Holding P s live blocks lists) (ha : a ∈ live) :
    ∃ s', ReallocReturns P 0 a.ptr s s' 0 ∧
      (∃ blocks' lists', Holding P s' (live.erase a) blocks' lists') ∧
      SamePayloads (live.erase a) s s' := by
  rcases h.free ha with ⟨s', hreturns, hrest⟩
  refine ⟨s', ?_, hrest⟩
  let answer (_ : Nat) (s : Heap) : Except Stop (Heap × Nat) := .ok (s, 0)
  have hlast : Returns (fun fuel => answer fuel s') (s', 0) := Returns.of_eq fun _ => rfl
  exact (hreturns.bind hlast).congr fun _ => rfl

/-- Writing to a payload. -/
theorem write (h : Holding P s live blocks lists) (ha : a ∈ live) {offset : Nat}
    (hoffset : offset < a.requested) (byte : UInt8) :
    Holding P (s.setByte (a.ptr + offset) byte) live blocks lists where
  layout := by
    rcases h.owned a ha with ⟨block, howns⟩
    have hptr := howns.ptr_eq
    have hroom := howns.room
    rcases List.append_of_mem howns.mem with ⟨front, back, rfl⟩
    refine (h.layout.writePayload howns.allocated id ?_ ?_ ?_).rebase _ fun _ hfalse => hfalse.elim
    · rfl
    · rfl
    · intro w hw
      apply if_neg
      unfold Block.stop at hw
      omega
  owned := h.owned
  nodup := h.nodup

end Holding

/-! ## The steps -/

/-- The payloads of the live pointers that a call is not given. -/
def Undisturbed (s : Session) (call : Call) (t : Session) : Prop :=
  ∀ a ∈ s.live, call.given ≠ some a.ptr →
    ∀ j < a.requested, t.heap.mem (a.ptr + j) = s.heap.mem (a.ptr + j)

theorem SamePayloads.undisturbed {s t : Session} {call : Call} {a : Allocation}
    (h : SamePayloads (s.live.erase a) s.heap t.heap) (hgiven : call.given = some a.ptr) :
    Undisturbed s call t := by
  intro a' ha' hne
  rw [hgiven] at hne
  exact h a' (mem_of_erase ha' fun hptr => hne (congrArg some hptr.symm))

/-- A safe call keeps the heap sound and the other payloads as they are. -/
theorem Sound.call {s t : Session} {call : Call} (h : Sound P s) (hsafe : CallSafe P s call)
    (hserves : Serves P s call t) : Sound P t ∧ Undisturbed s call t := by
  rcases h with ⟨blocks, lists, h⟩
  cases hserves with
  | malloc _ hreturns =>
      rcases h.malloc hsafe with ⟨s', ptr, hreturns', hholding, hsame⟩
      rcases hreturns.unique hreturns' with ⟨rfl, rfl⟩
      exact ⟨hholding, fun a ha _ => hsame a ha⟩
  | @realloc heap a size new ha hlt hreturns =>
      by_cases hsize : size = 0
      · subst hsize
        rcases h.realloc_zero ha with ⟨s', hreturns', hholding, hsame⟩
        rcases Prod.mk.inj (hreturns.unique hreturns') with ⟨rfl, rfl⟩
        rw [afterRealloc, if_pos rfl]
        exact ⟨hholding, SamePayloads.undisturbed hsame rfl⟩
      · rcases h.realloc ha hsize hsafe.1 hsafe.2 with ⟨s', new', hreturns', hholding, hsame⟩
        rcases Prod.mk.inj (hreturns.unique hreturns') with ⟨rfl, rfl⟩
        exact ⟨hholding, SamePayloads.undisturbed hsame rfl⟩
  | free ha hreturns =>
      rcases h.free ha with ⟨s', hreturns', hholding, hsame⟩
      rw [hreturns.unique hreturns']
      exact ⟨hholding, SamePayloads.undisturbed hsame rfl⟩

/-- A write keeps the heap sound. -/
theorem Sound.step {s t : Session} {event : Event} (h : Sound P s) (hsafe : EventSafe P s event)
    (hstep : Step P s event t) : Sound P t := by
  cases hstep with
  | call hserves => exact (h.call hsafe hserves).1
  | write byte ha hoffset =>
      rcases h with ⟨blocks, lists, h⟩
      exact ⟨blocks, lists, h.write ha hoffset byte⟩

/-- The empty heap is sound. -/
theorem Empty.sound {s : Session} (h : Empty P s) : Sound P s := by
  refine ⟨[], fun _ => [], ⟨?_, ?_, ?_⟩⟩
  · refine
      { frontTiles := h.heapEnd_eq.symm
        backTiles := rfl
        gap_le := le_rfl
        gap_mod := rfl
        pages := ⟨0, Nat.zero_le _, h.heapEnd_eq⟩
        tagged := by simp
        pendingGap := by simp
        linked := ?_
        listed := by simp
        keepMem := fun _ hfalse => hfalse.elim
        kept := fun _ hfalse => hfalse.elim }
    intro i
    rw [h.head_eq]
    exact isList_nil
  · rw [h.live_eq]
    simp
  · rw [h.live_eq]
    exact List.nodup_nil

/-- Every state that safe calls can reach is sound. -/
theorem reachable_sound {s : Session} (h : (safeAllocator P).Reachable s) : Sound P s := by
  apply h.invariant
  constructor
  · intro s hempty
    exact hempty.sound
  · intro s event t hsound hstep
    exact hsound.step hstep.1 hstep.2

end SystemFundamentals.Sfmm
