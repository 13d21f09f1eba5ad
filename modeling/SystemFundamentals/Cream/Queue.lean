import SystemFundamentals.Library.Chain
import SystemFundamentals.Library.Transition
import Mathlib.Data.Finset.Card
import Mathlib.Logic.Function.Basic

/-!
# The request queue

The queue of {lit}`hw5/src/queue.c`: a chain of nodes from {lit}`rear` on that ends at a
dummy node, {lit}`front`, and a semaphore that counts the items.  A thread that dequeues
waits for the semaphore first and takes the lock then, and other threads can come in
between.  {lit}`enqueue` and the locked section of {lit}`dequeue` are single steps.

An address is a number, and NULL is zero.

Main results:

- Theorem {lit}`queueSystem_safe`: the semaphore and the threads that have passed it count
  the linked nodes, and the items leave in the order in which they came.
-/

namespace SystemFundamentals.Cream

open Library

/-! ## The queue -/

/-- {lit}`queue_node_t`. -/
structure QueueNode where
  item : Nat
  next : Nat
deriving DecidableEq

/-- {lit}`queue_t`, with the nodes that are allocated. -/
structure Queue where
  nodes : Nat → Option QueueNode
  front : Nat
  rear : Nat
  items : Nat
  invalid : Bool

/-- {lit}`create_queue`; {lit}`first` is what {lit}`calloc` returns for the first node. -/
def createQueue (first : Nat) : Queue where
  nodes := Function.update (fun _ => none) first (some ⟨0, 0⟩)
  front := first
  rear := first
  items := 0
  invalid := false

/-- The nodes after {lit}`enqueue` has filled the dummy and linked it to a fresh one. -/
def fillDummy (nodes : Nat → Option QueueNode) (front item fresh : Nat) :
    Nat → Option QueueNode :=
  let nodes := Function.update nodes front (some ⟨item, fresh⟩)
  if fresh = 0 then nodes else Function.update nodes fresh (some ⟨0, 0⟩)

/-- {lit}`enqueue`; {lit}`fresh` is what {lit}`calloc` returns, null if it fails.  There is
no answer when {lit}`front` is null. -/
def enqueue (self : Queue) (item fresh : Nat) : Option (Queue × Bool) :=
  if item = 0 then some (self, false)
  else if self.invalid then some (self, false)
  else
    match self.nodes self.front with
    | none => none
    | some _ =>
        some ({ self with
          nodes := fillDummy self.nodes self.front item fresh
          front := fresh
          items := self.items + 1 }, true)

/-- {lit}`Sem_wait(&self->items)`, which waits as long as there is no answer. -/
def semWait (self : Queue) : Option Queue :=
  if 0 < self.items then some { self with items := self.items - 1 } else none

/-- The locked section of {lit}`dequeue`.  There is no answer when {lit}`rear` is not a
node. -/
def dequeueLocked (self : Queue) : Option (Queue × Nat) :=
  if self.invalid then some (self, 0)
  else
    match self.nodes self.rear with
    | none => none
    | some node =>
        some ({ self with nodes := Function.update self.nodes self.rear none, rear := node.next },
          node.item)

/-! ## The threads -/

/-- The queue, the threads that are between {lit}`Sem_wait` and the locked section, and the
items that have been taken in and given out. -/
structure QueueRun (Thread : Type) where
  queue : Queue
  passed : Finset Thread
  enqueued : List Nat
  dequeued : List Nat

/-- What a thread does in one step. -/
inductive QueueStep
  | enqueue (item fresh : Nat)
  | semWait
  | dequeue
deriving DecidableEq

variable {Thread : Type}

/-- The steps of a thread.  A thread that has passed the semaphore is in {lit}`dequeue`, and
{lit}`calloc` returns memory that is not in use. -/
inductive QueueMoves [DecidableEq Thread] :
    QueueRun Thread → Thread × QueueStep → QueueRun Thread → Prop
  | enqueue {s : QueueRun Thread} {thread : Thread} {item fresh : Nat} {queue : Queue}
      {accepted : Bool} : thread ∉ s.passed → s.queue.nodes fresh = none →
      enqueue s.queue item fresh = some (queue, accepted) →
      QueueMoves s (thread, .enqueue item fresh)
        { s with
          queue
          enqueued := if accepted then s.enqueued ++ [item] else s.enqueued }
  | semWait {s : QueueRun Thread} {thread : Thread} {queue : Queue} : thread ∉ s.passed →
      semWait s.queue = some queue →
      QueueMoves s (thread, .semWait) { s with queue, passed := insert thread s.passed }
  | dequeue {s : QueueRun Thread} {thread : Thread} {queue : Queue} {item : Nat} :
      thread ∈ s.passed → dequeueLocked s.queue = some (queue, item) →
      QueueMoves s (thread, .dequeue)
        { s with
          queue
          passed := s.passed.erase thread
          dequeued := s.dequeued ++ [item] }

/-- Threads that share a queue. -/
def queueSystem (Thread : Type) [DecidableEq Thread] :
    System (QueueRun Thread) (Thread × QueueStep) where
  initial s := ∃ first ≠ 0, s = ⟨createQueue first, ∅, [], []⟩
  step := QueueMoves

/-! ## The invariant -/

/-- The nodes from {lit}`rear` up to the dummy are linked and hold the items that are in
the queue.  There are as many as the semaphore and the threads that have passed it count. -/
structure Linked (s : QueueRun Thread) (cells : List (Nat × QueueNode)) : Prop where
  valid : s.queue.invalid = false
  null : s.queue.nodes 0 = none
  chain : Chain s.queue.nodes QueueNode.next s.queue.rear cells s.queue.front
  distinct : (cells.map Prod.fst).Nodup
  dummy : s.queue.front ∉ cells.map Prod.fst
  count : s.queue.items + s.passed.card = cells.length
  contents : s.enqueued = s.dequeued ++ cells.map fun cell => cell.2.item

variable {s t : QueueRun Thread} {cells : List (Nat × QueueNode)} {thread : Thread}

theorem fillDummy_of_ne {nodes : Nat → Option QueueNode} {front item fresh address : Nat}
    (hfront : address ≠ front) (hfresh : address ≠ fresh) :
    fillDummy nodes front item fresh address = nodes address := by
  unfold fillDummy
  split_ifs
  · exact Function.update_of_ne hfront ..
  · exact (Function.update_of_ne hfresh ..).trans (Function.update_of_ne hfront ..)

theorem fillDummy_front {nodes : Nat → Option QueueNode} {front item fresh : Nat}
    (hne : front ≠ fresh) : fillDummy nodes front item fresh front = some ⟨item, fresh⟩ := by
  unfold fillDummy
  split_ifs
  · exact Function.update_self ..
  · exact (Function.update_of_ne hne ..).trans (Function.update_self ..)

/-- The null pointer stays without a node. -/
theorem fillDummy_null {nodes : Nat → Option QueueNode} {front item fresh : Nat}
    (hnull : nodes 0 = none) (hfront : 0 ≠ front) :
    fillDummy nodes front item fresh 0 = none := by
  unfold fillDummy
  split_ifs with hfresh
  · exact (Function.update_of_ne hfront ..).trans hnull
  · rw [Function.update_of_ne (Ne.symm hfresh), Function.update_of_ne hfront]
    exact hnull

/-- The filled dummy is the last node of the chain. -/
theorem Linked.fill (h : Linked s cells) {item fresh : Nat} {dummy : QueueNode}
    (hdummy : s.queue.nodes s.queue.front = some dummy)
    (hfresh : s.queue.nodes fresh = none) :
    Linked { s with
      queue := { s.queue with
        nodes := fillDummy s.queue.nodes s.queue.front item fresh
        front := fresh
        items := s.queue.items + 1 }
      enqueued := s.enqueued ++ [item] } (cells ++ [(s.queue.front, ⟨item, fresh⟩)]) := by
  have hne : s.queue.front ≠ fresh := by
    rintro rfl
    rw [hdummy] at hfresh
    cases hfresh
  have hfront : 0 ≠ s.queue.front := by
    intro hzero
    rw [← hzero, h.null] at hdummy
    cases hdummy
  have hnotMem := h.chain.notMem_of_none hfresh
  refine
    { valid := h.valid
      null := fillDummy_null h.null hfront
      chain := ?_
      distinct := ?_
      dummy := ?_
      count := ?_
      contents := ?_ }
  · refine chain_append.mpr ⟨s.queue.front, ?_, rfl, fillDummy_front hne, rfl⟩
    apply h.chain.congr
    intro cell hcell
    have hmem : cell.1 ∈ cells.map Prod.fst := List.mem_map_of_mem hcell
    exact fillDummy_of_ne (ne_of_mem_of_not_mem hmem h.dummy)
      (ne_of_mem_of_not_mem hmem hnotMem)
  · rw [List.map_append, List.nodup_append]
    refine ⟨h.distinct, List.nodup_singleton _, ?_⟩
    intro a ha b hb
    rw [List.mem_singleton.mp hb]
    exact ne_of_mem_of_not_mem ha h.dummy
  · rw [List.map_append, List.mem_append]
    rintro (hmem | hmem)
    · exact hnotMem hmem
    · exact hne (List.mem_singleton.mp hmem).symm
  · have hcount := h.count
    rw [List.length_append, List.length_singleton, ← hcount]
    exact Nat.add_right_comm ..
  · rw [List.map_append, ← List.append_assoc, ← h.contents]
    rfl

theorem Linked.enqueue (h : Linked s cells) {item fresh : Nat} {queue : Queue} {accepted : Bool}
    (hfresh : s.queue.nodes fresh = none)
    (hcall : enqueue s.queue item fresh = some (queue, accepted)) :
    ∃ cells', Linked { s with
      queue
      enqueued := if accepted then s.enqueued ++ [item] else s.enqueued } cells' := by
  by_cases hitem : item = 0
  · rw [Cream.enqueue, if_pos hitem] at hcall
    cases hcall
    exact ⟨cells, h⟩
  · rw [Cream.enqueue, if_neg hitem, if_neg (by simp [h.valid])] at hcall
    cases hdummy : s.queue.nodes s.queue.front with
    | none =>
        rw [hdummy] at hcall
        cases hcall
    | some dummy =>
        rw [hdummy] at hcall
        cases hcall
        exact ⟨_, h.fill hdummy hfresh⟩

/-- A thread that has passed the semaphore finds a node that is not the dummy. -/
theorem Linked.exists_cons (h : Linked s cells) (hthread : thread ∈ s.passed) :
    ∃ node rest, cells = (s.queue.rear, node) :: rest ∧
      s.queue.nodes s.queue.rear = some node := by
  have hpos := Finset.card_pos.mpr ⟨thread, hthread⟩
  have hcount := h.count
  cases cells with
  | nil =>
      rw [List.length_nil] at hcount
      omega
  | cons cell rest =>
      rcases cell with ⟨address, node⟩
      rcases h.chain with ⟨rfl, hnode, -⟩
      exact ⟨node, rest, rfl, hnode⟩

theorem Linked.dequeueLocked_eq (h : Linked s cells) (hthread : thread ∈ s.passed) :
    ∃ node rest, cells = (s.queue.rear, node) :: rest ∧
      dequeueLocked s.queue =
        some ({ s.queue with
          nodes := Function.update s.queue.nodes s.queue.rear none, rear := node.next },
            node.item) := by
  rcases h.exists_cons hthread with ⟨node, rest, hcells, hnode⟩
  refine ⟨node, rest, hcells, ?_⟩
  rw [dequeueLocked, if_neg (by simp [h.valid]), hnode]

theorem linked_createQueue {first : Nat} (hfirst : first ≠ 0) :
    Linked (⟨createQueue first, ∅, [], []⟩ : QueueRun Thread) [] where
  valid := rfl
  null := by
    show (Function.update (fun _ => none) first (some ⟨0, 0⟩) : Nat → Option QueueNode) 0 = none
    exact Function.update_of_ne hfirst.symm ..
  chain := rfl
  distinct := List.nodup_nil
  dummy := List.not_mem_nil
  count := rfl
  contents := rfl

variable [DecidableEq Thread]

theorem Linked.semWait (h : Linked s cells) {queue : Queue} (hthread : thread ∉ s.passed)
    (hcall : semWait s.queue = some queue) :
    Linked { s with queue, passed := insert thread s.passed } cells := by
  unfold Cream.semWait at hcall
  split_ifs at hcall with hpos
  cases hcall
  have hcount := h.count
  refine { h with count := ?_ }
  show s.queue.items - 1 + (insert thread s.passed).card = _
  rw [Finset.card_insert_of_notMem hthread]
  omega

theorem Linked.dequeue (h : Linked s cells) {queue : Queue} {item : Nat}
    (hthread : thread ∈ s.passed) (hcall : dequeueLocked s.queue = some (queue, item)) :
    ∃ cells', Linked { s with
      queue
      passed := s.passed.erase thread
      dequeued := s.dequeued ++ [item] } cells' := by
  rcases h.dequeueLocked_eq hthread with ⟨node, rest, rfl, hanswer⟩
  rw [hcall] at hanswer
  cases hanswer
  rcases h.chain with ⟨-, -, hrest⟩
  rcases List.nodup_cons.mp h.distinct with ⟨hrear, hdistinct⟩
  refine ⟨rest, ?_⟩
  refine
    { valid := h.valid
      null := ?_
      chain := ?_
      distinct := hdistinct
      dummy := fun hmem => h.dummy (List.mem_cons_of_mem _ hmem)
      count := ?_
      contents := ?_ }
  · show Function.update s.queue.nodes s.queue.rear none 0 = none
    by_cases hzero : s.queue.rear = 0
    · rw [hzero]
      exact Function.update_self ..
    · exact (Function.update_of_ne (Ne.symm hzero) ..).trans h.null
  · apply hrest.congr
    intro cell hcell
    exact Function.update_of_ne (ne_of_mem_of_not_mem (List.mem_map_of_mem hcell) hrear) ..
  · have hcount := h.count
    have hpos := Finset.card_pos.mpr ⟨thread, hthread⟩
    rw [List.length_cons] at hcount
    show s.queue.items + (s.passed.erase thread).card = rest.length
    rw [Finset.card_erase_of_mem hthread]
    omega
  · have hcontents := h.contents
    rw [List.map_cons] at hcontents
    show s.enqueued = s.dequeued ++ [node.item] ++ _
    rw [hcontents, List.append_assoc, List.singleton_append]

/-- Every step keeps the queue linked. -/
theorem linked_invariant : (queueSystem Thread).Invariant fun s => ∃ cells, Linked s cells where
  initial := by
    rintro s ⟨first, hfirst, rfl⟩
    exact ⟨[], linked_createQueue hfirst⟩
  step := by
    rintro s ⟨thread, step⟩ t ⟨cells, h⟩ hstep
    cases hstep with
    | enqueue _ hfresh hcall => exact h.enqueue hfresh hcall
    | semWait hthread hcall => exact ⟨cells, h.semWait hthread hcall⟩
    | dequeue hthread hcall => exact h.dequeue hthread hcall

/-! ## Safety -/

/-- In every reachable state the semaphore and the threads that have passed it count the
linked nodes from {lit}`rear` up to the dummy, which hold the items that have not been given
out.  So a thread that has passed the semaphore takes a node that is not the dummy, and the
items given out are the first of those taken in. -/
theorem queueSystem_safe (h : (queueSystem Thread).Reachable s) :
    (∃ cells, Chain s.queue.nodes QueueNode.next s.queue.rear cells s.queue.front ∧
        s.queue.front ∉ cells.map Prod.fst ∧
        s.queue.items + s.passed.card = cells.length ∧
        s.enqueued = s.dequeued ++ cells.map fun cell => cell.2.item) ∧
      (∀ thread ∈ s.passed, s.queue.rear ≠ s.queue.front ∧ (dequeueLocked s.queue).isSome) ∧
      s.dequeued <+: s.enqueued := by
  rcases h.invariant linked_invariant with ⟨cells, hlinked⟩
  refine ⟨⟨cells, hlinked.chain, hlinked.dummy, hlinked.count, hlinked.contents⟩, ?_, ?_⟩
  · intro thread hthread
    rcases hlinked.dequeueLocked_eq hthread with ⟨node, rest, hcells, hanswer⟩
    refine ⟨?_, by rw [hanswer]; rfl⟩
    intro heq
    apply hlinked.dummy
    rw [hcells, ← heq]
    exact List.mem_cons_self
  · rw [hlinked.contents]
    exact List.prefix_append ..

/-- One thread has put an item in and another has passed the semaphore. -/
def oneItem : QueueRun (Fin 2) :=
  ⟨⟨fillDummy (createQueue 1).nodes 1 7 2, 2, 1, 0, false⟩, {Fin.last 1}, [7], []⟩

/-- There the second thread takes the item. -/
theorem oneItem_safe : (queueSystem (Fin 2)).Reachable oneItem ∧
    (dequeueLocked oneItem.queue).map Prod.snd = some 7 ∧
      oneItem.dequeued <+: oneItem.enqueued := by
  have hempty : (queueSystem (Fin 2)).Reachable ⟨createQueue 1, ∅, [], []⟩ :=
    .initial ⟨1, one_ne_zero, rfl⟩
  have hfull := hempty.step (.enqueue (Finset.notMem_empty 0) (show _ = none from rfl)
    (show enqueue (createQueue 1) 7 2 = some (_, true) from rfl))
  have hpassed := hfull.step (.semWait (Finset.notMem_empty (Fin.last 1)) rfl)
  exact ⟨hpassed, rfl, (queueSystem_safe hpassed).2.2⟩

end SystemFundamentals.Cream
