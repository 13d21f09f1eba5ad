import SystemFundamentals.Cream.Queue
import SystemFundamentals.Library.Fuel

/-!
# Invalidating the request queue

{lit}`invalidate_queue` destroys the items that are left and frees the nodes, while other
threads may be between {lit}`Sem_wait` and the lock.  The chain of nodes ends at the dummy,
which the loop passes to the destructor too.

Main results:

- Theorem {lit}`Linked.invalidateQueue_returns`: what {lit}`invalidate_queue` destroys.
- Theorem {lit}`invalidation_accounts_iff`: in every reachable state the items are accounted
  for, each once, if and only if the queue has not been invalidated or had no dummy node
  then.
-/

namespace SystemFundamentals.Cream

open Library

/-! ## The loop -/

/-- Ways the loop over the nodes does not return: a node that is not allocated, or more turns
than it may take. -/
inductive QueueFault
  | freed
  | turns

/-- The loop of {lit}`invalidate_queue` from {lit}`curr_node` on, with the items it passes to
the destructor. -/
def destroyNodes : Nat → (Nat → Option QueueNode) → Nat →
    Except QueueFault ((Nat → Option QueueNode) × List Nat)
  | 0, nodes, currNode => if currNode = 0 then .ok (nodes, []) else .error .turns
  | fuel + 1, nodes, currNode =>
      if currNode = 0 then .ok (nodes, [])
      else
        match nodes currNode with
        | none => .error .freed
        | some node =>
            destroyNodes fuel (Function.update nodes currNode none) node.next >>= fun rest =>
              .ok (rest.1, node.item :: rest.2)

/-- {lit}`invalidate_queue`, with the destructor calls and the returned value. -/
def invalidateQueue (fuel : Nat) (self : Queue) :
    Except QueueFault (Queue × List Nat × Bool) :=
  if self.invalid then .ok (self, [], false)
  else
    destroyNodes fuel self.nodes self.rear >>= fun rest =>
      .ok ({ self with nodes := rest.1, invalid := true }, rest.2, true)

/-- At the null pointer the loop ends. -/
theorem destroyNodes_null (nodes : Nat → Option QueueNode) :
    Returns (fun fuel => destroyNodes fuel nodes 0) (nodes, []) := by
  refine .of_eq fun fuel => ?_
  cases fuel <;> rfl

/-- One turn of the loop. -/
theorem destroyNodes_node {nodes after : Nat → Option QueueNode} {address : Nat}
    {node : QueueNode} {items : List Nat} (hne : address ≠ 0)
    (hnode : nodes address = some node)
    (hrest : Returns (fun fuel => destroyNodes fuel (Function.update nodes address none) node.next)
      (after, items)) :
    Returns (fun fuel => destroyNodes fuel nodes address) (after, node.item :: items) := by
  have hturn : Returns
      (fun fuel => destroyNodes fuel (Function.update nodes address none) node.next >>=
        fun rest => .ok (rest.1, node.item :: rest.2)) (after, node.item :: items) :=
    hrest.bind (.of_eq fun _ => rfl)
  refine (hturn.congr fun fuel => ?_).succ
  simp only [destroyNodes, if_neg hne, hnode]

/-- The loop passes the cells of a chain in order, and goes on where the chain ends. -/
theorem destroyNodes_chain {nodes : Nat → Option QueueNode} {first last : Nat}
    {cells : List (Nat × QueueNode)} {tail : List Nat}
    (hchain : Chain nodes QueueNode.next first cells last)
    (hdistinct : (cells.map Prod.fst).Nodup) (hlast : last ∉ cells.map Prod.fst)
    (hnull : nodes 0 = none)
    (hend : ∀ nodes', nodes' last = nodes last → nodes' 0 = none →
      ∃ after, Returns (fun fuel => destroyNodes fuel nodes' last) (after, tail)) :
    ∃ after, Returns (fun fuel => destroyNodes fuel nodes first)
      (after, cells.map (fun cell => cell.2.item) ++ tail) := by
  induction cells generalizing nodes first with
  | nil =>
      have hfirst : first = last := hchain
      rw [hfirst]
      exact hend nodes rfl hnull
  | cons cell cells ih =>
      rcases cell with ⟨address, node⟩
      rcases hchain with ⟨rfl, hnode, hrest⟩
      rcases List.nodup_cons.mp hdistinct with ⟨haddress, hdistinct⟩
      have hlast' : last ≠ address := fun heq => hlast (heq ▸ List.mem_cons_self)
      have hne : address ≠ 0 := by
        rintro rfl
        rw [hnull] at hnode
        cases hnode
      have hrest' : Chain (Function.update nodes address none) QueueNode.next node.next cells
          last :=
        hrest.congr fun cell hcell =>
          Function.update_of_ne (ne_of_mem_of_not_mem (List.mem_map_of_mem hcell) haddress) ..
      have hnull' : Function.update nodes address none 0 = none :=
        (Function.update_of_ne hne.symm ..).trans hnull
      rcases ih hrest' hdistinct (fun hmem => hlast (List.mem_cons_of_mem _ hmem)) hnull'
        (fun nodes' heq hzero =>
          hend nodes' (heq.trans (Function.update_of_ne hlast' ..)) hzero) with ⟨after, hafter⟩
      exact ⟨after, destroyNodes_node hne hnode hafter⟩

/-! ## The threads -/

/-- A run of the queue with the arguments of the destructor calls. -/
structure InvalidationRun (Thread : Type) where
  run : QueueRun Thread
  destroyed : List Nat

/-- A step of a thread on the queue, or {lit}`invalidate_queue`. -/
inductive InvalidationStep
  | queue (step : QueueStep)
  | invalidate
deriving DecidableEq

variable {Thread : Type} [DecidableEq Thread]

/-- The locked section of {lit}`invalidate_queue` is a single step. -/
inductive InvalidationMoves :
    InvalidationRun Thread → Thread × InvalidationStep → InvalidationRun Thread → Prop
  | queue {s : InvalidationRun Thread} {thread : Thread} {step : QueueStep}
      {run : QueueRun Thread} : QueueMoves s.run (thread, step) run →
      InvalidationMoves s (thread, .queue step) { s with run }
  | invalidate {s : InvalidationRun Thread} {thread : Thread} {queue : Queue}
      {destroyed : List Nat} {answer : Bool} : thread ∉ s.run.passed →
      Returns (fun fuel => invalidateQueue fuel s.run.queue) (queue, destroyed, answer) →
      InvalidationMoves s (thread, .invalidate)
        { run := { s.run with queue }, destroyed := s.destroyed ++ destroyed }

/-- Threads that share a queue and may invalidate it. -/
def invalidationSystem (Thread : Type) [DecidableEq Thread] :
    System (InvalidationRun Thread) (Thread × InvalidationStep) where
  initial s := (queueSystem Thread).initial s.run ∧ s.destroyed = []
  step := InvalidationMoves

/-- Every item is accounted for once: before the invalidation none has been destroyed.  After
it those that had not been given out have been, in order, and nothing else, only null
pointers have been given out since, and the queue answers whatever its nodes are. -/
structure InvalidationAccounts (s : InvalidationRun Thread) : Prop where
  valid : s.run.queue.invalid = false →
    s.destroyed = [] ∧ s.run.dequeued <+: s.run.enqueued
  invalid : s.run.queue.invalid = true →
    ∃ given n, s.run.dequeued = given ++ List.replicate n 0 ∧
      s.run.enqueued = given ++ s.destroyed
  refuses : s.run.queue.invalid = true → ∀ nodes item fresh,
    enqueue { s.run.queue with nodes } item fresh = some ({ s.run.queue with nodes }, false)
  null : s.run.queue.invalid = true → ∀ nodes,
    dequeueLocked { s.run.queue with nodes } = some ({ s.run.queue with nodes }, 0)

/-! ## The invariant -/

variable {s t : InvalidationRun Thread} {thread : Thread} {cells : List (Nat × QueueNode)}

/-- The front of the queue is a node as {lit}`calloc` returns it, if it is a node at all. -/
def DummyLast (queue : Queue) : Prop :=
  queue.front = 0 ∨ queue.nodes queue.front = some ⟨0, 0⟩

/-- What {lit}`invalidate_queue` passes to the destructor after the items. -/
def dummyItem (queue : Queue) : List Nat :=
  if queue.front = 0 then [] else [0]

/-- A queue that has not been invalidated. -/
structure Standing (s : InvalidationRun Thread) (cells : List (Nat × QueueNode)) : Prop where
  linked : Linked s.run cells
  dummy : DummyLast s.run.queue
  items : 0 ∉ s.run.enqueued
  destroyed : s.destroyed = []

/-- A queue that has been invalidated. -/
structure Ended (s : InvalidationRun Thread) : Prop where
  invalid : s.run.queue.invalid = true
  items : 0 ∉ s.run.enqueued
  accounted : ∃ given rest n, s.run.dequeued = given ++ List.replicate n 0 ∧
    s.run.enqueued = given ++ rest ∧ s.destroyed = rest ++ dummyItem s.run.queue

omit [DecidableEq Thread] in
/-- {lit}`invalidate_queue` returns, having destroyed the items that are left and, unless the
front is null, the item of the dummy. -/
theorem Linked.invalidateQueue_returns {r : QueueRun Thread} (h : Linked r cells)
    (hdummy : DummyLast r.queue) :
    ∃ after, Returns (fun fuel => invalidateQueue fuel r.queue)
      ({ r.queue with nodes := after, invalid := true },
        cells.map (fun cell => cell.2.item) ++ dummyItem r.queue, true) := by
  have hloop : ∃ after, Returns (fun fuel => destroyNodes fuel r.queue.nodes r.queue.rear)
      (after, cells.map (fun cell => cell.2.item) ++ dummyItem r.queue) := by
    refine destroyNodes_chain h.chain h.distinct h.dummy h.null fun nodes' hfront _ => ?_
    rcases hdummy with hnull | hnode
    · rw [dummyItem, if_pos hnull, hnull]
      exact ⟨nodes', destroyNodes_null nodes'⟩
    · have hne : r.queue.front ≠ 0 := by
        intro hnull
        rw [hnull, h.null] at hnode
        cases hnode
      rw [dummyItem, if_neg hne]
      exact ⟨_, destroyNodes_node hne (hfront.trans hnode) (destroyNodes_null _)⟩
  rcases hloop with ⟨after, hafter⟩
  refine ⟨after, ?_⟩
  have hcall : Returns
      (fun fuel => destroyNodes fuel r.queue.nodes r.queue.rear >>= fun rest =>
        .ok (({ r.queue with nodes := rest.1, invalid := true } : Queue), rest.2, true)) _ :=
    hafter.bind (.of_eq fun _ => rfl)
  refine hcall.congr fun fuel => ?_
  rw [invalidateQueue, if_neg (by simp [h.valid])]

omit [DecidableEq Thread] in
/-- {lit}`enqueue` leaves a dummy at the end. -/
theorem DummyLast.enqueue {queue queue' : Queue} (h : DummyLast queue) {item fresh : Nat}
    {accepted : Bool} (hcall : enqueue queue item fresh = some (queue', accepted)) :
    DummyLast queue' ∧ (accepted = true → item ≠ 0) := by
  unfold Cream.enqueue at hcall
  split_ifs at hcall with hitem hinvalid
  · cases hcall
    exact ⟨h, nofun⟩
  · cases hcall
    exact ⟨h, nofun⟩
  · cases hnode : queue.nodes queue.front with
    | none =>
        rw [hnode] at hcall
        cases hcall
    | some node =>
        rw [hnode] at hcall
        cases hcall
        refine ⟨?_, fun _ => hitem⟩
        by_cases hfresh : fresh = 0
        · exact Or.inl hfresh
        · right
          show fillDummy queue.nodes queue.front item fresh fresh = _
          rw [fillDummy, if_neg hfresh]
          exact Function.update_self ..

/-- A step on a queue that has not been invalidated. -/
theorem Standing.queue (h : Standing s cells) {step : QueueStep} {run : QueueRun Thread}
    (hstep : QueueMoves s.run (thread, step) run) :
    ∃ cells', Standing { s with run } cells' := by
  cases hstep with
  | @enqueue _ item fresh queue accepted _ hfresh hcall =>
      rcases h.linked.enqueue hfresh hcall with ⟨cells', hlinked⟩
      rcases h.dummy.enqueue hcall with ⟨hdummy, hitem⟩
      refine ⟨cells', hlinked, hdummy, ?_, h.destroyed⟩
      show 0 ∉ if accepted then s.run.enqueued ++ [item] else s.run.enqueued
      split
      · next haccepted =>
          rw [List.mem_append, List.mem_singleton]
          rintro (hmem | hzero)
          · exact h.items hmem
          · exact hitem haccepted hzero.symm
      · exact h.items
  | semWait hthread hcall =>
      refine ⟨cells, h.linked.semWait hthread hcall, ?_, h.items, h.destroyed⟩
      unfold semWait at hcall
      split_ifs at hcall
      cases hcall
      exact h.dummy
  | dequeue hthread hcall =>
      rcases h.linked.dequeue hthread hcall with ⟨cells', hlinked⟩
      rcases h.linked.dequeueLocked_eq hthread with ⟨node, rest, hcells, hanswer⟩
      refine ⟨cells', hlinked, ?_, h.items, h.destroyed⟩
      rw [hcall] at hanswer
      cases hanswer
      refine h.dummy.imp_right fun hnode => ?_
      -- the node that is freed is not the dummy
      have hne : s.run.queue.front ≠ s.run.queue.rear := by
        intro heq
        apply h.linked.dummy
        rw [hcells, heq]
        exact List.mem_cons_self
      exact (Function.update_of_ne hne ..).trans hnode

/-- A step on a queue that has been invalidated. -/
theorem Ended.queue (h : Ended s) {step : QueueStep} {run : QueueRun Thread}
    (hstep : QueueMoves s.run (thread, step) run) : Ended { s with run } := by
  have hinvalid := h.invalid
  cases hstep with
  | enqueue _ _ hcall =>
      unfold Cream.enqueue at hcall
      split_ifs at hcall
      · cases hcall
        exact ⟨h.invalid, h.items, h.accounted⟩
      · cases hcall
        exact ⟨h.invalid, h.items, h.accounted⟩
  | semWait _ hcall =>
      unfold semWait at hcall
      split_ifs at hcall
      cases hcall
      exact ⟨h.invalid, h.items, h.accounted⟩
  | dequeue _ hcall =>
      rw [dequeueLocked, if_pos hinvalid] at hcall
      cases hcall
      rcases h.accounted with ⟨given, rest, n, hdequeued, henqueued, hdestroyed⟩
      refine ⟨h.invalid, h.items, given, rest, n + 1, ?_, henqueued, hdestroyed⟩
      show s.run.dequeued ++ [0] = _
      rw [hdequeued, List.append_assoc, ← List.replicate_succ']

omit [DecidableEq Thread] in
/-- The call that invalidates the queue, and any call after it. -/
theorem Standing.invalidate (h : Standing s cells) {queue : Queue} {destroyed : List Nat}
    {answer : Bool}
    (hcall : Returns (fun fuel => invalidateQueue fuel s.run.queue) (queue, destroyed, answer)) :
    Ended (⟨{ s.run with queue }, s.destroyed ++ destroyed⟩ : InvalidationRun Thread) := by
  rcases h.linked.invalidateQueue_returns h.dummy with ⟨after, hafter⟩
  cases hcall.unique hafter
  refine ⟨rfl, h.items, s.run.dequeued, cells.map fun cell => cell.2.item, 0, ?_,
    h.linked.contents, ?_⟩
  · exact (List.append_nil _).symm
  · rw [h.destroyed]
    rfl

omit [DecidableEq Thread] in
theorem Ended.invalidate (h : Ended s) {queue : Queue} {destroyed : List Nat} {answer : Bool}
    (hcall : Returns (fun fuel => invalidateQueue fuel s.run.queue) (queue, destroyed, answer)) :
    Ended (⟨{ s.run with queue }, s.destroyed ++ destroyed⟩ : InvalidationRun Thread) := by
  have hrefused : Returns (fun fuel => invalidateQueue fuel s.run.queue)
      (s.run.queue, [], false) :=
    .of_eq fun fuel => by rw [invalidateQueue, if_pos h.invalid]
  cases hcall.unique hrefused
  rw [List.append_nil]
  exact h

/-- In every reachable state the queue stands or has ended. -/
theorem invalidation_invariant :
    (invalidationSystem Thread).Invariant fun s => (∃ cells, Standing s cells) ∨ Ended s where
  initial := by
    rintro ⟨run, destroyed⟩ ⟨⟨first, hfirst, hrun⟩, hdestroyed⟩
    have hrun' : run = ⟨createQueue first, ∅, [], []⟩ := hrun
    subst hrun'
    refine Or.inl ⟨[], linked_createQueue hfirst, Or.inr ?_, List.not_mem_nil, hdestroyed⟩
    show (Function.update (fun _ => none) first (some ⟨0, 0⟩) : Nat → Option QueueNode) first = _
    exact Function.update_self ..
  step := by
    rintro s ⟨thread, step⟩ t h hstep
    cases hstep with
    | queue hmove =>
        rcases h with ⟨cells, hstanding⟩ | hended
        · exact Or.inl (hstanding.queue hmove)
        · exact Or.inr (hended.queue hmove)
    | invalidate _ hcall =>
        rcases h with ⟨cells, hstanding⟩ | hended
        · exact Or.inr (hstanding.invalidate hcall)
        · exact Or.inr (hended.invalidate hcall)

/-! ## The accounts -/

/-- In every reachable state the items are accounted for once if and only if the queue has
not been invalidated, or its front was null then: {lit}`invalidate_queue` passes the item of
the dummy to the destructor too. -/
theorem invalidation_accounts_iff (hreach : (invalidationSystem Thread).Reachable s) :
    InvalidationAccounts s ↔ (s.run.queue.invalid = true → s.run.queue.front = 0) := by
  rcases hreach.invariant invalidation_invariant with ⟨cells, h⟩ | h
  · have hvalid : ¬ s.run.queue.invalid = true := by simp [h.linked.valid]
    refine iff_of_true ⟨fun _ => ⟨h.destroyed, ?_⟩, ?_, ?_, ?_⟩
      fun hinvalid => absurd hinvalid hvalid
    · rw [h.linked.contents]
      exact List.prefix_append ..
    · exact fun hinvalid => absurd hinvalid hvalid
    · exact fun hinvalid => absurd hinvalid hvalid
    · exact fun hinvalid => absurd hinvalid hvalid
  · rcases h.accounted with ⟨given, rest, n, hdequeued, henqueued, hdestroyed⟩
    constructor
    · intro haccounts _
      by_contra hfront
      -- the item of the dummy is not one that was taken in
      rcases haccounts.invalid h.invalid with ⟨given', n', -, henqueued'⟩
      apply h.items
      rw [henqueued', hdestroyed, dummyItem, if_neg hfront]
      simp
    · intro hfront
      refine ⟨fun hvalid => ?_, fun _ => ⟨given, n, hdequeued, ?_⟩, ?_, ?_⟩
      · rw [h.invalid] at hvalid
        contradiction
      · rw [hdestroyed, dummyItem, if_pos (hfront h.invalid), List.append_nil]
        exact henqueued
      · intro hinvalid nodes item fresh
        by_cases hitem : item = 0
        · rw [Cream.enqueue, if_pos hitem]
        · rw [Cream.enqueue, if_neg hitem, if_pos hinvalid]
      · intro hinvalid nodes
        rw [dequeueLocked, if_pos hinvalid]

/-- A queue with one item, whose next dummy could not be allocated. -/
def shortQueue : Queue :=
  ⟨Function.update (createQueue 1).nodes 1 (some ⟨7, 0⟩), 0, 1, 1, false⟩

/-- There {lit}`invalidate_queue` destroys the item and nothing else. -/
theorem shortQueue_accounts :
    InvalidationAccounts (⟨⟨{ shortQueue with
      nodes := Function.update shortQueue.nodes 1 none, invalid := true }, ∅, [7], []⟩, [7]⟩ :
        InvalidationRun (Fin 2)) := by
  refine (invalidation_accounts_iff ?_).mpr fun _ => rfl
  have hempty : (invalidationSystem (Fin 2)).Reachable ⟨⟨createQueue 1, ∅, [], []⟩, []⟩ :=
    .initial ⟨⟨1, one_ne_zero, rfl⟩, rfl⟩
  have hfull := hempty.step (.queue (.enqueue (Finset.notMem_empty 0) (show _ = none from rfl)
    (show enqueue (createQueue 1) 7 0 = some (shortQueue, true) from rfl)))
  exact hfull.step (.invalidate (Finset.notMem_empty 0)
    (.succ (.of_eq fun fuel => by cases fuel <;> rfl)))

/-- An empty queue: the only thing that is destroyed is the item of the dummy. -/
theorem not_invalidationAccounts :
    ¬ ∀ (N : Nat) (s : InvalidationRun (Fin N)), (invalidationSystem (Fin N)).Reachable s →
      InvalidationAccounts s := by
  intro hall
  have hempty : (invalidationSystem (Fin 1)).Reachable ⟨⟨createQueue 1, ∅, [], []⟩, []⟩ :=
    .initial ⟨⟨1, one_ne_zero, rfl⟩, rfl⟩
  have hdestroys : Returns (fun fuel => invalidateQueue fuel (createQueue 1))
      ({ createQueue 1 with
        nodes := Function.update (createQueue 1).nodes 1 none, invalid := true }, [0], true) :=
    .succ (.of_eq fun fuel => by cases fuel <;> rfl)
  have hreach := hempty.step (.invalidate (Finset.notMem_empty 0) hdestroys)
  rcases (hall 1 _ hreach).invalid rfl with ⟨given, n, -, henqueued⟩
  have hlength := congrArg List.length henqueued
  simp at hlength

end SystemFundamentals.Cream
