import Mathlib.Logic.Function.Basic
import Mathlib.Logic.Function.Iterate
import Mathlib.Data.List.Nodup
import Mathlib.Data.List.Induction

/-!
# Doubly linked lists

A doubly linked list is a head and two link functions over the addresses of its
nodes, with one address that stands for no node.  This file relates such links
to the list of nodes they spell, and gives the effect of the two operations of an
intrusive list: unlinking a node wherever it stands and inserting one at the
head.

Main results:

- Theorem {lit}`IsList.unlink`: unlinking a node removes it from the list of
  nodes.
- Theorem {lit}`IsList.insert`: inserting a node at the head prepends it.
- Theorem {lit}`IsList.congr`: only the links of the nodes matter.
- Theorem {lit}`IsList.traverse_eq`: traversing a list gives its nodes.
-/

namespace SystemFundamentals.Library.LinkedList

universe u

variable {α : Type u}

/-! ## Segments -/

/-- The links spell {lit}`nodes` from {lit}`first` on; {lit}`before` is the node in
front of the segment, {lit}`after` the address behind it and {lit}`last` its last
node, or {lit}`before` when it is empty. -/
def Segment (next prev : α → α) : α → α → List α → α → α → Prop
  | before, first, [], after, last => first = after ∧ before = last
  | before, first, node :: nodes, after, last =>
      first = node ∧ prev node = before ∧ Segment next prev node (next node) nodes after last

variable {next prev next' prev' : α → α} {before first after last node : α}
  {nodes front back : List α}

/-- Only the links of the nodes of a segment matter. -/
theorem Segment.congr (h : Segment next prev before first nodes after last)
    (hnext : ∀ x ∈ nodes, next' x = next x) (hprev : ∀ x ∈ nodes, prev' x = prev x) :
    Segment next' prev' before first nodes after last := by
  induction nodes generalizing before first with
  | nil => exact h
  | cons x nodes ih =>
      rcases h with ⟨hfirst, hbefore, hrest⟩
      refine ⟨hfirst, ?_, ?_⟩
      · rw [hprev x List.mem_cons_self]
        exact hbefore
      · rw [hnext x List.mem_cons_self]
        apply ih hrest
        · intro y hy
          exact hnext y (List.mem_cons_of_mem _ hy)
        · intro y hy
          exact hprev y (List.mem_cons_of_mem _ hy)

/-- A segment splits at any place. -/
theorem segment_append :
    Segment next prev before first (front ++ back) after last ↔
      ∃ middle node, Segment next prev before first front middle node ∧
        Segment next prev node middle back after last := by
  induction front generalizing before first with
  | nil =>
      constructor
      · intro h
        exact ⟨first, before, ⟨rfl, rfl⟩, h⟩
      · intro h
        rcases h with ⟨middle, node, ⟨rfl, rfl⟩, hback⟩
        exact hback
  | cons x front ih =>
      constructor
      · intro h
        rcases h with ⟨hfirst, hbefore, hrest⟩
        rcases ih.mp hrest with ⟨middle, node, hfront, hback⟩
        exact ⟨middle, node, ⟨hfirst, hbefore, hfront⟩, hback⟩
      · intro h
        rcases h with ⟨middle, node, ⟨hfirst, hbefore, hfront⟩, hback⟩
        exact ⟨hfirst, hbefore, ih.mpr ⟨middle, node, hfront, hback⟩⟩

/-- The last node of a segment is a node of it unless the segment is empty. -/
theorem Segment.last_mem (h : Segment next prev before first nodes after last)
    (hne : nodes ≠ []) : last ∈ nodes := by
  induction nodes generalizing before first with
  | nil => exact absurd rfl hne
  | cons x nodes ih =>
      cases nodes with
      | nil =>
          rw [← h.2.2.2]
          exact List.mem_cons_self
      | cons y nodes => exact List.mem_cons_of_mem _ (ih h.2.2 (by simp))

theorem Segment.last_eq (h : Segment next prev before first nodes after last) :
    last = nodes.getLastD before := by
  induction nodes generalizing before first with
  | nil => exact h.2.symm
  | cons x nodes ih =>
      rw [List.getLastD_cons]
      exact ih h.2.2

theorem Segment.first_eq (h : Segment next prev before first nodes after last) :
    first = nodes.headD after := by
  cases nodes with
  | nil => exact h.1
  | cons x nodes => exact h.1

/-- Redirecting the first node of a segment changes what is in front of it. -/
theorem Segment.redirect_first [DecidableEq α]
    (h : Segment next prev before first nodes after last) (hne : nodes ≠ [])
    (hnodup : nodes.Nodup) (before' : α) :
    Segment next (Function.update prev first before') before' first nodes after last := by
  cases nodes with
  | nil => exact absurd rfl hne
  | cons x nodes =>
      rcases h with ⟨rfl, -, hrest⟩
      refine ⟨rfl, Function.update_self .., ?_⟩
      apply hrest.congr
      · intro y _
        rfl
      · intro y hy
        exact Function.update_of_ne (ne_of_mem_of_not_mem hy (List.nodup_cons.mp hnodup).1) ..

/-- Redirecting the last node of a segment moves its end. -/
theorem Segment.redirect_last [DecidableEq α]
    (h : Segment next prev before first nodes after last) (hne : nodes ≠ [])
    (hnodup : nodes.Nodup) (after' : α) :
    Segment (Function.update next last after') prev before first nodes after' last := by
  induction nodes generalizing before first with
  | nil => exact absurd rfl hne
  | cons x nodes ih =>
      rcases h with ⟨hfirst, hbefore, hrest⟩
      rcases List.nodup_cons.mp hnodup with ⟨hx, hnodes⟩
      refine ⟨hfirst, hbefore, ?_⟩
      cases nodes with
      | nil =>
          rcases hrest with ⟨-, rfl⟩
          exact ⟨Function.update_self .., rfl⟩
      | cons y nodes =>
          have hlast : last ≠ x := by
            intro heq
            apply hx
            rw [← heq]
            exact hrest.last_mem (by simp)
          rw [Function.update_of_ne (Ne.symm hlast)]
          exact ih hrest (by simp) hnodes

/-! ## Lists -/

/-- From {lit}`head` on the links spell {lit}`nodes`, with {lit}`null` at both
ends. -/
structure IsList (next prev : α → α) (null head : α) (nodes : List α) : Prop where
  null_notMem : null ∉ nodes
  nodup : nodes.Nodup
  segment : ∃ last, Segment next prev null head nodes null last

variable {null head : α}

/-- Only the links of the nodes matter. -/
theorem IsList.congr (h : IsList next prev null head nodes)
    (hnext : ∀ x ∈ nodes, next' x = next x) (hprev : ∀ x ∈ nodes, prev' x = prev x) :
    IsList next' prev' null head nodes := by
  rcases h.segment with ⟨last, hsegment⟩
  exact ⟨h.null_notMem, h.nodup, last, hsegment.congr hnext hprev⟩

theorem isList_nil : IsList next prev null null [] :=
  ⟨List.not_mem_nil, List.nodup_nil, null, rfl, rfl⟩

/-- The head is the first node. -/
theorem IsList.head_eq (h : IsList next prev null head nodes) :
    head = nodes.headD null := by
  rcases h.segment with ⟨last, hsegment⟩
  exact hsegment.first_eq

theorem IsList.head_eq_null_iff (h : IsList next prev null head nodes) :
    head = null ↔ nodes = [] := by
  cases nodes with
  | nil => simp [h.head_eq]
  | cons x nodes =>
      have hx : x ≠ null := by
        intro heq
        apply h.null_notMem
        rw [← heq]
        exact List.mem_cons_self
      simp [h.head_eq, hx]

theorem IsList.head_mem (h : IsList next prev null head nodes) (hhead : head ≠ null) :
    head ∈ nodes := by
  cases nodes with
  | nil => exact absurd h.head_eq hhead
  | cons x nodes =>
      rw [h.head_eq]
      exact List.mem_cons_self

/-- Behind a node the list goes on with the rest of the nodes. -/
theorem IsList.next_eq (h : IsList next prev null head (front ++ node :: back)) :
    next node = back.headD null := by
  rcases h.segment with ⟨last, hsegment⟩
  rcases segment_append.mp hsegment with ⟨middle, before, -, -, -, hback⟩
  exact hback.first_eq

/-- In front of a node the list comes from the nodes before it. -/
theorem IsList.prev_eq (h : IsList next prev null head (front ++ node :: back)) :
    prev node = front.getLastD null := by
  rcases h.segment with ⟨last, hsegment⟩
  rcases segment_append.mp hsegment with ⟨middle, before, hfront, -, hprev, -⟩
  rw [hprev]
  exact hfront.last_eq

theorem IsList.next_mem (h : IsList next prev null head nodes) (hnode : node ∈ nodes)
    (hnext : next node ≠ null) : next node ∈ nodes := by
  rcases List.append_of_mem hnode with ⟨front, back, rfl⟩
  have heq := h.next_eq
  cases back with
  | nil => exact absurd heq hnext
  | cons x back =>
      rw [heq]
      simp

theorem IsList.prev_mem (h : IsList next prev null head nodes) (hnode : node ∈ nodes)
    (hprev : prev node ≠ null) : prev node ∈ nodes := by
  rcases List.append_of_mem hnode with ⟨front, back, rfl⟩
  have heq := h.prev_eq
  cases front using List.reverseRecOn with
  | nil => exact absurd heq hprev
  | append_singleton front x =>
      rw [heq]
      simp

theorem IsList.next_ne (h : IsList next prev null head nodes) (hnode : node ∈ nodes) :
    next node ≠ node := by
  rcases List.append_of_mem hnode with ⟨front, back, rfl⟩
  have hback := (List.nodup_cons.mp (List.nodup_append.mp h.nodup).2.1).1
  rw [h.next_eq]
  cases back with
  | nil => exact fun heq => h.null_notMem (by simp [show null = node from heq])
  | cons x back => exact fun heq => hback (by simp [show x = node from heq])

theorem IsList.prev_ne (h : IsList next prev null head nodes) (hnode : node ∈ nodes) :
    prev node ≠ node := by
  rcases List.append_of_mem hnode with ⟨front, back, rfl⟩
  have hfront : node ∉ front := fun hmem =>
    List.disjoint_of_nodup_append h.nodup hmem List.mem_cons_self
  rw [h.prev_eq]
  cases front using List.reverseRecOn with
  | nil => exact fun heq => h.null_notMem (by simp [show null = node from heq])
  | append_singleton front x =>
      intro heq
      rw [List.getLastD_concat] at heq
      exact hfront (by simp [heq])

/-- A node without a predecessor is the head. -/
theorem IsList.prev_eq_null_iff (h : IsList next prev null head nodes)
    (hnode : node ∈ nodes) : prev node = null ↔ head = node := by
  rcases List.append_of_mem hnode with ⟨front, back, rfl⟩
  rw [h.prev_eq, h.head_eq]
  cases front using List.reverseRecOn with
  | nil => simp
  | append_singleton front x =>
      have hx : x ≠ null := by
        intro heq
        apply h.null_notMem
        simp [heq]
      have hhead : (front ++ [x] ++ node :: back).headD null ∈ front ++ [x] := by
        cases front <;> simp
      constructor
      · intro heq
        exact absurd (by simpa using heq) hx
      · intro heq
        rw [heq] at hhead
        have hdisjoint := List.disjoint_of_nodup_append h.nodup
        exact absurd List.mem_cons_self (hdisjoint hhead)

/-! ## Traversal -/

/-- As many steps as a segment has nodes lead behind it. -/
theorem Segment.iterate (h : Segment next prev before first nodes after last) :
    next^[nodes.length] first = after := by
  induction nodes generalizing before first with
  | nil => exact h.1
  | cons x nodes ih =>
      rcases h with ⟨rfl, -, hrest⟩
      exact ih hrest

/-- Following the forward links from the head ends at {lit}`null`. -/
theorem IsList.iterate (h : IsList next prev null head nodes) :
    next^[nodes.length] head = null := by
  rcases h.segment with ⟨last, hsegment⟩
  exact hsegment.iterate

/-- The nodes on the way along the forward links, up to {lit}`null` or to the given
number of them. -/
def traverse [DecidableEq α] (next : α → α) (null : α) : Nat → α → List α
  | 0, _ => []
  | n + 1, node => if node = null then [] else node :: traverse next null n (next node)

/-- Traversing a segment that ends at {lit}`null` gives its nodes. -/
theorem Segment.traverse_eq [DecidableEq α]
    (h : Segment next prev before first nodes null last) (hnull : null ∉ nodes) {n : Nat}
    (hn : nodes.length ≤ n) : traverse next null n first = nodes := by
  induction nodes generalizing before first n with
  | nil =>
      cases n with
      | zero => rfl
      | succ n => rw [traverse, if_pos h.1]
  | cons x nodes ih =>
      rcases h with ⟨rfl, -, hrest⟩
      cases n with
      | zero => simp at hn
      | succ n =>
          have hfirst : first ≠ null := by
            intro heq
            apply hnull
            rw [← heq]
            exact List.mem_cons_self
          have hrestNull : null ∉ nodes := fun hmem => hnull (List.mem_cons_of_mem _ hmem)
          rw [traverse, if_neg hfirst, ih hrest hrestNull (Nat.le_of_succ_le_succ hn)]

/-- Traversing a list gives its nodes. -/
theorem IsList.traverse_eq [DecidableEq α] (h : IsList next prev null head nodes) {n : Nat}
    (hn : nodes.length ≤ n) : traverse next null n head = nodes := by
  rcases h.segment with ⟨last, hsegment⟩
  exact hsegment.traverse_eq h.null_notMem hn

/-! ## The operations -/

section Operations

variable [DecidableEq α]

/-- The head after unlinking a node. -/
def unlinkHead (next prev : α → α) (null head node : α) : α :=
  if prev node = null then next node else head

/-- The forward links after unlinking a node. -/
def unlinkNext (next prev : α → α) (null node : α) : α → α :=
  if prev node = null then next else Function.update next (prev node) (next node)

/-- The backward links after unlinking a node. -/
def unlinkPrev (next prev : α → α) (null node : α) : α → α :=
  if next node = null then prev else Function.update prev (next node) (prev node)

/-- The nodes behind an unlinked one are a segment that starts at its successor and has its
predecessor in front. -/
theorem IsList.unlink_back (h : IsList next prev null head (front ++ node :: back)) :
    ∃ last, Segment (unlinkNext next prev null node) (unlinkPrev next prev null node)
      (prev node) (next node) back null last := by
  have hnext := h.next_eq
  have hprev := h.prev_eq
  have hdisjoint := List.disjoint_of_nodup_append h.nodup
  have hbackNodup : back.Nodup := (List.nodup_cons.mp (List.nodup_append.mp h.nodup).2.1).2
  rcases h.segment with ⟨last, hsegment⟩
  rcases segment_append.mp hsegment with ⟨node, before, hfront, rfl, rfl, hback⟩
  have hnewBack : ∃ last', Segment next (unlinkPrev next prev null node) (prev node)
      (next node) back null last' := by
    cases back with
    | nil => exact ⟨prev node, hnext, rfl⟩
    | cons x back =>
        have hx : next node ≠ null := by
          intro heq
          apply h.null_notMem
          rw [← heq, hnext]
          simp
        rw [unlinkPrev, if_neg hx]
        exact ⟨last, hback.redirect_first (by simp) hbackNodup (prev node)⟩
  rcases hnewBack with ⟨last', hnewBack⟩
  refine ⟨last', hnewBack.congr (fun y hy => ?_) fun y _ => rfl⟩
  unfold unlinkNext
  split
  · rfl
  · rename_i hprevNull
    apply Function.update_of_ne
    intro heq
    have hmemFront : prev node ∈ front := by
      apply hfront.last_mem
      intro hnil
      rw [hnil] at hprev
      exact hprevNull hprev
    exact hdisjoint hmemFront (List.mem_cons_of_mem _ (heq ▸ hy))

/-- The nodes in front of an unlinked one end at its successor. -/
theorem IsList.unlink_front (h : IsList next prev null head (front ++ node :: back)) :
    Segment (unlinkNext next prev null node) (unlinkPrev next prev null node) null
      (unlinkHead next prev null head node) front (next node) (prev node) := by
  have hnext := h.next_eq
  have hprev := h.prev_eq
  have hdisjoint := List.disjoint_of_nodup_append h.nodup
  have hfrontNodup : front.Nodup := (List.nodup_append.mp h.nodup).1
  rcases h.segment with ⟨last, hsegment⟩
  rcases segment_append.mp hsegment with ⟨node, before, hfront, rfl, rfl, -⟩
  cases hcase : front with
  | nil =>
      subst hcase
      have hnullPrev : prev node = null := hprev
      rw [unlinkHead, if_pos hnullPrev]
      exact ⟨rfl, hnullPrev.symm⟩
  | cons x front' =>
      have hne : front ≠ [] := by simp [hcase]
      have hmem : prev node ∈ front := hfront.last_mem hne
      have hnotNull : prev node ≠ null := by
        intro heq
        apply h.null_notMem
        rw [← heq]
        exact List.mem_append_left _ hmem
      rw [← hcase, unlinkHead, if_neg hnotNull, unlinkNext, if_neg hnotNull]
      refine (hfront.redirect_last hne hfrontNodup (next node)).congr (fun y _ => rfl)
        fun y hy => ?_
      unfold unlinkPrev
      split
      · rfl
      · rename_i hnextNull
        apply Function.update_of_ne
        intro heq
        have hmemBack : next node ∈ back := by
          cases hback' : back with
          | nil =>
              rw [hback'] at hnext
              exact absurd hnext hnextNull
          | cons z back' =>
              rw [hnext, hback']
              exact List.mem_cons_self
        exact hdisjoint hy (List.mem_cons_of_mem _ (heq ▸ hmemBack))

/-- Unlinking a node removes it, wherever it stands. -/
theorem IsList.unlink (h : IsList next prev null head nodes) (hnode : node ∈ nodes) :
    IsList (unlinkNext next prev null node) (unlinkPrev next prev null node) null
      (unlinkHead next prev null head node) (nodes.erase node) := by
  rcases List.append_of_mem hnode with ⟨front, back, rfl⟩
  have hnotFront : node ∉ front := fun hmem =>
    List.disjoint_of_nodup_append h.nodup hmem List.mem_cons_self
  have herase : (front ++ node :: back).erase node = front ++ back := by
    rw [List.erase_append_right _ hnotFront, List.erase_cons_head]
  refine ⟨fun hmem => h.null_notMem (List.mem_of_mem_erase hmem), h.nodup.erase node, ?_⟩
  rcases h.unlink_back with ⟨last, hback⟩
  rw [herase]
  exact ⟨last, segment_append.mpr ⟨next node, prev node, h.unlink_front, hback⟩⟩

/-- Inserting a node at the head prepends it. -/
theorem IsList.insert (h : IsList next prev null head nodes) (hnode : node ∉ nodes)
    (hnull : node ≠ null) (hnext : next node = head) (hprev : prev node = null) :
    IsList next (if head = null then prev else Function.update prev head node) null node
      (node :: nodes) := by
  rcases h.segment with ⟨last, hsegment⟩
  refine ⟨?_, List.nodup_cons.mpr ⟨hnode, h.nodup⟩, ?_⟩
  · intro hmem
    rcases List.mem_cons.mp hmem with heq | hmem
    · exact hnull heq.symm
    · exact h.null_notMem hmem
  cases nodes with
  | nil =>
      have hhead : head = null := h.head_eq
      rw [if_pos hhead]
      exact ⟨node, rfl, hprev, hnext.trans hhead, rfl⟩
  | cons x nodes =>
      have hhead : head ≠ null := by
        rw [Ne, h.head_eq_null_iff]
        simp
      have hne : node ≠ head := by
        intro heq
        apply hnode
        rw [heq]
        exact h.head_mem hhead
      rw [if_neg hhead]
      refine ⟨last, rfl, ?_, ?_⟩
      · rw [Function.update_of_ne hne]
        exact hprev
      · rw [hnext]
        exact hsegment.redirect_first (by simp) h.nodup node

end Operations

end SystemFundamentals.Library.LinkedList
