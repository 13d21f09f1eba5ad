import SystemFundamentals.Cream.LiveSlots
import Mathlib.Data.List.FinRange

/-!
# Who owns the entries

The map owns the key and the value of a live slot until {lit}`delete` hands them back, and
{lit}`clear_map` and {lit}`invalidate_map` pass what the map owns to the destructor.  They
call it on every slot, though, and {lit}`delete` can hand out an entry and leave it live.

A ledger beside the map records the slots whose present entry has been handed out.  A
{lit}`put` that overwrites a displaced entry assigns the value only, and the key in the slot
is still the one that was handed out.

Main results:

- Theorem {lit}`putNode_key`: whether a {lit}`put` leaves the key of the slot it writes.
- Theorem {lit}`ledger_invariant`: an entry that was handed out from its home slot is no
  longer live.
- Theorem {lit}`destroys_iff`: the last call destroys what the map owns and nothing else if
  and only if every slot is live and no displaced entry has been handed out.
-/

namespace SystemFundamentals.Cream

open Library

variable {cap : Nat} [NeZero cap] {hashFunction : List UInt8 → UInt32} {map map' : HashMap cap}

/-! ## The slot that is written -/

/-- The slot whose node {lit}`put` assigns, if it gets that far. -/
def putSlot (hashFunction : List UInt8 → UInt32) (self : HashMap cap) (key : Buffer)
    (force : Bool) : Option (Fin cap) :=
  let startIndex := getIndex hashFunction key
  let start := self.nodes startIndex
  if UInt32.ofNat cap = self.size ∧ force = true then some startIndex
  else if canPutKey start (some key) = false then
    let firstTombstone := if start.tombstone then some startIndex else none
    let found :=
      putLoop self.nodes key startIndex cap (Ring.next startIndex) firstTombstone
    if found.1 ≠ startIndex then some found.1 else found.2
  else some startIndex

/-- {lit}`put` assigns one node. -/
theorem putNode_frame {key val : Buffer} {force : Bool} {stored : HashMap cap}
    (h : putNode hashFunction map key val force = .ok stored) :
    ∃ i, putSlot hashFunction map key force = some i ∧
      ∀ j, j ≠ i → stored.nodes j = map.nodes j := by
  unfold putNode at h
  unfold putSlot
  dsimp only at h ⊢
  generalize putLoop map.nodes key (getIndex hashFunction key) cap
    (Ring.next (getIndex hashFunction key))
    (if (map.nodes (getIndex hashFunction key)).tombstone then
      some (getIndex hashFunction key) else none) = found at h ⊢
  split_ifs at h ⊢ with hfull hcannot haway hempty
  · cases h
    exact ⟨_, rfl, fun j hj => Function.update_of_ne hj _ _⟩
  · cases h
    exact ⟨_, rfl, fun j hj => Function.update_of_ne hj _ _⟩
  · cases h
    exact ⟨_, rfl, fun j hj => Function.update_of_ne hj _ _⟩
  · cases htomb : found.2 with
    | none =>
        rw [htomb] at h
        cases h
    | some tombstone =>
        rw [htomb] at h
        cases h
        exact ⟨_, rfl, fun j hj => Function.update_of_ne hj _ _⟩
  · cases h
    exact ⟨_, rfl, fun j hj => Function.update_of_ne hj _ _⟩

/-- The first tombstone of a walk has its mark. -/
theorem putLoop_tombstone {nodes : Fin cap → MapNode} {key : Buffer} {home : Fin cap}
    {fuel : Nat} {index : Fin cap} {first : Option (Fin cap)}
    (hfirst : ∀ x, first = some x → (nodes x).tombstone = true) {x : Fin cap}
    (hlast : (putLoop nodes key home fuel index first).2 = some x) :
    (nodes x).tombstone = true := by
  induction fuel generalizing index first with
  | zero => exact hfirst x hlast
  | succ fuel ih =>
      rw [putLoop] at hlast
      split_ifs at hlast with hgo hmark
      · refine ih ?_ hlast
        intro y hy
        exact Option.some.inj hy ▸ hmark.2
      · exact ih hfirst hlast
      · exact hfirst x hlast

/-- A walk that stops before it comes round stops at a slot that can take the key. -/
theorem canPutKey_of_putLoop {nodes : Fin cap → MapNode} {key : Buffer} {home : Fin cap}
    {first : Option (Fin cap)} (hhome : canPutKey (nodes home) (some key) = false)
    (haway : (putLoop nodes key home cap (Ring.next home) first).1 ≠ home) :
    canPutKey (nodes (putLoop nodes key home cap (Ring.next home) first).1) (some key) = true := by
  obtain ⟨e, he, hpass, hstop⟩ := exists_firstStop nodes home key
  have hcap : 0 < cap := Nat.pos_of_neZero cap
  have hpos : 0 < e := by
    rcases Nat.eq_zero_or_pos e with rfl | hpos
    · rw [Ring.along_zero, hhome] at hstop
      rcases hstop with h | h
      · omega
      · cases h
    · exact hpos
  obtain ⟨last, hloop, -⟩ := putLoop_spec nodes home key he hpass hstop cap 1 first
    (by omega) (by omega) (by omega)
  rw [← Ring.next_along, Ring.along_zero] at hloop
  rw [hloop] at haway ⊢
  refine hstop.resolve_left ?_
  rintro rfl
  exact haway (Ring.along_self home)

/-- A {lit}`put` that writes slot {lit}`i` leaves the key that is there: the slot is not the
key's home slot, and it holds the key already. -/
def KeepsKey (hashFunction : List UInt8 → UInt32) (map : HashMap cap) (key : Buffer)
    (i : Fin cap) : Prop :=
  i ≠ getIndex hashFunction key ∧ nodeHasKey (map.nodes i) (some key) = true

instance (hashFunction : List UInt8 → UInt32) (map : HashMap cap) (key : Buffer) (i : Fin cap) :
    Decidable (KeepsKey hashFunction map key i) :=
  inferInstanceAs (Decidable (_ ∧ _))

/-- Which key is in the slot that {lit}`put` has written. -/
theorem putNode_key {key val : Buffer} {force : Bool} {stored : HashMap cap}
    (h : putNode hashFunction map key val force = .ok stored) {i : Fin cap}
    (hslot : putSlot hashFunction map key force = some i) :
    (stored.nodes i).key =
      if KeepsKey hashFunction map key i then (map.nodes i).key else some key := by
  have htombstone {x : Fin cap} : (putLoop map.nodes key (getIndex hashFunction key) cap
        (Ring.next (getIndex hashFunction key))
        (if (map.nodes (getIndex hashFunction key)).tombstone then
          some (getIndex hashFunction key) else none)).2 = some x →
      (map.nodes x).tombstone = true := by
    refine putLoop_tombstone ?_
    intro y hy
    split_ifs at hy with hmark
    exact Option.some.inj hy ▸ hmark
  have hcan := @canPutKey_of_putLoop cap _ map.nodes key (getIndex hashFunction key)
    (if (map.nodes (getIndex hashFunction key)).tombstone then
      some (getIndex hashFunction key) else none)
  unfold putNode at h
  unfold putSlot at hslot
  dsimp only at h hslot
  generalize putLoop map.nodes key (getIndex hashFunction key) cap
    (Ring.next (getIndex hashFunction key))
    (if (map.nodes (getIndex hashFunction key)).tombstone then
      some (getIndex hashFunction key) else none) = found at h hslot htombstone hcan
  split_ifs at h hslot with hfull hcannot haway hempty
  · cases h
    cases hslot
    dsimp only
    rw [if_neg fun hkeeps => hkeeps.1 rfl, Function.update_self]
  · cases h
    cases hslot
    have hnot : ¬ KeepsKey hashFunction map key found.1 := by
      intro hkeeps
      rw [nodeIsEmpty_of_hasKey hkeeps.2] at hempty
      cases hempty
    dsimp only
    rw [if_neg hnot, Function.update_self]
  · cases h
    cases hslot
    have hhas : nodeHasKey (map.nodes found.1) (some key) = true :=
      (Bool.or_eq_true_iff.mp (hcan hcannot haway)).resolve_left hempty
    dsimp only
    rw [if_pos ⟨haway, hhas⟩, Function.update_self]
  · rw [hslot] at h
    cases h
    have hnot : ¬ KeepsKey hashFunction map key i := by
      intro hkeeps
      have hlive := ((nodeHasKey_iff _ _).mp hkeeps.2).1
      rw [htombstone hslot] at hlive
      cases hlive
    dsimp only
    rw [if_neg hnot, Function.update_self]
  · cases h
    cases hslot
    dsimp only
    rw [if_neg fun hkeeps => hkeeps.1 rfl, Function.update_self]

theorem put_frame (hidle : Idle map) {key val : Buffer} {force : Bool}
    (hexec : exec hashFunction map (.put key val force) = .ok (map', .put true)) :
    ∃ i, putSlot hashFunction map key force = some i ∧
      ∀ j, j ≠ i → map'.nodes j = map.nodes j := by
  simp only [exec, put_of_idle hidle] at hexec
  split_ifs at hexec with hfull
  · cases hexec
  · cases hput : putNode hashFunction map key val force with
    | error stop =>
        rw [hput] at hexec
        cases hexec
    | ok stored =>
        rw [hput] at hexec
        rcases putNode_frame hput with ⟨i, hslot, hframe⟩
        cases hexec
        exact ⟨i, hslot, hframe⟩

/-! ## The ledger -/

/-- The slots whose present entry a {lit}`delete` has handed out, and those among them where
the {lit}`delete` found the entry away from the key's home slot. -/
structure Ledger (cap : Nat) where
  returned : Finset (Fin cap)
  displaced : Finset (Fin cap)

/-- The ledger after a call.  An entry is a new one once {lit}`put` has assigned the key of its
slot. -/
def Ledger.record (hashFunction : List UInt8 → UInt32) (map : HashMap cap)
    (ledger : Ledger cap) : MapCall × MapResult → Ledger cap
  | (.put key _ force, .put true) =>
      match putSlot hashFunction map key force with
      | none => ledger
      | some i =>
          if KeepsKey hashFunction map key i then ledger
          else ⟨ledger.returned.erase i, ledger.displaced.erase i⟩
  | (.delete key, .delete _) =>
      match findSlot map.nodes (getIndex hashFunction key) key with
      | none => ledger
      | some i =>
          if i = getIndex hashFunction key then ⟨insert i ledger.returned, ledger.displaced⟩
          else ⟨insert i ledger.returned, insert i ledger.displaced⟩
  | (.clearMap, .clearMap true _) => ⟨∅, ∅⟩
  | _ => ledger

/-- Runs of calls on a fresh map with the ledger. -/
def ledgerSystem (cap : Nat) [NeZero cap] (hashFunction : List UInt8 → UInt32) :
    System (HashMap cap × Ledger cap) (MapCall × MapResult) where
  initial s := s = (createMap cap, ⟨∅, ∅⟩)
  step s label t :=
    exec hashFunction s.1 label.1 = .ok (t.1, label.2) ∧
      t.2 = s.2.record hashFunction s.1 label

/-- The ledger records every run. -/
theorem ledgerSystem_run {labels : List (MapCall × MapResult)} {ledger : Ledger cap}
    (hrun : (mapSystem cap hashFunction AnyClient).Run map labels map') :
    ∃ ledger', (ledgerSystem cap hashFunction).Run (map, ledger) labels (map', ledger') := by
  induction hrun generalizing ledger with
  | nil map => exact ⟨ledger, .nil _⟩
  | @cons map mid last label labels hstep _ ih =>
      have hnext : ∃ ledger', (ledgerSystem cap hashFunction).Run
          (mid, ledger.record hashFunction map label) labels (last, ledger') := ih
      rcases hnext with ⟨ledger', hrest⟩
      exact ⟨ledger', .cons ⟨hstep.2, rfl⟩ hrest⟩

/-- An entry that was handed out is no longer live, or was found away from its home. -/
structure Recorded (map : HashMap cap) (ledger : Ledger cap) : Prop where
  idle : Idle map
  displaced : ledger.displaced ⊆ ledger.returned
  marked : ∀ i ∈ ledger.returned, (map.nodes i).tombstone = true ∨ i ∈ ledger.displaced

omit [NeZero cap] in
/-- Writing a slot makes its entry a new one. -/
theorem Recorded.write {ledger : Ledger cap} (h : Recorded map ledger) (hidle : Idle map')
    {i : Fin cap} (hframe : ∀ j, j ≠ i → map'.nodes j = map.nodes j) :
    Recorded map' ⟨ledger.returned.erase i, ledger.displaced.erase i⟩ where
  idle := hidle
  displaced := Finset.erase_subset_erase i h.displaced
  marked := by
    intro j hj
    rcases Finset.mem_erase.mp hj with ⟨hne, hj⟩
    rw [hframe j hne]
    exact (h.marked j hj).imp_right fun hmem => Finset.mem_erase.mpr ⟨hne, hmem⟩

omit [NeZero cap] in
/-- A live entry that was handed out is a displaced one, and it stays marked when its value is
overwritten. -/
theorem Recorded.overwrite {ledger : Ledger cap} (h : Recorded map ledger) (hidle : Idle map')
    {i : Fin cap} (hlive : (map.nodes i).tombstone = false)
    (hframe : ∀ j, j ≠ i → map'.nodes j = map.nodes j) : Recorded map' ledger where
  idle := hidle
  displaced := h.displaced
  marked := by
    intro j hj
    by_cases hji : j = i
    · subst hji
      refine Or.inr ((h.marked j hj).resolve_left ?_)
      rw [hlive]
      exact Bool.false_ne_true
    · rw [hframe j hji]
      exact h.marked j hj

omit [NeZero cap] in
/-- A tombstone leaves no entry in its slot. -/
theorem Recorded.mark {ledger : Ledger cap} (h : Recorded map ledger) (i : Fin cap)
    (size : UInt32) :
    Recorded
      { map with
        nodes := Function.update map.nodes i { map.nodes i with tombstone := true }
        size := size } ledger where
  idle := ⟨h.idle.valid, h.idle.noReaders⟩
  displaced := h.displaced
  marked := by
    intro j hj
    by_cases hji : j = i
    · subst hji
      exact Or.inl (by simp)
    · refine (h.marked j hj).imp_left fun htomb => ?_
      simpa [hji] using htomb

omit [NeZero cap] in
/-- Handing out the entry of a marked slot. -/
theorem Recorded.handOut {ledger : Ledger cap} (h : Recorded map ledger) {i : Fin cap}
    (htomb : (map.nodes i).tombstone = true) :
    Recorded map ⟨insert i ledger.returned, ledger.displaced⟩ where
  idle := h.idle
  displaced := h.displaced.trans (Finset.subset_insert i _)
  marked := by
    intro j hj
    rcases Finset.mem_insert.mp hj with rfl | hj
    · exact Or.inl htomb
    · exact h.marked j hj

omit [NeZero cap] in
/-- Handing out a displaced entry. -/
theorem Recorded.handOutDisplaced {ledger : Ledger cap} (h : Recorded map ledger) (i : Fin cap) :
    Recorded map ⟨insert i ledger.returned, insert i ledger.displaced⟩ where
  idle := h.idle
  displaced := Finset.insert_subset_insert i h.displaced
  marked := by
    intro j hj
    rcases Finset.mem_insert.mp hj with rfl | hj
    · exact Or.inr (Finset.mem_insert_self j _)
    · exact (h.marked j hj).imp_right (Finset.mem_insert_of_mem ·)

/-- One call keeps the ledger right. -/
theorem Recorded.exec {ledger : Ledger cap} (h : Recorded map ledger) {call : MapCall}
    {result : MapResult} (hexec : exec hashFunction map call = .ok (map', result)) :
    Recorded map' (ledger.record hashFunction map (call, result)) := by
  have hcase := exec_case h.idle hexec
  have hidle := hcase.idle h.idle
  have hwrite {key val : Buffer} {force : Bool} (hcall : call = .put key val force)
      (hresult : result = .put true) :
      Recorded map' (ledger.record hashFunction map (call, result)) := by
    subst hcall hresult
    rcases put_frame h.idle hexec with ⟨i, hslot, hframe⟩
    rw [Ledger.record, hslot]
    by_cases hkeeps : KeepsKey hashFunction map key i
    · simp only [if_pos hkeeps]
      exact h.overwrite hidle ((nodeHasKey_iff _ _).mp hkeeps.2).1 hframe
    · simp only [if_neg hkeeps]
      exact h.write hidle hframe
  cases hcase with
  | refused => exact h
  | replace => exact hwrite rfl rfl
  | insert => exact hwrite rfl rfl
  | overwrite => exact hwrite rfl rfl
  | reuse => exact hwrite rfl rfl
  | get => exact h
  | deleteMiss key hfind =>
      rw [Ledger.record, hfind]
      exact { h with idle := hidle }
  | deleteHit key index hfind =>
      rw [Ledger.record, hfind]
      have hmarked := h.mark (getIndex hashFunction key) (map.size - 1)
      by_cases hhome : index = getIndex hashFunction key
      · simp only [hhome, if_true]
        exact hmarked.handOut (by simp)
      · simp only [hhome, if_false]
        exact hmarked.handOutDisplaced index
  | clearMap => exact ⟨hidle, Finset.Subset.refl _, by simp [Ledger.record]⟩

/-- The ledger stays right along every run. -/
theorem ledger_invariant :
    (ledgerSystem cap hashFunction).Invariant fun s => Recorded s.1 s.2 where
  initial := by
    rintro s rfl
    exact ⟨⟨rfl, rfl⟩, Finset.Subset.refl _, by simp⟩
  step := by
    rintro ⟨map, ledger⟩ ⟨call, result⟩ ⟨map', ledger'⟩ h ⟨hexec, hledger⟩
    rw [hledger]
    exact Recorded.exec h hexec

/-! ## The last call -/

/-- The arguments of the destructor for a node. -/
def MapNode.entry (node : MapNode) : MapKey × MapVal :=
  (node.key, node.val)

/-- The entries in the live slots, in slot order. -/
def liveEntries (map : HashMap cap) : List (MapKey × MapVal) :=
  ((List.finRange cap).filter fun i => (map.nodes i).live).map fun i => (map.nodes i).entry

/-- The destructor is called once on each live entry and on nothing else, and no live entry
has been handed out. -/
structure DestroysOwned (map : HashMap cap) (ledger : Ledger cap)
    (destroyed : List (MapKey × MapVal)) : Prop where
  once : destroyed.Perm (liveEntries map)
  owned : ∀ i, (map.nodes i).live = true → i ∉ ledger.returned

/-- Both calls pass every slot to the destructor. -/
def slotEntries (map : HashMap cap) : List (MapKey × MapVal) :=
  List.ofFn fun i => (map.nodes i).entry

omit [NeZero cap] in
theorem slotEntries_perm_iff :
    (slotEntries map).Perm (liveEntries map) ↔ ∀ i, (map.nodes i).live = true := by
  constructor
  · intro hperm i
    have hlength := hperm.length_eq
    rw [slotEntries, liveEntries, List.ofFn_eq_map, List.length_map, List.length_map] at hlength
    exact List.length_filter_eq_length_iff.mp hlength.symm i (List.mem_finRange i)
  · intro hall
    rw [slotEntries, liveEntries, List.filter_eq_self.mpr fun i _ => hall i, List.ofFn_eq_map]

omit [NeZero cap] in
theorem destroysOwned_iff {ledger : Ledger cap} (h : Recorded map ledger) :
    DestroysOwned map ledger (slotEntries map) ↔
      (∀ i, (map.nodes i).live = true) ∧ ledger.displaced = ∅ := by
  constructor
  · rintro ⟨honce, howned⟩
    have hall := slotEntries_perm_iff.mp honce
    refine ⟨hall, Finset.eq_empty_of_forall_notMem fun i hi => ?_⟩
    exact howned i (hall i) (h.displaced hi)
  · rintro ⟨hall, hnone⟩
    refine ⟨slotEntries_perm_iff.mpr hall, fun i hlive hi => ?_⟩
    rcases h.marked i hi with htomb | hdisplaced
    · rw [live_of_tombstone htomb] at hlive
      contradiction
    · rw [hnone] at hdisplaced
      exact Finset.notMem_empty i hdisplaced

omit [NeZero cap] in
/-- {lit}`invalidate_map` on an idle map. -/
theorem invalidateMap_of_idle (hidle : Idle map) :
    invalidateMap map = .ok ⟨0, { size := 0, nodes := Fin.elim0, numReaders := 0, invalid := true },
      (true, slotEntries map), none⟩ := by
  have hvalid : ¬ map.invalid = true := by simp [hidle.valid]
  have hreaders : ¬ 0 < map.numReaders := by simp [hidle.noReaders]
  rw [invalidateMap, if_neg hvalid, if_neg hreaders]
  rfl

/-- After every run the last {lit}`clear_map` or {lit}`invalidate_map` returns; it destroys
the live entries and nothing else, none of them handed out before, if and only if every slot
is live and no displaced entry has been handed out. -/
theorem destroys_iff {ledger : Ledger cap}
    (hreach : (ledgerSystem cap hashFunction).Reachable (map, ledger)) :
    (∃ reply, clearMap map = .ok reply ∧
      (DestroysOwned map ledger reply.ret.2 ↔
        (∀ i, (map.nodes i).live = true) ∧ ledger.displaced = ∅)) ∧
    ∃ reply, invalidateMap map = .ok reply ∧
      (DestroysOwned map ledger reply.2.ret.2 ↔
        (∀ i, (map.nodes i).live = true) ∧ ledger.displaced = ∅) := by
  have h : Recorded map ledger := (hreach.invariant ledger_invariant :)
  constructor
  · exact ⟨_, clearMap_of_idle h.idle, destroysOwned_iff h⟩
  · exact ⟨_, invalidateMap_of_idle h.idle, destroysOwned_iff h⟩

/-- One slot, filled by one {lit}`put`. -/
def filledMap : HashMap 1 :=
  { createMap 1 with
    nodes := Function.update (createMap 1).nodes 0
      ⟨some (.ofByte 97), some (.ofByte 1), false⟩
    size := 1 }

theorem filledMap_reachable :
    (ledgerSystem 1 fun _ => 0).Reachable (filledMap, ⟨∅, ∅⟩) :=
  .step (a := (MapCall.put (.ofByte 97) (.ofByte 1) false, MapResult.put true))
    (.initial rfl) ⟨rfl, rfl⟩

/-- One slot, filled: both calls destroy the one live entry. -/
theorem destroys_filled :
    DestroysOwned filledMap ⟨∅, ∅⟩ [(some (.ofByte 97), some (.ofByte 1))] := by
  rcases (destroys_iff filledMap_reachable).1 with ⟨reply, hclear, hiff⟩
  cases hclear
  exact hiff.mpr ⟨by decide, rfl⟩

/-- A deleted entry was handed to the caller, and the last call destroys it again. -/
theorem not_destroysOwned :
    ¬ ∀ (cap : Nat) [NeZero cap], cap < 2 ^ 31 →
      ∀ (hashFunction : List UInt8 → UInt32) (map : HashMap cap) (ledger : Ledger cap),
        (ledgerSystem cap hashFunction).Reachable (map, ledger) →
          ∀ reply, clearMap map = .ok reply → DestroysOwned map ledger reply.ret.2 := by
  intro hall
  have hreach : (ledgerSystem 1 fun _ => 0).Reachable (_, _) :=
    filledMap_reachable.step
      (a := (MapCall.delete (.ofByte 97),
        MapResult.delete ⟨some (.ofByte 97), some (.ofByte 1), false⟩)) ⟨rfl, rfl⟩
  have howned := hall 1 (by decide) (fun _ => 0) _ _ hreach _ (clearMap_of_idle ⟨rfl, rfl⟩)
  exact absurd howned.once.length_eq (by decide)

end SystemFundamentals.Cream
