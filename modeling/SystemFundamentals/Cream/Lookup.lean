import SystemFundamentals.Cream.CallCases

/-!
# Probe chains and lookup

Every live key can be reached from its home slot without passing an empty slot, whatever
calls were made before: forced and unforced {lit}`put`, {lit}`delete` of displaced keys,
{lit}`clear_map`.  So {lit}`get` finds a live entry of its key whenever there is one, also
in a map that holds a key twice.

Main results:

- Theorem {lit}`wellProbed_invariant`: every call keeps the probe chains.
- Theorem {lit}`lookup_complete`: in every reachable state {lit}`get` answers with the value
  of a live slot of its key, and with the null value only when there is none.
-/

namespace SystemFundamentals.Cream

open Library

variable {cap : Nat} [NeZero cap]

/-- The client whose keys have no zero byte. -/
def NulFreeClient : MapCall → Prop
  | .put key _ _ | .get key | .delete key => NulFree key
  | .clearMap => True

instance (call : MapCall) : Decidable (NulFreeClient call) :=
  match call with
  | .put key _ _ => inferInstanceAs (Decidable (NulFree key))
  | .get key => inferInstanceAs (Decidable (NulFree key))
  | .delete key => inferInstanceAs (Decidable (NulFree key))
  | .clearMap => inferInstanceAs (Decidable True)

/-- What every call keeps: no empty slot on the way to a live key, and a value in every live
slot. -/
structure WellProbed (hashFunction : List UInt8 → UInt32) (map : HashMap cap) : Prop where
  idle : Idle map
  nulFree : ∀ i key, (map.nodes i).key = some key → NulFree key
  chain : ProbeChain hashFunction map.nodes
  value : ∀ i key, Holds map.nodes i key → ∃ val, (map.nodes i).val = some val

variable {hashFunction : List UInt8 → UInt32} {map map' : HashMap cap}

theorem wellProbed_createMap (hashFunction : List UInt8 → UInt32) :
    WellProbed hashFunction (createMap cap) where
  idle := ⟨rfl, rfl⟩
  nulFree i key h := by simp [createMap, MapNode.null] at h
  chain j key h := by simp [Holds, createMap, MapNode.null] at h
  value i key h := by simp [Holds, createMap, MapNode.null] at h

/-- Storing a pair in a slot that no empty slot separates from the key's home. -/
theorem WellProbed.store (h : WellProbed hashFunction map) {key val : Buffer}
    (hkey : NulFree key) {i : Fin cap} {size : UInt32}
    (hpath : ∀ x, x < Ring.dist (getIndex hashFunction key) i →
      nodeIsEmpty (map.nodes (Ring.along (getIndex hashFunction key) x)) = false) :
    WellProbed hashFunction
      { map with
        nodes := Function.update map.nodes i ⟨some key, some val, false⟩
        size := size } where
  idle := ⟨h.idle.valid, h.idle.noReaders⟩
  nulFree := by
    refine nulFree_update h.nulFree ?_
    intro other hother
    exact Option.some.inj hother ▸ hkey
  chain := h.chain.store hpath
  value := by
    intro j other hj
    rcases holds_update_iff.mp hj with ⟨rfl, _, _⟩ | ⟨hne, hold⟩
    · exact ⟨val, by simp⟩
    · rcases h.value j other hold with ⟨v, hv⟩
      exact ⟨v, by simp [hne, hv]⟩

/-- Setting a tombstone empties no slot. -/
theorem WellProbed.mark (h : WellProbed hashFunction map) (i : Fin cap) {size : UInt32} :
    WellProbed hashFunction
      { map with
        nodes := Function.update map.nodes i { map.nodes i with tombstone := true }
        size := size } where
  idle := ⟨h.idle.valid, h.idle.noReaders⟩
  nulFree := nulFree_update h.nulFree (h.nulFree i)
  chain := h.chain.mark i
  value := by
    intro j other hj
    rcases holds_update_iff.mp hj with ⟨_, htomb, _⟩ | ⟨hne, hold⟩
    · exact absurd htomb (by simp)
    · rcases h.value j other hold with ⟨v, hv⟩
      exact ⟨v, by simp [hne, hv]⟩

/-- The slots a walk passed are not empty. -/
theorem PassedUpTo.not_empty {nodes : Fin cap → MapNode} {home : Fin cap} {key : Buffer}
    {e d : Nat} (hpass : PassedUpTo nodes home key e) (hd : d < cap) (hde : d ≤ e) :
    ∀ x, x < Ring.dist home (Ring.along home d) →
      nodeIsEmpty (nodes (Ring.along home x)) = false := by
  intro x hx
  rw [Ring.dist_along hd] at hx
  exact (Bool.or_eq_false_iff.mp (hpass x (hx.trans_le hde))).1

/-- Every outcome of a call keeps the probe chains. -/
theorem WellProbed.exec (h : WellProbed hashFunction map) {call : MapCall}
    {result : MapResult} (hclient : NulFreeClient call)
    (hcase : ExecCase hashFunction map call map' result) : WellProbed hashFunction map' := by
  cases hcase with
  | refused key val hfull => exact h
  | replace key val hfull =>
      refine h.store hclient ?_
      intro x hx
      rw [Ring.dist_self] at hx
      omega
  | insert key val force hroom e he hpass hempty =>
      exact h.store hclient (hpass.not_empty he le_rfl)
  | overwrite key val force hroom e he hpass hhas stored hstored =>
      have hhold := (nodeHasKey_iff_holds h.nulFree hclient).mp hhas
      have hs : stored = some key := by rw [hstored, hhold.2, ite_self]
      subst hs
      exact h.store hclient (hpass.not_empty he le_rfl)
  | reuse key val force hroom hpass x hx htomb =>
      exact h.store hclient (hpass.not_empty hx hx.le)
  | get key => exact h
  | deleteMiss key hfind => exact { h with idle := ⟨h.idle.valid, h.idle.noReaders⟩ }
  | deleteHit key index hfind => exact h.mark (getIndex hashFunction key)
  | clearMap => exact wellProbed_createMap hashFunction

/-- The probe chains hold in every reachable state. -/
theorem wellProbed_invariant (hashFunction : List UInt8 → UInt32) :
    (mapSystem cap hashFunction NulFreeClient).Invariant (WellProbed hashFunction) where
  initial := by
    rintro map rfl
    exact wellProbed_createMap hashFunction
  step := by
    rintro map ⟨call, result⟩ map' h ⟨hclient, hexec⟩
    exact h.exec hclient (exec_case h.idle hexec)

/-- A search that follows the probe chains ends at a live slot of the key, or there is
none. -/
theorem WellProbed.findSlot_cases (h : WellProbed hashFunction map) {key : Buffer}
    (hkey : NulFree key) :
    (∃ j val, findSlot map.nodes (getIndex hashFunction key) key = some j ∧
        Holds map.nodes j key ∧ (map.nodes j).val = some val) ∨
      (findSlot map.nodes (getIndex hashFunction key) key = none ∧
        ∀ j, ¬ Holds map.nodes j key) := by
  cases hfind : findSlot map.nodes (getIndex hashFunction key) key with
  | some j =>
      have hhas := (findSlot_eq_some_iff.mp hfind).1
      have hj := (nodeHasKey_iff_holds h.nulFree hkey).mp hhas
      rcases h.value j key hj with ⟨val, hval⟩
      exact Or.inl ⟨j, val, rfl, hj, hval⟩
  | none =>
      refine Or.inr ⟨rfl, ?_⟩
      intro j hj
      have hhas := (nodeHasKey_iff_holds h.nulFree hkey).mpr hj
      rcases findSlot_eq_none hfind hhas with ⟨x, hx, hempty⟩
      rw [h.chain j key hj x hx] at hempty
      contradiction

/-- In every reachable state no empty slot stands between the home of a live key and its
slot; and {lit}`get` answers with the value of a live slot of its key if there is one, and
with the null value only if there is none. -/
theorem lookup_complete
    (hreach : (mapSystem cap hashFunction NulFreeClient).Reachable map) :
    ProbeChain hashFunction map.nodes ∧
      ∀ key, NulFree key →
        ∃ val, get hashFunction map (some key) = .ok ⟨map, val, none⟩ ∧
          ((∃ j, Holds map.nodes j key) →
            ∃ j, Holds map.nodes j key ∧ val = (map.nodes j).val) ∧
          (val = none → ∀ j, ¬ Holds map.nodes j key) := by
  have h : WellProbed hashFunction map := hreach.invariant (wellProbed_invariant hashFunction)
  refine ⟨h.chain, ?_⟩
  intro key hkey
  rw [get_of_idle h.idle]
  rcases h.findSlot_cases hkey with ⟨j, val, hfind, hj, hval⟩ | ⟨hfind, hnone⟩
  · rw [hfind]
    refine ⟨some val, by rw [Option.bind_some, hval], fun _ => ⟨j, hj, hval.symm⟩, nofun⟩
  · rw [hfind]
    refine ⟨none, rfl, ?_, fun _ => hnone⟩
    rintro ⟨j, hj⟩
    exact absurd hj (hnone j)

/-- Two keys with the home slot zero, and the displaced one deleted: the tombstone went to
slot zero, and the key is still live in slot one. -/
def displacedMap : HashMap 2 :=
  { createMap 2 with
    nodes := Function.update (Function.update (Function.update (createMap 2).nodes
      ⟨0, Nat.two_pos⟩ ⟨some (.ofByte 97), some (.ofByte 1), false⟩)
      (Fin.last 1) ⟨some (.ofByte 98), some (.ofByte 2), false⟩)
      ⟨0, Nat.two_pos⟩ ⟨some (.ofByte 97), some (.ofByte 1), true⟩
    size := 1 }

theorem displacedMap_reachable :
    (mapSystem 2 (fun _ => 0) NulFreeClient).Reachable displacedMap := by
  have hrun : (mapSystem 2 (fun _ => 0) NulFreeClient).Run (createMap 2)
      [(.put (.ofByte 97) (.ofByte 1) false, .put true),
        (.put (.ofByte 98) (.ofByte 2) false, .put true),
        (.delete (.ofByte 98),
          .delete ⟨some (.ofByte 98), some (.ofByte 2), false⟩)] displacedMap :=
    .cons ⟨by decide, rfl⟩ (.cons ⟨by decide, rfl⟩ (.cons ⟨by decide, rfl⟩ (.nil _)))
  exact hrun.reachable (.initial rfl)

/-- There {lit}`get` finds the key behind the tombstone. -/
theorem lookup_complete_displaced :
    ∃ val, get (fun _ => 0) displacedMap (some (.ofByte 98)) =
        .ok ⟨displacedMap, val, none⟩ ∧
      ∃ j, Holds displacedMap.nodes j (.ofByte 98) ∧ val = (displacedMap.nodes j).val := by
  rcases (lookup_complete displacedMap_reachable).2 (.ofByte 98) (by decide) with
    ⟨val, hget, hfound, _⟩
  exact ⟨val, hget, hfound ⟨Fin.last 1, rfl, rfl⟩⟩

end SystemFundamentals.Cream
