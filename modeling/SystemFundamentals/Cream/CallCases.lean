import SystemFundamentals.Cream.FiniteMap

/-!
# What one call of the hash map does

The outcomes of a call on an idle map, with their guards and the map they leave.  The
invariants of the hash map are read off this list, one case per outcome, and no later proof
unfolds a call.

Main results:

- Theorem {lit}`exec_case`: a call that returns has one of the outcomes of {lit}`ExecCase`.
- Theorem {lit}`put_eq_error_iff`: only a {lit}`put` fails to return, on a map whose slots are
  all live for other keys and whose counter denies it.
-/

namespace SystemFundamentals.Cream

open Library

variable {cap : Nat} [NeZero cap]

/-- What a call that returns did, the map it leaves and its result. -/
inductive ExecCase (hashFunction : List UInt8 → UInt32) (map : HashMap cap) :
    MapCall → HashMap cap → MapResult → Prop
  /-- The counter says full and the call is not forced. -/
  | refused (key val : Buffer) (hfull : UInt32.ofNat cap = map.size) :
      ExecCase hashFunction map (.put key val false) map (.put false)
  /-- The counter says full and the home slot is replaced. -/
  | replace (key val : Buffer) (hfull : UInt32.ofNat cap = map.size) :
      ExecCase hashFunction map (.put key val true)
        { map with
          nodes := Function.update map.nodes (getIndex hashFunction key)
            ⟨some key, some val, false⟩ } (.put true)
  /-- The walk stops at an empty slot. -/
  | insert (key val : Buffer) (force : Bool) (hroom : UInt32.ofNat cap ≠ map.size) (e : Nat)
      (he : e < cap) (hpass : PassedUpTo map.nodes (getIndex hashFunction key) key e)
      (hempty : nodeIsEmpty (map.nodes (Ring.along (getIndex hashFunction key) e)) = true) :
      ExecCase hashFunction map (.put key val force)
        { map with
          nodes := Function.update map.nodes (Ring.along (getIndex hashFunction key) e)
            ⟨some key, some val, false⟩
          size := map.size + 1 } (.put true)
  /-- The walk stops at a slot with the key. -/
  | overwrite (key val : Buffer) (force : Bool) (hroom : UInt32.ofNat cap ≠ map.size) (e : Nat)
      (he : e < cap) (hpass : PassedUpTo map.nodes (getIndex hashFunction key) key e)
      (hhas : nodeHasKey (map.nodes (Ring.along (getIndex hashFunction key) e))
        (some key) = true) (stored : MapKey)
      (hstored : stored = if e = 0 then some key
        else (map.nodes (Ring.along (getIndex hashFunction key) e)).key) :
      ExecCase hashFunction map (.put key val force)
        { map with
          nodes := Function.update map.nodes (Ring.along (getIndex hashFunction key) e)
            ⟨stored, some val, false⟩
          size := map.size + 1 } (.put true)
  /-- The walk comes round and a tombstone takes the pair. -/
  | reuse (key val : Buffer) (force : Bool) (hroom : UInt32.ofNat cap ≠ map.size)
      (hpass : PassedUpTo map.nodes (getIndex hashFunction key) key cap) (x : Nat)
      (hx : x < cap)
      (htomb : (map.nodes (Ring.along (getIndex hashFunction key) x)).tombstone = true) :
      ExecCase hashFunction map (.put key val force)
        { map with
          nodes := Function.update map.nodes (Ring.along (getIndex hashFunction key) x)
            ⟨some key, some val, false⟩
          size := map.size + 1 } (.put true)
  /-- A search changes nothing. -/
  | get (key : Buffer) :
      ExecCase hashFunction map (.get key) map
        (.get ((findSlot map.nodes (getIndex hashFunction key) key).bind
          fun index => (map.nodes index).val))
  /-- A delete that finds nothing counts all the same. -/
  | deleteMiss (key : Buffer)
      (hfind : findSlot map.nodes (getIndex hashFunction key) key = none) :
      ExecCase hashFunction map (.delete key) { map with size := map.size - 1 } (.delete .null)
  /-- A delete marks the home slot, whichever slot it found. -/
  | deleteHit (key : Buffer) (index : Fin cap)
      (hfind : findSlot map.nodes (getIndex hashFunction key) key = some index) :
      ExecCase hashFunction map (.delete key)
        { map with
          nodes := Function.update map.nodes (getIndex hashFunction key)
            { map.nodes (getIndex hashFunction key) with tombstone := true }
          size := map.size - 1 } (.delete (map.nodes index))
  /-- Every slot goes through the destructor. -/
  | clearMap :
      ExecCase hashFunction map .clearMap (createMap cap)
        (.clearMap true (List.ofFn fun i => ((map.nodes i).key, (map.nodes i).val)))

/-- A call that returns has one of the outcomes of {lit}`ExecCase`. -/
theorem exec_case {hashFunction : List UInt8 → UInt32} {map map' : HashMap cap}
    (hidle : Idle map) {call : MapCall} {result : MapResult}
    (hexec : exec hashFunction map call = .ok (map', result)) :
    ExecCase hashFunction map call map' result := by
  have hreaders : map.numReaders = 0 := hidle.noReaders
  cases call with
  | put key val force =>
      simp only [exec, put_of_idle hidle] at hexec
      split_ifs at hexec with hfull
      · rcases hfull with ⟨hsize, rfl⟩
        cases hexec
        exact .refused key val hsize
      · have hroom (hnot : ¬ (UInt32.ofNat cap = map.size ∧ force = true)) :
            UInt32.ofNat cap ≠ map.size := by
          intro hsize
          cases force with
          | true => exact hnot ⟨hsize, rfl⟩
          | false => exact hfull ⟨hsize, rfl⟩
        have hcase := putNode_case hashFunction map key val force
        generalize putNode hashFunction map key val force = after at hcase hexec
        cases hcase with
        | replace hsize hforce =>
            subst hforce
            cases hexec
            simp only [← hreaders, UInt32.sub_add_cancel]
            exact .replace key val hsize
        | insert hnot e he hpass hempty =>
            cases hexec
            simp only [← hreaders]
            exact .insert key val force (hroom hnot) e he hpass hempty
        | overwrite hnot e he hpass hhas stored hstored =>
            cases hexec
            simp only [← hreaders]
            exact .overwrite key val force (hroom hnot) e he hpass hhas stored hstored
        | reuse hnot hpass x hx htomb =>
            cases hexec
            simp only [← hreaders]
            exact .reuse key val force (hroom hnot) hpass x hx htomb
        | missing => cases hexec
  | get key =>
      simp only [exec, get_of_idle hidle] at hexec
      cases hexec
      exact .get key
  | delete key =>
      simp only [exec, delete_of_idle hidle, ← hreaders] at hexec
      cases hfind : findSlot map.nodes (getIndex hashFunction key) key with
      | none =>
          rw [hfind] at hexec
          cases hexec
          exact .deleteMiss key hfind
      | some index =>
          rw [hfind] at hexec
          cases hexec
          exact .deleteHit key index hfind
  | clearMap =>
      simp only [exec, clearMap_of_idle hidle] at hexec
      cases hexec
      exact .clearMap

/-- An outcome leaves the map idle. -/
theorem ExecCase.idle {hashFunction : List UInt8 → UInt32} {map map' : HashMap cap}
    {call : MapCall} {result : MapResult} (hidle : Idle map)
    (h : ExecCase hashFunction map call map' result) : Idle map' := by
  cases h with
  | clearMap => exact ⟨rfl, rfl⟩
  | _ => exact ⟨hidle.valid, hidle.noReaders⟩

/-- On an idle map {lit}`put` fails to return exactly when every slot is live for another key
and the counter differs from the capacity. -/
theorem put_eq_error_iff {hashFunction : List UInt8 → UInt32} {map : HashMap cap}
    (hidle : Idle map) {key val : Buffer} {force : Bool} {stop : Stop} :
    put hashFunction map (some key) (some val) force = .error stop ↔
      stop = .nullDeref ∧ UInt32.ofNat cap ≠ map.size ∧
        ∀ i, (map.nodes i).tombstone = false ∧
          canPutKey (map.nodes i) (some key) = false := by
  rw [put_of_idle hidle]
  split_ifs with hfull
  · constructor
    · intro h
      cases h
    · rintro ⟨_, hsize, _⟩
      exact absurd hfull.1 hsize
  · have hcase := putNode_case hashFunction map key val force
    generalize putNode hashFunction map key val force = after at hcase
    cases hcase with
    | replace hsize _ => simp [Except.map, hsize]
    | insert _ e _ _ hempty =>
        constructor
        · intro h
          cases h
        · rintro ⟨_, _, hall⟩
          have hput := (hall (Ring.along (getIndex hashFunction key) e)).2
          rw [canPutKey, hempty, Bool.true_or] at hput
          contradiction
    | overwrite _ e _ _ hhas _ _ =>
        constructor
        · intro h
          cases h
        · rintro ⟨_, _, hall⟩
          have hput := (hall (Ring.along (getIndex hashFunction key) e)).2
          rw [canPutKey, hhas, Bool.or_true] at hput
          contradiction
    | reuse _ _ x _ htomb =>
        constructor
        · intro h
          cases h
        · rintro ⟨_, _, hall⟩
          rw [(hall _).1] at htomb
          contradiction
    | missing hnot hpass hnone =>
        have hroom : UInt32.ofNat cap ≠ map.size := by
          intro hsize
          cases force with
          | true => exact hnot ⟨hsize, rfl⟩
          | false => exact hfull ⟨hsize, rfl⟩
        have hall (i : Fin cap) : canPutKey (map.nodes i) (some key) = false := by
          have hput := hpass _ (Ring.dist_lt (getIndex hashFunction key) i)
          rwa [Ring.along_dist] at hput
        constructor
        · intro h
          cases h
          exact ⟨rfl, hroom, fun i => ⟨hnone i, hall i⟩⟩
        · rintro ⟨rfl, _, _⟩
          rfl

end SystemFundamentals.Cream
