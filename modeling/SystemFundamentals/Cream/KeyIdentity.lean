import SystemFundamentals.Cream.CallCases

/-!
# Key identity under binary keys

The cream worker passes key bytes straight from the network, so a key may
contain zero bytes, while {lit}`get_keys_equal` compares lengths and then calls
{lit}`strcmp`, which stops at the first of them.  This file says which entries
a call uses as holding its key, and characterizes the states in which every one
of them really does.

Two things can go wrong.  A live key with the same length and the same bytes up
to the first zero is taken for the key of the call; and {lit}`delete` of a
displaced key sets its tombstone on the entry that lives in the home slot.

Main results:

- Theorem {lit}`exec_frame`: a call leaves every live entry it does not use
  alone, except the one a forced {lit}`put` evicts.
- Theorem {lit}`keyIdentity_iff`: in every reachable state, the entries a call
  uses hold exactly its key if and only if no confusable key and no foreign
  home entry stand in the way.
-/

namespace SystemFundamentals.Cream

open Library

variable {cap : Nat} [NeZero cap]

/-! ## The entries a call uses -/

/-- The client that may call anything, with any key. -/
def AnyClient : MapCall → Prop :=
  fun _ => True

/-- The key of a call. -/
def MapCall.key? : MapCall → Option Buffer
  | .put key _ _ | .get key | .delete key => some key
  | .clearMap => none

/-- The slots whose entries a call overwrites, returns or deletes as holding
its key.  {lit}`put` refuses or evicts when the counter equals the capacity;
{lit}`delete` returns the node it found and marks the one in the home slot. -/
def usedSlots (hashFunction : List UInt8 → UInt32) (map : HashMap cap) :
    MapCall → List (Fin cap)
  | .put key _ _ =>
      if UInt32.ofNat cap = map.size then []
      else (findSlot map.nodes (getIndex hashFunction key) key).toList
  | .get key => (findSlot map.nodes (getIndex hashFunction key) key).toList
  | .delete key =>
      match findSlot map.nodes (getIndex hashFunction key) key with
      | none => []
      | some index => [index, getIndex hashFunction key]
  | .clearMap => []

/-- The slot whose entry a forced {lit}`put` evicts. -/
def evictedSlot (hashFunction : List UInt8 → UInt32) (map : HashMap cap) :
    MapCall → Option (Fin cap)
  | .put key _ force =>
      if UInt32.ofNat cap = map.size ∧ force = true then some (getIndex hashFunction key)
      else none
  | _ => none

/-- Every live entry the completed call used as holding its key has the same
length and the same bytes as that key. -/
def KeyIdentity (hashFunction : List UInt8 → UInt32) (map : HashMap cap)
    (call : MapCall) : Prop :=
  ∀ map' result, exec hashFunction map call = .ok (map', result) →
    ∀ j ∈ usedSlots hashFunction map call, (map.nodes j).tombstone = false →
      (map.nodes j).key = call.key?

/-! ## Idle states -/

/-- The idle map is an invariant of every client. -/
theorem idle_invariant (hashFunction : List UInt8 → UInt32) (client : MapCall → Prop) :
    (mapSystem cap hashFunction client).Invariant Idle where
  initial := by
    rintro map rfl
    exact ⟨rfl, rfl⟩
  step := by
    rintro map ⟨call, result⟩ map' hidle ⟨_, hexec⟩
    exact (exec_case hidle hexec).idle hidle

/-- A call other than {lit}`clear_map` changes no live entry but the ones it
uses and the one it evicts. -/
theorem exec_frame {hashFunction : List UInt8 → UInt32} {map map' : HashMap cap}
    (hidle : Idle map) {call : MapCall} {result : MapResult} (hcall : call ≠ .clearMap)
    (hexec : exec hashFunction map call = .ok (map', result)) {j : Fin cap}
    {stored : Buffer} (hj : Holds map.nodes j stored)
    (hused : j ∉ usedSlots hashFunction map call)
    (hevicted : evictedSlot hashFunction map call ≠ some j) :
    map'.nodes j = map.nodes j := by
  cases exec_case hidle hexec with
  | refused => rfl
  | replace key val hsize =>
      have hne : j ≠ getIndex hashFunction key := by
        rintro rfl
        exact hevicted (by simp [evictedSlot, hsize])
      exact Function.update_of_ne hne _ _
  | insert key val force hroom e he hpass hempty =>
      refine Function.update_of_ne ?_ _ _
      rintro rfl
      have hnone := ((nodeIsEmpty_iff _).mp hempty).1
      rw [hj.2] at hnone
      contradiction
  | overwrite key val force hroom e he hpass hhas =>
      refine Function.update_of_ne ?_ _ _
      rintro rfl
      have hfind : findSlot map.nodes (getIndex hashFunction key) key =
          some (Ring.along (getIndex hashFunction key) e) :=
        findSlot_eq_some_iff.mpr ⟨hhas, by rwa [Ring.dist_along he]⟩
      exact hused (by simp [usedSlots, hroom, hfind])
  | reuse key val force hroom hpass x hx htomb =>
      refine Function.update_of_ne ?_ _ _
      rintro rfl
      rw [hj.1] at htomb
      contradiction
  | get => rfl
  | deleteMiss => rfl
  | deleteHit key index hfind =>
      have hne : j ≠ getIndex hashFunction key := by
        rintro rfl
        exact hused (by simp [usedSlots, hfind])
      exact Function.update_of_ne hne _ _
  | clearMap => exact absurd rfl hcall

/-! ## Confusable keys -/

/-- Two different keys that {lit}`get_keys_equal` cannot tell apart. -/
def Confusable (stored key : Buffer) : Prop :=
  stored ≠ key ∧ stored.bytes.length = key.bytes.length ∧
    cString stored.bytes = cString key.bytes

/-- Every live confusable key is hidden from the walk for {lit}`key` by an
empty slot or by the live entry of {lit}`key` itself. -/
def ConfusableHidden (hashFunction : List UInt8 → UInt32) (map : HashMap cap)
    (key : Buffer) : Prop :=
  ∀ j stored, Holds map.nodes j stored → Confusable stored key →
    ∃ x, x < Ring.dist (getIndex hashFunction key) j ∧
      (nodeIsEmpty (map.nodes (Ring.along (getIndex hashFunction key) x)) = true ∨
        Holds map.nodes (Ring.along (getIndex hashFunction key) x) key)

/-- The home slot of {lit}`key` is marked already, or belongs to {lit}`key`, or
every live entry of {lit}`key` lies behind an empty slot. -/
def HomeUnclaimed (hashFunction : List UInt8 → UInt32) (map : HashMap cap)
    (key : Buffer) : Prop :=
  (map.nodes (getIndex hashFunction key)).tombstone = true ∨
    (map.nodes (getIndex hashFunction key)).key = some key ∨
    ∀ j, Holds map.nodes j key → ∃ x, x < Ring.dist (getIndex hashFunction key) j ∧
      nodeIsEmpty (map.nodes (Ring.along (getIndex hashFunction key) x)) = true

/-- The condition under which a call uses only entries of its own key. -/
def NoConfusion (hashFunction : List UInt8 → UInt32) (map : HashMap cap) :
    MapCall → Prop
  | .put key _ _ =>
      UInt32.ofNat cap = map.size ∨ ConfusableHidden hashFunction map key
  | .get key => ConfusableHidden hashFunction map key
  | .delete key =>
      ConfusableHidden hashFunction map key ∧ HomeUnclaimed hashFunction map key
  | .clearMap => True

omit [NeZero cap] in
/-- A node that passes {lit}`node_has_key` holds the key or a confusable one. -/
theorem holds_or_confusable {nodes : Fin cap → MapNode} {j : Fin cap} {key : Buffer}
    (hhas : nodeHasKey (nodes j) (some key) = true) :
    Holds nodes j key ∨ ∃ stored, Holds nodes j stored ∧ Confusable stored key := by
  rcases (nodeHasKey_iff _ _).mp hhas with ⟨htomb, stored, hstored, hequal⟩
  by_cases hkey : stored = key
  · exact Or.inl ⟨htomb, hkey ▸ hstored⟩
  · exact Or.inr ⟨stored, ⟨htomb, hstored⟩, hkey, (getKeysEqual_some_iff _ _).mp hequal⟩

omit [NeZero cap] in
theorem nodeHasKey_of_confusable {nodes : Fin cap → MapNode} {j : Fin cap}
    {stored key : Buffer} (hj : Holds nodes j stored) (hconf : Confusable stored key) :
    nodeHasKey (nodes j) (some key) = true :=
  (nodeHasKey_iff _ _).mpr
    ⟨hj.1, stored, hj.2, (getKeysEqual_some_iff _ _).mpr hconf.2⟩

omit [NeZero cap] in
theorem nodeHasKey_of_holds {nodes : Fin cap → MapNode} {j : Fin cap} {key : Buffer}
    (hj : Holds nodes j key) : nodeHasKey (nodes j) (some key) = true :=
  (nodeHasKey_iff _ _).mpr ⟨hj.1, key, hj.2, getKeysEqual_refl key⟩

/-- The search finds some slot unless an empty one comes first. -/
theorem findSlot_isSome {nodes : Fin cap → MapNode} {home j : Fin cap} {key : Buffer}
    (hj : nodeHasKey (nodes j) (some key) = true)
    (hfull : ∀ x, x < Ring.dist home j → nodeIsEmpty (nodes (Ring.along home x)) = false) :
    ∃ i, findSlot nodes home key = some i := by
  cases hfind : findSlot nodes home key with
  | some i => exact ⟨i, rfl⟩
  | none =>
      rcases findSlot_eq_none hfind hj with ⟨x, hx, hempty⟩
      rw [hfull x hx] at hempty
      contradiction

/-- The slot the search answers with holds exactly the key if and only if every
confusable key is hidden. -/
theorem findSlot_holds_iff {hashFunction : List UInt8 → UInt32} {map : HashMap cap}
    {key : Buffer} :
    (∀ i, findSlot map.nodes (getIndex hashFunction key) key = some i →
        (map.nodes i).key = some key) ↔
      ConfusableHidden hashFunction map key := by
  constructor
  · intro hfound j stored hj hconf
    have hhas := nodeHasKey_of_confusable hj hconf
    by_contra hhidden
    have hfull : ∀ x, x < Ring.dist (getIndex hashFunction key) j →
        nodeIsEmpty (map.nodes (Ring.along (getIndex hashFunction key) x)) = false := by
      intro x hx
      by_contra hempty
      exact hhidden ⟨x, hx, Or.inl (Bool.eq_true_of_not_eq_false hempty)⟩
    rcases findSlot_isSome hhas hfull with ⟨i, hi⟩
    have hkey := hfound i hi
    rcases findSlot_eq_some_iff.mp hi with ⟨hhasI, hpass⟩
    have hholds : Holds map.nodes i key := ⟨((nodeHasKey_iff _ _).mp hhasI).1, hkey⟩
    -- the walk stops at the confusable entry at the latest, and not there
    have hle : Ring.dist (getIndex hashFunction key) i ≤
        Ring.dist (getIndex hashFunction key) j := by
      by_contra hlt
      have hstop := hpass _ (Nat.lt_of_not_le hlt)
      rw [Ring.along_dist, canPutKey, hhas, Bool.or_true] at hstop
      contradiction
    rcases Nat.lt_or_eq_of_le hle with hlt | heq
    · exact hhidden ⟨_, hlt, Or.inr (by rwa [Ring.along_dist])⟩
    · have hij : i = j := by
        rw [← Ring.along_dist (getIndex hashFunction key) i, heq, Ring.along_dist]
      subst hij
      exact hconf.1 (Option.some.inj (hj.2.symm.trans hkey))
  · intro hhidden i hi
    rcases findSlot_eq_some_iff.mp hi with ⟨hhas, hpass⟩
    rcases holds_or_confusable hhas with hholds | ⟨stored, hstored, hconf⟩
    · exact hholds.2
    · rcases hhidden i stored hstored hconf with ⟨x, hx, hempty | hholds⟩
      · have hstop := hpass x hx
        rw [canPutKey, hempty] at hstop
        contradiction
      · have hstop := hpass x hx
        rw [canPutKey, nodeHasKey_of_holds hholds, Bool.or_true] at hstop
        contradiction

/-- Given that the search answers with the key itself, {lit}`delete` marks an
entry of that key if and only if no other key claims the home slot. -/
theorem delete_marks_iff {hashFunction : List UInt8 → UInt32} {map : HashMap cap}
    {key : Buffer} (hhidden : ConfusableHidden hashFunction map key) :
    (∀ i, findSlot map.nodes (getIndex hashFunction key) key = some i →
        (map.nodes (getIndex hashFunction key)).tombstone = false →
        (map.nodes (getIndex hashFunction key)).key = some key) ↔
      HomeUnclaimed hashFunction map key := by
  constructor
  · intro hmarks
    by_contra hclaimed
    unfold HomeUnclaimed at hclaimed
    push Not at hclaimed
    rcases hclaimed with ⟨htomb, hkey, j, hj, hfull⟩
    rcases findSlot_isSome (nodeHasKey_of_holds hj)
      (fun x hx => Bool.eq_false_of_not_eq_true (hfull x hx)) with ⟨i, hi⟩
    exact hkey (hmarks i hi (Bool.eq_false_of_not_eq_true htomb))
  · intro hunclaimed i hi htomb
    rcases hunclaimed with hmarked | hkey | hempty
    · rw [htomb] at hmarked
      contradiction
    · exact hkey
    · rcases findSlot_eq_some_iff.mp hi with ⟨hhas, hpass⟩
      have hholds : Holds map.nodes i key :=
        ⟨((nodeHasKey_iff _ _).mp hhas).1, findSlot_holds_iff.mpr hhidden i hi⟩
      rcases hempty i hholds with ⟨x, hx, hslot⟩
      have hstop := hpass x hx
      rw [canPutKey, hslot] at hstop
      contradiction

/-! ## Calls that complete -/

/-- A {lit}`put` whose search finds a slot returns. -/
theorem putNode_of_findSlot {hashFunction : List UInt8 → UInt32} {map : HashMap cap}
    {key : Buffer} {i : Fin cap}
    (hfind : findSlot map.nodes (getIndex hashFunction key) key = some i) (val : Buffer)
    (force : Bool) : ∃ stored, putNode hashFunction map key val force = .ok stored := by
  have hcase := putNode_case hashFunction map key val force
  generalize putNode hashFunction map key val force = stored at hcase
  cases hcase with
  | replace => exact ⟨_, rfl⟩
  | insert => exact ⟨_, rfl⟩
  | overwrite => exact ⟨_, rfl⟩
  | reuse => exact ⟨_, rfl⟩
  | missing _ hpass _ =>
      have hhas := (findSlot_eq_some_iff.mp hfind).1
      have hstop := hpass _ (Ring.dist_lt (getIndex hashFunction key) i)
      rw [Ring.along_dist, canPutKey, hhas, Bool.or_true] at hstop
      contradiction

/-- On an idle map a call whose search found a slot completes. -/
theorem exec_completes {hashFunction : List UInt8 → UInt32} {map : HashMap cap}
    (hidle : Idle map) {call : MapCall} (hused : usedSlots hashFunction map call ≠ []) :
    ∃ map' result, exec hashFunction map call = .ok (map', result) := by
  cases call with
  | put key val force =>
      by_cases hsize : UInt32.ofNat cap = map.size
      · exact absurd (by simp [usedSlots, hsize]) hused
      · cases hfind : findSlot map.nodes (getIndex hashFunction key) key with
        | none => exact absurd (by simp [usedSlots, hsize, hfind]) hused
        | some i =>
            rcases putNode_of_findSlot hfind val force with ⟨stored, hstored⟩
            have hroom : ¬ (UInt32.ofNat cap = map.size ∧ force = false) :=
              fun h => hsize h.1
            simp only [exec, put_of_idle hidle, if_neg hroom, hstored]
            exact ⟨_, _, rfl⟩
  | get key =>
      simp only [exec, get_of_idle hidle]
      exact ⟨_, _, rfl⟩
  | delete key =>
      simp only [exec, delete_of_idle hidle]
      cases findSlot map.nodes (getIndex hashFunction key) key <;> exact ⟨_, _, rfl⟩
  | clearMap =>
      simp only [exec, clearMap_of_idle hidle]
      exact ⟨_, _, rfl⟩

/-- On an idle map {lit}`KeyIdentity` is a property of the used slots alone. -/
theorem keyIdentity_iff_usedSlots {hashFunction : List UInt8 → UInt32}
    {map : HashMap cap} (hidle : Idle map) (call : MapCall) :
    KeyIdentity hashFunction map call ↔
      ∀ j ∈ usedSlots hashFunction map call, (map.nodes j).tombstone = false →
        (map.nodes j).key = call.key? := by
  constructor
  · intro h j hj
    rcases exec_completes hidle (List.ne_nil_of_mem hj) with ⟨map', result, hexec⟩
    exact h map' result hexec j hj
  · intro h _ _ _ j hj
    exact h j hj

omit [NeZero cap] in
/-- The node of a found slot carries no tombstone, so only its key matters. -/
theorem forall_found_iff {nodes : Fin cap → MapNode} {home : Fin cap} {key : Buffer}
    [NeZero cap] :
    (∀ j ∈ (findSlot nodes home key).toList, (nodes j).tombstone = false →
        (nodes j).key = some key) ↔
      ∀ i, findSlot nodes home key = some i → (nodes i).key = some key := by
  constructor
  · intro h i hi
    have hhas := (findSlot_eq_some_iff.mp hi).1
    exact h i (by simp [hi]) ((nodeHasKey_iff _ _).mp hhas).1
  · intro h j hj _
    exact h j (by simpa using hj)

/-! ## The characterization -/

/-- In every reachable state and for every call, the entries the call uses hold
exactly its key if and only if {lit}`NoConfusion` holds of the state. -/
theorem keyIdentity_iff {hashFunction : List UInt8 → UInt32} {map : HashMap cap}
    (hreach : (mapSystem cap hashFunction AnyClient).Reachable map) (call : MapCall) :
    KeyIdentity hashFunction map call ↔ NoConfusion hashFunction map call := by
  have hidle : Idle map := hreach.invariant (idle_invariant hashFunction AnyClient)
  rw [keyIdentity_iff_usedSlots hidle]
  cases call with
  | put key val force =>
      by_cases hsize : UInt32.ofNat cap = map.size
      · simp [usedSlots, NoConfusion, hsize]
      · simp only [usedSlots, NoConfusion, MapCall.key?, hsize, if_false, false_or]
        rw [forall_found_iff, findSlot_holds_iff]
  | get key =>
      simp only [usedSlots, NoConfusion, MapCall.key?]
      rw [forall_found_iff, findSlot_holds_iff]
  | delete key =>
      simp only [NoConfusion, MapCall.key?]
      constructor
      · intro h
        have hfound : ∀ i, findSlot map.nodes (getIndex hashFunction key) key = some i →
            (map.nodes i).key = some key := by
          intro i hi
          have hhas := (findSlot_eq_some_iff.mp hi).1
          exact h i (by simp [usedSlots, hi]) ((nodeHasKey_iff _ _).mp hhas).1
        have hhidden := findSlot_holds_iff.mp hfound
        refine ⟨hhidden, (delete_marks_iff hhidden).mp ?_⟩
        intro i hi
        exact h _ (by simp [usedSlots, hi])
      · rintro ⟨hhidden, hunclaimed⟩ j hj htomb
        cases hfind : findSlot map.nodes (getIndex hashFunction key) key with
        | none => simp [usedSlots, hfind] at hj
        | some i =>
            simp only [usedSlots, hfind, List.mem_cons, List.not_mem_nil, or_false] at hj
            rcases hj with rfl | rfl
            · exact findSlot_holds_iff.mpr hhidden _ hfind
            · exact (delete_marks_iff hhidden).mpr hunclaimed i hfind htomb
  | clearMap => simp [usedSlots, NoConfusion]

/-- Three-byte keys that differ after a zero byte. -/
def binaryKey (last : UInt8) : Buffer :=
  ⟨[97, 0, last], by simp⟩

/-- A fresh map of capacity two after one {lit}`put` of {lit}`binaryKey 98` at
slot zero. -/
def binaryMap : HashMap 2 :=
  { createMap 2 with
    nodes := Function.update (createMap 2).nodes 0
      ⟨some (binaryKey 98), some ⟨[1], by simp⟩, false⟩
    size := 1 }

theorem binaryMap_reachable :
    (mapSystem 2 (fun _ => 0) AnyClient).Reachable binaryMap :=
  .step (a := (.put (binaryKey 98) ⟨[1], by simp⟩ false, .put true)) (.initial rfl)
    ⟨trivial, rfl⟩

/-- A {lit}`get` of the only key uses an entry of that key. -/
theorem keyIdentity_binaryMap : KeyIdentity (fun _ => 0) binaryMap (.get (binaryKey 98)) := by
  refine (keyIdentity_iff binaryMap_reachable (.get (binaryKey 98))).mpr ?_
  rintro j stored ⟨-, hkey⟩ ⟨hne, -⟩
  by_cases hj : j = 0
  · rw [hj] at hkey
    exact absurd (Option.some.inj hkey).symm hne
  · rw [show binaryMap.nodes j = .null from Function.update_of_ne hj _ _] at hkey
    cases hkey

/-- A {lit}`get` of the bytes {lit}`97 0 99` answers with the value of the key
{lit}`97 0 98`. -/
theorem not_keyIdentity :
    ¬ ∀ (cap : Nat) [NeZero cap] (hashFunction : List UInt8 → UInt32) (map : HashMap cap),
      (mapSystem cap hashFunction AnyClient).Reachable map →
        ∀ call, KeyIdentity hashFunction map call := by
  intro hall
  have hkey := hall 2 (fun _ => 0) binaryMap binaryMap_reachable (.get (binaryKey 99))
    binaryMap (.get (some ⟨[1], by simp⟩)) rfl 0 (by decide) rfl
  exact absurd hkey (by decide)

end SystemFundamentals.Cream
