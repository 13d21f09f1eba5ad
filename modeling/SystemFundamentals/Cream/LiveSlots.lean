import SystemFundamentals.Library.Tally
import SystemFundamentals.Cream.CallCases
import SystemFundamentals.Cream.KeyIdentity
import Mathlib.Data.Finset.Lattice.Fold

/-!
# The size counter and the live slots

The field {lit}`size` is meant to be the number of live slots.  This file says how each call
moves the two numbers, and characterizes the runs that keep them equal and those that keep
the counter from falling behind.  The second kind is what {lit}`put` needs: it trusts the
counter to say whether a slot is left.

Main results:

- Theorem {lit}`ExecCase.count`: how a call moves the counter and the number of live slots.
- Theorem {lit}`sizeAccurate_of_countsRight`: the counter is accurate along the runs whose
  calls count right, and only a call that counts right keeps it so.
- Theorem {lit}`tombstone_of_keepsSlack`: along the runs whose deletes keep the counter from
  falling behind, {lit}`put` never misses a tombstone; after any other delete it can.
- Theorem {lit}`map_refines_finiteMap`: along the runs whose deletes also find their key at
  home, every call returns and the results are those of the finite map.
-/

namespace SystemFundamentals.Cream

open Library

variable {cap : Nat} [NeZero cap] {hashFunction : List UInt8 → UInt32} {map map' : HashMap cap}

/-! ## Live slots -/

/-- A node with a key and without a tombstone. -/
def MapNode.live (node : MapNode) : Bool :=
  node.key.isSome && !node.tombstone

/-- The number of live slots. -/
def liveCount (map : HashMap cap) : Nat :=
  tally MapNode.live map.nodes

theorem live_of_empty {node : MapNode} (h : nodeIsEmpty node = true) : node.live = false := by
  simp [MapNode.live, ((nodeIsEmpty_iff node).mp h).1]

theorem live_of_hasKey {node : MapNode} {key : Buffer}
    (h : nodeHasKey node (some key) = true) : node.live = true := by
  rcases (nodeHasKey_iff node key).mp h with ⟨htomb, stored, hstored, _⟩
  simp [MapNode.live, htomb, hstored]

theorem live_of_tombstone {node : MapNode} (h : node.tombstone = true) : node.live = false := by
  simp [MapNode.live, h]

/-- A slot that is neither empty nor marked is live. -/
theorem live_of_not_empty {node : MapNode} (htomb : node.tombstone = false)
    (hempty : nodeIsEmpty node = false) : node.live = true := by
  rcases node with ⟨_ | key, val, tombstone⟩
  · simp_all [nodeIsEmpty]
  · simpa [MapNode.live] using htomb

omit [NeZero cap] in
theorem liveCount_le (map : HashMap cap) : liveCount map ≤ cap := by
  have hle : tally MapNode.live map.nodes ≤ Fintype.card (Fin cap) := tally_le_card
  rwa [Fintype.card_fin] at hle

omit [NeZero cap] in
theorem liveCount_eq_cap_iff {map : HashMap cap} :
    liveCount map = cap ↔ ∀ i, (map.nodes i).live = true := by
  have hiff : tally MapNode.live map.nodes = Fintype.card (Fin cap) ↔ _ := tally_eq_card_iff
  rwa [Fintype.card_fin] at hiff

/-! ## The calls that count right -/

/-- Some live slot holds the key in the sense of {lit}`node_has_key`, and no empty slot comes
before it on the way from the key's home. -/
def Present (hashFunction : List UInt8 → UInt32) (map : HashMap cap) (key : Buffer) : Prop :=
  ∃ j, nodeHasKey (map.nodes j) (some key) = true ∧
    ∀ x, x < Ring.dist (getIndex hashFunction key) j →
      nodeIsEmpty (map.nodes (Ring.along (getIndex hashFunction key) x)) = false

/-- The search finds the keys that are present. -/
theorem present_iff {key : Buffer} : Present hashFunction map key ↔
    ∃ i, findSlot map.nodes (getIndex hashFunction key) key = some i := by
  constructor
  · rintro ⟨j, hj, hfull⟩
    exact findSlot_isSome hj hfull
  · rintro ⟨i, hi⟩
    rcases findSlot_eq_some_iff.mp hi with ⟨hhas, hpass⟩
    exact ⟨i, hhas, fun x hx => (Bool.or_eq_false_iff.mp (hpass x hx)).1⟩

theorem not_present_of_findSlot {key : Buffer}
    (h : findSlot map.nodes (getIndex hashFunction key) key = none) :
    ¬ Present hashFunction map key := by
  rw [present_iff, h]
  rintro ⟨i, hi⟩
  cases hi

/-- The calls that move the counter as they move the live slots: a {lit}`put` that finds the
counter at the capacity or brings a new key, and a {lit}`delete` of a present key whose home
slot is not marked yet. -/
def CountsRight (hashFunction : List UInt8 → UInt32) (map : HashMap cap) : MapCall → Prop
  | .put key _ _ => UInt32.ofNat cap = map.size ∨ ¬ Present hashFunction map key
  | .delete key =>
      Present hashFunction map key ∧
        (map.nodes (getIndex hashFunction key)).tombstone = false
  | .get _ | .clearMap => True

/-- How a call moves the counter and the number of live slots. -/
inductive CountCase (hashFunction : List UInt8 → UInt32) (map : HashMap cap) :
    MapCall → HashMap cap → Prop
  | searched {key : Buffer} : CountCase hashFunction map (.get key) map
  /-- A {lit}`put` is refused or replaces its live home slot. -/
  | full {key val : Buffer} {force : Bool} {map' : HashMap cap}
      (hfull : UInt32.ofNat cap = map.size) (hsize : map'.size = map.size)
      (hlive : liveCount map' = liveCount map) :
      CountCase hashFunction map (.put key val force) map'
  /-- A forced {lit}`put` revives its home slot. -/
  | revived {key val : Buffer} {map' : HashMap cap} (hfull : UInt32.ofNat cap = map.size)
      (hdead : (map.nodes (getIndex hashFunction key)).live = false)
      (hsize : map'.size = map.size) (hlive : liveCount map' = liveCount map + 1) :
      CountCase hashFunction map (.put key val true) map'
  | entered {key val : Buffer} {force : Bool} {map' : HashMap cap}
      (hroom : UInt32.ofNat cap ≠ map.size) (habsent : ¬ Present hashFunction map key)
      (hsize : map'.size = map.size + 1) (hlive : liveCount map' = liveCount map + 1) :
      CountCase hashFunction map (.put key val force) map'
  | overwritten {key val : Buffer} {force : Bool} {map' : HashMap cap}
      (hroom : UInt32.ofNat cap ≠ map.size) (hpresent : Present hashFunction map key)
      (hsize : map'.size = map.size + 1) (hlive : liveCount map' = liveCount map) :
      CountCase hashFunction map (.put key val force) map'
  /-- A {lit}`delete` that finds nothing, or that marks a marked slot again. -/
  | missed {key : Buffer} {map' : HashMap cap}
      (hmiss : ¬ CountsRight hashFunction map (.delete key))
      (hsize : map'.size = map.size - 1) (hlive : liveCount map' = liveCount map) :
      CountCase hashFunction map (.delete key) map'
  | removed {key : Buffer} {map' : HashMap cap}
      (hright : CountsRight hashFunction map (.delete key))
      (hsize : map'.size = map.size - 1) (hlive : liveCount map' + 1 = liveCount map) :
      CountCase hashFunction map (.delete key) map'
  | cleared {map' : HashMap cap} (hsize : map'.size = 0) (hlive : liveCount map' = 0) :
      CountCase hashFunction map .clearMap map'

theorem ExecCase.count {call : MapCall} {result : MapResult}
    (hcase : ExecCase hashFunction map call map' result) :
    CountCase hashFunction map call map' := by
  cases hcase with
  | refused key val hfull => exact .full hfull rfl rfl
  | replace key val hfull =>
      cases hlive : (map.nodes (getIndex hashFunction key)).live with
      | true => exact .full hfull rfl (tally_update_same (by rw [hlive]; rfl))
      | false => exact .revived hfull hlive rfl (tally_update_enter hlive rfl)
  | insert key val force hroom e he hpass hempty =>
      have hfind := findSlot_eq_none_of_passed he.le hpass (Or.inr hempty)
      exact .entered hroom (not_present_of_findSlot hfind) rfl
        (tally_update_enter (live_of_empty hempty) rfl)
  | overwrite key val force hroom e he hpass hhas stored hstored =>
      have hfind : findSlot map.nodes (getIndex hashFunction key) key =
          some (Ring.along (getIndex hashFunction key) e) :=
        findSlot_eq_some_iff.mpr ⟨hhas, by rwa [Ring.dist_along he]⟩
      have hnew : MapNode.live ⟨stored, some val, false⟩ = true := by
        rcases (nodeHasKey_iff _ _).mp hhas with ⟨_, k, hk, _⟩
        rw [hstored, hk]
        split <;> rfl
      exact .overwritten hroom (present_iff.mpr ⟨_, hfind⟩) rfl
        (tally_update_same (by rw [hnew, live_of_hasKey hhas]))
  | reuse key val force hroom hpass x hx htomb =>
      have hfind := findSlot_eq_none_of_passed le_rfl hpass (Or.inl rfl)
      exact .entered hroom (not_present_of_findSlot hfind) rfl
        (tally_update_enter (live_of_tombstone htomb) rfl)
  | get key => exact .searched
  | deleteMiss key hfind =>
      exact .missed (fun h => not_present_of_findSlot hfind h.1) rfl rfl
  | deleteHit key index hfind =>
      cases htomb : (map.nodes (getIndex hashFunction key)).tombstone with
      | true =>
          refine .missed (fun h => ?_) rfl ?_
          · rw [h.2] at htomb
            contradiction
          · exact tally_update_same (by simp [MapNode.live, htomb])
      | false =>
          have hhome : nodeIsEmpty (map.nodes (getIndex hashFunction key)) = false := by
            by_contra hempty
            simp [findSlot, Bool.eq_true_of_not_eq_false hempty] at hfind
          exact .removed ⟨present_iff.mpr ⟨index, hfind⟩, htomb⟩ rfl
            (tally_update_leave (live_of_not_empty htomb hhome) (by simp [MapNode.live]))
  | clearMap => exact .cleared rfl (tally_const_of_fail rfl)

/-! ## Accurate counters -/

/-- The counter is the number of live slots. -/
def SizeAccurate (map : HashMap cap) : Prop :=
  map.size.toNat = liveCount map

/-- A call keeps an accurate counter accurate exactly when it counts right. -/
theorem CountCase.sizeAccurate_iff (hcap : cap < 2 ^ 32) (h : SizeAccurate map)
    {call : MapCall} (hcase : CountCase hashFunction map call map') :
    SizeAccurate map' ↔ CountsRight hashFunction map call := by
  have hle := liveCount_le map
  have hle' := liveCount_le map'
  have hsize : map.size.toNat = liveCount map := h
  have hofNat : (UInt32.ofNat cap).toNat = cap := UInt32.toNat_ofNat_of_lt' hcap
  have hone : (1 : UInt32).toNat = 1 := rfl
  unfold SizeAccurate
  cases hcase with
  | searched => exact iff_of_true hsize trivial
  | full hfull hsame hlive =>
      rw [hsame, hlive]
      exact iff_of_true hsize (Or.inl hfull)
  | revived hfull hdead hsame hlive =>
      -- an accurate counter at the capacity leaves no dead slot
      have hlt := tally_lt_card hdead
      rw [Fintype.card_fin] at hlt
      rw [← hfull, hofNat] at hsize
      exact absurd hlt (by rw [← liveCount, ← hsize]; exact lt_irrefl _)
  | entered hroom habsent hsame hlive =>
      refine iff_of_true ?_ (Or.inr habsent)
      rw [hsame, UInt32.toNat_add, hsize, hlive]
      exact Nat.mod_eq_of_lt (by omega)
  | overwritten hroom hpresent hsame hlive =>
      refine iff_of_false ?_ ?_
      · rw [hsame, UInt32.toNat_add, hsize, hlive, hone]
        omega
      · rintro (hfull | habsent)
        · exact hroom hfull
        · exact habsent hpresent
  | missed hmiss hsame hlive =>
      refine iff_of_false ?_ hmiss
      rw [hsame, UInt32.toNat_sub, hsize, hlive, hone]
      omega
  | removed hright hsame hlive =>
      refine iff_of_true ?_ hright
      rw [hsame, UInt32.toNat_sub, hsize, hone]
      omega
  | cleared hsame hlive =>
      rw [hsame, hlive]
      exact iff_of_true rfl trivial

omit [NeZero cap] in
theorem liveCount_createMap : liveCount (createMap cap) = 0 :=
  tally_const_of_fail rfl

/-- Along runs whose calls count right the counter is the number of live slots, so it is at
most the capacity; and a call that does not count right makes an accurate counter wrong. -/
theorem sizeAccurate_of_countsRight (hashFunction : List UInt8 → UInt32)
    (hcap : cap < 2 ^ 32) :
    (∀ map, ((mapSystem cap hashFunction AnyClient).guarded
        fun map label => CountsRight hashFunction map label.1).Reachable map →
      SizeAccurate map ∧ map.size.toNat ≤ cap) ∧
    ∀ map, (mapSystem cap hashFunction AnyClient).Reachable map → SizeAccurate map →
      ∀ call map' result, exec hashFunction map call = .ok (map', result) →
        (SizeAccurate map' ↔ CountsRight hashFunction map call) := by
  constructor
  · intro map hreach
    have haccurate : SizeAccurate map := by
      induction hreach with
      | initial h =>
          cases h
          exact liveCount_createMap.symm
      | step hreach hstep ih =>
          rcases hstep with ⟨hright, _, hexec⟩
          have hidle := hreach.of_guarded.invariant (idle_invariant hashFunction AnyClient)
          exact ((exec_case hidle hexec).count.sizeAccurate_iff hcap ih).mpr hright
    exact ⟨haccurate, haccurate.trans_le (liveCount_le map)⟩
  · intro map hreach haccurate call map' result hexec
    have hidle := hreach.invariant (idle_invariant hashFunction AnyClient)
    exact (exec_case hidle hexec).count.sizeAccurate_iff hcap haccurate

/-- One call after another, the counter of {lit}`binaryMap` is right. -/
theorem sizeAccurate_binaryMap : SizeAccurate binaryMap := by
  refine ((sizeAccurate_of_countsRight (fun _ => 0) (by decide)).1 binaryMap ?_).1
  exact .step (a := (MapCall.put (binaryKey 98) (.ofByte 1) false, MapResult.put true))
    (.initial rfl) ⟨Or.inr (not_present_of_findSlot rfl), trivial, rfl⟩

/-- The {lit}`delete` of an absent key on a fresh map wraps the counter. -/
theorem not_sizeAccurate :
    ¬ ∀ (cap : Nat) [NeZero cap], cap < 2 ^ 31 →
      ∀ (hashFunction : List UInt8 → UInt32) (map : HashMap cap),
        (mapSystem cap hashFunction AnyClient).Reachable map →
          SizeAccurate map ∧ map.size.toNat ≤ cap := by
  intro hall
  have hreach : (mapSystem 1 (fun _ => 0) AnyClient).Reachable
      { createMap 1 with size := 0 - 1 } :=
    .step (a := (MapCall.delete (binaryKey 98), MapResult.delete .null)) (.initial rfl)
      ⟨trivial, rfl⟩
  exact absurd (hall 1 (by decide) (fun _ => 0) _ hreach).2 (by decide)

/-! ## Counters that do not fall behind -/

/-- The counter lies between the number of live slots and the capacity. -/
structure InStep (map : HashMap cap) : Prop where
  live_le : liveCount map ≤ map.size.toNat
  le_cap : map.size.toNat ≤ cap

/-- The deletes that keep the counter from falling behind the live slots: those that count
right, and any other as long as overwriting calls have put the counter ahead. -/
def KeepsSlack (hashFunction : List UInt8 → UInt32) (map : HashMap cap) : MapCall → Prop
  | .delete key =>
      CountsRight hashFunction map (.delete key) ∨ liveCount map < map.size.toNat
  | .put _ _ _ | .get _ | .clearMap => True

omit [NeZero cap] in
theorem toNat_size_ne (hroom : UInt32.ofNat cap ≠ map.size) : map.size.toNat ≠ cap := by
  intro hcap
  have hsize := congrArg UInt32.ofNat hcap
  rw [UInt32.ofNat_toNat] at hsize
  exact hroom hsize.symm

theorem CountCase.inStep (hcap : cap < 2 ^ 32) (h : InStep map) {call : MapCall}
    (hslack : KeepsSlack hashFunction map call)
    (hcase : CountCase hashFunction map call map') : InStep map' := by
  rcases h with ⟨hlive, hle⟩
  have hlive' := liveCount_le map'
  have hone : (1 : UInt32).toNat = 1 := rfl
  cases hcase with
  | searched => exact ⟨hlive, hle⟩
  | full _ hsize hcount => exact ⟨by rwa [hsize, hcount], by rwa [hsize]⟩
  | revived hfull _ hsize hcount =>
      have hofNat : (UInt32.ofNat cap).toNat = cap := UInt32.toNat_ofNat_of_lt' hcap
      rw [hfull] at hofNat
      exact ⟨by rw [hsize, hofNat]; exact hlive', by rwa [hsize]⟩
  | entered hroom _ hsize hcount =>
      have hne := toNat_size_ne hroom
      have hnext : map'.size.toNat = map.size.toNat + 1 := by
        rw [hsize, UInt32.toNat_add, hone]
        omega
      exact ⟨by omega, by omega⟩
  | overwritten hroom _ hsize hcount =>
      have hne := toNat_size_ne hroom
      have hnext : map'.size.toNat = map.size.toNat + 1 := by
        rw [hsize, UInt32.toNat_add, hone]
        omega
      exact ⟨by omega, by omega⟩
  | missed hmiss hsize hcount =>
      have hlt := hslack.resolve_left hmiss
      have hnext : map'.size.toNat + 1 = map.size.toNat := by
        rw [hsize, UInt32.toNat_sub, hone]
        omega
      exact ⟨by omega, by omega⟩
  | removed _ hsize hcount =>
      have hnext : map'.size.toNat + 1 = map.size.toNat := by
        rw [hsize, UInt32.toNat_sub, hone]
        omega
      exact ⟨by omega, by omega⟩
  | cleared hsize hcount =>
      exact ⟨by rw [hcount]; exact Nat.zero_le _, by rw [hsize]; exact Nat.zero_le _⟩

/-- A slot that cannot take the key and carries no tombstone is live. -/
theorem live_of_cannotPut {node : MapNode} {key : Buffer} (htomb : node.tombstone = false)
    (hput : canPutKey node (some key) = false) : node.live = true :=
  live_of_not_empty htomb (Bool.or_eq_false_iff.mp hput).1

/-- A counter in step with the live slots sends {lit}`put` to a slot. -/
theorem InStep.put_ne_nullDeref (hidle : Idle map) (h : InStep map) (key val : Buffer)
    (force : Bool) : put hashFunction map (some key) (some val) force ≠ .error .nullDeref := by
  intro herror
  rcases (put_eq_error_iff hidle).mp herror with ⟨_, hroom, hall⟩
  have hfull : liveCount map = cap :=
    liveCount_eq_cap_iff.mpr fun i => live_of_cannotPut (hall i).1 (hall i).2
  have hne := toNat_size_ne hroom
  have hlive := h.live_le
  have hle := h.le_cap
  omega

/-- The runs whose deletes keep the counter from falling behind. -/
def slackSystem (cap : Nat) [NeZero cap] (hashFunction : List UInt8 → UInt32) :
    System (HashMap cap) (MapCall × MapResult) :=
  (mapSystem cap hashFunction AnyClient).guarded
    fun map label => KeepsSlack hashFunction map label.1

theorem inStep_invariant (hcap : cap < 2 ^ 32) :
    (slackSystem cap hashFunction).Invariant fun map => Idle map ∧ InStep map where
  initial := by
    rintro map rfl
    exact ⟨⟨rfl, rfl⟩, by rw [liveCount_createMap]; exact Nat.zero_le _, Nat.zero_le _⟩
  step := by
    rintro map ⟨call, result⟩ map' ⟨hidle, h⟩ ⟨hslack, _, hexec⟩
    have hcase := exec_case hidle hexec
    exact ⟨hcase.idle hidle, hcase.count.inStep hcap h hslack⟩

/-! ## After the counter has fallen behind -/

omit [NeZero cap] in
/-- Some key is equal to no key in the table. -/
theorem exists_newKey (nodes : Fin cap → MapNode) :
    ∃ key : Buffer, ∀ i, nodeHasKey (nodes i) (some key) = false := by
  let length : Fin cap → Nat := fun i => ((nodes i).key.map fun key => key.bytes.length).getD 0
  refine ⟨⟨List.replicate (Finset.univ.sup length + 1) 1, by simp⟩, ?_⟩
  intro i
  by_contra hhas
  rcases (nodeHasKey_iff _ _).mp (Bool.eq_true_of_not_eq_false hhas) with
    ⟨_, stored, hstored, hequal⟩
  have hlength := ((getKeysEqual_some_iff _ _).mp hequal).1
  have hle : stored.bytes.length ≤ Finset.univ.sup length :=
    calc
      stored.bytes.length = length i := by simp [length, hstored]
      _ ≤ Finset.univ.sup length := Finset.le_sup (Finset.mem_univ i)
  rw [List.length_replicate] at hlength
  omega

/-- The counter is one short of the number of live slots. -/
def OneShort (map : HashMap cap) : Prop :=
  map.size + 1 = UInt32.ofNat (liveCount map)

omit [NeZero cap] in
theorem OneShort.size_ne_cap (hcap : cap < 2 ^ 31) (h : OneShort map) :
    UInt32.ofNat cap ≠ map.size := by
  intro hfull
  have hone : (1 : UInt32).toNat = 1 := rfl
  have hle := liveCount_le map
  have hshort := congrArg UInt32.toNat h
  rw [← hfull, UInt32.toNat_add, hone, UInt32.toNat_ofNat_of_lt' (show cap < 2 ^ 32 by omega),
    UInt32.toNat_ofNat_of_lt' (show liveCount map < 2 ^ 32 by omega)] at hshort
  omega

/-- A new key takes a slot and leaves the counter one short. -/
theorem OneShort.put_newKey (hcap : cap < 2 ^ 31) (hidle : Idle map) (h : OneShort map)
    {key : Buffer} (hnew : ∀ i, nodeHasKey (map.nodes i) (some key) = false)
    {reply : Reply cap Bool}
    (hput : put hashFunction map (some key) (some key) false = .ok reply) :
    Idle reply.self ∧ OneShort reply.self ∧
      liveCount reply.self = liveCount map + 1 := by
  have hexec : exec hashFunction map (.put key key false) =
      .ok (reply.self, .put reply.ret) := by
    simp only [exec, hput]
    rfl
  have hcase := exec_case hidle hexec
  refine ⟨hcase.idle hidle, ?_⟩
  cases hcase.count with
  | full hfull => exact absurd hfull (h.size_ne_cap hcap)
  | entered _ _ hsize hlive =>
      refine ⟨?_, hlive⟩
      rw [OneShort, hsize, hlive, UInt32.ofNat_add, ← h]
      rfl
  | overwritten _ hpresent =>
      rcases hpresent with ⟨j, hj, _⟩
      rw [hnew j] at hj
      contradiction

/-- With the counter one short, new keys fill the table before the counter says so, and the
next one finds no slot and no tombstone. -/
theorem OneShort.exists_nullDeref (hcap : cap < 2 ^ 31) (n : Nat) (hidle : Idle map)
    (hcount : liveCount map + n = cap) (h : OneShort map) :
    ∃ labels map', (mapSystem cap hashFunction AnyClient).Run map labels map' ∧
      ∃ key val force,
        put hashFunction map' (some key) (some val) force = .error .nullDeref := by
  induction n generalizing map with
  | zero =>
      rcases exists_newKey map.nodes with ⟨key, hnew⟩
      refine ⟨[], map, .nil map, key, key, false, ?_⟩
      refine (put_eq_error_iff hidle).mpr ⟨rfl, h.size_ne_cap hcap, fun i => ?_⟩
      have hlive : (map.nodes i).live = true := liveCount_eq_cap_iff.mp hcount i
      refine ⟨by simpa using (Bool.and_eq_true_iff.mp hlive).2,
        Bool.or_eq_false_iff.mpr ⟨?_, hnew i⟩⟩
      by_contra hempty
      rw [live_of_empty (Bool.eq_true_of_not_eq_false hempty)] at hlive
      contradiction
  | succ n ih =>
      rcases exists_newKey map.nodes with ⟨key, hnew⟩
      cases hput : put hashFunction map (some key) (some key) false with
      | error stop =>
          rcases (put_eq_error_iff hidle).mp hput with ⟨rfl, _⟩
          exact ⟨[], map, .nil map, key, key, false, hput⟩
      | ok reply =>
          rcases h.put_newKey hcap hidle hnew hput with ⟨hidle', hshort, hlive⟩
          rcases ih hidle' (by omega) hshort with ⟨labels, map', hrun, hcrash⟩
          refine ⟨(.put key key false, .put reply.ret) :: labels, map', .cons ?_ hrun, hcrash⟩
          exact ⟨trivial, by simp only [exec, hput]; rfl⟩

/-- A delete that lets the counter fall behind leaves it one short. -/
theorem CountCase.oneShort (h : InStep map) {key : Buffer}
    (hslack : ¬ KeepsSlack hashFunction map (.delete key))
    (hcase : CountCase hashFunction map (.delete key) map') : OneShort map' := by
  have hle := h.live_le
  cases hcase with
  | missed _ hsize hlive =>
      have hlt : ¬ liveCount map < map.size.toNat := fun hlt => hslack (Or.inr hlt)
      have hexact : liveCount map = map.size.toNat := by omega
      rw [OneShort, hsize, hlive, UInt32.sub_add_cancel, hexact, UInt32.ofNat_toNat]
  | removed hright => exact absurd (Or.inl hright) hslack

/-- Along runs whose deletes keep the counter from falling behind the live slots, {lit}`put`
never comes round without a tombstone.  After any other delete there are calls that lead to
such a {lit}`put`. -/
theorem tombstone_of_keepsSlack (hashFunction : List UInt8 → UInt32) (hcap : cap < 2 ^ 31) :
    (∀ map, (slackSystem cap hashFunction).Reachable map → ∀ key val force,
      put hashFunction map (some key) (some val) force ≠ .error .nullDeref) ∧
    ∀ map, (slackSystem cap hashFunction).Reachable map → ∀ key,
      ¬ KeepsSlack hashFunction map (.delete key) → ∀ map' result,
        exec hashFunction map (.delete key) = .ok (map', result) →
          ∃ labels map'', (mapSystem cap hashFunction AnyClient).Run map' labels map'' ∧
            ∃ key val force,
              put hashFunction map'' (some key) (some val) force = .error .nullDeref := by
  have hcap' : cap < 2 ^ 32 := by omega
  constructor
  · intro map hreach key val force
    rcases hreach.invariant (inStep_invariant hcap') with ⟨hidle, h⟩
    exact h.put_ne_nullDeref hidle key val force
  · intro map hreach key hslack map' result hexec
    rcases hreach.invariant (inStep_invariant hcap') with ⟨hidle, h⟩
    have hcase := exec_case hidle hexec
    have hle := liveCount_le map'
    exact (hcase.count.oneShort h hslack).exists_nullDeref hcap (cap - liveCount map')
      (hcase.idle hidle) (by omega)

/-- One slot: after the {lit}`delete` of its key it takes another one. -/
theorem tombstone_reused :
    put (fun _ => 0) { createMap 1 with
        nodes := Function.update (Function.update (createMap 1).nodes 0
          ⟨some (.ofByte 97), some (.ofByte 1), false⟩) 0
            ⟨some (.ofByte 97), some (.ofByte 1), true⟩
        size := 0 } (some (.ofByte 98)) (some (.ofByte 2)) true ≠ .error .nullDeref := by
  refine (tombstone_of_keepsSlack (fun _ => 0) (by decide)).1 _ ?_ _ _ true
  have hrun : (slackSystem 1 (fun _ => 0)).Run (createMap 1)
      [(.put (.ofByte 97) (.ofByte 1) false, .put true),
        (.delete (.ofByte 97), .delete ⟨some (.ofByte 97), some (.ofByte 1), false⟩)] _ :=
    .cons ⟨trivial, trivial, rfl⟩
      (.cons ⟨Or.inl ⟨present_iff.mpr ⟨0, rfl⟩, rfl⟩, trivial, rfl⟩ (.nil _))
  exact hrun.reachable (.initial rfl)

/-- One slot: after the {lit}`delete` of an absent key the counter says that it is free. -/
theorem not_tombstone :
    ¬ ∀ (cap : Nat) [NeZero cap], cap < 2 ^ 31 →
      ∀ (hashFunction : List UInt8 → UInt32) (map : HashMap cap),
        (mapSystem cap hashFunction AnyClient).Reachable map → ∀ key val force,
          put hashFunction map (some key) (some val) force ≠ .error .nullDeref := by
  intro hall
  have hrun : (mapSystem 1 (fun _ => 0) AnyClient).Run (createMap 1)
      [(.put (.ofByte 97) (.ofByte 1) false, .put true),
        (.delete (.ofByte 98), .delete .null)]
      { createMap 1 with
        nodes := Function.update (createMap 1).nodes 0
          ⟨some (.ofByte 97), some (.ofByte 1), false⟩
        size := 0 } :=
    .cons ⟨trivial, rfl⟩ (.cons ⟨trivial, rfl⟩ (.nil _))
  exact hall 1 (by decide) (fun _ => 0) _ (hrun.reachable (.initial rfl)) (.ofByte 98)
    (.ofByte 2) false rfl

/-! ## The refinement of the finite map -/

/-- The deletes that a client may make of a finite map: they find their key in no slot but its
home slot, and they keep the counter from falling behind. -/
def DeletesSafely (hashFunction : List UInt8 → UInt32) (map : HashMap cap)
    (call : MapCall) : Prop :=
  DeletesAtHome hashFunction map call ∧ KeepsSlack hashFunction map call

/-- The runs of the plain client with such deletes only. -/
def safeSystem (cap : Nat) [NeZero cap] (hashFunction : List UInt8 → UInt32) :
    System (HashMap cap) (MapCall × MapResult) :=
  (mapSystem cap hashFunction PlainClient).guarded
    fun map label => DeletesSafely hashFunction map label.1

theorem safeSystem_inStep (hcap : cap < 2 ^ 32)
    (hreach : (safeSystem cap hashFunction).Reachable map) : Idle map ∧ InStep map := by
  have hslack : (slackSystem cap hashFunction).Reachable map :=
    .mono (S := safeSystem cap hashFunction) (fun hinitial => hinitial)
      (fun hstep => ⟨hstep.1.2, trivial, hstep.2.2⟩) hreach
  exact (hslack.invariant (inStep_invariant hcap) :)

/-- With the counter in step every call returns. -/
theorem InStep.exec_returns (hidle : Idle map) (h : InStep map) (call : MapCall) :
    ∃ map' result, exec hashFunction map call = .ok (map', result) := by
  cases call with
  | put key val force =>
      cases hput : put hashFunction map (some key) (some val) force with
      | error stop =>
          have hstop := ((put_eq_error_iff hidle).mp hput).1
          exact absurd (hstop ▸ hput) (h.put_ne_nullDeref hidle key val force)
      | ok reply => exact ⟨_, _, by simp only [exec, hput]; rfl⟩
  | get key => exact ⟨_, _, by simp only [exec, get_of_idle hidle]; rfl⟩
  | delete key =>
      simp only [exec, delete_of_idle hidle]
      cases findSlot map.nodes (getIndex hashFunction key) key with
      | none => exact ⟨_, _, rfl⟩
      | some index => exact ⟨_, _, rfl⟩
  | clearMap => exact ⟨_, _, by simp only [exec, clearMap_of_idle hidle]; rfl⟩

/-- Along runs whose deletes find their key at home and keep the counter from falling behind,
the hash map is the finite map: every trace is one of {lit}`finiteMap`, and every call
returns. -/
theorem map_refines_finiteMap (cap : Nat) [NeZero cap] (hcap : cap < 2 ^ 31)
    (hashFunction : List UInt8 → UInt32) :
    (∀ labels, (safeSystem cap hashFunction).Trace labels → finiteMap.Trace labels) ∧
    ∀ map, (safeSystem cap hashFunction).Reachable map → ∀ call,
      ∃ map' result, exec hashFunction map call = .ok (map', result) := by
  have hsim : (safeSystem cap hashFunction).Simulation finiteMap (Represents hashFunction) :=
    (mapSystem_simulates_finiteMap hashFunction).strengthen And.left
  constructor
  · exact fun labels htrace => hsim.trace htrace
  · intro map hreach call
    rcases safeSystem_inStep (by omega) hreach with ⟨hidle, h⟩
    exact h.exec_returns hidle call

/-- Two keys share a home slot, and the one that lives there is deleted. -/
theorem map_refines_finiteMap_homeDelete :
    finiteMap.Trace
      [(.put ⟨[97], by simp⟩ ⟨[1], by simp⟩ false, .put true),
        (.put ⟨[98], by simp⟩ ⟨[2], by simp⟩ false, .put true),
        (.delete ⟨[97], by simp⟩,
          .delete ⟨some ⟨[97], by simp⟩, some ⟨[1], by simp⟩, false⟩),
        (.get ⟨[98], by simp⟩, .get (some ⟨[2], by simp⟩))] := by
  apply (map_refines_finiteMap 2 (by decide) fun _ => 0).1
  have hput (map : HashMap 2) (key val : Buffer) :
      DeletesSafely (fun _ => 0) map (.put key val false) := ⟨trivial, trivial⟩
  exact ⟨createMap 2, _, rfl,
    .cons ⟨hput _ _ _, by decide, rfl⟩
      (.cons ⟨hput _ _ _, by decide, rfl⟩
        (.cons ⟨⟨by unfold DeletesAtHome; decide, Or.inl ⟨present_iff.mpr ⟨0, rfl⟩, rfl⟩⟩,
            by decide, rfl⟩
          (.cons ⟨⟨trivial, trivial⟩, by decide, rfl⟩ (.nil _))))⟩

/-- Deleting a displaced key leaves it readable: the tombstone went to the home
slot, which belongs to another key. -/
theorem map_not_refines_finiteMap :
    ¬ ∀ (cap : Nat) [NeZero cap], cap < 2 ^ 31 →
      ∀ (hashFunction : List UInt8 → UInt32) (labels : List (MapCall × MapResult)),
        (mapSystem cap hashFunction PlainClient).Trace labels → finiteMap.Trace labels := by
  intro hall
  have htrace := hall 2 (by decide) (fun _ => 0)
    [(.put ⟨[97], by simp⟩ ⟨[1], by simp⟩ false, .put true),
      (.put ⟨[98], by simp⟩ ⟨[2], by simp⟩ false, .put true),
      (.delete ⟨[98], by simp⟩,
        .delete ⟨some ⟨[98], by simp⟩, some ⟨[2], by simp⟩, false⟩),
      (.get ⟨[98], by simp⟩, .get (some ⟨[2], by simp⟩))]
    ⟨createMap 2, _, rfl,
      .cons ⟨by decide, rfl⟩
        (.cons ⟨by decide, rfl⟩ (.cons ⟨by decide, rfl⟩ (.cons ⟨by decide, rfl⟩ (.nil _))))⟩
  rcases htrace with ⟨M, _, _, hrun⟩
  cases hrun with
  | cons _ hrun =>
      cases hrun with
      | cons _ hrun =>
          cases hrun with
          | cons hdelete hrun =>
              cases hrun with
              | cons hget _ =>
                  -- after the delete the finite map has no entry for the key
                  have hM := hget.1
                  rw [hdelete.2, Function.update_self] at hM
                  simp at hM

end SystemFundamentals.Cream
