import SystemFundamentals.Library.Transition
import SystemFundamentals.Cream.Probe

/-!
# The hash map as a finite map

A client sees the map through its calls and their results.  This file makes a
run of calls a trace of a transition system, states the finite map the client
expects as a second transition system over the same labels, and relates the two
by a forward simulation.

The simulation needs one guard: {lit}`delete` sets its tombstone on the home
slot of the key, so it removes the right entry only when a live key sits in its
home slot.  It speaks of the calls that return; that a {lit}`put` returns takes
the counter of {lit}`LiveSlots`.

Main results:

- Theorem {lit}`ProbeChain.update`: writing a non-empty node keeps every probe
  path free of empty slots.
- Theorem {lit}`mapSystem_simulates_finiteMap`: the guarded map refines the
  finite map.
-/

namespace SystemFundamentals.Cream

open Library

/-! ## Calls and runs -/

/-- A client call on a valid map. -/
inductive MapCall
  | put (key val : Buffer) (force : Bool)
  | get (key : Buffer)
  | delete (key : Buffer)
  | clearMap

/-- The result of a call.  {lit}`clear_map` also reports the arguments of its
destructor calls. -/
inductive MapResult
  | put (stored : Bool)
  | get (val : MapVal)
  | delete (node : MapNode)
  | clearMap (cleared : Bool) (destroyed : List (MapKey × MapVal))
deriving DecidableEq

variable {cap : Nat} [NeZero cap]

/-- Perform one call. -/
def exec (hashFunction : List UInt8 → UInt32) (self : HashMap cap) :
    MapCall → Except Stop (HashMap cap × MapResult)
  | .put key val force =>
      (put hashFunction self (some key) (some val) force).map
        fun reply => (reply.self, .put reply.ret)
  | .get key =>
      (get hashFunction self (some key)).map fun reply => (reply.self, .get reply.ret)
  | .delete key =>
      (delete hashFunction self (some key)).map
        fun reply => (reply.self, .delete reply.ret)
  | .clearMap =>
      (clearMap self).map fun reply => (reply.self, .clearMap reply.ret.1 reply.ret.2)

/-- Runs of calls on a fresh map, restricted to the calls a client makes.  A
step is a call that returns, labelled with its result. -/
def mapSystem (cap : Nat) [NeZero cap] (hashFunction : List UInt8 → UInt32)
    (client : MapCall → Prop) : System (HashMap cap) (MapCall × MapResult) where
  initial self := self = createMap cap
  step self label self' :=
    client label.1 ∧ exec hashFunction self label.1 = .ok (self', label.2)

/-- A key with no zero byte. -/
def NulFree (key : Buffer) : Prop :=
  (0 : UInt8) ∉ key.bytes

instance (key : Buffer) : Decidable (NulFree key) :=
  inferInstanceAs (Decidable (¬ _))

/-- The client that never forces a {lit}`put` and whose keys have no zero
byte. -/
def PlainClient : MapCall → Prop
  | .put key _ force => NulFree key ∧ force = false
  | .get key | .delete key => NulFree key
  | .clearMap => True

instance (call : MapCall) : Decidable (PlainClient call) :=
  match call with
  | .put key _ force => inferInstanceAs (Decidable (NulFree key ∧ force = false))
  | .get key => inferInstanceAs (Decidable (NulFree key))
  | .delete key => inferInstanceAs (Decidable (NulFree key))
  | .clearMap => inferInstanceAs (Decidable True)

/-! ## The finite map -/

/-- A finite map seen from outside, with the results its operations promise. -/
def finiteMap : System (Buffer → Option Buffer) (MapCall × MapResult) where
  initial M := M = fun _ => none
  step M label M' :=
    match label with
    | (.put key val _, .put true) => M' = Function.update M key (some val)
    | (.put _ _ _, .put false) => M' = M
    | (.get key, .get val) => val = M key ∧ M' = M
    | (.delete key, .delete node) =>
        node = (match M key with
          | some val => ⟨some key, some val, false⟩
          | none => .null) ∧ M' = Function.update M key none
    | (.clearMap, .clearMap cleared _) => cleared = true ∧ M' = fun _ => none
    | _ => False

/-! ## Live slots and probe chains -/

/-- Slot {lit}`j` is live and holds exactly the bytes of {lit}`key`. -/
def Holds (nodes : Fin cap → MapNode) (j : Fin cap) (key : Buffer) : Prop :=
  (nodes j).tombstone = false ∧ (nodes j).key = some key

/-- No empty slot stands between a live key's home and its slot. -/
def ProbeChain (hashFunction : List UInt8 → UInt32) (nodes : Fin cap → MapNode) : Prop :=
  ∀ j key, Holds nodes j key → ∀ x, x < Ring.dist (getIndex hashFunction key) j →
    nodeIsEmpty (nodes (Ring.along (getIndex hashFunction key) x)) = false

omit [NeZero cap] in
/-- On keys without zero bytes {lit}`node_has_key` finds exactly the live
holders. -/
theorem nodeHasKey_iff_holds {nodes : Fin cap → MapNode} {j : Fin cap} {key : Buffer}
    (hstored : ∀ i stored, (nodes i).key = some stored → NulFree stored)
    (hkey : NulFree key) :
    nodeHasKey (nodes j) (some key) = true ↔ Holds nodes j key := by
  rw [nodeHasKey_iff]
  constructor
  · rintro ⟨htomb, stored, hs, heq⟩
    have h : stored = key := (getKeysEqual_iff_eq (hstored j stored hs) hkey).mp heq
    exact ⟨htomb, h ▸ hs⟩
  · rintro ⟨htomb, hs⟩
    exact ⟨htomb, key, hs, getKeysEqual_refl key⟩

omit [NeZero cap] in
/-- Which keys are held after one node is replaced. -/
theorem holds_update_iff {nodes : Fin cap → MapNode} {i j : Fin cap} {node : MapNode}
    {key : Buffer} :
    Holds (Function.update nodes i node) j key ↔
      (j = i ∧ node.tombstone = false ∧ node.key = some key) ∨
        (j ≠ i ∧ Holds nodes j key) := by
  unfold Holds
  by_cases h : j = i
  · subst h
    simp
  · simp [h]

/-- Writing a non-empty node keeps the probe chains, provided the path to the
written slot was already free of empty slots. -/
theorem ProbeChain.update {hashFunction : List UInt8 → UInt32} {nodes : Fin cap → MapNode}
    (hchain : ProbeChain hashFunction nodes) {i : Fin cap} {node : MapNode}
    (hfull : nodeIsEmpty node = false)
    (hpath : ∀ key, node.tombstone = false → node.key = some key →
      ∀ x, x < Ring.dist (getIndex hashFunction key) i →
        nodeIsEmpty (nodes (Ring.along (getIndex hashFunction key) x)) = false) :
    ProbeChain hashFunction (Function.update nodes i node) := by
  intro j key hj x hx
  by_cases hxi : Ring.along (getIndex hashFunction key) x = i
  · rw [hxi, Function.update_self]
    exact hfull
  · rw [Function.update_of_ne hxi]
    rcases holds_update_iff.mp hj with ⟨rfl, htomb, hkey⟩ | ⟨_, hold⟩
    · exact hpath key htomb hkey x hx
    · exact hchain j key hold x hx

/-- Storing a pair on the key's own path keeps the probe chains. -/
theorem ProbeChain.store {hashFunction : List UInt8 → UInt32} {nodes : Fin cap → MapNode}
    (hchain : ProbeChain hashFunction nodes) {i : Fin cap} {key val : Buffer}
    (hpath : ∀ x, x < Ring.dist (getIndex hashFunction key) i →
      nodeIsEmpty (nodes (Ring.along (getIndex hashFunction key) x)) = false) :
    ProbeChain hashFunction (Function.update nodes i ⟨some key, some val, false⟩) := by
  refine hchain.update (by simp [nodeIsEmpty]) ?_
  intro other _ hother
  have hk : key = other := by simpa using hother
  exact hk ▸ hpath

/-- Setting a tombstone empties no slot. -/
theorem ProbeChain.mark {hashFunction : List UInt8 → UInt32} {nodes : Fin cap → MapNode}
    (hchain : ProbeChain hashFunction nodes) (i : Fin cap) :
    ProbeChain hashFunction
      (Function.update nodes i { nodes i with tombstone := true }) :=
  hchain.update (by simp [nodeIsEmpty]) fun _ htomb => absurd htomb (by simp)

omit [NeZero cap] in
/-- The keys in the slots after one node is replaced. -/
theorem nulFree_update {nodes : Fin cap → MapNode} {i : Fin cap} {node : MapNode}
    (hstored : ∀ j key, (nodes j).key = some key → NulFree key)
    (hnode : ∀ key, node.key = some key → NulFree key) :
    ∀ j key, (Function.update nodes i node j).key = some key → NulFree key := by
  intro j key hj
  by_cases hji : j = i
  · subst hji
    exact hnode key (by simpa using hj)
  · exact hstored j key (by simpa [hji] using hj)

/-- A walk that passed every slot before an empty one, or came round, proves
that the key is nowhere in the table. -/
theorem not_holds_of_passed {hashFunction : List UInt8 → UInt32}
    {nodes : Fin cap → MapNode} (hchain : ProbeChain hashFunction nodes) {key : Buffer}
    {e : Nat} (hpass : PassedUpTo nodes (getIndex hashFunction key) key e)
    (hend : e = cap ∨
      nodeIsEmpty (nodes (Ring.along (getIndex hashFunction key) e)) = true)
    (j : Fin cap) : ¬ Holds nodes j key := by
  intro hj
  have hhas : nodeHasKey (nodes j) (some key) = true :=
    (nodeHasKey_iff _ _).mpr ⟨hj.1, key, hj.2, getKeysEqual_refl key⟩
  have hle : e ≤ Ring.dist (getIndex hashFunction key) j := by
    by_contra hlt
    have hfalse := hpass _ (Nat.lt_of_not_le hlt)
    rw [Ring.along_dist, canPutKey, hhas, Bool.or_true] at hfalse
    contradiction
  have hlt := Ring.dist_lt (getIndex hashFunction key) j
  rcases hend with hcap | hempty
  · omega
  · rcases Nat.lt_or_eq_of_le hle with h | h
    · rw [hchain j key hj e h] at hempty
      contradiction
    · rw [h, Ring.along_dist, nodeIsEmpty_of_hasKey hhas] at hempty
      contradiction

/-! ## The simulation -/

/-- The table represents the finite map {lit}`M`. -/
structure Represents (hashFunction : List UInt8 → UInt32) (map : HashMap cap)
    (M : Buffer → Option Buffer) : Prop where
  idle : Idle map
  nulFree : ∀ i key, (map.nodes i).key = some key → NulFree key
  chain : ProbeChain hashFunction map.nodes
  unique : ∀ i j key, Holds map.nodes i key → Holds map.nodes j key → i = j
  live : ∀ j key, Holds map.nodes j key →
    ∃ val, (map.nodes j).val = some val ∧ M key = some val
  absent : ∀ key, (∀ j, ¬ Holds map.nodes j key) → M key = none

theorem represents_createMap (hashFunction : List UInt8 → UInt32) :
    Represents hashFunction (createMap cap) fun _ => none where
  idle := ⟨rfl, rfl⟩
  nulFree i key h := by simp [createMap, MapNode.null] at h
  chain j key h := by simp [Holds, createMap, MapNode.null] at h
  unique i j key h := by simp [Holds, createMap, MapNode.null] at h
  live j key h := by simp [Holds, createMap, MapNode.null] at h
  absent _ _ := rfl

/-- The entry a represented map answers for a key. -/
theorem Represents.findSlot_val {hashFunction : List UInt8 → UInt32} {map : HashMap cap}
    {M : Buffer → Option Buffer} (h : Represents hashFunction map M) {key : Buffer}
    (hkey : NulFree key) :
    (∃ j val, findSlot map.nodes (getIndex hashFunction key) key = some j ∧
        map.nodes j = ⟨some key, some val, false⟩ ∧ Holds map.nodes j key ∧
        M key = some val) ∨
      (findSlot map.nodes (getIndex hashFunction key) key = none ∧
        (∀ j, ¬ Holds map.nodes j key) ∧ M key = none) := by
  cases hfind : findSlot map.nodes (getIndex hashFunction key) key with
  | some j =>
      have hhas := (findSlot_eq_some_iff.mp hfind).1
      have hj := (nodeHasKey_iff_holds h.nulFree hkey).mp hhas
      rcases h.live j key hj with ⟨val, hval, hM⟩
      refine Or.inl ⟨j, val, rfl, ?_, hj, hM⟩
      rw [← hval, ← hj.2, ← hj.1]
  | none =>
      have hnone : ∀ j, ¬ Holds map.nodes j key := by
        intro j hj
        have hhas := (nodeHasKey_iff_holds h.nulFree hkey).mpr hj
        rcases findSlot_eq_none hfind hhas with ⟨x, hx, hempty⟩
        rw [h.chain j key hj x hx] at hempty
        contradiction
      exact Or.inr ⟨rfl, hnone, h.absent key hnone⟩

/-- Storing a pair in a slot on the key's own path updates the finite map at
that key. -/
theorem Represents.store {hashFunction : List UInt8 → UInt32} {map : HashMap cap}
    {M : Buffer → Option Buffer} (h : Represents hashFunction map M) {key val : Buffer}
    (hkey : NulFree key) {i : Fin cap} {size : UInt32}
    (hpath : ∀ x, x < Ring.dist (getIndex hashFunction key) i →
      nodeIsEmpty (map.nodes (Ring.along (getIndex hashFunction key) x)) = false)
    (hslot : ∀ other, Holds map.nodes i other → other = key)
    (honly : ∀ j, Holds map.nodes j key → j = i) :
    Represents hashFunction
      { map with
        nodes := Function.update map.nodes i ⟨some key, some val, false⟩
        size := size, numReaders := 0 }
      (Function.update M key (some val)) where
  idle := ⟨h.idle.valid, rfl⟩
  nulFree := by
    refine nulFree_update h.nulFree ?_
    rintro other hother
    exact Option.some.inj hother ▸ hkey
  chain := h.chain.store hpath
  unique := by
    intro a b other ha hb
    rcases holds_update_iff.mp ha with ⟨rfl, _, hka⟩ | ⟨hane, hola⟩ <;>
      rcases holds_update_iff.mp hb with ⟨rfl, _, hkb⟩ | ⟨hbne, holb⟩
    · rfl
    · have hk : key = other := by simpa using hka
      exact absurd (honly b (hk ▸ holb)) hbne
    · have hk : key = other := by simpa using hkb
      exact absurd (honly a (hk ▸ hola)) hane
    · exact h.unique a b other hola holb
  live := by
    intro j other hj
    rcases holds_update_iff.mp hj with ⟨rfl, _, hk⟩ | ⟨hne, hold⟩
    · have hk' : key = other := by simpa using hk
      subst hk'
      exact ⟨val, by simp, by simp⟩
    · have hother : other ≠ key := by
        intro heq
        exact hne (honly j (heq ▸ hold))
      rcases h.live j other hold with ⟨v, hv, hM⟩
      exact ⟨v, by simp [hne, hv], by simp [hother, hM]⟩
  absent := by
    intro other hother
    have hne : other ≠ key := by
      rintro rfl
      exact hother i (holds_update_iff.mpr (Or.inl ⟨rfl, rfl, rfl⟩))
    rw [Function.update_of_ne hne]
    apply h.absent
    intro j hj
    by_cases hji : j = i
    · subst hji
      exact hne (hslot other hj)
    · exact hother j (holds_update_iff.mpr (Or.inr ⟨hji, hj⟩))

/-- A completed unforced {lit}`put` is a step of the finite map. -/
theorem Represents.put {hashFunction : List UInt8 → UInt32} {map : HashMap cap}
    {M : Buffer → Option Buffer} (h : Represents hashFunction map M) {key val : Buffer}
    (hkey : NulFree key) {reply : Reply cap Bool}
    (hput : put hashFunction map (some key) (some val) false = .ok reply) :
    (reply.ret = true ∧
        Represents hashFunction reply.self (Function.update M key (some val))) ∨
      (reply.ret = false ∧ Represents hashFunction reply.self M) := by
  rw [put_of_idle h.idle] at hput
  split_ifs at hput with hfull
  · cases hput
    exact Or.inr ⟨rfl, h⟩
  · left
    have hcase := putNode_case hashFunction map key val false
    generalize hres : putNode hashFunction map key val false = result at hcase hput
    cases hcase with
    | replace _ hforce => exact absurd hforce (by simp)
    | insert _ e he hpass hempty =>
        cases hput
        have hnone := not_holds_of_passed h.chain hpass (Or.inr hempty)
        refine ⟨rfl, h.store hkey ?_ ?_ fun j hj => absurd hj (hnone j)⟩
        · intro x hx
          rw [Ring.dist_along he] at hx
          exact (Bool.or_eq_false_iff.mp (hpass x hx)).1
        · intro other hother
          have hkeyNone := ((nodeIsEmpty_iff _).mp hempty).1
          rw [hother.2] at hkeyNone
          contradiction
    | overwrite _ e he hpass hhas stored hstored =>
        have hhold := (nodeHasKey_iff_holds h.nulFree hkey).mp hhas
        have hs : stored = some key := by
          rw [hstored, hhold.2, ite_self]
        subst hs
        cases hput
        refine ⟨rfl, h.store hkey ?_ ?_ fun j hj => h.unique j _ key hj hhold⟩
        · intro x hx
          rw [Ring.dist_along he] at hx
          exact (Bool.or_eq_false_iff.mp (hpass x hx)).1
        · intro other hother
          exact Option.some.inj (hother.2.symm.trans hhold.2)
    | reuse _ hpass x hx htomb =>
        cases hput
        have hnone := not_holds_of_passed h.chain hpass (Or.inl rfl)
        refine ⟨rfl, h.store hkey ?_ ?_ fun j hj => absurd hj (hnone j)⟩
        · intro y hy
          rw [Ring.dist_along hx] at hy
          exact (Bool.or_eq_false_iff.mp (hpass y (by omega))).1
        · intro other hother
          rw [hother.1] at htomb
          contradiction
    | missing => cases hput

/-- Marking the home slot of a key that lives there removes exactly that key. -/
theorem Represents.remove {hashFunction : List UInt8 → UInt32} {map : HashMap cap}
    {M : Buffer → Option Buffer} (h : Represents hashFunction map M) {key : Buffer}
    {i : Fin cap} {size : UInt32} (hi : Holds map.nodes i key) :
    Represents hashFunction
      { map with
        nodes := Function.update map.nodes i { map.nodes i with tombstone := true }
        size := size, numReaders := 0 }
      (Function.update M key none) where
  idle := ⟨h.idle.valid, rfl⟩
  nulFree := nulFree_update h.nulFree (h.nulFree i)
  chain := h.chain.mark i
  unique := by
    intro a b other ha hb
    rcases holds_update_iff.mp ha with ⟨_, htomb, _⟩ | ⟨_, hola⟩
    · exact absurd htomb (by simp)
    · rcases holds_update_iff.mp hb with ⟨_, htomb, _⟩ | ⟨_, holb⟩
      · exact absurd htomb (by simp)
      · exact h.unique a b other hola holb
  live := by
    intro j other hj
    rcases holds_update_iff.mp hj with ⟨_, htomb, _⟩ | ⟨hne, hold⟩
    · exact absurd htomb (by simp)
    · have hother : other ≠ key := by
        intro heq
        exact hne (h.unique j i key (heq ▸ hold) hi)
      rcases h.live j other hold with ⟨v, hv, hM⟩
      exact ⟨v, by simp [hne, hv], by simp [hother, hM]⟩
  absent := by
    intro other hother
    by_cases hk : other = key
    · simp [hk]
    · rw [Function.update_of_ne hk]
      apply h.absent
      intro j hj
      by_cases hji : j = i
      · subst hji
        exact hk (Option.some.inj (hj.2.symm.trans hi.2))
      · exact hother j (holds_update_iff.mpr (Or.inr ⟨hji, hj⟩))

/-- The guard of the refinement: a {lit}`delete` finds its key in no slot other
than the key's home slot. -/
def DeletesAtHome (hashFunction : List UInt8 → UInt32) (map : HashMap cap) :
    MapCall → Prop
  | .delete key => ∀ j, nodeHasKey (map.nodes j) (some key) = true →
      j = getIndex hashFunction key
  | _ => True

/-- A guarded {lit}`delete` returns the entry of the finite map and removes it. -/
theorem Represents.delete {hashFunction : List UInt8 → UInt32} {map : HashMap cap}
    {M : Buffer → Option Buffer} (h : Represents hashFunction map M) {key : Buffer}
    (hkey : NulFree key) (hhome : DeletesAtHome hashFunction map (.delete key)) :
    ∃ reply, delete hashFunction map (some key) = .ok reply ∧
      reply.ret = (match M key with
        | some val => ⟨some key, some val, false⟩
        | none => .null) ∧
      Represents hashFunction reply.self (Function.update M key none) := by
  rw [delete_of_idle h.idle]
  rcases h.findSlot_val hkey with ⟨j, val, hfind, hnode, hj, hM⟩ | ⟨hfind, _, hM⟩
  · have hjHome := hhome j (findSlot_eq_some_iff.mp hfind).1
    subst hjHome
    rw [hfind]
    exact ⟨_, rfl, by simp only [hM, hnode], h.remove hj⟩
  · rw [hfind]
    refine ⟨_, rfl, by simp only [hM], ?_⟩
    rw [Function.update_eq_self_iff.mpr hM.symm]
    exact { h with idle := ⟨h.idle.valid, rfl⟩ }

/-- {lit}`get` answers with the finite map and changes nothing. -/
theorem Represents.get {hashFunction : List UInt8 → UInt32} {map : HashMap cap}
    {M : Buffer → Option Buffer} (h : Represents hashFunction map M) {key : Buffer}
    (hkey : NulFree key) :
    get hashFunction map (some key) = .ok ⟨map, M key, none⟩ := by
  rw [get_of_idle h.idle]
  rcases h.findSlot_val hkey with ⟨j, val, hfind, hnode, _, hM⟩ | ⟨hfind, _, hM⟩
  · simp [hfind, hnode, hM]
  · simp [hfind, hM]

/-- The guarded map refines the finite map: every completed call of the plain
client is a step of {lit}`finiteMap` with the same result. -/
theorem mapSystem_simulates_finiteMap (hashFunction : List UInt8 → UInt32) :
    ((mapSystem cap hashFunction PlainClient).guarded
      fun map label => DeletesAtHome hashFunction map label.1).Simulation finiteMap
        (Represents hashFunction) where
  initial := by
    rintro map rfl
    exact ⟨_, rfl, represents_createMap hashFunction⟩
  step := by
    rintro map map' ⟨call, result⟩ M h ⟨hguard, hclient, hexec⟩
    cases call with
    | put key val force =>
        rcases hclient with ⟨hkey, hforce⟩
        have hf : force = false := hforce
        subst hf
        simp only [exec] at hexec
        cases hput : Cream.put hashFunction map (some key) (some val) false with
        | error stop =>
            rw [hput] at hexec
            cases hexec
        | ok reply =>
            rw [hput] at hexec
            cases hexec
            rcases h.put hkey hput with ⟨hret, hrep⟩ | ⟨hret, hrep⟩
            · exact ⟨_, by simp [finiteMap, hret], hrep⟩
            · exact ⟨_, by simp [finiteMap, hret], hrep⟩
    | get key =>
        simp only [exec, h.get hclient] at hexec
        cases hexec
        exact ⟨M, ⟨rfl, rfl⟩, h⟩
    | delete key =>
        rcases h.delete hclient hguard with ⟨reply, hdelete, hret, hrep⟩
        simp only [exec, hdelete] at hexec
        cases hexec
        exact ⟨_, ⟨hret, rfl⟩, hrep⟩
    | clearMap =>
        simp only [exec, clearMap_of_idle h.idle] at hexec
        cases hexec
        exact ⟨_, ⟨rfl, rfl⟩, represents_createMap hashFunction⟩

end SystemFundamentals.Cream
