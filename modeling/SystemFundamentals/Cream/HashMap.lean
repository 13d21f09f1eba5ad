import SystemFundamentals.Library.Ring
import Mathlib.Logic.Function.Basic
import Mathlib.Data.List.TakeWhile

/-!
# The hash map of the cream server

This file is the sequential model of {lit}`hw5/src/hashmap.c`: an array of
{lit}`capacity` nodes with linear probing, tombstones and a 32-bit size
counter.  Each function follows its C counterpart branch by branch.  The two
locks play no part in a sequential run; the protocol around
{lit}`num_readers` is the subject of {lit}`ReaderWriter`, and here the field
only decides whether a call would spin.

A key or value is the buffer its pointer designates.  {lit}`MAP_KEY(NULL, 0)`
is {lean}`none`; a non-NULL base always comes with a positive length, and a
zero byte is assumed to follow the buffer, which is what {lit}`strcmp` needs.
The model is the code's for capacities below {lit}`2^31`, where
{lit}`int index` cannot overflow.
-/

namespace SystemFundamentals.Cream

open Library

/-! ## Keys, values and nodes -/

/-- The bytes at a non-NULL {lit}`key_base` or {lit}`val_base`; the length is
the {lit}`key_len` or {lit}`val_len` field. -/
structure Buffer where
  bytes : List UInt8
  nonempty : bytes ≠ []
deriving DecidableEq

/-- The buffer of one byte. -/
def Buffer.ofByte (byte : UInt8) : Buffer := ⟨[byte], List.cons_ne_nil byte []⟩

/-- {lit}`map_key_t`, with {lean}`none` for {lit}`MAP_KEY(NULL, 0)`. -/
abbrev MapKey := Option Buffer

/-- {lit}`map_val_t`, with {lean}`none` for {lit}`MAP_VAL(NULL, 0)`. -/
abbrev MapVal := Option Buffer

/-- {lit}`map_node_t`. -/
structure MapNode where
  key : MapKey
  val : MapVal
  tombstone : Bool
deriving DecidableEq

/-- {lit}`MAP_NODE(MAP_KEY(NULL, 0), MAP_VAL(NULL, 0), false)`. -/
def MapNode.null : MapNode := ⟨none, none, false⟩

/-- {lit}`hashmap_t` with its node array; {lit}`cap` is the capacity field. -/
structure HashMap (cap : Nat) where
  size : UInt32
  nodes : Fin cap → MapNode
  numReaders : Int
  invalid : Bool

/-- The error numbers the map sets. -/
inductive Errno
  | EINVAL
  | ENOMEM
deriving DecidableEq

/-- Ways a call fails to return: a dereference of the NULL
{lit}`first_tombstone`, or a spin loop on {lit}`num_readers` that no other
thread can end in a sequential run. -/
inductive Stop
  | nullDeref
  | spin
deriving DecidableEq

/-- What a call leaves behind: the map, the returned value, and
{lit}`errno` when the call sets it. -/
structure Reply (cap : Nat) (α : Type) where
  self : HashMap cap
  ret : α
  errno : Option Errno

/-! ## Key comparison -/

/-- C {lit}`strcmp`; the end of a list is the zero byte after the buffer. -/
def strcmp : List UInt8 → List UInt8 → Int
  | [], [] => 0
  | [], b :: _ => -(b.toNat : Int)
  | a :: _, [] => (a.toNat : Int)
  | a :: as, b :: bs =>
      if a = b then
        if a = 0 then 0 else strcmp as bs
      else (a.toNat : Int) - (b.toNat : Int)

/-- The bytes before the first zero byte, which are all that {lit}`strcmp`
compares. -/
def cString (bytes : List UInt8) : List UInt8 :=
  bytes.takeWhile (· ≠ 0)

/-- {lit}`get_keys_equal`.  Only a NULL base has length zero, so a NULL base
never reaches {lit}`strcmp`; equal pointers have equal bytes. -/
def getKeysEqual : MapKey → MapKey → Bool
  | none, none => true
  | some key1, some key2 =>
      key1.bytes.length == key2.bytes.length && strcmp key1.bytes key2.bytes == 0
  | _, _ => false

/-- {lit}`node_is_empty`. -/
def nodeIsEmpty (node : MapNode) : Bool :=
  getKeysEqual node.key none && !node.tombstone

/-- {lit}`node_has_key`. -/
def nodeHasKey (node : MapNode) (key : MapKey) : Bool :=
  !node.tombstone && getKeysEqual node.key key

/-- {lit}`can_put_key`. -/
def canPutKey (node : MapNode) (key : MapKey) : Bool :=
  nodeIsEmpty node || nodeHasKey node key

/-! ## The operations -/

/-- {lit}`create_map`: calloc'd nodes, no readers. -/
def createMap (cap : Nat) : HashMap cap where
  size := 0
  nodes _ := .null
  numReaders := 0
  invalid := false

variable {cap : Nat} [NeZero cap]

/-- {lit}`get_index`. -/
def getIndex (hashFunction : List UInt8 → UInt32) (key : Buffer) : Fin cap :=
  ⟨(hashFunction key.bytes).toNat % cap, Nat.mod_lt _ (Nat.pos_of_neZero cap)⟩

/-- The search loop of {lit}`put`: walk on from {lit}`index` until a slot can
take the key, remembering the first tombstone passed.  The first argument
bounds the turns, and a whole turn of the ring is enough. -/
def putLoop (nodes : Fin cap → MapNode) (key : Buffer) (startIndex : Fin cap) :
    Nat → Fin cap → Option (Fin cap) → Fin cap × Option (Fin cap)
  | 0, index, firstTombstone => (index, firstTombstone)
  | fuel + 1, index, firstTombstone =>
      if index ≠ startIndex ∧ canPutKey (nodes index) (some key) = false then
        let firstTombstone :=
          if firstTombstone.isNone ∧ (nodes index).tombstone then some index
          else firstTombstone
        putLoop nodes key startIndex fuel (Ring.next index) firstTombstone
      else (index, firstTombstone)

/-- The node assignments of {lit}`put` (lines 61 to 102), with the decrement
of {lit}`size` on the forced path. -/
def putNode (hashFunction : List UInt8 → UInt32) (self : HashMap cap)
    (key val : Buffer) (force : Bool) : Except Stop (HashMap cap) :=
  let startIndex := getIndex hashFunction key
  let start := self.nodes startIndex
  if UInt32.ofNat cap = self.size ∧ force = true then
    .ok { self with
      nodes := Function.update self.nodes startIndex ⟨some key, some val, false⟩
      size := self.size - 1 }
  else if canPutKey start (some key) = false then
    let firstTombstone := if start.tombstone then some startIndex else none
    let found :=
      putLoop self.nodes key startIndex cap (Ring.next startIndex) firstTombstone
    let index := found.1
    if index ≠ startIndex then
      if nodeIsEmpty (self.nodes index) then
        .ok { self with
          nodes := Function.update self.nodes index ⟨some key, some val, false⟩ }
      else
        .ok { self with
          nodes := Function.update self.nodes index
            { self.nodes index with val := some val } }
    else
      match found.2 with
      | none => .error .nullDeref
      | some tombstone =>
          .ok { self with
            nodes := Function.update self.nodes tombstone
              ⟨some key, some val, false⟩ }
  else
    .ok { self with
      nodes := Function.update self.nodes startIndex
        { start with key := some key, val := some val } }

/-- The section of {lit}`put` under both locks (lines 53 to 106). -/
def putLocked (hashFunction : List UInt8 → UInt32) (self : HashMap cap)
    (key val : Buffer) (force : Bool) : Except Stop (Reply cap Bool) :=
  if self.invalid then
    .ok ⟨{ self with numReaders := -1 }, false, some .EINVAL⟩
  else
    match putNode hashFunction self key val force with
    | .error stop => .error stop
    | .ok stored =>
        .ok ⟨{ stored with size := stored.size + 1, numReaders := 0 }, true, none⟩

/-- {lit}`put`. -/
def put (hashFunction : List UInt8 → UInt32) (self : HashMap cap) (key : MapKey)
    (val : MapVal) (force : Bool) : Except Stop (Reply cap Bool) :=
  match key, val with
  | some key, some val =>
      if self.invalid then .ok ⟨self, false, some .EINVAL⟩
      else if UInt32.ofNat cap = self.size ∧ force = false then
        .ok ⟨self, false, some .ENOMEM⟩
      else if 0 < self.numReaders then .error .spin
      else putLocked hashFunction self key val force
  | _, _ => .ok ⟨self, false, some .EINVAL⟩

/-- The search {lit}`get` (lines 127 to 145) and {lit}`delete` (lines 175 to
192) share: the slot whose node they return, if any. -/
def findSlot (nodes : Fin cap → MapNode) (startIndex : Fin cap) (key : Buffer) :
    Option (Fin cap) :=
  if nodeIsEmpty (nodes startIndex) then none
  else if nodeHasKey (nodes startIndex) (some key) then some startIndex
  else
    let index :=
      Ring.scan (fun i => canPutKey (nodes i) (some key)) startIndex cap
        (Ring.next startIndex)
    if nodeHasKey (nodes index) (some key) then some index else none

/-- {lit}`get`.  Registering and deregistering the reader leaves
{lit}`num_readers` as it was. -/
def get (hashFunction : List UInt8 → UInt32) (self : HashMap cap) (key : MapKey) :
    Except Stop (Reply cap MapVal) :=
  match key with
  | none => .ok ⟨self, none, some .EINVAL⟩
  | some key =>
      if self.invalid then .ok ⟨self, none, some .EINVAL⟩
      else if self.numReaders < 0 then .error .spin
      else
        let retVal :=
          match findSlot self.nodes (getIndex hashFunction key) key with
          | none => none
          | some index => (self.nodes index).val
        .ok ⟨{ self with numReaders := self.numReaders + 1 - 1 }, retVal, none⟩

/-- {lit}`delete`.  Whichever slot the search finds, the tombstone is set on
the node at {lit}`start_index` (lines 181 and 190). -/
def delete (hashFunction : List UInt8 → UInt32) (self : HashMap cap) (key : MapKey) :
    Except Stop (Reply cap MapNode) :=
  match key with
  | none => .ok ⟨self, .null, some .EINVAL⟩
  | some key =>
      if self.invalid then .ok ⟨self, .null, some .EINVAL⟩
      else if 0 < self.numReaders then .error .spin
      else
        let startIndex := getIndex hashFunction key
        match findSlot self.nodes startIndex key with
        | none =>
            .ok ⟨{ self with size := self.size - 1, numReaders := 0 }, .null, none⟩
        | some index =>
            .ok ⟨{ self with
                nodes := Function.update self.nodes startIndex
                  { self.nodes startIndex with tombstone := true }
                size := self.size - 1
                numReaders := 0 }, self.nodes index, none⟩

omit [NeZero cap] in
/-- {lit}`clear_map`; the second component of the result lists the arguments
of the {lit}`destroy_function` calls in order. -/
def clearMap (self : HashMap cap) :
    Except Stop (Reply cap (Bool × List (MapKey × MapVal))) :=
  if self.invalid then .ok ⟨self, (false, []), some .EINVAL⟩
  else if 0 < self.numReaders then .error .spin
  else
    .ok ⟨{ self with nodes := fun _ => .null, size := 0, numReaders := 0 },
      (true, List.ofFn fun i => ((self.nodes i).key, (self.nodes i).val)), none⟩

omit [NeZero cap] in
/-- {lit}`invalidate_map`.  It frees the node array and sets the capacity to zero; the result
lists the destructor calls as for {lit}`clear_map`. -/
def invalidateMap (self : HashMap cap) :
    Except Stop (Σ capacity, Reply capacity (Bool × List (MapKey × MapVal))) :=
  if self.invalid then .ok ⟨cap, self, (false, []), some .EINVAL⟩
  else if 0 < self.numReaders then .error .spin
  else
    .ok ⟨0, { size := 0, nodes := Fin.elim0, numReaders := 0, invalid := true },
      (true, List.ofFn fun i => ((self.nodes i).key, (self.nodes i).val)), none⟩

/-! ## Comparison lemmas -/

private theorem byte_toNat_eq_zero_iff (b : UInt8) : b.toNat = 0 ↔ b = 0 := by
  rw [← UInt8.toNat_inj]
  rfl

/-- {lit}`strcmp` answers zero exactly on buffers that agree up to their first
zero byte. -/
theorem strcmp_eq_zero_iff (as bs : List UInt8) :
    strcmp as bs = 0 ↔ cString as = cString bs := by
  induction as generalizing bs with
  | nil =>
      cases bs with
      | nil => simp [strcmp, cString]
      | cons b bs =>
          by_cases h : b = 0 <;> simp [strcmp, cString, byte_toNat_eq_zero_iff, h]
  | cons a as ih =>
      cases bs with
      | nil => by_cases h : a = 0 <;> simp [strcmp, cString, byte_toNat_eq_zero_iff, h]
      | cons b bs =>
          by_cases hab : a = b
          · subst hab
            by_cases hzero : a = 0
            · simp [strcmp, cString, hzero]
            · simpa [strcmp, cString, hzero] using ih bs
          · have hne : (a.toNat : Int) - b.toNat ≠ 0 := by
              intro h
              exact hab (UInt8.toNat_inj.mp (by omega))
            by_cases ha0 : a = 0 <;> by_cases hb0 : b = 0 <;>
              simp_all [strcmp, cString]

@[simp] theorem getKeysEqual_none_right (key : MapKey) :
    getKeysEqual key none = key.isNone := by
  cases key <;> rfl

/-- {lit}`get_keys_equal` on two buffers: the same length, and the same bytes
up to the first zero. -/
theorem getKeysEqual_some_iff (key1 key2 : Buffer) :
    getKeysEqual (some key1) (some key2) = true ↔
      key1.bytes.length = key2.bytes.length ∧
        cString key1.bytes = cString key2.bytes := by
  simp [getKeysEqual, strcmp_eq_zero_iff]

/-- A buffer with no zero byte is its own C string. -/
theorem cString_eq_self {bytes : List UInt8} (h : (0 : UInt8) ∉ bytes) :
    cString bytes = bytes := by
  rw [cString, List.takeWhile_eq_self_iff]
  intro b hb
  have hne : b ≠ 0 := fun h0 => h (h0 ▸ hb)
  simpa using hne

/-- On keys without zero bytes {lit}`get_keys_equal` is equality. -/
theorem getKeysEqual_iff_eq {key1 key2 : Buffer} (h1 : (0 : UInt8) ∉ key1.bytes)
    (h2 : (0 : UInt8) ∉ key2.bytes) :
    getKeysEqual (some key1) (some key2) = true ↔ key1 = key2 := by
  rw [getKeysEqual_some_iff, cString_eq_self h1, cString_eq_self h2]
  constructor
  · rintro ⟨_, h⟩
    cases key1
    cases key2
    simpa using h
  · rintro rfl
    exact ⟨rfl, rfl⟩

theorem getKeysEqual_refl (key : Buffer) : getKeysEqual (some key) (some key) = true := by
  simp [getKeysEqual_some_iff]

/-- A node is empty when it has neither a key nor a tombstone. -/
theorem nodeIsEmpty_iff (node : MapNode) :
    nodeIsEmpty node = true ↔ node.key = none ∧ node.tombstone = false := by
  simp [nodeIsEmpty, Option.isNone_iff_eq_none]

theorem nodeHasKey_iff (node : MapNode) (key : Buffer) :
    nodeHasKey node (some key) = true ↔
      node.tombstone = false ∧
        ∃ stored, node.key = some stored ∧ getKeysEqual (some stored) (some key) = true := by
  cases hkey : node.key <;> simp [nodeHasKey, hkey, getKeysEqual]

/-- A node cannot be empty and hold a key. -/
theorem nodeIsEmpty_of_hasKey {node : MapNode} {key : Buffer}
    (h : nodeHasKey node (some key) = true) : nodeIsEmpty node = false := by
  obtain ⟨_, stored, hstored, _⟩ := (nodeHasKey_iff node key).mp h
  simp [nodeIsEmpty, hstored]

end SystemFundamentals.Cream
