import SystemFundamentals.Cream.HashMap
import SystemFundamentals.Library.Fuel
import Mathlib.Data.Nat.Find

/-!
# What one probe of the hash map finds

Every operation with a key walks the ring of slots from the key's home slot and
stops at the first slot that is empty or holds the key.  This file says once
where that walk ends, and reads the searches of {lit}`get`, {lit}`delete` and
{lit}`put` off that one fact, so that no later proof unfolds a loop.

Main results:

- Theorem {lit}`findSlot_eq_some_iff`: the slot {lit}`get` and {lit}`delete`
  answer with is the first stop of the walk, when that slot holds the key.
- Theorem {lit}`putNode_case`: the five things the assignments of {lit}`put`
  can do, with their guards.
-/

namespace SystemFundamentals.Cream

open Library

variable {cap : Nat} [NeZero cap]

/-! ## The walk from the home slot -/

/-- No slot before distance {lit}`e` from {lit}`home` is empty or holds the
key. -/
def PassedUpTo (nodes : Fin cap → MapNode) (home : Fin cap) (key : Buffer)
    (e : Nat) : Prop :=
  ∀ x, x < e → canPutKey (nodes (Ring.along home x)) (some key) = false

/-- The walk has a first stop, unless it comes round. -/
theorem exists_firstStop (nodes : Fin cap → MapNode) (home : Fin cap) (key : Buffer) :
    ∃ e, e ≤ cap ∧ PassedUpTo nodes home key e ∧
      (e = cap ∨ canPutKey (nodes (Ring.along home e)) (some key) = true) := by
  by_cases h : ∃ e, e < cap ∧ canPutKey (nodes (Ring.along home e)) (some key) = true
  · classical
    refine ⟨Nat.find h, (Nat.find_spec h).1.le, ?_, Or.inr (Nat.find_spec h).2⟩
    intro x hx
    have hnot := Nat.find_min h hx
    have hlt : x < cap := hx.trans (Nat.find_spec h).1
    simpa [hlt] using hnot
  · refine ⟨cap, le_rfl, ?_, Or.inl rfl⟩
    intro x hx
    by_contra hstop
    exact h ⟨x, hx, by simpa using hstop⟩

/-- Two first stops of one walk are the same. -/
theorem PassedUpTo.unique {nodes : Fin cap → MapNode} {home : Fin cap} {key : Buffer}
    {e f : Nat} (he : PassedUpTo nodes home key e) (hf : PassedUpTo nodes home key f)
    (hstopE : e = cap ∨ canPutKey (nodes (Ring.along home e)) (some key) = true)
    (hstopF : f = cap ∨ canPutKey (nodes (Ring.along home f)) (some key) = true)
    (hle : e ≤ cap) (hlf : f ≤ cap) : e = f := by
  rcases Nat.lt_trichotomy e f with h | h | h
  · rcases hstopE with hcap | hstop
    · omega
    · rw [hf e h] at hstop
      contradiction
  · exact h
  · rcases hstopF with hcap | hstop
    · omega
    · rw [he f h] at hstop
      contradiction

/-- The scan from the slot after {lit}`home` ends at the first stop of the
walk, when {lit}`home` itself is not one. -/
theorem scan_eq_firstStop {nodes : Fin cap → MapNode} {home : Fin cap} {key : Buffer}
    {e : Nat} (he : e ≤ cap) (hpass : PassedUpTo nodes home key e) (hpos : 0 < e)
    (hstop : e = cap ∨ canPutKey (nodes (Ring.along home e)) (some key) = true) :
    Ring.scan (fun i => canPutKey (nodes i) (some key)) home cap (Ring.next home) =
      Ring.along home e := by
  have hcap : 0 < cap := Nat.pos_of_neZero cap
  obtain ⟨f, hf, hfc, hscan, hpath, hend⟩ :=
    Ring.scan_spec (fun i => canPutKey (nodes i) (some key)) home cap 1
      (by omega) hcap (by omega)
  have hnext : Ring.next home = Ring.along home 1 := by
    rw [← Ring.next_along, Ring.along_zero]
  have hpassF : PassedUpTo nodes home key f := by
    intro x hx
    rcases Nat.eq_zero_or_pos x with rfl | hx0
    · exact hpass 0 hpos
    · exact hpath x hx0 hx
  rw [hnext, hscan, PassedUpTo.unique hpass hpassF hstop hend he hfc]

/-! ## The search of `get` and `delete` -/

/-- The search answers with the first stop of the walk, if that slot holds the
key. -/
theorem findSlot_of_firstStop {nodes : Fin cap → MapNode} {home : Fin cap}
    {key : Buffer} {e : Nat} (he : e ≤ cap) (hpass : PassedUpTo nodes home key e)
    (hstop : e = cap ∨ canPutKey (nodes (Ring.along home e)) (some key) = true) :
    findSlot nodes home key =
      if nodeHasKey (nodes (Ring.along home e)) (some key) then some (Ring.along home e)
      else none := by
  rcases Nat.eq_zero_or_pos e with rfl | hpos
  · have hcap : 0 < cap := Nat.pos_of_neZero cap
    have hput : canPutKey (nodes home) (some key) = true := by
      rcases hstop with h | h
      · omega
      · simpa using h
    cases hempty : nodeIsEmpty (nodes home) with
    | true =>
        have hnot : nodeHasKey (nodes home) (some key) = false := by
          cases hkey : nodeHasKey (nodes home) (some key) with
          | false => rfl
          | true => rw [nodeIsEmpty_of_hasKey hkey] at hempty; contradiction
        simp [findSlot, hempty, hnot]
    | false =>
        have hkey : nodeHasKey (nodes home) (some key) = true := by
          simpa [canPutKey, hempty] using hput
        simp [findSlot, hempty, hkey]
  · have hhome := hpass 0 hpos
    rw [Ring.along_zero, canPutKey, Bool.or_eq_false_iff] at hhome
    rw [findSlot, scan_eq_firstStop he hpass hpos hstop]
    simp [hhome.1, hhome.2]

/-- {lit}`findSlot` answers with the slot at distance {lit}`d` exactly when
that slot holds the key and the walk passes every slot before it. -/
theorem findSlot_eq_some_iff {nodes : Fin cap → MapNode} {home j : Fin cap}
    {key : Buffer} :
    findSlot nodes home key = some j ↔
      nodeHasKey (nodes j) (some key) = true ∧
        PassedUpTo nodes home key (Ring.dist home j) := by
  obtain ⟨e, he, hpass, hstop⟩ := exists_firstStop nodes home key
  rw [findSlot_of_firstStop he hpass hstop]
  constructor
  · intro h
    split_ifs at h with hkey
    have hj : Ring.along home e = j := Option.some.inj h
    have hlt : e < cap := by
      rcases Nat.lt_or_eq_of_le he with hlt | heq
      · exact hlt
      · have hhome := hpass 0 (heq ▸ Nat.pos_of_neZero cap)
        rw [heq, Ring.along_self] at hkey
        simp [canPutKey, hkey] at hhome
    subst hj
    exact ⟨hkey, by rwa [Ring.dist_along hlt]⟩
  · rintro ⟨hkey, hpassJ⟩
    have hstopJ : canPutKey (nodes (Ring.along home (Ring.dist home j))) (some key) = true := by
      simp [canPutKey, hkey]
    have hd : e = Ring.dist home j :=
      PassedUpTo.unique hpass hpassJ hstop (Or.inr hstopJ) he (Ring.dist_lt _ _).le
    rw [hd, Ring.along_dist, if_pos hkey]

/-- A failed search met an empty slot before any slot that holds the key. -/
theorem findSlot_eq_none {nodes : Fin cap → MapNode} {home : Fin cap} {key : Buffer}
    (h : findSlot nodes home key = none) {j : Fin cap}
    (hj : nodeHasKey (nodes j) (some key) = true) :
    ∃ x, x < Ring.dist home j ∧ nodeIsEmpty (nodes (Ring.along home x)) = true := by
  obtain ⟨e, he, hpass, hstop⟩ := exists_firstStop nodes home key
  rw [findSlot_of_firstStop he hpass hstop] at h
  have hnot : nodeHasKey (nodes (Ring.along home e)) (some key) = false := by
    by_contra hkey
    simp [Bool.eq_true_of_not_eq_false hkey] at h
  have hput : canPutKey (nodes (Ring.along home (Ring.dist home j))) (some key) = true := by
    simp [canPutKey, hj]
  have hle : e ≤ Ring.dist home j := by
    by_contra hlt
    rw [hpass _ (by omega)] at hput
    contradiction
  have hlt : e < cap := lt_of_le_of_lt hle (Ring.dist_lt _ _)
  have hempty : nodeIsEmpty (nodes (Ring.along home e)) = true := by
    rcases hstop with hcap | hstop
    · omega
    · simpa [canPutKey, hnot] using hstop
  refine ⟨e, ?_, hempty⟩
  rcases Nat.lt_or_eq_of_le hle with h' | h'
  · exact h'
  · rw [h', Ring.along_dist, hj] at hnot
    contradiction

/-- A walk that met an empty slot first, or came round, finds nothing. -/
theorem findSlot_eq_none_of_passed {nodes : Fin cap → MapNode} {home : Fin cap} {key : Buffer}
    {e : Nat} (he : e ≤ cap) (hpass : PassedUpTo nodes home key e)
    (hend : e = cap ∨ nodeIsEmpty (nodes (Ring.along home e)) = true) :
    findSlot nodes home key = none := by
  have hnot : nodeHasKey (nodes (Ring.along home e)) (some key) = false := by
    rcases hend with rfl | hempty
    · rw [Ring.along_self]
      have hhome := hpass 0 (Nat.pos_of_neZero e)
      rw [Ring.along_zero] at hhome
      exact (Bool.or_eq_false_iff.mp hhome).2
    · by_contra hhas
      rw [nodeIsEmpty_of_hasKey (Bool.eq_true_of_not_eq_false hhas)] at hempty
      contradiction
  have hstop : e = cap ∨ canPutKey (nodes (Ring.along home e)) (some key) = true :=
    hend.imp_right fun hempty => by rw [canPutKey, hempty, Bool.true_or]
  rw [findSlot_of_firstStop he hpass hstop, hnot]
  rfl

/-! ## The search of `put` -/

/-- The loop of {lit}`put` ends at the first stop of the walk, and returns the
first tombstone among the slots it passed unless it already had one. -/
theorem putLoop_spec (nodes : Fin cap → MapNode) (home : Fin cap) (key : Buffer) {e : Nat}
    (he : e ≤ cap) (hpass : PassedUpTo nodes home key e)
    (hstop : e = cap ∨ canPutKey (nodes (Ring.along home e)) (some key) = true) :
    ∀ (fuel d : Nat) (first : Option (Fin cap)), 0 < d → d ≤ e → cap ≤ d + fuel →
      ∃ last, putLoop nodes key home fuel (Ring.along home d) first =
          (Ring.along home e, last) ∧
        (first.isSome → last = first) ∧
        (first = none →
          (last = none ∧
            ∀ x, d ≤ x → x < e → (nodes (Ring.along home x)).tombstone = false) ∨
          ∃ x, d ≤ x ∧ x < e ∧ last = some (Ring.along home x) ∧
            (nodes (Ring.along home x)).tombstone = true) := by
  intro fuel
  induction fuel with
  | zero =>
      intro d first _ hde hfuel
      have hd : d = e := by omega
      subst hd
      exact ⟨first, rfl, fun _ => rfl,
        fun h => Or.inl ⟨h, fun x h1 h2 => absurd h1 (by omega)⟩⟩
  | succ fuel ih =>
      intro d first hpos hde hfuel
      rcases Nat.lt_or_eq_of_le hde with hlt | heq
      · have hgo : Ring.along home d ≠ home ∧
            canPutKey (nodes (Ring.along home d)) (some key) = false :=
          ⟨Ring.along_ne_start hpos (by omega), hpass d hlt⟩
        obtain ⟨last, hloop, hkeep, hfirst⟩ := ih (d + 1)
          (if first.isNone ∧ (nodes (Ring.along home d)).tombstone then
            some (Ring.along home d) else first) (by omega) hlt (by omega)
        refine ⟨last, ?_, ?_, ?_⟩
        · rw [putLoop, if_pos hgo, Ring.next_along]
          exact hloop
        · intro hsome
          cases first with
          | none => simp at hsome
          | some t => simpa using hkeep (by simp)
        · intro hnone
          subst hnone
          cases htomb : (nodes (Ring.along home d)).tombstone with
          | true =>
              refine Or.inr ⟨d, le_rfl, hlt, ?_, htomb⟩
              simpa [htomb] using hkeep (by simp [htomb])
          | false =>
              rcases hfirst (by simp [htomb]) with ⟨hl, hnot⟩ | ⟨x, hdx, hxe, hl, ht⟩
              · refine Or.inl ⟨hl, fun x hdx hxe => ?_⟩
                rcases Nat.lt_or_eq_of_le hdx with h | h
                · exact hnot x h hxe
                · exact h ▸ htomb
              · exact Or.inr ⟨x, by omega, hxe, hl, ht⟩
      · subst heq
        have hhalt : ¬ (Ring.along home d ≠ home ∧
            canPutKey (nodes (Ring.along home d)) (some key) = false) := by
          rintro ⟨hne, hfalse⟩
          rcases hstop with hcap | htrue
          · exact hne (by rw [hcap, Ring.along_self])
          · rw [htrue] at hfalse
            contradiction
        exact ⟨first, by rw [putLoop, if_neg hhalt], fun _ => rfl,
          fun h => Or.inl ⟨h, fun x h1 h2 => absurd h1 (by omega)⟩⟩

/-- A walk that comes round ends at its home slot with the first tombstone of the
ring, the home slot's own included, or with none where the ring has none. -/
theorem putLoop_wholeTurn {nodes : Fin cap → MapNode} {home : Fin cap} {key : Buffer}
    (hpass : PassedUpTo nodes home key cap) :
    ∃ last, putLoop nodes key home cap (Ring.next home)
          (if (nodes home).tombstone then some home else none) = (home, last) ∧
        ((last = none ∧ ∀ i, (nodes i).tombstone = false) ∨
          ∃ x, x < cap ∧ last = some (Ring.along home x) ∧
            (nodes (Ring.along home x)).tombstone = true) := by
  have hcap : 0 < cap := Nat.pos_of_neZero cap
  obtain ⟨last, hloop, hkeep, hfirst⟩ := putLoop_spec nodes home key le_rfl hpass (Or.inl rfl)
    cap 1 (if (nodes home).tombstone then some home else none) (by omega) (by omega) (by omega)
  rw [← Ring.next_along, Ring.along_zero, Ring.along_self] at hloop
  refine ⟨last, hloop, ?_⟩
  cases htomb : (nodes home).tombstone with
  | true =>
      have hlast : last = some home := by simpa [htomb] using hkeep (by simp [htomb])
      exact Or.inr ⟨0, hcap, by rw [Ring.along_zero, hlast], by rw [Ring.along_zero, htomb]⟩
  | false =>
      rcases hfirst (by simp [htomb]) with ⟨hlast, hnot⟩ | ⟨x, _, hxe, hlast, ht⟩
      · refine Or.inl ⟨hlast, fun i => ?_⟩
        rw [← Ring.along_dist home i]
        rcases Nat.eq_zero_or_pos (Ring.dist home i) with h0 | hi
        · rw [h0, Ring.along_zero]
          exact htomb
        · exact hnot _ hi (Ring.dist_lt _ _)
      · exact Or.inr ⟨x, hxe, hlast, ht⟩

/-- The five outcomes of the node assignments of {lit}`put`. -/
inductive PutNodeCase (hashFunction : List UInt8 → UInt32) (self : HashMap cap)
    (key val : Buffer) (force : Bool) : Except Stop (HashMap cap) → Prop
  /-- The counter says full and the call is forced: the home slot is replaced. -/
  | replace (hfull : UInt32.ofNat cap = self.size) (hforce : force = true) :
      PutNodeCase hashFunction self key val force (.ok { self with
        nodes := Function.update self.nodes (getIndex hashFunction key)
          ⟨some key, some val, false⟩
        size := self.size - 1 })
  /-- The walk stops at an empty slot, which takes the pair. -/
  | insert (hnot : ¬ (UInt32.ofNat cap = self.size ∧ force = true)) (e : Nat) (he : e < cap)
      (hpass : PassedUpTo self.nodes (getIndex hashFunction key) key e)
      (hempty : nodeIsEmpty (self.nodes (Ring.along (getIndex hashFunction key) e)) = true) :
      PutNodeCase hashFunction self key val force (.ok { self with
        nodes := Function.update self.nodes (Ring.along (getIndex hashFunction key) e)
          ⟨some key, some val, false⟩ })
  /-- The walk stops at a slot that holds the key: the value is replaced, and
  in the home slot the key pointer too. -/
  | overwrite (hnot : ¬ (UInt32.ofNat cap = self.size ∧ force = true)) (e : Nat) (he : e < cap)
      (hpass : PassedUpTo self.nodes (getIndex hashFunction key) key e)
      (hkey : nodeHasKey (self.nodes (Ring.along (getIndex hashFunction key) e))
        (some key) = true) (stored : MapKey)
      (hstored : stored = if e = 0 then some key
        else (self.nodes (Ring.along (getIndex hashFunction key) e)).key) :
      PutNodeCase hashFunction self key val force (.ok { self with
        nodes := Function.update self.nodes (Ring.along (getIndex hashFunction key) e)
          ⟨stored, some val, false⟩ })
  /-- The walk comes round: the pair goes to the first tombstone passed. -/
  | reuse (hnot : ¬ (UInt32.ofNat cap = self.size ∧ force = true))
      (hpass : PassedUpTo self.nodes (getIndex hashFunction key) key cap) (x : Nat)
      (hx : x < cap)
      (htomb : (self.nodes (Ring.along (getIndex hashFunction key) x)).tombstone = true) :
      PutNodeCase hashFunction self key val force (.ok { self with
        nodes := Function.update self.nodes (Ring.along (getIndex hashFunction key) x)
          ⟨some key, some val, false⟩ })
  /-- The walk comes round and passed no tombstone. -/
  | missing (hnot : ¬ (UInt32.ofNat cap = self.size ∧ force = true))
      (hpass : PassedUpTo self.nodes (getIndex hashFunction key) key cap)
      (hnone : ∀ i, (self.nodes i).tombstone = false) :
      PutNodeCase hashFunction self key val force (.error .nullDeref)

/-- {lit}`putNode` does one of the five things of {lit}`PutNodeCase`. -/
theorem putNode_case (hashFunction : List UInt8 → UInt32) (self : HashMap cap)
    (key val : Buffer) (force : Bool) :
    PutNodeCase hashFunction self key val force
      (putNode hashFunction self key val force) := by
  by_cases hfull : UInt32.ofNat cap = self.size ∧ force = true
  · rw [putNode, if_pos hfull]
    exact .replace hfull.1 hfull.2
  have hcap : 0 < cap := Nat.pos_of_neZero cap
  set home : Fin cap := getIndex hashFunction key with hhome
  obtain ⟨e, he, hpass, hstop⟩ := exists_firstStop self.nodes home key
  rcases Nat.eq_zero_or_pos e with rfl | hpos
  · -- the home slot can take the key
    have hput : canPutKey (self.nodes home) (some key) = true := by
      rcases hstop with h | h
      · omega
      · simpa using h
    have hnode : putNode hashFunction self key val force = .ok { self with
        nodes := Function.update self.nodes (Ring.along home 0)
          ⟨some key, some val, (self.nodes home).tombstone⟩ } := by
      simp [putNode, hfull, ← hhome, hput]
    rw [hnode]
    rcases Bool.or_eq_true_iff.mp hput with hempty | hkey
    · rw [((nodeIsEmpty_iff _).mp hempty).2]
      exact .insert hfull 0 hcap hpass (by simpa using hempty)
    · rw [((nodeHasKey_iff _ _).mp hkey).1]
      exact .overwrite hfull 0 hcap hpass (by simpa using hkey) _ (by simp)
  · -- the walk leaves the home slot
    have hhomeFalse : canPutKey (self.nodes home) (some key) = false := by
      simpa using hpass 0 hpos
    rcases Nat.lt_or_eq_of_le he with hlt | heq
    · obtain ⟨last, hloop, -, -⟩ := putLoop_spec self.nodes home key he hpass hstop
        cap 1 (if (self.nodes home).tombstone then some home else none)
        (by omega) (by omega) (by omega)
      rw [← Ring.next_along, Ring.along_zero] at hloop
      have hne : Ring.along home e ≠ home := Ring.along_ne_start hpos hlt
      have hput : canPutKey (self.nodes (Ring.along home e)) (some key) = true := by
        rcases hstop with h | h
        · omega
        · exact h
      cases hempty : nodeIsEmpty (self.nodes (Ring.along home e)) with
      | true =>
          have hnode : putNode hashFunction self key val force = .ok { self with
              nodes := Function.update self.nodes (Ring.along home e)
                ⟨some key, some val, false⟩ } := by
            simp [putNode, hfull, ← hhome, hhomeFalse, hloop, hne, hempty]
          rw [hnode]
          exact .insert hfull e hlt hpass hempty
      | false =>
          have hkey : nodeHasKey (self.nodes (Ring.along home e)) (some key) = true := by
            simpa [canPutKey, hempty] using hput
          have hnode : putNode hashFunction self key val force = .ok { self with
              nodes := Function.update self.nodes (Ring.along home e)
                ⟨(self.nodes (Ring.along home e)).key, some val,
                  (self.nodes (Ring.along home e)).tombstone⟩ } := by
            simp [putNode, hfull, ← hhome, hhomeFalse, hloop, hne, hempty]
          rw [hnode, ((nodeHasKey_iff _ _).mp hkey).1]
          exact .overwrite hfull e hlt hpass hkey _ (by rw [if_neg (by omega)])
    · -- a whole turn: only a tombstone can take the pair
      subst heq
      obtain ⟨last, hloop, hlast⟩ := putLoop_wholeTurn hpass
      rcases hlast with ⟨hnone, hall⟩ | ⟨x, hx, hsome, htomb⟩
      · have hnode : putNode hashFunction self key val force = .error .nullDeref := by
          simp [putNode, hfull, ← hhome, hhomeFalse, hloop, hnone]
        rw [hnode]
        exact .missing hfull hpass hall
      · have hnode : putNode hashFunction self key val force = .ok { self with
            nodes := Function.update self.nodes (Ring.along home x)
              ⟨some key, some val, false⟩ } := by
          simp [putNode, hfull, ← hhome, hhomeFalse, hloop, hsome]
        rw [hnode]
        exact .reuse hfull hpass x hx htomb

/-! ## Calls on an idle map -/

/-- A valid map that no other thread is using. -/
structure Idle (map : HashMap cap) : Prop where
  valid : map.invalid = false
  noReaders : map.numReaders = 0

/-- {lit}`put` on an idle map: the capacity test, then the node assignments. -/
theorem put_of_idle {map : HashMap cap} (hidle : Idle map)
    (hashFunction : List UInt8 → UInt32) (key val : Buffer) (force : Bool) :
    put hashFunction map (some key) (some val) force =
      if UInt32.ofNat cap = map.size ∧ force = false then .ok ⟨map, false, some .ENOMEM⟩
      else
        (putNode hashFunction map key val force).map fun stored =>
          ⟨{ stored with size := stored.size + 1, numReaders := 0 }, true, none⟩ := by
  have hvalid : ¬ map.invalid = true := by simp [hidle.valid]
  have hreaders : ¬ 0 < map.numReaders := by simp [hidle.noReaders]
  simp only [put, putLocked, if_neg hvalid, if_neg hreaders]
  cases putNode hashFunction map key val force <;> rfl

/-- {lit}`get` on an idle map answers from the search and changes nothing. -/
theorem get_of_idle {map : HashMap cap} (hidle : Idle map)
    (hashFunction : List UInt8 → UInt32) (key : Buffer) :
    get hashFunction map (some key) =
      .ok ⟨map, (findSlot map.nodes (getIndex hashFunction key) key).bind
        fun index => (map.nodes index).val, none⟩ := by
  rcases map with ⟨size, nodes, readers, invalid⟩
  have hvalid : invalid = false := hidle.valid
  have hreaders : readers = 0 := hidle.noReaders
  subst hvalid hreaders
  unfold get
  cases h : findSlot nodes (getIndex hashFunction key) key <;> simp [h]

/-- {lit}`delete` on an idle map. -/
theorem delete_of_idle {map : HashMap cap} (hidle : Idle map)
    (hashFunction : List UInt8 → UInt32) (key : Buffer) :
    delete hashFunction map (some key) =
      match findSlot map.nodes (getIndex hashFunction key) key with
      | none => .ok ⟨{ map with size := map.size - 1, numReaders := 0 }, .null, none⟩
      | some index =>
          .ok ⟨{ map with
              nodes := Function.update map.nodes (getIndex hashFunction key)
                { map.nodes (getIndex hashFunction key) with tombstone := true }
              size := map.size - 1
              numReaders := 0 }, map.nodes index, none⟩ := by
  have hvalid : ¬ map.invalid = true := by simp [hidle.valid]
  have hreaders : ¬ 0 < map.numReaders := by simp [hidle.noReaders]
  cases hfind : findSlot map.nodes (getIndex hashFunction key) key with
  | none => simp [delete, hvalid, hreaders, hfind]
  | some index => simp [delete, hvalid, hreaders, hfind]

omit [NeZero cap] in
/-- {lit}`clear_map` on an idle map leaves a fresh one. -/
theorem clearMap_of_idle {map : HashMap cap} (hidle : Idle map) :
    clearMap map =
      .ok ⟨createMap cap,
        (true, List.ofFn fun i => ((map.nodes i).key, (map.nodes i).val)), none⟩ := by
  rcases map with ⟨size, nodes, readers, invalid⟩
  have hvalid : invalid = false := hidle.valid
  have hreaders : readers = 0 := hidle.noReaders
  subst hvalid hreaders
  simp [clearMap, createMap]

end SystemFundamentals.Cream
