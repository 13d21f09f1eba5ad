import SystemFundamentals.Cream.Lookup
import SystemFundamentals.Cream.LiveSlots

/-!
# Forced puts

The worker threads store with {lit}`force` set.  A forced {lit}`put` that finds the counter
at the capacity replaces the home slot of its key without a search, so it can leave the key
in two slots, and it can evict an entry although a slot is free.

Main results:

- Theorem {lit}`forcedPut_iff`: in every reachable state a forced {lit}`put` stores its key
  once and evicts only from a full table if and only if {lit}`ForcedPutFits` holds before.
-/

namespace SystemFundamentals.Cream

open Library

variable {cap : Nat} [NeZero cap] {hashFunction : List UInt8 → UInt32} {map map' : HashMap cap}
  {key val : Buffer}

/-- What a forced {lit}`put` should leave. -/
structure ForcedPutCorrect (hashFunction : List UInt8 → UInt32) (map : HashMap cap)
    (key val : Buffer) (map' : HashMap cap) : Prop where
  /-- One live slot holds the key, with the new value. -/
  stored : ∃ i, Holds map'.nodes i key ∧ (map'.nodes i).val = some val ∧
    ∀ j, Holds map'.nodes j key → j = i
  /-- An entry of another key is lost only from a full table without the key, and only the
  one in the home slot. -/
  evicted : ∀ j other, other ≠ key → Holds map.nodes j other →
    map'.nodes j ≠ map.nodes j →
      (∀ i, ¬ Holds map.nodes i key) ∧ (∀ i, (map.nodes i).live = true) ∧
        j = getIndex hashFunction key

/-- If the counter is the capacity, the key is live at most in its home slot, and the home
slot holds no other key unless every slot is live.  Otherwise the key is live at most once. -/
def ForcedPutFits (hashFunction : List UInt8 → UInt32) (map : HashMap cap) (key : Buffer) :
    Prop :=
  if UInt32.ofNat cap = map.size then
    (∀ j, Holds map.nodes j key → j = getIndex hashFunction key) ∧
      ((∀ other, Holds map.nodes (getIndex hashFunction key) other → other = key) ∨
        ∀ i, (map.nodes i).live = true)
  else ∀ i j, Holds map.nodes i key → Holds map.nodes j key → i = j

omit [NeZero cap] in
/-- The written slot holds the key; it is the only one if no other slot held it before. -/
theorem storedOnce_update_iff {nodes : Fin cap → MapNode} {i : Fin cap} :
    (∃ k, Holds (Function.update nodes i ⟨some key, some val, false⟩) k key ∧
        (Function.update nodes i ⟨some key, some val, false⟩ k).val = some val ∧
        ∀ j, Holds (Function.update nodes i ⟨some key, some val, false⟩) j key → j = k) ↔
      ∀ j, Holds nodes j key → j = i := by
  have hwritten : Holds (Function.update nodes i ⟨some key, some val, false⟩) i key :=
    holds_update_iff.mpr (Or.inl ⟨rfl, rfl, rfl⟩)
  constructor
  · rintro ⟨k, -, -, hunique⟩ j hj
    by_contra hne
    have hj' := hunique j (holds_update_iff.mpr (Or.inr ⟨hne, hj⟩))
    exact hne (hj'.trans (hunique i hwritten).symm)
  · intro honly
    refine ⟨i, hwritten, by simp, ?_⟩
    intro j hj
    rcases holds_update_iff.mp hj with ⟨rfl, -, -⟩ | ⟨-, hold⟩
    · rfl
    · exact honly j hold

/-- Replacing the home slot. -/
theorem forcedPutCorrect_replace_iff (hsize : UInt32.ofNat cap = map.size) :
    ForcedPutCorrect hashFunction map key val
        { map with
          nodes := Function.update map.nodes (getIndex hashFunction key)
            ⟨some key, some val, false⟩ } ↔
      ForcedPutFits hashFunction map key := by
  rw [ForcedPutFits, if_pos hsize]
  constructor
  · rintro ⟨hstored, hevicted⟩
    refine ⟨storedOnce_update_iff.mp hstored, ?_⟩
    by_cases hother : ∃ other, other ≠ key ∧ Holds map.nodes (getIndex hashFunction key) other
    · rcases hother with ⟨other, hne, hj⟩
      refine Or.inr (hevicted _ other hne hj ?_).2.1
      intro hsame
      have hkey : (Function.update map.nodes (getIndex hashFunction key)
          ⟨some key, some val, false⟩ (getIndex hashFunction key)).key = some other :=
        (congrArg MapNode.key hsame).trans hj.2
      rw [Function.update_self] at hkey
      exact hne (Option.some.inj hkey).symm
    · push Not at hother
      exact Or.inl fun other hj => by_contra fun hne => hother other hne hj
  · rintro ⟨honly, hfree⟩
    refine ⟨storedOnce_update_iff.mpr honly, ?_⟩
    intro j other hne hj hchanged
    have hhome : j = getIndex hashFunction key := by
      by_contra haway
      exact hchanged (Function.update_of_ne haway _ _)
    subst hhome
    rcases hfree with hown | hlive
    · exact absurd (hown other hj) hne
    · refine ⟨fun i hi => hne ?_, hlive, rfl⟩
      rw [honly i hi] at hi
      exact Option.some.inj (hj.2.symm.trans hi.2)

/-- Writing the pair to a slot that holds no other key. -/
theorem forcedPutCorrect_write_iff {i : Fin cap} {size : UInt32}
    (hslot : ∀ other, Holds map.nodes i other → other = key) :
    ForcedPutCorrect hashFunction map key val
        { map with
          nodes := Function.update map.nodes i ⟨some key, some val, false⟩
          size := size } ↔
      ∀ j, Holds map.nodes j key → j = i := by
  constructor
  · rintro ⟨hstored, -⟩
    exact storedOnce_update_iff.mp hstored
  · intro honly
    refine ⟨storedOnce_update_iff.mpr honly, ?_⟩
    intro j other hne hj hchanged
    refine absurd (Function.update_of_ne ?_ _ _) hchanged
    rintro rfl
    exact hne (hslot other hj)

/-- In every reachable state a forced {lit}`put` that returns stores its key once, with its
value, and evicts only from a full table, if and only if {lit}`ForcedPutFits` holds. -/
theorem forcedPut_iff (hreach : (mapSystem cap hashFunction NulFreeClient).Reachable map)
    (hkey : NulFree key) {reply : Reply cap Bool}
    (hput : put hashFunction map (some key) (some val) true = .ok reply)
    (hret : reply.ret = true) :
    ForcedPutCorrect hashFunction map key val reply.self ↔
      ForcedPutFits hashFunction map key := by
  have h : WellProbed hashFunction map := hreach.invariant (wellProbed_invariant hashFunction)
  have hexec : exec hashFunction map (.put key val true) = .ok (reply.self, .put reply.ret) := by
    simp only [exec, hput]
    rfl
  have hcase := exec_case h.idle hexec
  generalize reply.self = map' at hcase ⊢
  rw [hret] at hcase
  cases hcase with
  | replace _ _ hsize => exact forcedPutCorrect_replace_iff hsize
  | insert _ _ _ hroom e he hpass hempty =>
      have hnone := not_holds_of_passed h.chain hpass (Or.inr hempty)
      rw [forcedPutCorrect_write_iff, ForcedPutFits, if_neg hroom]
      · exact iff_of_true (fun j hj => absurd hj (hnone j)) fun i _ hi => absurd hi (hnone i)
      · intro other hother
        have hnokey := ((nodeIsEmpty_iff _).mp hempty).1
        rw [hother.2] at hnokey
        contradiction
  | overwrite _ _ _ hroom e he hpass hhas stored hstored =>
      have hhold := (nodeHasKey_iff_holds h.nulFree hkey).mp hhas
      have hs : stored = some key := by rw [hstored, hhold.2, ite_self]
      subst hs
      rw [forcedPutCorrect_write_iff, ForcedPutFits, if_neg hroom]
      · constructor
        · intro honly i j hi hj
          exact (honly i hi).trans (honly j hj).symm
        · intro hunique j hj
          exact hunique j _ hj hhold
      · intro other hother
        exact Option.some.inj (hother.2.symm.trans hhold.2)
  | reuse _ _ _ hroom hpass x hx htomb =>
      have hnone := not_holds_of_passed h.chain hpass (Or.inl rfl)
      rw [forcedPutCorrect_write_iff, ForcedPutFits, if_neg hroom]
      · exact iff_of_true (fun j hj => absurd hj (hnone j)) fun i _ hi => absurd hi (hnone i)
      · intro other hother
        rw [hother.1] at htomb
        contradiction

/-- Two keys with the home slot zero fill two slots. -/
def collidingMap : HashMap 2 :=
  { createMap 2 with
    nodes := Function.update (Function.update (createMap 2).nodes ⟨0, Nat.two_pos⟩
      ⟨some (.ofByte 97), some (.ofByte 1), false⟩) (Fin.last 1)
      ⟨some (.ofByte 98), some (.ofByte 2), false⟩
    size := 2 }

theorem collidingMap_reachable :
    (mapSystem 2 (fun _ => 0) NulFreeClient).Reachable collidingMap := by
  have hrun : (mapSystem 2 (fun _ => 0) NulFreeClient).Run (createMap 2)
      [(.put (.ofByte 97) (.ofByte 1) true, .put true),
        (.put (.ofByte 98) (.ofByte 2) true, .put true)] collidingMap :=
    .cons ⟨by decide, rfl⟩ (.cons ⟨by decide, rfl⟩ (.nil _))
  exact hrun.reachable (.initial rfl)

/-- A third key evicts the entry in slot zero, as it should. -/
theorem forcedPut_newKey :
    ∃ reply, put (fun _ => 0) collidingMap (some (.ofByte 99)) (some (.ofByte 3)) true =
        .ok reply ∧
      ForcedPutCorrect (fun _ => 0) collidingMap (.ofByte 99) (.ofByte 3) reply.self := by
  refine ⟨_, rfl, (forcedPut_iff collidingMap_reachable (by decide) rfl rfl).mpr ?_⟩
  rw [ForcedPutFits, if_pos (show UInt32.ofNat 2 = collidingMap.size from rfl)]
  exact ⟨by unfold Holds; decide, Or.inr (by decide)⟩

/-- Storing the displaced key again evicts the other one and leaves the key in both slots. -/
theorem not_forcedPutCorrect :
    ¬ ∀ (cap : Nat) [NeZero cap], cap < 2 ^ 31 →
      ∀ (hashFunction : List UInt8 → UInt32) (map : HashMap cap),
        (mapSystem cap hashFunction NulFreeClient).Reachable map →
          ∀ key val reply, NulFree key →
            put hashFunction map (some key) (some val) true = .ok reply → reply.ret = true →
              ForcedPutCorrect hashFunction map key val reply.self := by
  intro hall
  have hcorrect := hall 2 (by decide) (fun _ => 0) collidingMap collidingMap_reachable
    (.ofByte 98) (.ofByte 3) _ (by decide) rfl rfl
  have hlost := hcorrect.evicted 0 (.ofByte 97) (by decide) ⟨rfl, rfl⟩ (by decide)
  exact hlost.1 (Fin.last 1) ⟨rfl, rfl⟩

end SystemFundamentals.Cream
