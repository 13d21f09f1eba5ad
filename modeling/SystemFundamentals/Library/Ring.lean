import Mathlib.Data.Fin.Basic
import Mathlib.Data.Int.ModEq
import Mathlib.Tactic.Common

/-!
# Scanning a ring of slots

An open-addressing table visits its slots in cyclic order from a home slot,
until a slot satisfies a stop test or the scan has come back to where it began.
This file fixes the cyclic order on {lit}`Fin n`, the scan itself, and what the
scan's answer says about the slots it passed.

Main results:

- Theorem {lit}`Ring.along_dist`: every slot lies at exactly one distance below
  {lit}`n` from a given start.
- Theorem {lit}`Ring.scan_spec`: with enough fuel the scan stops at the first
  slot on its path that satisfies the test, or back at the start.
-/

namespace SystemFundamentals.Library.Ring

variable {n : Nat} [NeZero n]

/-- The cyclic successor of a slot. -/
def next (i : Fin n) : Fin n :=
  ⟨(i.val + 1) % n, Nat.mod_lt _ (Nat.pos_of_neZero n)⟩

/-- The slot {lit}`d` places after {lit}`start`. -/
def along (start : Fin n) (d : Nat) : Fin n :=
  ⟨(start.val + d) % n, Nat.mod_lt _ (Nat.pos_of_neZero n)⟩

/-- The number of places from {lit}`start` forward to {lit}`j`. -/
def dist (start j : Fin n) : Nat :=
  (j.val + (n - start.val)) % n

@[simp] theorem along_zero (start : Fin n) : along start 0 = start := by
  apply Fin.ext
  simp [along, Nat.mod_eq_of_lt start.isLt]

theorem next_along (start : Fin n) (d : Nat) : next (along start d) = along start (d + 1) := by
  apply Fin.ext
  simp [next, along, Nat.add_assoc]

@[simp] theorem along_self (start : Fin n) : along start n = start := by
  apply Fin.ext
  simp [along, Nat.mod_eq_of_lt start.isLt]

theorem dist_lt (start j : Fin n) : dist start j < n :=
  Nat.mod_lt _ (Nat.pos_of_neZero n)

/-- Walking the distance arrives. -/
@[simp] theorem along_dist (start j : Fin n) : along start (dist start j) = j := by
  apply Fin.ext
  have hj := j.isLt
  have hs := start.isLt
  have hsum : start.val + (j.val + (n - start.val)) = j.val + n := by omega
  simp only [along, dist, Nat.add_mod_mod]
  rw [hsum, Nat.add_mod_right, Nat.mod_eq_of_lt hj]

/-- Distances below {lit}`n` are determined by the slot they reach. -/
theorem along_injective {start : Fin n} {d e : Nat} (hd : d < n) (he : e < n)
    (h : along start d = along start e) : d = e := by
  have hs := start.isLt
  have hval : (start.val + d) % n = (start.val + e) % n := congrArg Fin.val h
  have hmod : d % n = e % n := Nat.ModEq.add_left_cancel' start.val hval
  rwa [Nat.mod_eq_of_lt hd, Nat.mod_eq_of_lt he] at hmod

/-- A slot at distance {lit}`d` below {lit}`n` has distance {lit}`d`. -/
theorem dist_along {start : Fin n} {d : Nat} (hd : d < n) : dist start (along start d) = d :=
  along_injective (dist_lt _ _) hd (along_dist _ _)

@[simp] theorem dist_self (start : Fin n) : dist start start = 0 :=
  along_injective (dist_lt _ _) (Nat.pos_of_neZero n) (by rw [along_dist, along_zero])

/-- Only distance zero leads back to the start before a full turn. -/
theorem along_ne_start {start : Fin n} {d : Nat} (hpos : 0 < d) (hd : d < n) :
    along start d ≠ start := by
  intro h
  have hzero : d = 0 := along_injective hd (Nat.pos_of_neZero n) (by rw [h, along_zero])
  omega

/-- Walk from {lit}`i` until a slot satisfies {lit}`stop` or is {lit}`start`. -/
def scan (stop : Fin n → Bool) (start : Fin n) : Nat → Fin n → Fin n
  | 0, i => i
  | fuel + 1, i =>
      if i ≠ start ∧ stop i = false then scan stop start fuel (next i) else i

/-- The scan from distance {lit}`d` ends at the first distance {lit}`e` whose
slot satisfies the test, or at {lit}`n`, which is the start again. -/
theorem scan_spec (stop : Fin n → Bool) (start : Fin n) :
    ∀ (fuel d : Nat), 0 < d → d ≤ n → n ≤ d + fuel →
      ∃ e, d ≤ e ∧ e ≤ n ∧ scan stop start fuel (along start d) = along start e ∧
        (∀ x, d ≤ x → x < e → stop (along start x) = false) ∧
        (e = n ∨ stop (along start e) = true) := by
  intro fuel
  induction fuel with
  | zero =>
      intro d _ hd hfuel
      exact ⟨d, le_rfl, hd, rfl, fun x h1 h2 => absurd h1 (by omega), Or.inl (by omega)⟩
  | succ fuel ih =>
      intro d hpos hd hfuel
      by_cases hgo : along start d ≠ start ∧ stop (along start d) = false
      · have hlt : d < n := by
          rcases Nat.lt_or_eq_of_le hd with h | h
          · exact h
          · exact absurd (by rw [h, along_self]) hgo.1
        obtain ⟨e, hde, hen, hscan, hpath, hstop⟩ := ih (d + 1) (by omega) hlt (by omega)
        refine ⟨e, by omega, hen, ?_, ?_, hstop⟩
        · rw [scan, if_pos hgo, next_along, hscan]
        · intro x hdx hxe
          rcases Nat.lt_or_eq_of_le hdx with h | h
          · exact hpath x h hxe
          · rw [← h]
            exact hgo.2
      · refine ⟨d, le_rfl, hd, by rw [scan, if_neg hgo],
          fun x h1 h2 => absurd h1 (by omega), ?_⟩
        rcases Nat.lt_or_eq_of_le hd with h | h
        · right
          by_contra hstop
          exact hgo ⟨along_ne_start hpos h, by simpa using hstop⟩
        · exact Or.inl h

end SystemFundamentals.Library.Ring
