import Mathlib.Data.Finset.Card
import Mathlib.Data.Fintype.Card

/-!
# Counting the entries of a table

A table is a function on a finite index type, and its tally is the number of entries that
pass a test.  Writing one entry moves the tally by at most one; this file says by how much.

Main results:

- Theorem {lit}`tally_update_enter`, {lit}`tally_update_leave` and
  {lit}`tally_update_same`: the tally after one entry is written.
- Theorem {lit}`tally_eq_card_iff`: the tally is the size of the table exactly when every
  entry passes.
-/

namespace SystemFundamentals.Library

variable {ι : Type*} [Fintype ι] [DecidableEq ι] {α : Type*}

/-- The positions whose entry passes the test. -/
def positions (test : α → Bool) (table : ι → α) : Finset ι :=
  Finset.univ.filter fun i => test (table i) = true

/-- The number of entries that pass the test. -/
def tally (test : α → Bool) (table : ι → α) : Nat :=
  (positions test table).card

variable {test : α → Bool} {table : ι → α} {i : ι} {entry : α}

omit [DecidableEq ι] in
@[simp] theorem mem_positions : i ∈ positions test table ↔ test (table i) = true := by
  simp [positions]

/-- A passing entry puts its position in. -/
theorem positions_update_of_pass (h : test entry = true) :
    positions test (Function.update table i entry) = insert i (positions test table) := by
  ext j
  by_cases hj : j = i
  · subst hj
    simp [h]
  · simp [hj]

/-- A failing entry takes its position out. -/
theorem positions_update_of_fail (h : test entry = false) :
    positions test (Function.update table i entry) = (positions test table).erase i := by
  ext j
  by_cases hj : j = i
  · subst hj
    simp [h]
  · simp [hj]

/-- A passing entry in the place of a failing one. -/
theorem tally_update_enter (hold : test (table i) = false) (hnew : test entry = true) :
    tally test (Function.update table i entry) = tally test table + 1 := by
  rw [tally, positions_update_of_pass hnew, Finset.card_insert_of_notMem (by simp [hold])]
  rfl

/-- A failing entry in the place of a passing one. -/
theorem tally_update_leave (hold : test (table i) = true) (hnew : test entry = false) :
    tally test (Function.update table i entry) + 1 = tally test table := by
  rw [tally, positions_update_of_fail hnew]
  exact Finset.card_erase_add_one (by simp [hold])

/-- An entry in the place of one with the same answer. -/
theorem tally_update_same (h : test entry = test (table i)) :
    tally test (Function.update table i entry) = tally test table := by
  cases hnew : test entry with
  | true =>
      rw [tally, positions_update_of_pass hnew, Finset.insert_eq_of_mem (by simp [← h, hnew])]
      rfl
  | false =>
      rw [tally, positions_update_of_fail hnew, Finset.erase_eq_of_notMem (by simp [← h, hnew])]
      rfl

omit [DecidableEq ι] in
theorem tally_le_card : tally test table ≤ Fintype.card ι :=
  Finset.card_le_univ _

omit [DecidableEq ι] in
/-- Only a table all of whose entries pass has a full tally. -/
theorem tally_eq_card_iff : tally test table = Fintype.card ι ↔ ∀ i, test (table i) = true := by
  rw [tally, Finset.card_eq_iff_eq_univ, Finset.eq_univ_iff_forall]
  exact forall_congr' fun i => mem_positions

omit [DecidableEq ι] in
/-- One failing entry keeps the tally below the size of the table. -/
theorem tally_lt_card (h : test (table i) = false) : tally test table < Fintype.card ι := by
  refine lt_of_le_of_ne tally_le_card ?_
  intro hfull
  rw [tally_eq_card_iff.mp hfull i] at h
  contradiction

omit [DecidableEq ι] in
theorem tally_pos (h : test (table i) = true) : 0 < tally test table :=
  Finset.card_pos.mpr ⟨i, mem_positions.mpr h⟩

omit [DecidableEq ι] in
@[simp] theorem tally_const_of_fail (h : test entry = false) :
    tally test (fun _ : ι => entry) = 0 := by
  rw [tally, Finset.card_eq_zero, Finset.eq_empty_iff_forall_notMem]
  intro i
  simp [h]

end SystemFundamentals.Library
