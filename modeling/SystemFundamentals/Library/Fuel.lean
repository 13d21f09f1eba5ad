import Mathlib.Init

/-!
# Loops with fuel

A loop whose termination is in question is a function of the number of turns it may
take.  It returns a value when it yields that value for every large enough number.

Main results:

- Theorem {lit}`Returns.unique`: a computation returns at most one value.
- Theorem {lit}`Returns.bind`: two computations that share their fuel are run one after
  the other.
- Theorem {lit}`Steady.returns`: where more fuel does not change an answer, one answer is
  enough.
- Theorem {lit}`not_returns`: a computation that fails with every fuel does not return.
- Theorem {lit}`Avoids.bind`: computations in a row that avoid a failure.
-/

namespace SystemFundamentals.Library

universe u v

variable {ε : Type u} {α β : Type v}

/-- With enough fuel, and with whatever more of it, the computation yields the value. -/
def Returns (f : Nat → Except ε α) (a : α) : Prop :=
  ∃ bound, ∀ fuel, bound ≤ fuel → f fuel = .ok a

variable {f g : Nat → Except ε α} {a a' : α}

theorem Returns.unique (h : Returns f a) (h' : Returns f a') : a = a' := by
  rcases h with ⟨bound, h⟩
  rcases h' with ⟨bound', h'⟩
  have heq := h (max bound bound') (Nat.le_max_left ..)
  rw [h' (max bound bound') (Nat.le_max_right ..)] at heq
  exact (Except.ok.inj heq).symm

/-- A computation that does not depend on its fuel. -/
theorem Returns.of_eq (h : ∀ fuel, f fuel = .ok a) : Returns f a :=
  ⟨0, fun fuel _ => h fuel⟩

theorem Returns.congr (h : Returns f a) (heq : ∀ fuel, g fuel = f fuel) : Returns g a := by
  rcases h with ⟨bound, h⟩
  refine ⟨bound, ?_⟩
  intro fuel hfuel
  rw [heq]
  exact h fuel hfuel

/-- One turn of a loop. -/
theorem Returns.succ (h : Returns (fun fuel => f (fuel + 1)) a) : Returns f a := by
  rcases h with ⟨bound, h⟩
  refine ⟨bound + 1, ?_⟩
  intro fuel hfuel
  cases fuel with
  | zero => exact absurd hfuel (Nat.not_succ_le_zero bound)
  | succ fuel => exact h fuel (Nat.le_of_succ_le_succ hfuel)

/-- Two computations that share their fuel, one after the other. -/
theorem Returns.bind {k : Nat → α → Except ε β} {b : β} (h : Returns f a)
    (hk : Returns (fun fuel => k fuel a) b) : Returns (fun fuel => f fuel >>= k fuel) b := by
  rcases h with ⟨bound, h⟩
  rcases hk with ⟨bound', hk⟩
  refine ⟨max bound bound', ?_⟩
  intro fuel hfuel
  have hf := h fuel (Nat.le_trans (Nat.le_max_left ..) hfuel)
  show f fuel >>= k fuel = .ok b
  rw [hf]
  exact hk fuel (Nat.le_trans (Nat.le_max_right ..) hfuel)

/-- What it takes for two computations in a row to succeed. -/
theorem bind_eq_ok {x : Except ε α} {k : α → Except ε β} {b : β} :
    x >>= k = .ok b ↔ ∃ a, x = .ok a ∧ k a = .ok b := by
  cases x with
  | error e =>
      constructor
      · intro h
        cases h
      · intro h
        rcases h with ⟨a, ha, -⟩
        cases ha
  | ok a =>
      constructor
      · intro h
        exact ⟨a, rfl, h⟩
      · intro h
        rcases h with ⟨a', ha, hk⟩
        rw [Except.ok.inj ha]
        exact hk

/-- A computation that fails with every fuel does not return. -/
theorem not_returns {e : ε} (h : ∀ fuel, f fuel = .error e) : ¬ Returns f a := by
  intro hreturns
  rcases hreturns with ⟨bound, hbound⟩
  have heq := hbound bound (Nat.le_refl bound)
  rw [h bound] at heq
  cases heq

/-! ## Failures that are avoided -/

/-- The computation does not fail with {lit}`e`. -/
def Avoids (e : ε) (x : Except ε α) : Prop := x ≠ .error e

namespace Avoids

variable {e e' : ε} {x y : Except ε α}

theorem ok (a : α) : Avoids e (.ok a : Except ε α) := nofun

theorem error (h : e' ≠ e) : Avoids e (.error e' : Except ε α) :=
  fun heq => h (Except.error.inj heq)

theorem bind {k : α → Except ε β} (hx : Avoids e x) (hk : ∀ a, x = .ok a → Avoids e (k a)) :
    Avoids e (x >>= k) := by
  cases x with
  | error e' => exact error fun h => hx (congrArg Except.error h)
  | ok a => exact hk a rfl

theorem of_bind {k : α → Except ε β} (h : Avoids e (x >>= k)) : Avoids e x := by
  rintro rfl
  exact h rfl

/-- A check passes or fails with {lit}`e`. -/
theorem check_bind_iff {β : Type} {x : Except ε Unit} {k : Unit → Except ε β}
    (hx : x = .ok () ∨ x = .error e) :
    Avoids e (x >>= k) ↔ x = .ok () ∧ Avoids e (k ()) := by
  rcases hx with rfl | rfl
  · exact ⟨fun h => ⟨rfl, h⟩, fun h => h.2⟩
  · exact iff_of_false (fun h => h rfl) fun h => nomatch h.1

theorem ite {c : Prop} [Decidable c] (hx : c → Avoids e x) (hy : ¬ c → Avoids e y) :
    Avoids e (if c then x else y) := by
  by_cases hc : c
  · rw [if_pos hc]
    exact hx hc
  · rw [if_neg hc]
    exact hy hc

end Avoids

/-! ## More fuel -/

/-- More fuel does not change an answer. -/
def Steady (f : Nat → Except ε α) : Prop := ∀ fuel a, f fuel = .ok a → f (fuel + 1) = .ok a

theorem Steady.le (h : Steady f) {fuel fuel' : Nat} (hle : fuel ≤ fuel') (hok : f fuel = .ok a) :
    f fuel' = .ok a := by
  induction hle with
  | refl => exact hok
  | step _ ih => exact h _ _ ih

/-- One answer is enough for a steady computation to return. -/
theorem Steady.returns (h : Steady f) {fuel : Nat} (hok : f fuel = .ok a) : Returns f a :=
  ⟨fuel, fun _ hle => h.le hle hok⟩

theorem Steady.const (x : Except ε α) : Steady fun _ => x := fun _ _ h => h

theorem Steady.bind {k : Nat → α → Except ε β} (hf : Steady f)
    (hk : ∀ a, Steady fun fuel => k fuel a) : Steady fun fuel => f fuel >>= k fuel := by
  intro fuel b hok
  rcases bind_eq_ok.mp hok with ⟨a, ha, hb⟩
  exact bind_eq_ok.mpr ⟨a, hf fuel a ha, hk a fuel b hb⟩

theorem Steady.ite {c : Prop} [Decidable c] (hf : Steady f) (hg : Steady g) :
    Steady fun fuel => if c then f fuel else g fuel := by
  by_cases hc : c
  · simpa only [if_pos hc] using hf
  · simpa only [if_neg hc] using hg

end SystemFundamentals.Library
