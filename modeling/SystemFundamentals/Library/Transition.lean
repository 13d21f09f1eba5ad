import Mathlib.Logic.Relation

/-!
# Labelled transition systems

A program that is called again and again, or several threads that take turns,
is a state type, a set of initial states and a step relation whose labels name
the call or the thread.  This file collects the rules the later chapters use on
such systems: invariants along every run, runs restricted to steps that meet a
guard, and trace inclusion by forward simulation.

Main results:

- Theorem {lit}`System.Reachable.invariant`: a predicate that holds initially
  and is preserved by every step holds in every reachable state.
- Theorem {lit}`System.Reachable.of_guarded`: a state reached by guarded steps
  is reachable.
- Theorem {lit}`System.Simulation.trace`: a forward simulation maps every trace
  of the concrete system to a trace of the abstract one.
-/

namespace SystemFundamentals.Library

universe u v w

/-- A labelled transition system. -/
structure System (State : Type u) (Label : Type v) where
  initial : State → Prop
  step : State → Label → State → Prop

namespace System

variable {State : Type u} {Label : Type v} {Abstract : Type w}

/-- The states a run of the system can reach. -/
inductive Reachable (S : System State Label) : State → Prop
  | initial {s : State} : S.initial s → Reachable S s
  | step {s t : State} {a : Label} : Reachable S s → S.step s a t → Reachable S t

/-- A predicate that holds initially and that every step preserves. -/
structure Invariant (S : System State Label) (I : State → Prop) : Prop where
  initial : ∀ {s}, S.initial s → I s
  step : ∀ {s a t}, I s → S.step s a t → I t

/-- An inductive invariant holds in every reachable state. -/
theorem Reachable.invariant {S : System State Label} {I : State → Prop} {s : State}
    (hI : S.Invariant I) (hs : S.Reachable s) : I s := by
  induction hs with
  | initial h => exact hI.initial h
  | step _ hstep ih => exact hI.step ih hstep

/-- The same system, taking only the steps whose source state and label meet a
guard. -/
def guarded (S : System State Label) (guard : State → Label → Prop) :
    System State Label where
  initial := S.initial
  step s a t := guard s a ∧ S.step s a t

/-- Guarded runs are runs. -/
theorem Reachable.of_guarded {S : System State Label} {guard : State → Label → Prop}
    {s : State} (hs : (S.guarded guard).Reachable s) : S.Reachable s := by
  induction hs with
  | initial h => exact .initial h
  | step _ hstep ih => exact .step ih hstep.2

/-- More steps reach more states. -/
theorem Reachable.mono {S T : System State Label} {s : State}
    (hinitial : ∀ {s}, S.initial s → T.initial s)
    (hstep : ∀ {s a t}, S.step s a t → T.step s a t) (hs : S.Reachable s) : T.Reachable s := by
  induction hs with
  | initial h => exact .initial (hinitial h)
  | step _ h ih => exact .step ih (hstep h)

/-- A finite run from a given state, with the labels of its steps in order. -/
inductive Run (S : System State Label) : State → List Label → State → Prop
  | nil (s : State) : Run S s [] s
  | cons {s t r : State} {a : Label} {as : List Label} :
      S.step s a t → Run S t as r → Run S s (a :: as) r

/-- One run behind another. -/
theorem Run.append {S : System State Label} {s t r : State} {as bs : List Label}
    (hrun : S.Run s as t) (hrest : S.Run t bs r) : S.Run s (as ++ bs) r := by
  induction hrun with
  | nil _ => exact hrest
  | cons hstep _ ih => exact .cons hstep (ih hrest)

/-- The endpoint of a run from a reachable state is reachable. -/
theorem Run.reachable {S : System State Label} {s t : State} {as : List Label}
    (hrun : S.Run s as t) (hs : S.Reachable s) : S.Reachable t := by
  induction hrun with
  | nil _ => exact hs
  | cons hstep _ ih => exact ih (.step hs hstep)

/-- A sequence of labels that some run from an initial state performs. -/
def Trace (S : System State Label) (as : List Label) : Prop :=
  ∃ s t, S.initial s ∧ S.Run s as t

/-- A forward simulation: every initial state is related to an abstract one and
every concrete step is matched by an abstract step with the same label. -/
structure Simulation (S : System State Label) (T : System Abstract Label)
    (R : State → Abstract → Prop) : Prop where
  initial : ∀ {s}, S.initial s → ∃ x, T.initial x ∧ R s x
  step : ∀ {s t a x}, R s x → S.step s a t → ∃ y, T.step x a y ∧ R t y

variable {S : System State Label} {T : System Abstract Label}
  {R : State → Abstract → Prop}

/-- A simulation of the guarded system is one of every system with a stronger guard. -/
theorem Simulation.strengthen {guard guard' : State → Label → Prop}
    (hR : (S.guarded guard).Simulation T R) (himp : ∀ {s a}, guard' s a → guard s a) :
    (S.guarded guard').Simulation T R where
  initial := hR.initial
  step hsx hstep := hR.step hsx ⟨himp hstep.1, hstep.2⟩

/-- A simulation follows a whole run. -/
theorem Simulation.run (hR : S.Simulation T R) {s t : State} {x : Abstract}
    {as : List Label} (hsx : R s x) (hrun : S.Run s as t) :
    ∃ y, T.Run x as y ∧ R t y := by
  induction hrun generalizing x with
  | nil s => exact ⟨x, .nil x, hsx⟩
  | cons hstep _ ih =>
      obtain ⟨y, hxy, hty⟩ := hR.step hsx hstep
      obtain ⟨z, hyz, hrz⟩ := ih hty
      exact ⟨z, .cons hxy hyz, hrz⟩

/-- Trace inclusion by forward simulation. -/
theorem Simulation.trace (hR : S.Simulation T R) {as : List Label}
    (htrace : S.Trace as) : T.Trace as := by
  obtain ⟨s, t, hs, hrun⟩ := htrace
  obtain ⟨x, hx, hsx⟩ := hR.initial hs
  obtain ⟨y, hxy, _⟩ := hR.run hsx hrun
  exact ⟨x, y, hx, hxy⟩

/-- A simulation relates every reachable state to some reachable abstract
state. -/
theorem Simulation.reachable (hR : S.Simulation T R) {s : State}
    (hs : S.Reachable s) : ∃ x, T.Reachable x ∧ R s x := by
  induction hs with
  | initial h =>
      obtain ⟨x, hx, hsx⟩ := hR.initial h
      exact ⟨x, .initial hx, hsx⟩
  | step _ hstep ih =>
      obtain ⟨x, hx, hsx⟩ := ih
      obtain ⟨y, hxy, hty⟩ := hR.step hsx hstep
      exact ⟨y, .step hx hxy, hty⟩

end System

end SystemFundamentals.Library
