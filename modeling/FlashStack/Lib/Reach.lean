/-
  Reachability in a transition system.

  A system is a set of initial states and a step relation; labels, schedulers and crash points are
  all part of the relation.  What holds initially and survives a step holds of every state a run
  reaches (`Reach.invariant`).

  Where a step is a function of a state and an event, `EventReach` are the states that runs reach
  whose events all meet a condition, and `runEvents` is such a run.
-/
import Mathlib.Logic.Relation

namespace Lib

variable {σ : Type*}

/-- The states that a run from an initial state reaches. -/
inductive Reach (Init : σ → Prop) (Step : σ → σ → Prop) : σ → Prop
  | init {s} : Init s → Reach Init Step s
  | step {s s'} : Reach Init Step s → Step s s' → Reach Init Step s'

namespace Reach

variable {Init : σ → Prop} {Step : σ → σ → Prop} {I : σ → Prop} {s s' : σ}

/-- **The invariant rule.** -/
theorem invariant (h₀ : ∀ s, Init s → I s) (hstep : ∀ s s', I s → Step s s' → I s')
    (h : Reach Init Step s) : I s := by
  induction h with
  | init hi => exact h₀ _ hi
  | step _ hs ih => exact hstep _ _ ih hs

end Reach

section Events

variable {ε : Type*} {step : σ → ε → Option σ} {P : σ → ε → Prop} {Init I : σ → Prop} {s s' : σ}

/-- The states that runs reach whose events have `P`. -/
def EventReach (step : σ → ε → Option σ) (P : σ → ε → Prop) (Init : σ → Prop) : σ → Prop :=
  Reach Init fun s s' => ∃ e, P s e ∧ step s e = some s'

/-- What holds at first and is kept by each step holds in every state that is reached. -/
theorem EventReach.invariant (h₀ : ∀ s, Init s → I s)
    (hstep : ∀ s s' e, I s → P s e → step s e = some s' → I s')
    (h : EventReach step P Init s) : I s := by
  apply Reach.invariant h₀ ?_ h
  rintro s s' hs ⟨e, he, hs'⟩
  exact hstep s s' e hs he hs'

/-- The events in turn, as far as they have `P`. -/
def runEvents (step : σ → ε → Option σ) (P : σ → ε → Prop) [∀ s e, Decidable (P s e)] (s : σ) :
    List ε → Option σ
  | [] => some s
  | e :: es =>
    if P s e then
      match step s e with
      | none => none
      | some s => runEvents step P s es
    else none

/-- A run that was evaluated. -/
theorem EventReach.run [∀ s e, Decidable (P s e)] {es : List ε} (h : EventReach step P Init s)
    (hrun : runEvents step P s es = some s') : EventReach step P Init s' := by
  induction es generalizing s with
  | nil =>
    cases hrun
    exact h
  | cons e es ih =>
    unfold runEvents at hrun
    by_cases he : P s e
    · rw [if_pos he] at hrun
      cases hstep : step s e with
      | none => simp [hstep] at hrun
      | some s₁ =>
        simp only [hstep] at hrun
        exact ih (h.step ⟨e, he, hstep⟩) hrun
    · simp [if_neg he] at hrun

end Events

end Lib
