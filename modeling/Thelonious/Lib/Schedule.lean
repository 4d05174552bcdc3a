import Mathlib

/-!
# Runs under a schedule

A system whose goroutines take their steps one at a time: an action names the step, and a
step that is blocked, or that the system cannot take, has no result.
-/

namespace Schedule

variable {σ α : Type*} {step : σ → α → Option σ} {start finish : σ}

/-- The runs whose steps are all allowed in the state they are taken in. -/
inductive Run (step : σ → α → Option σ) (Allowed : σ → α → Prop) (start : σ) : σ → Prop
  | start : Run step Allowed start start
  | next {state after : σ} (action : α) (run : Run step Allowed start state)
      (allowed : Allowed state action) (stepped : step state action = some after) :
      Run step Allowed start after

/-- What every allowed step keeps holds in every state that such steps reach. -/
theorem Run.invariant {Allowed : σ → α → Prop} (Inv : σ → Prop)
    (keeps : ∀ state action after, Inv state → Allowed state action →
      step state action = some after → Inv after)
    (initial : Inv start) (run : Run step Allowed start finish) : Inv finish := by
  induction run with
  | start => exact initial
  | next action _ allowed stepped induction => exact keeps _ action _ induction allowed stepped

theorem Run.trans {Allowed : σ → α → Prop} {middle : σ} (first : Run step Allowed start middle)
    (second : Run step Allowed middle finish) : Run step Allowed start finish := by
  induction second with
  | start => exact first
  | next action _ allowed stepped induction => exact .next action induction allowed stepped

/-- The steps of a list of actions, each of which has to be allowed. -/
def perform (step : σ → α → Option σ) (allowed : σ → α → Bool) (state : σ) (actions : List α) :
    Option σ :=
  actions.foldlM (fun state action => if allowed state action then step state action else none)
    state

theorem run_of_perform {allowed : σ → α → Bool} {actions : List α}
    (performed : perform step allowed start actions = some finish) :
    Run step (fun state action => allowed state action = true) start finish := by
  induction actions generalizing start with
  | nil =>
      obtain rfl := Option.some.inj performed
      exact .start
  | cons action rest induction =>
      rw [perform, List.foldlM_cons] at performed
      obtain ⟨next, stepped, performed⟩ := Option.bind_eq_some_iff.mp performed
      split at stepped
      case isTrue isAllowed =>
        exact Run.trans (.next action .start isAllowed stepped) (induction performed)
      case isFalse => exact absurd stepped (by simp)

end Schedule
