import Mathlib

/-!
# Iterating a step

Invariants of the runs of a deterministic machine, and a rule for its termination:
a weight falls with every step until the machine is at rest.
-/

namespace Iteration

variable {α β : Type*} (step : α → α) {start : α}

/-- What every allowed step keeps holds along a run of allowed steps. -/
theorem invariant (Inv Allowed : α → Prop)
    (keeps : ∀ state, Inv state → Allowed state → Inv (step state))
    (initial : Inv start) (allowed : ∀ n, Allowed (step^[n] start)) (n : ℕ) :
    Inv (step^[n] start) := by
  induction n with
  | zero => exact initial
  | succ n induction =>
      rw [Function.iterate_succ_apply']
      exact keeps _ induction (allowed n)

theorem exists_rest [LT β] [WellFoundedLT β] (Inv Rest : α → Prop)
    (weight : α → β)
    (keeps : ∀ state, Inv state → Inv (step state))
    (falls : ∀ state, Inv state → ¬ Rest state → weight (step state) < weight state)
    (initial : Inv start) : ∃ n, Rest (step^[n] start) := by
  induction weightEq : weight start using WellFoundedLT.induction generalizing start with
  | _ bound induction =>
      by_cases rest : Rest start
      · exact ⟨0, rest⟩
      · obtain ⟨n, rests⟩ := induction _ (weightEq ▸ falls start initial rest)
          (keeps start initial) rfl
        exact ⟨n + 1, rests⟩

/-- A run that stays where it is after `last` steps only needs to be looked at up to
there. -/
theorem forall_of_fixed (P : α → Prop) (last : ℕ)
    (fixed : step (step^[last] start) = step^[last] start)
    (holds : ∀ n ≤ last, P (step^[n] start)) (n : ℕ) : P (step^[n] start) := by
  rcases Nat.le_total n last with le | le
  · exact holds n le
  · obtain ⟨more, rfl⟩ := Nat.exists_eq_add_of_le le
    rw [Nat.add_comm, Function.iterate_add_apply, Function.iterate_fixed fixed]
    exact holds last le_rfl

end Iteration
