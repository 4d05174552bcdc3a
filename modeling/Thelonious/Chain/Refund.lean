import Thelonious.Chain.Runs
import Thelonious.Vm.Gas

/-!
# How a transition ends

Every transition that has bought gas ends with `RefundGas`, for the gas that is
left then.  The closure of the receiver is given what the transition has left
after its fixed costs, so that no more than the gas of the transaction is
refunded; a transition that succeeds does not refund a negative amount.
-/

namespace Thelonious

namespace StateTransition

variable {host : Host} {db : Database} {tx : Transaction} {block : Header} {cb : Ref} {w : World}
  {gas : Int} {settled : Settlement} {after : World} {fuel : Nat}

/-! ### The gas that is left -/

/-- The transition has at most `limit`, and cannot end well with less than nothing. -/
def Within (limit : Int) : Config → Prop
  | .evaluating _ m => m.Underway ∧ m.funds ≤ limit
  | .dispatching _ _ gas _ _ _ _ => 0 ≤ gas ∧ gas ≤ limit
  | .posting _ _ gas _ _ _ => 0 ≤ gas ∧ gas ≤ limit
  | .finished _ _ => True

variable {limit : Int} {config : Config}

theorem within_evaluate (eval : Evaluation) (w : World) (nonneg : 0 ≤ gas) (le : gas ≤ limit) :
    Within limit (evaluate eval gas w) := by
  unfold evaluate
  split
  · exact ⟨nonneg, le⟩
  · rename_i code _
    refine ⟨Machine.underway_runClosure w [] [] nonneg, ?_⟩
    have funds : (Machine.runClosure w [] [] ⟨eval.sen, eval.receiver, code, eval.tx.data, gas,
        eval.tx.gasPrice⟩).funds = gas := by
      simp [Machine.funds, nonneg]
    exact funds.trans_le le

theorem gas_le_of_funds {m : Machine} {result : Result} (returning : m.control = .returning result)
    (funds : m.funds ≤ limit) : result.gas ≤ limit := by
  have bound : max 0 result.gas ≤ m.funds := by
    rw [Machine.funds_eq, returning]
    have others : 0 ≤ (m.waiting.map fun caller => max 0 caller.closure.gas).sum :=
      List.sum_nonneg (by simp)
    simp only [Control.gas]
    omega
  omega

theorem Within.step (within : Within limit config) :
    Within limit (step host db tx block config) := by
  have stage := stage_step host db tx block config
  generalize StateTransition.step host db tx block config = after at stage ⊢
  cases stage with
  | run => exact ⟨within.1.step, (Machine.turn_step _ _ _).funds_le.trans within.2⟩
  | succeed eval m result returning outermost ok =>
      exact ⟨within.1.success returning outermost ok, gas_le_of_funds returning within.2⟩
  | post | deliver | join => exact within
  | settle | rest => trivial

theorem within_start : Within tx.gas (start host db tx cb w) := by
  rw [start_eq]
  cases outsetEq : outset host db tx cb w with
  | refused after => trivial
  | stopped sen after gas => trivial
  | begun eval after gas =>
      obtain ⟨sen, bought, -, -, -, rfl, nonneg⟩ := outset_begun outsetEq
      exact within_evaluate eval after nonneg (by omega)

theorem within_run (steps : Nat) : Within tx.gas (run host db tx block cb w steps) := by
  induction steps with
  | zero => exact within_start
  | succ steps induction =>
      rw [run_succ]
      exact induction.step

/-! ### The settlement -/

variable (host db tx block) in
/-- The transition is run until it is settled. -/
def settle : Nat → Config → Option Settlement
  | 0, _ => none
  | fuel + 1, config =>
      match settlement config with
      | some settled => some settled
      | none => settle fuel (step host db tx block config)

theorem settlement_of_settle (found : settle host db tx block fuel config = some settled) :
    ∃ n, settlement ((step host db tx block)^[n] config) = some settled := by
  induction fuel generalizing config with
  | zero => cases found
  | succ fuel induction =>
      unfold settle at found
      split at found
      · rename_i ends
        exact ⟨0, ends.trans found⟩
      · obtain ⟨n, ends⟩ := induction found
        exact ⟨n + 1, ends⟩

/-! ### No more than the gas of the transaction is used -/

/-- No message of the closure of the receiver is given a negative amount of gas. -/
def Config.Offers : Config → Prop
  | .evaluating _ m => m.Offers
  | _ => True

instance : (config : Config) → Decidable (Config.Offers config)
  | .evaluating _ m => inferInstanceAs (Decidable m.Offers)
  | .dispatching _ _ _ _ _ _ _ | .posting _ _ _ _ _ _ | .finished _ _ => instDecidableTrue

/-- No frame has less than no gas. -/
def Spares : Config → Prop
  | .evaluating _ m => ∀ gas ∈ m.gases, 0 ≤ gas
  | .dispatching _ _ gas _ _ _ _ => 0 ≤ gas
  | .posting _ _ gas _ _ _ => 0 ≤ gas
  | .finished _ _ => True

theorem spares_evaluate (eval : Evaluation) (w : World) (nonneg : 0 ≤ gas) :
    Spares (evaluate eval gas w) := by
  unfold evaluate
  split
  · exact nonneg
  · rename_i code _
    have gases := Machine.gases_runClosure w [] [] ⟨eval.sen, eval.receiver, code, eval.tx.data,
      gas, eval.tx.gasPrice⟩
    intro left member
    rw [Machine.runClosure] at gases
    rw [gases, List.mem_singleton] at member
    rwa [member]

theorem Spares.result {m : Machine} {result : Result} (spares : ∀ gas ∈ m.gases, 0 ≤ gas)
    (returning : m.control = .returning result) : 0 ≤ result.gas := by
  apply spares
  simp [Machine.gases, returning, Control.gas]

theorem Spares.step (spares : Spares config) (offers : Config.Offers config) :
    Spares (step host db tx block config) := by
  have stage := stage_step host db tx block config
  generalize StateTransition.step host db tx block config = after at stage ⊢
  cases stage with
  | run => exact ((Machine.turn_step _ _ _).frugal spares offers).1
  | succeed eval m result returning => exact Spares.result spares returning
  | post | deliver | join => exact spares
  | settle | rest => trivial

theorem Spares.settlement (spares : Spares config) (found : settlement config = some settled) :
    0 ≤ settled.gas := by
  cases settles_of_settlement found with
  | failed eval m result returning => exact Spares.result spares returning
  | created | called | panicked => exact spares

/-- What is left at the end is not negative. -/
theorem gas_nonneg_of_settle (eval : Evaluation) (w : World) (nonneg : 0 ≤ gas)
    (offers : ∀ n, Config.Offers ((step host db tx block)^[n] (evaluate eval gas w)))
    (found : settle host db tx block fuel (evaluate eval gas w) = some settled) :
    0 ≤ settled.gas := by
  obtain ⟨n, ends⟩ := settlement_of_settle found
  have spares := Iteration.invariant (step host db tx block) Spares Config.Offers
    (fun _ spares offers => spares.step offers) (spares_evaluate eval w nonneg) offers n
  exact spares.settlement ends

end StateTransition

end Thelonious
