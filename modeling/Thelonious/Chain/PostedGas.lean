import Thelonious.Chain.Runs
import Thelonious.Vm.Gas

/-!
# The gas of posted messages

`POST` pays for the instruction, not for the gas of its message, and `Eval`
executes the messages with the gas they ask for.  As long as every message the
loop of `Eval` comes to asks for no more than is left of the gas that `Eval` was
entered with, the transition pays for all the gas that is consumed.  Since every
`POST` costs gas, the loop ends then.
-/

namespace Thelonious

namespace Machine

variable {m after : Machine}

/-- The messages that have been posted and not been handed on. -/
def pending (m : Machine) : Nat :=
  m.queue.length + (m.waiting.map fun caller => caller.queue.length).sum

/-- Posting a message costs gas. -/
theorem Turn.funds_lt_or_pending_le (turn : Turn m after) :
    after.funds < m.funds ∨ after.pending ≤ m.pending := by
  unfold pending
  cases turn with
  | rest idle same => exact .inr (by rw [same])
  | stay waiting queue gas phase search => exact .inr (by rw [waiting, queue])
  | go closure l locals left running control waiting queue nonneg progress =>
      rcases queue with queue | ⟨-, less, -⟩
      · exact .inr (by rw [waiting, queue])
      · left
        simp only [funds_eq, running, control, waiting, Control.gas]
        omega
  | send closure l msg caller running control waiting queue nonneg pays offer =>
      right
      simp [waiting, queue.1, queue.2]
  | pop caller waiting queue gas =>
      right
      rcases queue with queue | queue <;> simp only [waiting, queue, List.length_append,
        List.map_cons, List.sum_cons] <;> omega

end Machine

namespace StateTransition

variable (host : Host) (db : Database) (tx : Transaction) (block : Header)

/-- The gas consumed by one step: what the frames have less to spend than before. -/
def consumption (config : Config) : Int :=
  match config.machine with
  | some m => m.funds - (m.step (host.env tx block) db).funds
  | none => 0

/-- The gas consumed by the closures that run in a number of steps. -/
def consumed (config : Config) (steps : Nat) : Int :=
  ((List.range steps).map fun n =>
    consumption host db tx block ((step host db tx block)^[n] config)).sum

/-- A message that the loop comes to asks for no more than is left of `held` when `spent`
has been consumed, and no closure of a posted message creates a contract at an address
that is taken. -/
def Covered (held spent : Int) : Config → Prop
  | .dispatching _ _ _ queue index _ _ => ∀ msg ∈ queue[index]?, spent + msg.gas ≤ held
  | .posting _ _ _ _ _ m => ¬ m.Collides (host.env tx block) db
  | _ => True

/-- What is left of `held` covers the gas of the frames. -/
def Funded (held spent : Int) : Config → Prop
  | .evaluating _ m => spent + m.funds ≤ held
  | .posting _ _ _ queue index m =>
      spent + m.funds ≤ held ∧ index < queue.length ∧ m.control ≠ .searching
  | _ => spent ≤ held

variable {host db tx block} {held spent : Int} {config : Config}

theorem Funded.le (funded : Funded held spent config) : spent ≤ held := by
  cases config with
  | evaluating eval m =>
      have covered : spent + m.funds ≤ held := funded
      have nonneg := m.funds_nonneg
      omega
  | posting eval ret gas queue index m =>
      have covered := funded.1
      have nonneg := m.funds_nonneg
      omega
  | dispatching | finished => exact funded

theorem consumption_nonneg (host : Host) (db : Database) (tx : Transaction) (block : Header)
    (config : Config) : 0 ≤ consumption host db tx block config := by
  unfold consumption
  split
  · exact sub_nonneg.mpr (Machine.turn_step (host.env tx block) db _).funds_le
  · exact le_rfl

theorem Funded.step (funded : Funded held spent config)
    (covered : Covered host db tx block held spent config) :
    Funded held (spent + consumption host db tx block config) (step host db tx block config) := by
  cases config with
  | evaluating eval m =>
      have goesOn : Funded held (spent + (m.funds - (m.step (host.env tx block) db).funds))
          (.evaluating eval (m.step (host.env tx block) db)) := by
        have before : spent + m.funds ≤ held := funded
        simp only [Funded]
        omega
      have rests := goesOn.le
      simp only [StateTransition.step, consumption, Config.machine]
      split
      · split
        · exact rests
        · exact rests
      · exact goesOn
  | dispatching eval ret gas queue index callStack w =>
      have before : spent ≤ held := funded
      simp only [StateTransition.step, consumption, Config.machine, add_zero]
      split
      · rename_i msg found
        have asks := covered msg found
        refine ⟨?_, (List.getElem?_eq_some_iff.mp found).1, by simp⟩
        simp only [Machine.funds_eq, Control.gas, List.map_nil, List.sum_nil]
        omega
      · exact before
  | posting eval ret gas queue index m =>
      obtain ⟨before, inside, found⟩ := funded
      have goesOn : Funded held (spent + (m.funds - (m.step (host.env tx block) db).funds))
          (.posting eval ret gas queue index (m.step (host.env tx block) db)) := by
        refine ⟨by omega, inside, fun searching => ?_⟩
        exact (Machine.searching_cases searching).elim found covered
      have rests := goesOn.le
      simp only [StateTransition.step, consumption, Config.machine]
      split
      · exact rests
      · exact rests
      · exact goesOn
  | finished w ok => simpa [StateTransition.step, consumption, Config.machine] using funded

theorem consumed_succ (config : Config) (steps : Nat) :
    consumed host db tx block config (steps + 1) = consumed host db tx block config steps +
      consumption host db tx block ((step host db tx block)^[steps] config) := by
  simp [consumed, List.range_succ]

theorem funded_run (initial : Funded held 0 config)
    (covered : ∀ n, Covered host db tx block held (consumed host db tx block config n)
      ((step host db tx block)^[n] config)) (steps : Nat) :
    Funded held (consumed host db tx block config steps)
      ((step host db tx block)^[steps] config) := by
  induction steps with
  | zero => exact initial
  | succ steps induction =>
      rw [consumed_succ, Function.iterate_succ_apply']
      exact induction.step (covered steps)

/-! ### The loop over the posted messages -/

/-- What falls with every step of the loop that costs no gas: the number of messages, and
the weight of the machine that executes one of them. -/
def queueWeight : Config → ℕ ×ₗ ℕ ×ₗ ℕ ×ₗ ℕ ×ₗ ℕ ×ₗ ℕ
  | .dispatching _ _ _ queue index _ _ =>
      toLex (queue.length - index, toLex (1, toLex (0, toLex (0, toLex (0, 0)))))
  | .posting _ _ _ queue index m =>
      toLex (queue.length - index + m.pending, toLex (0, m.weight))
  | _ => toLex (0, toLex (0, toLex (0, toLex (0, toLex (0, 0)))))

def loopWeight (left : Int) (config : Config) : ℕ ×ₗ ℕ ×ₗ ℕ ×ₗ ℕ ×ₗ ℕ ×ₗ ℕ ×ₗ ℕ :=
  toLex (left.toNat, queueWeight config)

/-- The loop has begun. -/
def Looping : Config → Prop
  | .evaluating _ _ => False
  | _ => True

theorem Looping.step (looping : Looping config) : Looping (step host db tx block config) := by
  have stage := stage_step host db tx block config
  generalize StateTransition.step host db tx block config = after at stage ⊢
  cases stage with
  | run | succeed => exact looping.elim
  | post | deliver | join | settle | rest => trivial

theorem queueWeight_step_lt (looping : Looping config) (underway : config.returned = none)
    (funded : Funded held spent config) (free : consumption host db tx block config = 0) :
    queueWeight (step host db tx block config) < queueWeight config := by
  cases config with
  | evaluating => exact looping.elim
  | dispatching eval ret gas queue index callStack w =>
      simp only [StateTransition.step]
      split
      · exact Prod.Lex.toLex_lt_toLex.mpr (.inr ⟨rfl, Prod.Lex.toLex_lt_toLex.mpr (.inl one_pos)⟩)
      · rename_i exhausted
        have none : queue.length - index = 0 :=
          Nat.sub_eq_zero_of_le (List.getElem?_eq_none_iff.mp exhausted)
        exact Prod.Lex.toLex_lt_toLex.mpr (.inr ⟨none.symm,
          Prod.Lex.toLex_lt_toLex.mpr (.inl one_pos)⟩)
  | posting eval ret gas queue index m =>
      obtain ⟨-, inside, found⟩ := funded
      simp only [StateTransition.step]
      split
      · rename_i result returning outermost
        refine Prod.Lex.toLex_lt_toLex.mpr (.inl ?_)
        simp only [Machine.pending, outermost, List.map_nil, List.sum_nil]
        split
        · rw [List.length_append]
          omega
        · omega
      · exact Prod.Lex.toLex_lt_toLex.mpr (.inl (by simp only; omega))
      · rename_i recovered unfinished
        have busy : ¬ m.idle := by
          intro idle
          rcases Machine.idle_cases idle with control | control | ⟨result, control, waiting⟩
          · exact recovered control
          · exact found control
          · exact unfinished result control waiting
        have turn := Machine.turn_step (host.env tx block) db m
        have same : m.funds - (m.step (host.env tx block) db).funds = 0 := free
        have posts := turn.funds_lt_or_pending_le.resolve_left (by omega)
        rcases posts.lt_or_eq with less | equal
        · exact Prod.Lex.toLex_lt_toLex.mpr (.inl (Nat.add_lt_add_left less _))
        · refine Prod.Lex.toLex_lt_toLex.mpr (.inr ⟨congrArg (queue.length - index + ·) equal, ?_⟩)
          exact Prod.Lex.toLex_lt_toLex.mpr (.inr ⟨rfl, turn.weight_lt busy⟩)
  | finished w ok => cases underway

/-- The loop ends, since the gas that is left falls or the queue gets shorter. -/
theorem returns_of_funded {gas : Int} (funded : ∀ n, Funded gas (consumed host db tx block config n)
      ((step host db tx block)^[n] config)) {first : Nat}
    (looping : Looping ((step host db tx block)^[first] config)) :
    ∃ more, ((step host db tx block)^[first + more] config).returned.isSome := by
  have loops : ∀ more, Looping ((step host db tx block)^[first + more] config) := by
    intro more
    induction more with
    | zero => exact looping
    | succ more induction =>
        rw [← Nat.add_assoc, Function.iterate_succ_apply']
        exact induction.step
  have falls : ∀ n, first ≤ n → ¬ ((step host db tx block)^[n] config).returned.isSome →
      loopWeight (gas - consumed host db tx block config (n + 1))
          ((step host db tx block)^[n + 1] config) <
        loopWeight (gas - consumed host db tx block config n)
          ((step host db tx block)^[n] config) := by
    intro n le underway
    obtain ⟨more, rfl⟩ := Nat.exists_eq_add_of_le le
    have later := (funded (first + more + 1)).le
    rw [consumed_succ] at later
    rw [consumed_succ, Function.iterate_succ_apply']
    rcases (consumption_nonneg host db tx block _).eq_or_lt with free | costs
    · refine Prod.Lex.toLex_lt_toLex.mpr (.inr ⟨?_, ?_⟩)
      · rw [← free, add_zero]
      · exact queueWeight_step_lt (loops more) (by simpa using underway) (funded _) free.symm
    · exact Prod.Lex.toLex_lt_toLex.mpr (.inl (by simp only; omega))
  -- what is iterated is the number of the step
  obtain ⟨more, rests⟩ := Iteration.exists_rest Nat.succ (first ≤ ·)
    (fun n => ((step host db tx block)^[n] config).returned.isSome)
    (fun n => loopWeight (gas - consumed host db tx block config n)
      ((step host db tx block)^[n] config))
    (fun n le => Nat.le_succ_of_le le) falls (le_refl first)
  rw [Nat.succ_iterate] at rests
  exact ⟨more, rests⟩

theorem funded_evaluate (eval : Evaluation) {gas : Int} (w : World) (nonneg : 0 ≤ gas) :
    Funded gas 0 (evaluate eval gas w) := by
  unfold evaluate
  split
  · exact nonneg
  · rename_i code _
    change 0 + (Machine.runClosure w [] [] ⟨eval.sen, eval.receiver, code, eval.tx.data, gas,
      eval.tx.gasPrice⟩).funds ≤ gas
    simp [Machine.funds, nonneg]

/-- The closures of `Eval` consume no more gas than the transition has, and the loop over
the posted messages ends, provided that what is left of the gas covers every message
that the loop comes to. -/
theorem posted_messages_paid (host : Host) (db : Database) (tx : Transaction) (block : Header)
    (eval : Evaluation) (gas : Int) (w : World) (nonneg : 0 ≤ gas)
    (covered : ∀ n, Covered host db tx block gas
      (consumed host db tx block (evaluate eval gas w) n)
      ((step host db tx block)^[n] (evaluate eval gas w))) :
    (∀ n, consumed host db tx block (evaluate eval gas w) n ≤ gas) ∧
      ∀ n eval' ret left queue index callStack w',
        (step host db tx block)^[n] (evaluate eval gas w) =
          .dispatching eval' ret left queue index callStack w' →
        ∃ more, ((step host db tx block)^[n + more] (evaluate eval gas w)).returned.isSome := by
  have funded := funded_run (funded_evaluate eval w nonneg) covered
  refine ⟨fun n => (funded n).le, ?_⟩
  intro n eval' ret left queue index callStack w' reached
  exact returns_of_funded funded (by rw [reached]; trivial)

/-- A contract that posts a message to the account, with some amount of gas. -/
def postingCode (addr gas : UInt8) : Bytes :=
  [0x60, 0, 0x60, 0, 0x60, 0, 0x60, addr, 0x60, gas, 0xf3]

/-- The contract posts to itself. -/
def postingWorld (gas : UInt8) : World := sampleWorld 0 0 (postingCode 2 gas) []

def postingTx : Transaction := sampleTx [2] 0 510 0

/-- The contract posts to the coinbase, which posts to the account 4. -/
def relayWorld : World := sampleWorld 0 0 (postingCode 3 14) (postingCode 4 2)

def relayStart : Config := evaluate ⟨postingTx, 2, 0, 1, relayWorld.copy⟩ 40 relayWorld

/-- The messages are covered by forty units of gas, as far as an evaluation can tell. -/
def coversForty (spent : Int) : Config → Bool
  | .dispatching _ _ _ queue index _ _ => queue[index]?.all (spent + ·.gas ≤ 40)
  | .posting _ _ _ _ _ m => m.instruction ≠ some .create
  | _ => true

theorem covered_of_coversForty (covers : coversForty spent config) :
    Covered host db tx block 40 spent config := by
  cases config with
  | dispatching eval ret gas queue index callStack w =>
      intro msg found
      simpa [coversForty, Option.mem_def.mp found] using covers
  | posting eval ret gas queue index m =>
      exact Machine.not_collides_of_instruction (by simpa [coversForty] using covers)
  | evaluating | finished => trivial

/-- The contract and the coinbase consume twelve of forty units of gas, and the loop ends
after 22 steps. -/
theorem posted_messages_paid_relay :
    (∀ n, consumed codelessHost ∅ postingTx sampleHeader relayStart n ≤ 40) ∧
      consumed codelessHost ∅ postingTx sampleHeader relayStart 22 = 12 ∧
      ∃ more, ((step codelessHost ∅ postingTx sampleHeader)^[8 + more]
        relayStart).returned.isSome := by
  have covered : ∀ n, Covered codelessHost ∅ postingTx sampleHeader 40
      (consumed codelessHost ∅ postingTx sampleHeader relayStart n)
      ((step codelessHost ∅ postingTx sampleHeader)^[n] relayStart) := by
    intro n
    apply covered_of_coversForty
    rcases Nat.lt_or_ge n 22 with before | after
    · interval_cases n <;> decide +kernel
    · obtain ⟨more, rfl⟩ := Nat.exists_eq_add_of_le' after
      rw [Function.iterate_add_apply, Function.iterate_fixed (step_of_returned (by decide +kernel))]
      rfl
  have paid := posted_messages_paid codelessHost ∅ postingTx sampleHeader _ 40 relayWorld
    (by decide) covered
  exact ⟨paid.1, by decide +kernel, paid.2 8 _ _ _ _ _ _ _ rfl⟩

/-- The transition has 10 units of gas left for the contract, which posts a message with
255 of them.  Each message posts another one; after 16 steps the closures have consumed
12 units. -/
theorem posted_message_not_paid :
    (start codelessHost ∅ postingTx 2 (postingWorld 255)).machine.map Machine.gases = some [10] ∧
      consumed codelessHost ∅ postingTx sampleHeader
        (start codelessHost ∅ postingTx 2 (postingWorld 255)) 16 = 12 := by
  decide +kernel

end StateTransition

end Thelonious
