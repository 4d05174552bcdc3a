import Thelonious.Chain.PostedGas
import Thelonious.Chain.Refund
import Thelonious.Vm.Arithmetic
import Thelonious.Vm.Frames

/-!
# The value of a message

Every closure that is being run executes a message, or the transaction itself.  The
values of these messages are followed along the transition: `Exec` moves the value of its
message, and the closure it runs should be told that value.  `CALLVALUE` asks the
environment instead, which only knows the transaction.
-/

namespace Thelonious

namespace Machine

variable {env : Env} {db : Database} {m after : Machine}

/-- The number of closures that have started and have not returned. -/
def live (m : Machine) : Nat :=
  m.waiting.length +
    match m.control with
    | .running _ _ => 1
    | _ => 0

/-- The values of the messages of the live closures, the innermost first, after a step: a
closure that starts has the value of its message, and a closure that is left loses it. -/
def follow (m after : Machine) (values : List Int) : List Int :=
  match m.control, after.control with
  | .executing msg _, .running _ _ => msg.value :: values
  | _, _ => values.drop (m.live - after.live)

theorem live_of_running {closure : Closure} {l : Locals}
    (running : m.control = .running closure l) :
    m.live = m.waiting.length + 1 := by
  rw [live, running]

theorem live_of_still (still : ∀ closure l, m.control ≠ .running closure l) :
    m.live = m.waiting.length := by
  unfold live
  split
  · exact absurd ‹_› (still _ _)
  · rfl

theorem follow_of_quiet (quiet : ∀ msg caller, m.control ≠ .executing msg caller)
    (values : List Int) : m.follow after values = values.drop (m.live - after.live) := by
  unfold follow
  split
  · exact absurd ‹_› (quiet _ _)
  · rfl

theorem follow_of_still (still : ∀ closure l, after.control ≠ .running closure l)
    (values : List Int) : m.follow after values = values.drop (m.live - after.live) := by
  unfold follow
  split
  · exact absurd ‹_› (still _ _)
  · rfl

theorem length_waiting_le_live (m : Machine) : m.waiting.length ≤ m.live := Nat.le_add_right _ _

/-- A step starts a closure, or it leaves some of the closures. -/
theorem Move.follow_cases (move : Move env db m after) (values : List Int) :
    (∃ msg caller, m.control = .executing msg caller ∧ after.live = m.live + 1 ∧
      m.follow after values = msg.value :: values) ∨
    after.live ≤ m.live ∧ m.follow after values = values.drop (m.live - after.live) := by
  have least := length_waiting_le_live m
  cases move with
  | stop ends waiting =>
      refine .inr ⟨?_, follow_of_still ends.ne_running values⟩
      rwa [live_of_still ends.ne_running, waiting]
  | go paid outcome locals performs goes control waiting =>
      refine .inr ⟨?_, follow_of_quiet (by simp [paid.running]) values⟩
      rw [live_of_running paid.running, live_of_running control, waiting]
  | send paid msg caller control waiting sends =>
      refine .inr ⟨?_, follow_of_quiet (by simp [paid.running]) values⟩
      rw [live_of_running paid.running, live_of_still (by simp [control]), waiting,
        List.length_cons]
  | enter msg caller closure executing control waiting =>
      refine .inl ⟨msg, caller, executing, ?_, ?_⟩
      · rw [live_of_running control, live_of_still (by simp [executing]), waiting]
      · simp only [follow, executing, control]
  | drop sender ends waiting =>
      refine .inr ⟨?_, follow_of_still ends.ne_running values⟩
      rw [waiting, List.length_cons] at least
      rw [live_of_still ends.ne_running]
      omega
  | resume result caller top mem returning receives control waiting =>
      refine .inr ⟨?_, follow_of_quiet (by simp [returning]) values⟩
      rw [live_of_running control, live_of_still (by simp [returning]), waiting, List.length_cons]

/-- Every live closure has the value of its message. -/
theorem Move.length_follow (move : Move env db m after) {values : List Int}
    (lengthEq : values.length = m.live) : (m.follow after values).length = after.live := by
  rcases move.follow_cases values with ⟨msg, caller, -, liveEq, followed⟩ | ⟨le, followed⟩
  · rw [followed, List.length_cons, lengthEq, liveEq]
  · rw [followed, List.length_drop, lengthEq]
    omega

/-- A message is executed for a closure that waits. -/
theorem Move.live_pos (move : Move env db m after) {msg : Message} {caller : Ref}
    (executing : after.control = .executing msg caller) : 0 < after.live := by
  cases move with
  | stop ends | drop _ ends =>
      rw [executing] at ends
      exact ends.elim
  | send paid msg caller control waiting sends =>
      rw [live, waiting, List.length_cons]
      omega
  | go _ _ _ _ _ control | enter _ _ _ _ control | resume _ _ _ _ _ _ control =>
      cases control.symm.trans executing

/-- The outermost closure has this value, and every other message is sent by a closure. -/
structure Rooted (value : Int) (m : Machine) (values : List Int) : Prop where
  lengthEq : values.length = m.live
  outermost : 0 < m.live → values.getLast? = some value
  sent : m.live = 0 → ∀ msg caller, m.control ≠ .executing msg caller

theorem Rooted.move {value : Int} {values : List Int} (rooted : m.Rooted value values)
    (move : Move env db m after) : after.Rooted value (m.follow after values) := by
  constructor
  case lengthEq => exact move.length_follow rooted.lengthEq
  case outermost =>
    intro positive
    rcases move.follow_cases values with ⟨msg, caller, executing, -, followed⟩ | ⟨le, followed⟩
    · have before : 0 < m.live := by
        by_contra none
        exact rooted.sent (by omega) msg caller executing
      rw [followed, List.getLast?_cons, rooted.outermost before, Option.getD_some]
    · rw [followed, List.getLast?_drop, if_neg (by rw [rooted.lengthEq]; omega)]
      exact rooted.outermost (by omega)
  case sent =>
    intro none msg caller executing
    exact absurd none (move.live_pos executing).ne'

end Machine

namespace Config

/-- The values of the messages of the live closures after a step of the transition. -/
def follow : Config → Config → List Int → List Int
  | .evaluating _ m, .evaluating _ after, values => m.follow after values
  | .posting _ _ _ _ _ m, .posting _ _ _ _ _ after, values => m.follow after values
  | _, _, _ => []

/-- The closures that are live when the transition starts have the value of the transaction. -/
def outset (value : Int) : Config → List Int
  | .evaluating _ m => List.replicate m.live value
  | _ => []

/-- Every live closure has the value of its message, and the closure of the receiver that of
the transaction. -/
def Valued (value : Int) (values : List Int) : Config → Prop
  | .evaluating _ m => m.Rooted value values
  | .posting _ _ _ _ _ m => values.length = m.live
  | _ => True

theorem Valued.step {host : Host} {db : Database} {tx : Transaction} {block : Header}
    {config : Config} {value : Int} {values : List Int} (valued : config.Valued value values) :
    (StateTransition.step host db tx block config).Valued value
      (config.follow (StateTransition.step host db tx block config) values) := by
  have stage := StateTransition.stage_step host db tx block config
  generalize StateTransition.step host db tx block config = after at stage ⊢
  cases stage with
  | run => exact Machine.Rooted.move valued (Machine.move_step _ db _)
  | post => rfl
  | deliver => exact Machine.Move.length_follow (Machine.move_step _ db _) valued
  | succeed | join | settle | rest => trivial

end Config

namespace StateTransition

variable (host : Host) (db : Database) (tx : Transaction) (block : Header) (cb : Ref) (w : World)

/-- The values of the messages of the live closures, along a transition.  The closure of the
receiver has the value of the transaction. -/
def values : Nat → List Int
  | 0 => (start host db tx cb w).outset tx.value
  | n + 1 => (run host db tx block cb w n).follow (run host db tx block cb w (n + 1)) (values n)

variable {host db tx block cb w}

theorem rooted_enter (value : Int) {base : Machine} (closure : Closure) :
    (base.enter closure).Rooted value (List.replicate (base.enter closure).live value) := by
  constructor
  case lengthEq => exact List.length_replicate
  case outermost =>
    intro positive
    rw [List.getLast?_replicate, if_neg (by omega)]
  case sent =>
    intro none msg caller
    unfold Machine.enter
    split
    · simp
    · simp

theorem valued_evaluate (value : Int) (eval : Evaluation) (gas : Int) (w : World) :
    (evaluate eval gas w).Valued value ((evaluate eval gas w).outset value) := by
  unfold evaluate
  cases script eval w with
  | none => trivial
  | some code => exact rooted_enter value _

theorem valued_run (n : Nat) :
    (run host db tx block cb w n).Valued tx.value (values host db tx block cb w n) := by
  induction n with
  | zero =>
      change (start host db tx cb w).Valued tx.value ((start host db tx cb w).outset tx.value)
      rw [start_eq]
      cases outset host db tx cb w with
      | refused after => trivial
      | stopped sen after gas => trivial
      | begun eval after gas => exact valued_evaluate tx.value eval gas after
  | succ n induction =>
      rw [values, run_succ]
      exact induction.step

/-- The value of a machine that is being run is that of its innermost closure. -/
theorem exists_value {n : Nat} {m : Machine} {closure : Closure} {l : Locals}
    (machineEq : (run host db tx block cb w n).machine = some m)
    (running : m.control = .running closure l) :
    ∃ value, (values host db tx block cb w n).head? = some value ∧
      ∀ eval, run host db tx block cb w n = .evaluating eval m → m.waiting = [] →
        value = tx.value := by
  have valued := @valued_run host db tx block cb w n
  have liveEq := Machine.live_of_running running
  cases configEq : run host db tx block cb w n with
  | evaluating eval machine =>
      rw [configEq] at machineEq valued
      obtain rfl := Option.some.inj machineEq
      obtain ⟨lengthEq, outermost, -⟩ : machine.Rooted tx.value _ := valued
      cases valuesEq : values host db tx block cb w n with
      | nil =>
          rw [valuesEq, List.length_nil] at lengthEq
          omega
      | cons value rest =>
          refine ⟨value, rfl, ?_⟩
          intro other _ alone
          rw [valuesEq, List.length_cons, liveEq, alone, List.length_nil] at lengthEq
          obtain rfl : rest = [] := List.length_eq_zero_iff.mp (by omega)
          rw [valuesEq] at outermost
          exact Option.some.inj (outermost (by omega))
  | posting eval ret gas queue index machine =>
      rw [configEq] at machineEq valued
      obtain rfl := Option.some.inj machineEq
      have lengthEq : (values host db tx block cb w n).length = machine.live := valued
      cases valuesEq : values host db tx block cb w n with
      | nil =>
          rw [valuesEq, List.length_nil] at lengthEq
          omega
      | cons value rest =>
          refine ⟨value, rfl, ?_⟩
          intro other impossible
          cases impossible
  | dispatching eval ret gas queue index callStack after =>
      rw [configEq] at machineEq
      cases machineEq
  | finished after ok =>
      rw [configEq] at machineEq
      cases machineEq

theorem machine_step {config : Config} {m : Machine} {closure : Closure} {l : Locals}
    (machineEq : config.machine = some m) (running : m.control = .running closure l) :
    (step host db tx block config).machine = some (m.step (host.env tx block) db) := by
  cases config with
  | evaluating eval machine =>
      cases machineEq
      simp only [step, running]
      rfl
  | posting eval ret gas queue index machine =>
      cases machineEq
      simp only [step, running]
      rfl
  | dispatching => cases machineEq
  | finished => cases machineEq

/-- `CALLVALUE` tells the closure the value of its message exactly when that is the value of the
transaction, as it is in the closure of the receiver. -/
theorem callvalue_iff (host : Host) (db : Database) (tx : Transaction) (block : Header) (cb : Ref)
    (w : World) (n : Nat) (m : Machine) (closure : Closure) (l : Locals)
    (machineEq : (run host db tx block cb w n).machine = some m)
    (running : m.control = .running closure l)
    (found : opAt closure.code l.pc = some .callvalue) (gas : 1 ≤ closure.gas) :
    ∃ value, (values host db tx block cb w n).head? = some value ∧
      ((run host db tx block cb w (n + 1)).machine = some (m.pushes closure l value l.stack) ↔
        value = tx.value) ∧
      ∀ eval, run host db tx block cb w n = .evaluating eval m → m.waiting = [] →
        value = tx.value := by
  obtain ⟨value, valueEq, outermost⟩ := exists_value machineEq running
  refine ⟨value, valueEq, ?_, outermost⟩
  have stepped : m.step (host.env tx block) db = m.pushes closure l tx.value l.stack :=
    Machine.step_plain running found gas ⟨fun _ => rfl, fun _ _ _ => rfl, fun _ _ _ => rfl⟩
  rw [run_succ, machine_step machineEq running, stepped]
  constructor
  · intro same
    have controls := congrArg Machine.control (Option.some.inj same)
    obtain ⟨-, localsEq⟩ := Control.running.inj controls
    exact (List.cons.inj (congrArg Locals.stack localsEq)).1.symm
  · rintro rfl
    rfl

/-- A contract that asks for its value and calls itself with a value of one. -/
def valueCode : Bytes := [0x34, 0x60, 0, 0x60, 0, 0x60, 0, 0x60, 0, 0x60, 1, 0x60, 2, 0x60, 3, 0xf1]

def valueWorld : World := sampleWorld 1 1 valueCode []

def valueTx (value : Int) : Transaction := sampleTx [2] value 560 0

/-- The contract is called with a value of one, and is told so when it calls itself. -/
theorem callvalue_iff_called :
    ∃ m closure l, (run codelessHost ∅ (valueTx 1) sampleHeader 2 valueWorld 10).machine = some m ∧
      m.control = .running closure l ∧ m.waiting.length = 1 ∧
      (run codelessHost ∅ (valueTx 1) sampleHeader 2 valueWorld 11).machine =
        some (m.pushes closure l 1 l.stack) := by
  have runs : (run codelessHost ∅ (valueTx 1) sampleHeader 2 valueWorld 10).machine.bind
      Machine.instruction = some .callvalue := by
    decide +kernel
  have nested : ∀ m ∈ (run codelessHost ∅ (valueTx 1) sampleHeader 2 valueWorld 10).machine,
      1 ≤ m.control.gas ∧ m.waiting.length = 1 := by
    decide +kernel
  have values : (values codelessHost ∅ (valueTx 1) sampleHeader 2 valueWorld 10).head? =
      some 1 := by
    decide +kernel
  obtain ⟨m, machineEq, instruction⟩ := Option.bind_eq_some_iff.mp runs
  obtain ⟨closure, l, running⟩ : ∃ closure l, m.control = .running closure l := by
    unfold Machine.instruction at instruction
    split at instruction
    · exact ⟨_, _, ‹_›⟩
    · cases instruction
  simp only [Machine.instruction, running] at instruction
  obtain ⟨gas, waits⟩ := nested m machineEq
  rw [running] at gas
  obtain ⟨value, valueEq, pushes, -⟩ := callvalue_iff codelessHost ∅ (valueTx 1) sampleHeader 2
    valueWorld 10 m closure l machineEq running instruction gas
  cases valueEq.symm.trans values
  exact ⟨m, closure, l, machineEq, running, waits, pushes.mpr rfl⟩

/-- In its call to itself the contract should be told one, and is told nothing. -/
theorem callvalue_of_call_is_zero :
    values codelessHost ∅ (valueTx 0) sampleHeader 2 valueWorld 10 = [1, 0] ∧
      (run codelessHost ∅ (valueTx 0) sampleHeader 2 valueWorld 10).machine.bind
        Machine.instruction = some .callvalue ∧
      (run codelessHost ∅ (valueTx 0) sampleHeader 2 valueWorld 11).machine.bind Machine.stack? =
        some [0] := by
  decide +kernel

end StateTransition

end Thelonious
