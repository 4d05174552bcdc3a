import Thelonious.Lib.Iteration
import Thelonious.Util.Sha3
import Thelonious.Vm.Deeds

/-!
# Gas

What a step of the machine does to the gas of its frames.  Every instruction
costs gas, except those that end the closure and an `SSTORE` that clears a slot,
which moves on in the code.  So every closure returns, and the gas that has been
paid for never grows.

`CALL` takes the gas of its message from the stack and pays for it unless it is
negative; a negative amount is given to the message all the same.
-/

namespace Thelonious

variable {op : OpCode} {l : Locals}

/-- The instructions in front of the closure; `pc` is read as an `int64`. -/
def Locals.left (code : Bytes) (l : Locals) : Nat :=
  if int64 l.pc < 0 then 0 else (code.length - int64 l.pc).toNat

theorem bounds_of_opAt {code : Bytes} {pc : Int} (found : opAt code pc = some op)
    (notStop : op ≠ .stop) : 0 ≤ int64 pc ∧ int64 pc < code.length := by
  obtain ⟨value, valueEq, opEq⟩ := Option.bind_eq_some_iff.mp found
  unfold gets at valueEq
  split at valueEq
  · cases valueEq
    exact absurd (Option.some.inj opEq).symm notStop
  · rename_i inside
    split at valueEq
    · rename_i bounds
      exact ⟨bounds.1, not_le.mp fun past => inside (.inl past)⟩
    · cases valueEq

theorem Locals.left_lt {code : Bytes} {after : Locals} (found : opAt code l.pc = some op)
    (notStop : op ≠ .stop) (next : after.pc = l.pc + 1) : after.left code < l.left code := by
  obtain ⟨nonneg, inside⟩ := bounds_of_opAt found notStop
  have wraps : int64 (l.pc + 1) < 0 ∨ int64 (l.pc + 1) = int64 l.pc + 1 := by
    unfold int64 at nonneg ⊢
    simp only [Int.bmod_def] at nonneg ⊢
    split at nonneg <;> split <;> omega
  unfold left
  rw [next, if_neg (by omega : ¬ int64 l.pc < 0)]
  split
  · omega
  · rcases wraps with negative | advanced
    · omega
    · omega

/-- The gas of the innermost frame. -/
def Control.gas : Control → Int
  | .running closure _ => closure.gas
  | .executing msg _ => msg.gas
  | .returning result => result.gas
  | .panicking | .searching => 0

namespace Machine

variable {env : Env} {db : Database} {m : Machine} {closure : Closure} {l : Locals} {op : OpCode}
  {msg : Message} {base : Machine} {caller : Ref}

/-! ### The turns of the machine -/

/-- A message is executed before its closure runs, and the closure runs before it
returns. -/
def phase (m : Machine) : Nat :=
  match m.control with
  | .executing _ _ => 2
  | .running _ _ => 1
  | _ => 0

/-- What a step does to the gas of the frames and to the queue of messages. -/
inductive Turn (m after : Machine) : Prop
  | rest (idle : m.idle) (same : after = m)
  | stay (waiting : after.waiting = m.waiting) (queue : after.queue = m.queue)
      (gas : Pays m.control.gas after.control.gas) (phase : after.phase < m.phase)
      (search : after.control = .searching → 0 < m.control.gas)
  | go (closure : Closure) (l locals : Locals) (left : Int)
      (running : m.control = .running closure l)
      (control : after.control = .running { closure with gas := left } locals)
      (waiting : after.waiting = m.waiting)
      (queue : after.queue = m.queue ∨ opAt closure.code l.pc = some .post ∧
        left < closure.gas ∧ ∃ msg : Message,
          l.stack.head? = some msg.gas ∧ after.queue = m.queue ++ [msg])
      (nonneg : 0 ≤ left)
      (progress : left < closure.gas ∨
        left = closure.gas ∧ locals.left closure.code < l.left closure.code)
  | send (closure : Closure) (l : Locals) (msg : Message) (caller : Waiting)
      (running : m.control = .running closure l)
      (control : after.control = .executing msg closure.object)
      (waiting : after.waiting = caller :: m.waiting)
      (queue : after.queue = [] ∧ caller.queue = m.queue)
      (nonneg : 0 ≤ caller.closure.gas) (pays : caller.closure.gas + max 0 msg.gas < closure.gas)
      (offer : 0 ≤ msg.gas ∨ l.stack.head? = some msg.gas ∧
        (opAt closure.code l.pc = some .call ∨ opAt closure.code l.pc = some .callstateless))
  | pop (caller : Waiting) (waiting : m.waiting = caller :: after.waiting)
      (queue : after.queue = caller.queue ++ m.queue ∨ after.queue = caller.queue)
      (gas : after.control.gas = caller.closure.gas + m.control.gas ∨
        after.control.gas = caller.closure.gas)

theorem Paid.gas_lt (paid : Paid env db m) {op : OpCode} (isOp : paid.op = op)
    (priced : ¬ (op = .stop ∨ op = .suicide ∨ op = .sstore)) :
    paid.closure.gas < paid.caller.gas := by
  have least := paid.gas_le
  have positive : 1 ≤ paid.cost :=
    (World.cost_pos paid.costs).resolve_right fun free => priced (isOp ▸ free.2)
  omega

/-- A closure that goes on for nothing has cleared a slot. -/
theorem Paid.Performs.free {paid : Paid env db m} {outcome : Outcome} {locals : Locals}
    (performs : paid.Performs outcome) (goes : outcome.Goes locals) (free : paid.cost = 0) :
    paid.op ≠ .stop ∧ locals.pc = paid.l.pc + 1 := by
  rcases World.cost_pos paid.costs with positive | ⟨-, isOp | isOp | isOp⟩
  · omega
  all_goals
    cases performs with
    | exec self caller callStack executed =>
        rw [isOp] at executed
        cases executed
        try cases goes
    | access w accessed =>
        rw [isOp] at accessed
        first
        | cases accessed
        | obtain ⟨⟨val, loc, rest⟩, -, accessed⟩ := Option.bind_eq_some_iff.mp accessed
          cases accessed
          obtain rfl := goes
          exact ⟨by simp [isOp], rfl⟩
    | post msg rest isPost operands outcomeEq => cases isPost.symm.trans isOp

theorem Paid.progress (paid : Paid env db m) {outcome : Outcome} {locals : Locals}
    (performs : paid.Performs outcome) (goes : outcome.Goes locals) :
    paid.closure.gas < paid.caller.gas ∨ paid.closure.gas = paid.caller.gas ∧
      locals.left paid.caller.code < paid.l.left paid.caller.code := by
  have least := paid.gas_le
  have nonneg := World.cost_nonneg paid.costs
  by_cases same : paid.closure.gas = paid.caller.gas
  · obtain ⟨notStop, next⟩ := performs.free goes (by omega)
    exact .inr ⟨same, Locals.left_lt paid.found notStop next⟩
  · exact .inl (by omega)

/-- The gas of a message is paid for, unless it is negative. -/
theorem Paid.Sends.offer {paid : Paid env db m} {caller : Waiting} (sends : paid.Sends msg caller) :
    0 ≤ caller.closure.gas ∧ caller.closure.gas + max 0 msg.gas < paid.caller.gas ∧
      (0 ≤ msg.gas ∨ paid.l.stack.head? = some msg.gas ∧
        (opAt paid.caller.code paid.l.pc = some .call ∨
          opAt paid.caller.code paid.l.pc = some .callstateless)) := by
  have nonneg := paid.gas_nonneg
  have least := paid.gas_le
  cases sends with
  | call isCall retOffset retSize operands pending closure =>
      obtain ⟨top, gasEq⟩ := paid.cost_call isCall operands
      rw [closure]
      refine ⟨nonneg, by omega, .inr ⟨top, ?_⟩⟩
      rw [paid.found]
      exact isCall.imp (congrArg some) (congrArg some)
  | create isCreate addr input value operands message pending closure =>
      have covered := paid.gas_lt isCreate (by simp)
      rw [closure, message]
      exact ⟨le_rfl, by dsimp only; omega, .inl nonneg⟩

theorem pays_zero (gas : Int) : Pays gas 0 := ⟨min_le_left _ _, le_max_left _ _⟩

theorem pays_self (gas : Int) : Pays gas gas := ⟨min_le_right _ _, le_max_right _ _⟩

theorem turn_of_running {after : Machine} (running : m.control = .running closure l)
    (waiting : after.waiting = m.waiting) (queue : after.queue = m.queue)
    (gas : Pays closure.gas after.control.gas) (ended : after.phase = 0)
    (search : after.control = .searching → 0 < closure.gas) : Turn m after := by
  refine .stay waiting queue ?_ ?_ ?_
  · rwa [running]
  · rw [ended, phase, running]
    exact Nat.one_pos
  · rwa [running]

theorem turn_of_executing {after : Machine} (executing : m.control = .executing msg caller)
    (waiting : after.waiting = m.waiting) (queue : after.queue = m.queue)
    (gas : Pays msg.gas after.control.gas) (phase : after.phase < 2)
    (found : after.control ≠ .searching) : Turn m after := by
  refine .stay waiting queue ?_ ?_ fun searching => absurd searching found
  · rwa [executing]
  · simpa [Machine.phase, executing] using phase

theorem Act.turn {after : Machine} (act : Act env db m after) : Turn m after := by
  cases act with
  | rest idle => exact .rest idle rfl
  | leave left running mild object gas success ret =>
      exact turn_of_running running rfl rfl gas rfl nofun
  | bequeath paid isSuicide stack found =>
      exact turn_of_running paid.running rfl rfl paid.pays rfl nofun
  | go paid mild posts performs goes =>
      refine .go _ _ _ paid.closure.gas paid.running rfl rfl ?_ paid.gas_nonneg
        (paid.progress performs goes)
      refine posts.imp_right ?_
      rintro ⟨isPost, posted⟩
      exact ⟨isPost ▸ paid.found, paid.gas_lt isPost (by simp), posted⟩
  | send paid loaded mild sends snapshot queue =>
      obtain ⟨nonneg, pays, offer⟩ := sends.offer
      exact .send _ _ _ _ paid.running rfl rfl ⟨rfl, queue⟩ nonneg pays offer
  | search paid isCreate taken =>
      have covered := paid.gas_lt isCreate (by simp)
      exact turn_of_running paid.running rfl rfl (pays_zero _) rfl
        fun _ => paid.gas_nonneg.trans_lt covered
  | answer executing gas =>
      refine turn_of_executing executing rfl rfl ?_ Nat.two_pos nofun
      change Pays _ (Result.gas _)
      rcases gas with same | none
      · exact same ▸ pays_self _
      · exact none ▸ pays_zero _
  | run executing delivers code =>
      unfold enter
      split
      · exact turn_of_executing executing rfl rfl (pays_self _) Nat.two_pos nofun
      · exact turn_of_executing executing rfl rfl (pays_self _) Nat.one_lt_two nofun
  | panic executing outermost world =>
      exact turn_of_executing executing rfl rfl (pays_zero _) Nat.two_pos nofun
  | raise executing waitingEq world => exact .pop _ waitingEq (.inl rfl) (.inr rfl)
  | resume returning waitingEq | fail returning waitingEq =>
      exact .pop _ waitingEq (.inl rfl) (.inl (by rw [returning]; rfl))
  | revert returning waitingEq failed =>
      exact .pop _ waitingEq (.inr rfl) (.inl (by rw [returning]; rfl))

theorem turn_step (env : Env) (db : Database) (m : Machine) : Turn m (m.step env db) :=
  (act_step env db m).turn

/-! ### The gas of the frames -/

/-- The gas of the live frames, the innermost first. -/
def gases (m : Machine) : List Int :=
  m.control.gas :: m.waiting.map fun caller => caller.closure.gas

/-- `CREATE` goes on with its search, since there is an account at the address. -/
def Collides (env : Env) (db : Database) (m : Machine) : Prop :=
  match m.control with
  | .running closure l =>
      (m.step env db).control = .searching ∧ opAt closure.code l.pc = some .create ∧
        ∃ ref w, m.world.getStateObject db (createAddress env.sha3Bin
          (m.world.heap closure.object).address (m.world.heap closure.object).nonce) =
            some (some ref, w)
  | _ => False

/-- A message that is sent now is not given a negative amount of gas. -/
def Offers (m : Machine) : Prop :=
  match m.control with
  | .running closure l =>
      opAt closure.code l.pc = some .call ∨ opAt closure.code l.pc = some .callstateless →
        ∀ offer ∈ l.stack.head?, 0 ≤ offer
  | _ => True

instance : (m : Machine) → Decidable m.Offers
  | ⟨_, _, _, _, .running closure l⟩ => inferInstanceAs (Decidable
      (opAt closure.code l.pc = some .call ∨ opAt closure.code l.pc = some .callstateless →
        ∀ offer ∈ l.stack.head?, 0 ≤ offer))
  | ⟨_, _, _, _, .executing _ _⟩ | ⟨_, _, _, _, .returning _⟩ | ⟨_, _, _, _, .panicking⟩
  | ⟨_, _, _, _, .searching⟩ => instDecidableTrue

/-- The gas that the frames have to spend. -/
def funds (m : Machine) : Int := (m.gases.map (max 0)).sum

theorem funds_eq (m : Machine) :
    m.funds = max 0 m.control.gas +
      (m.waiting.map fun caller => max 0 caller.closure.gas).sum := by
  simp [funds, gases, Function.comp_def]

theorem funds_nonneg (m : Machine) : 0 ≤ m.funds := by
  apply List.sum_nonneg
  simp

/-- What falls with every step: the gas to spend, the number of waiting closures, the
phase of the message, and the code in front of the closure. -/
def weight (m : Machine) : ℕ ×ₗ ℕ ×ₗ ℕ ×ₗ ℕ :=
  toLex (m.funds.toNat, toLex (m.waiting.length, toLex (m.phase,
    match m.control with
    | .running closure l => l.left closure.code
    | _ => 0)))

namespace Turn

variable {after : Machine}

/-- Gas is never made. -/
theorem funds_le (turn : Turn m after) : after.funds ≤ m.funds := by
  simp only [funds_eq]
  cases turn with
  | rest idle same => rw [same]
  | stay waiting queue gas phase search =>
      have most := gas.2
      rw [waiting]
      omega
  | go closure l locals left running control waiting queue nonneg progress =>
      simp only [running, control, waiting, Control.gas]
      omega
  | send closure l msg caller running control waiting queue nonneg pays offer =>
      simp only [running, control, waiting, Control.gas, List.map_cons, List.sum_cons]
      omega
  | pop caller waiting queue gas =>
      rw [waiting, List.map_cons, List.sum_cons]
      omega

theorem weight_lt_of_funds (lt : after.funds < m.funds) : after.weight < m.weight := by
  have nonneg := after.funds_nonneg
  exact Prod.Lex.toLex_lt_toLex.mpr (.inl (by simp only; omega))

theorem weight_lt_of_waiting (le : after.funds ≤ m.funds)
    (lt : after.waiting.length < m.waiting.length) : after.weight < m.weight := by
  rcases le.lt_or_eq with less | same
  · exact weight_lt_of_funds less
  · refine Prod.Lex.toLex_lt_toLex.mpr (.inr ⟨?_, Prod.Lex.toLex_lt_toLex.mpr (.inl lt)⟩)
    rw [same]

theorem weight_lt_of_phase (le : after.funds ≤ m.funds) (same : after.waiting = m.waiting)
    (lt : after.phase < m.phase) : after.weight < m.weight := by
  rcases le.lt_or_eq with less | equal
  · exact weight_lt_of_funds less
  · refine Prod.Lex.toLex_lt_toLex.mpr (.inr ⟨?_, Prod.Lex.toLex_lt_toLex.mpr (.inr ⟨?_,
      Prod.Lex.toLex_lt_toLex.mpr (.inl lt)⟩)⟩)
    · rw [equal]
    · rw [same]

theorem weight_lt (turn : Turn m after) (busy : ¬ m.idle) : after.weight < m.weight := by
  have le := turn.funds_le
  cases turn with
  | rest idle same => exact absurd idle busy
  | stay waiting queue gas phase search => exact weight_lt_of_phase le waiting phase
  | go closure l locals left running control waiting queue nonneg progress =>
      rcases progress with less | ⟨same, ahead⟩
      · refine weight_lt_of_funds ?_
        simp only [funds_eq, running, control, waiting, Control.gas]
        omega
      · subst same
        have equal : after.funds = m.funds := by
          simp only [funds_eq, running, control, waiting, Control.gas]
        unfold weight
        simp only [equal, waiting, phase, running, control]
        exact Prod.Lex.toLex_lt_toLex.mpr (.inr ⟨rfl, Prod.Lex.toLex_lt_toLex.mpr (.inr ⟨rfl,
          Prod.Lex.toLex_lt_toLex.mpr (.inr ⟨rfl, ahead⟩)⟩)⟩)
  | send closure l msg caller running control waiting queue nonneg pays offer =>
      refine weight_lt_of_funds ?_
      simp only [funds_eq, running, control, waiting, Control.gas, List.map_cons, List.sum_cons]
      omega
  | pop caller waiting queue gas => exact weight_lt_of_waiting le (by simp [waiting])

/-- A machine whose messages are given their gas by its frames. -/
theorem frugal (turn : Turn m after) (nonneg : ∀ gas ∈ m.gases, 0 ≤ gas) (offers : m.Offers) :
    (∀ gas ∈ after.gases, 0 ≤ gas) ∧ after.gases.sum ≤ m.gases.sum := by
  simp only [gases, List.forall_mem_cons, List.sum_cons] at nonneg ⊢
  obtain ⟨top, below⟩ := nonneg
  cases turn with
  | rest idle same =>
      rw [same]
      exact ⟨⟨top, below⟩, le_rfl⟩
  | stay waiting queue gas phase search =>
      obtain ⟨atLeast, atMost⟩ := gas
      rw [waiting]
      exact ⟨⟨by omega, below⟩, by omega⟩
  | go closure l locals left running control waiting queue leftNonneg progress =>
      simp only [running, control, waiting, Control.gas] at top ⊢
      exact ⟨⟨leftNonneg, below⟩, by omega⟩
  | send closure l msg caller running control waiting queue callerNonneg pays offer =>
      have msgNonneg : 0 ≤ msg.gas := by
        rcases offer with nonneg | ⟨offer, isCall⟩
        · exact nonneg
        · simp only [Offers, running] at offers
          exact offers isCall _ offer
      simp only [running, control, waiting, Control.gas, List.map_cons, List.forall_mem_cons,
        List.sum_cons] at top ⊢
      exact ⟨⟨msgNonneg, callerNonneg, below⟩, by omega⟩
  | pop caller waiting queue gas =>
      rw [waiting, List.map_cons, List.forall_mem_cons] at below
      rw [waiting, List.map_cons, List.sum_cons]
      exact ⟨⟨by omega, below.2⟩, by omega⟩

end Turn

/-! ### Runs of a closure -/

/-- `RunClosure`, called from outside of the machine. -/
def runClosure (w : World) (queue : List Message) (callStack : List Bytes) (closure : Closure) :
    Machine :=
  enter ⟨w, queue, callStack, [], .panicking⟩ closure

/-- What holds while the outermost closure runs: every message has a sender, and the
closure does not succeed without gas. -/
structure Underway (m : Machine) : Prop where
  sender {msg : Message} {caller : Ref} : m.control = .executing msg caller → m.waiting ≠ []
  recovered : m.control ≠ .panicking
  success {result : Result} : m.control = .returning result → m.waiting = [] → result.ok →
    0 ≤ result.gas

theorem underway_runClosure (w : World) (queue : List Message) (callStack : List Bytes)
    (gas : 0 ≤ closure.gas) : (runClosure w queue callStack closure).Underway := by
  unfold runClosure enter
  split
  · constructor
    case sender => simp
    case recovered => simp
    case success =>
      intro result returning _ _
      cases returning
      exact gas
  · constructor <;> simp

theorem Underway.act {after : Machine} (underway : m.Underway) (act : Act env db m after) :
    after.Underway := by
  cases act with
  | rest idle => exact underway
  | leave left running mild object gas success ret =>
      constructor
      case sender => simp [leave]
      case recovered => simp [leave]
      case success =>
        intro result returning _ ok
        cases returning
        exact success ok
  | bequeath paid =>
      constructor
      case sender => simp [leave]
      case recovered => simp [leave]
      case success =>
        intro result returning _ _
        cases returning
        exact paid.gas_nonneg
  | go | send | search | resume | revert => constructor <;> simp
  | answer executing =>
      have sent := underway.sender executing
      constructor <;> simp [sent]
  | run executing =>
      have sent := underway.sender executing
      unfold enter
      split
      · constructor <;> simp [sent]
      · constructor <;> simp
  | panic executing outermost => exact absurd outermost (underway.sender executing)
  | raise | fail => constructor <;> simp [leave]

theorem Underway.step (underway : m.Underway) : (m.step env db).Underway :=
  underway.act (act_step env db m)

/-- The state of the machine after a number of steps. -/
def after (env : Env) (db : Database) (m : Machine) (steps : Nat) : Machine :=
  (step env db)^[steps] m

theorem after_succ (m : Machine) (steps : Nat) :
    m.after env db (steps + 1) = (m.after env db steps).step env db :=
  Function.iterate_succ_apply' _ _ _

theorem exists_idle (env : Env) (db : Database) (m : Machine) : ∃ n, (m.after env db n).idle :=
  Iteration.exists_rest (step env db) (fun _ => True) (·.idle) weight (fun _ _ => trivial)
    (fun state _ busy => (turn_step env db state).weight_lt busy) trivial

theorem funds_after_le (env : Env) (db : Database) (m : Machine) (n : Nat) :
    (m.after env db n).funds ≤ m.funds := by
  induction n with
  | zero => exact le_rfl
  | succ n induction =>
      rw [after_succ]
      exact (turn_step env db _).funds_le.trans induction

/-- The gas of a closure that has returned goes to the closure that waits for it. -/
theorem gases_step_of_returning {result : Result} {caller : Waiting} {waiting : List Waiting}
    (returning : m.control = .returning result) (waitingEq : m.waiting = caller :: waiting) :
    (m.step env db).gases =
      (caller.closure.gas + result.gas) :: waiting.map fun caller => caller.closure.gas := by
  have act := act_step env db m
  generalize m.step env db = after at act ⊢
  cases act with
  | rest idle => simp [Machine.idle, returning, waitingEq] at idle
  | resume other below | fail other below | revert other below =>
      cases returning.symm.trans other
      cases waitingEq.symm.trans below
      rfl
  | leave _ running => cases returning.symm.trans running
  | bequeath paid | go paid | send paid | search paid => cases returning.symm.trans paid.running
  | answer executing | run executing | panic executing | raise executing =>
      cases returning.symm.trans executing

theorem searching_cases (searching : (m.step env db).control = .searching) :
    m.control = .searching ∨ m.Collides env db := by
  have act := act_step env db m
  generalize afterEq : m.step env db = after at act searching
  cases act with
  | rest idle => exact .inl searching
  | search paid isCreate taken =>
      simp only [Collides, paid.running, afterEq]
      exact .inr ⟨trivial, isCreate ▸ paid.found, _, _, taken⟩
  | run =>
      unfold enter at searching
      split at searching
      · cases searching
      · cases searching
  | leave | bequeath | go | send | answer | panic | raise | resume | fail | revert =>
      cases searching

theorem not_searching (unused : ∀ n, ¬ (m.after env db n).Collides env db)
    (initial : m.control ≠ .searching) (n : Nat) : (m.after env db n).control ≠ .searching := by
  refine Iteration.invariant (step env db) (fun state : Machine => state.control ≠ .searching)
    (fun state => ¬ state.Collides env db) (fun state known free searching => ?_) initial unused n
  rcases searching_cases searching with already | collides
  · exact known already
  · exact free collides

section Closure

variable {w : World} {queue : List Message} {callStack : List Bytes}

@[simp] theorem gases_runClosure (w : World) (queue : List Message) (callStack : List Bytes)
    (closure : Closure) : (runClosure w queue callStack closure).gases = [closure.gas] := by
  unfold runClosure enter
  split <;> rfl

/-- The closure returns, with no more gas than it was given. -/
theorem returns_runClosure (gas : 0 ≤ closure.gas)
    (unused : ∀ n, ¬ ((runClosure w queue callStack closure).after env db n).Collides env db) :
    ∃ n result, ((runClosure w queue callStack closure).after env db n).control =
        .returning result ∧
      ((runClosure w queue callStack closure).after env db n).waiting = [] ∧
      result.gas ≤ closure.gas := by
  have underway : ∀ n, ((runClosure w queue callStack closure).after env db n).Underway :=
    Function.Iterate.rec Underway (underway_runClosure _ _ _ gas) fun _ underway => underway.step
  have initial : (runClosure w queue callStack closure).control ≠ .searching := by
    unfold runClosure enter
    split <;> simp
  obtain ⟨n, idle⟩ := exists_idle env db (runClosure w queue callStack closure)
  rcases idle_cases idle with panicking | searching | ⟨result, returning, outermost⟩
  · exact absurd panicking (underway n).recovered
  · exact absurd searching (not_searching unused initial n)
  · refine ⟨n, result, returning, outermost, ?_⟩
    have bounded := funds_after_le env db (runClosure w queue callStack closure) n
    have started : (runClosure w queue callStack closure).funds = closure.gas := by
      simp [funds, gas]
    rw [started, funds_eq, returning, outermost] at bounded
    simp only [Control.gas, List.map_nil, List.sum_nil, add_zero] at bounded
    exact (le_max_right _ _).trans bounded

/-- `RunClosure` returns, with no more gas than it was given, and every closure it calls
gives its gas back to the closure that waits for it.  If no message is given a negative
amount of gas, no frame ever has one, and the frames never have more gas than before. -/
theorem runClosure_accounts (env : Env) (db : Database) (w : World) (queue : List Message)
    (callStack : List Bytes) (closure : Closure) (gas : 0 ≤ closure.gas)
    (unused : ∀ n, ¬ ((runClosure w queue callStack closure).after env db n).Collides env db) :
    (∃ n result, ((runClosure w queue callStack closure).after env db n).control =
        .returning result ∧
      ((runClosure w queue callStack closure).after env db n).waiting = [] ∧
      result.gas ≤ closure.gas) ∧
    (∀ n result caller waiting,
      ((runClosure w queue callStack closure).after env db n).control = .returning result →
      ((runClosure w queue callStack closure).after env db n).waiting = caller :: waiting →
      ((runClosure w queue callStack closure).after env db (n + 1)).gases =
        (caller.closure.gas + result.gas) :: waiting.map fun caller => caller.closure.gas) ∧
    ((∀ n, ((runClosure w queue callStack closure).after env db n).Offers) → ∀ n,
      (∀ gas ∈ ((runClosure w queue callStack closure).after env db n).gases, 0 ≤ gas) ∧
      ((runClosure w queue callStack closure).after env db (n + 1)).gases.sum ≤
        ((runClosure w queue callStack closure).after env db n).gases.sum) := by
  refine ⟨returns_runClosure gas unused, fun n result caller waiting returning waitingEq => ?_,
    fun offers n => ?_⟩
  · rw [after_succ]
    exact gases_step_of_returning returning waitingEq
  · have nonneg : ∀ gas ∈ ((runClosure w queue callStack closure).after env db n).gases, 0 ≤ gas :=
      Iteration.invariant (step env db) (fun state : Machine => ∀ gas ∈ state.gases, 0 ≤ gas) Offers
        (fun state known offer => ((turn_step env db state).frugal known offer).1)
        (by simpa using gas) offers n
    rw [after_succ]
    exact ⟨nonneg, ((turn_step env db _).frugal nonneg (offers n)).2⟩

end Closure

theorem not_collides_of_instruction (other : m.instruction ≠ some .create) :
    ¬ m.Collides env db := by
  intro collides
  unfold Collides at collides
  unfold instruction at other
  split at collides
  · simp_all
  · exact collides

theorem step_of_idle (idle : m.idle) : m.step env db = m := by
  rcases idle_cases idle with control | control | ⟨result, control, outermost⟩
  · simp only [step, control]
  · simp only [step, control]
  · simp only [step, control, outermost]

theorem unused_of_instructions {last : Nat} (rests : (m.after env db last).idle)
    (others : ∀ n ≤ last, (m.after env db n).instruction ≠ some .create) (n : Nat) :
    ¬ (m.after env db n).Collides env db :=
  Iteration.forall_of_fixed (step env db) (fun state => ¬ state.Collides env db) last
    (step_of_idle rests) (fun n le => not_collides_of_instruction (others n le)) n

/-- A contract that calls itself, with the gas that `gas` leaves on the stack. -/
def callingCode (gas : Bytes) : Bytes :=
  [0x60, 0, 0x60, 0, 0x60, 0, 0x60, 0, 0x60, 0, 0x60, 2] ++ gas ++ [0xf1]

def callingWorld (gas : Bytes) : World where
  heap ref := { StateObject.new [2 - UInt8.ofNat ref] with
    code := if ref = 0 then callingCode gas else [] }
  next := 2
  state := ⟨.new (.str []), ⟨[⟨address [2], 0⟩, ⟨address [1], 1⟩],
    (by decide : [address [2], address [1]].Nodup)⟩⟩

def callingClosure (gas : Bytes) : Closure := ⟨1, 0, callingCode gas, [], 100, 1⟩

def callingEnv : Env where
  sha3Bin := sampled [([], digest
    0xc5d2460186f7233c927e7db2dcc703c0e500b653ca82273b7bfad8045d85a470)] shortened
  ecrecoverFunc _ := []
  sha256Func data := data
  ripemd160Func data := data
  origin := [1]
  blockNumber := 1
  prevHash := []
  coinbase := address [3]
  time := 0
  difficulty := 0
  value := 0
  doug := []
  dougValidate _ := true

/-- The machine that runs the contract. -/
abbrev callingMachine (gas : Bytes) : Machine :=
  runClosure (callingWorld gas) [] [] (callingClosure gas)

/-- The contract gives its call three units of gas; the call uses them up. -/
theorem runClosure_accounts_three :
    0 ≤ (callingClosure [0x60, 3]).gas ∧
      (∃ n result, ((callingMachine [0x60, 3]).after callingEnv ∅ n).control = .returning result ∧
        ((callingMachine [0x60, 3]).after callingEnv ∅ n).waiting = [] ∧
        result.gas ≤ (callingClosure [0x60, 3]).gas) ∧
      ∀ n, (∀ gas ∈ ((callingMachine [0x60, 3]).after callingEnv ∅ n).gases, 0 ≤ gas) ∧
        ((callingMachine [0x60, 3]).after callingEnv ∅ (n + 1)).gases.sum ≤
          ((callingMachine [0x60, 3]).after callingEnv ∅ n).gases.sum := by
  have rests : ((callingMachine [0x60, 3]).after callingEnv ∅ 15).idle := by
    decide +kernel
  have offers : ∀ n, ((callingMachine [0x60, 3]).after callingEnv ∅ n).Offers :=
    Iteration.forall_of_fixed (step callingEnv ∅) Offers 15 (step_of_idle rests) (by
      intro n le
      interval_cases n <;> decide +kernel)
  obtain ⟨returns, -, spares⟩ := runClosure_accounts callingEnv ∅ (callingWorld [0x60, 3]) [] []
    (callingClosure [0x60, 3]) (by decide) (unused_of_instructions rests fun n le => by
      interval_cases n <;> decide +kernel)
  exact ⟨by decide, returns, spares offers⟩

/-- `NEG` does not reduce its result, so that the contract can compute minus one.  It
calls itself with that amount of gas: the frame of the message has less than nothing
after 12 steps, and the frames have more gas after 14 steps than after 13. -/
theorem call_with_negative_gas :
    (∀ n, ¬ ((callingMachine [0x60, 0, 0x09, 0x60, 1, 0x11, 0x09]).after callingEnv ∅ n).Collides
        callingEnv ∅) ∧
      (callingMachine [0x60, 0, 0x09, 0x60, 1, 0x11, 0x09]).gases = [100] ∧
      ((callingMachine [0x60, 0, 0x09, 0x60, 1, 0x11, 0x09]).after callingEnv ∅ 12).gases =
        [-1, 69] ∧
      ((callingMachine [0x60, 0, 0x09, 0x60, 1, 0x11, 0x09]).after callingEnv ∅ 13).gases =
        [-1, 69] ∧
      ((callingMachine [0x60, 0, 0x09, 0x60, 1, 0x11, 0x09]).after callingEnv ∅ 14).gases =
        [0, 69] := by
  have rests :
      ((callingMachine [0x60, 0, 0x09, 0x60, 1, 0x11, 0x09]).after callingEnv ∅ 16).idle := by
    decide +kernel
  refine ⟨unused_of_instructions rests ?_, ?_⟩
  · intro n le
    interval_cases n <;> decide +kernel
  · decide +kernel

end Machine

end Thelonious
