import Thelonious.Chain.Block
import Thelonious.Vm.Machine

/-!
# The state transition

`StateTransition.TransitionState` as a run of configurations: the closure of the
receiver is evaluated, then the messages it posted are executed one by one, and
at the end the remaining gas is refunded.  A panic of the preparations ends the
transition like an error.

The checks of the protocol (`genDoug`) and the recovery of the sender from the
signature are parameters; the checks are taken to leave the state alone.
-/

namespace Thelonious

/-- What the transition takes from outside. -/
structure Host where
  sha3Bin : Bytes → Bytes
  ecrecoverFunc : Bytes → Bytes
  sha256Func : Bytes → Bytes
  ripemd160Func : Bytes → Bytes
  /-- `tx.Sender()`, which panics when no key is recovered -/
  sender : Transaction → Option Bytes
  doug : Bytes
  validateTx : Transaction → World → Bool
  validateCreate : Bytes → World → Bool

/-- `NewEnv` -/
def Host.env (host : Host) (tx : Transaction) (block : Header) : Env where
  sha3Bin := host.sha3Bin
  ecrecoverFunc := host.ecrecoverFunc
  sha256Func := host.sha256Func
  ripemd160Func := host.ripemd160Func
  origin := (host.sender tx).getD []
  blockNumber := block.number
  prevHash := block.prevHash
  coinbase := block.coinbase
  time := block.time
  difficulty := block.difficulty
  value := tx.value
  doug := host.doug
  dougValidate := host.validateCreate ((host.sender tx).getD [])

/-- `StateObject.RefundGas` -/
def StateObject.refundGas (gas price : Int) (object : StateObject) : StateObject :=
  { object with gasPool := object.gasPool + gas, balance := object.balance - gas * price }

/-- The assignments of `MakeContract`. -/
def StateObject.setInit (initCode : Bytes) (object : StateObject) : StateObject :=
  { object with initCode := initCode, trie := .new (.str []) }

/-- The transition once the value has been transferred. -/
structure Evaluation where
  tx : Transaction
  cb : Ref
  sen : Ref
  receiver : Ref
  snapshot : State StateObject

/-- `evaluating`: `Eval` runs the closure of the receiver.  `dispatching`: the loop over
the posted messages, at the message `index`.  `posting`: that message is executed. -/
inductive Config
  | evaluating (eval : Evaluation) (machine : Machine)
  | dispatching (eval : Evaluation) (ret : Bytes) (gas : Int) (queue : List Message)
      (index : Nat) (callStack : List Bytes) (w : World)
  | posting (eval : Evaluation) (ret : Bytes) (gas : Int) (queue : List Message) (index : Nat)
      (machine : Machine)
  | finished (w : World) (ok : Bool)

namespace StateTransition

/-- `RefundGas` -/
def refundGas (w : World) (cb sen : Ref) (gas price : Int) : World :=
  (w.modify cb (.refundGas gas price)).modify sen (.addAmount (gas * price))

variable (host : Host) (db : Database) (tx : Transaction) (block : Header) (cb : Ref)

/-- `preCheck`: the sender with the gas bought, or the state when there is an error. -/
def preCheck (w : World) : Except World (Ref × World) :=
  if host.validateTx tx w = false then .error w
  else
    match host.sender tx with
    | none => .error w
    | some addr =>
        match w.getOrNewStateObject db addr with
        | none => .error w
        | some (sen, w) =>
            if (w.heap sen).balance < tx.gasValue then .error w
            else if (w.heap cb).gasPool < tx.gas then .error w
            else
              let w := w.modify cb (.addAmount tx.gasValue)
              .ok (sen, w.modify sen (.subAmount tx.gasValue))

/-- `CreationAddress` -/
def creationAddress : Bytes :=
  createAddress host.sha3Bin ((host.sender tx).getD []) tx.nonce

/-- `MakeContract` -/
def makeContract (w : World) : Ref × World :=
  let (contract, w) := w.newStateObject (creationAddress host tx)
  (contract, w.modify contract (.setInit tx.data))

/-- The transfer of the value: the evaluation, or nothing after a panic. -/
def transfer (sen : Ref) (w : World) : Option (Evaluation × World) :=
  if tx.contractCreation then
    let w := w.modify sen (.subAmount tx.value)
    let snapshot := w.copy
    let (receiver, w) := makeContract host tx w
    let w := w.modify receiver (.addAmount tx.value)
    some (⟨tx, cb, sen, receiver, snapshot⟩, w)
  else do
    let (receiver, w) ← w.getOrNewStateObject db tx.recipient
    let w := w.modify sen (.subAmount tx.value)
    let w := w.modify receiver (.addAmount tx.value)
    return (⟨tx, cb, sen, receiver, w.copy⟩, w)

/-- The code that is run: the init code of a new contract, or the code of the
receiver if it has any. -/
def script (eval : Evaluation) (w : World) : Option Bytes :=
  let receiver := w.heap eval.receiver
  if eval.tx.recipient.length = 0 then some receiver.initCode
  else if 0 < receiver.code.length then some receiver.code
  else none

/-- The beginning of `Eval`.  A receiver without code posts nothing. -/
def evaluate (eval : Evaluation) (gas : Int) (w : World) : Config :=
  match script eval w with
  | none => .dispatching eval [] gas [] 0 [] w
  | some code =>
      .evaluating eval (Machine.enter ⟨w, [], [], [], .panicking⟩
        ⟨eval.sen, eval.receiver, code, eval.tx.data, gas, eval.tx.gasPrice⟩)

/-- The end of the transition, with the deferred `RefundGas`. -/
def finish (eval : Evaluation) (gas : Int) (w : World) (ok : Bool) : Config :=
  .finished (refundGas w eval.cb eval.sen gas eval.tx.gasPrice) ok

/-- `TransitionState` up to the evaluation. -/
def start (w : World) : Config :=
  match preCheck host db tx cb w with
  | .error w => .finished w false
  | .ok (sen, w) =>
      let w := w.modify sen .incrementNonce
      let fail (gas : Int) := Config.finished (refundGas w cb sen gas tx.gasPrice) false
      let dataPrice : Int := tx.data.length * 5
      if tx.gas < 500 then fail tx.gas
      else if tx.gas - 500 < dataPrice then fail (tx.gas - 500)
      else
        let gas := tx.gas - 500 - dataPrice
        if (w.heap sen).balance < tx.value then fail gas
        else
          match transfer host db tx cb sen w with
          | none => fail gas
          | some (eval, w) => evaluate eval gas w

/-- One step of the transition. -/
def step : Config → Config
  | .evaluating eval m =>
      match m.control, m.waiting with
      | .returning result, [] =>
          if result.ok then
            .dispatching eval result.ret result.gas m.queue 0 m.callStack m.world
          else finish eval result.gas (m.world.set eval.snapshot) false
      | _, _ => .evaluating eval (m.step (host.env tx block) db)
  | .dispatching eval ret gas queue index callStack w =>
      match queue[index]? with
      | some msg =>
          .posting eval ret gas queue index ⟨w, [], callStack, [], .executing msg eval.sen⟩
      | none =>
          let w := if eval.tx.recipient.length = 0 then
              w.modify eval.receiver (.setCode ret)
            else w
          finish eval gas w true
  | .posting eval ret gas queue index m =>
      match m.control, m.waiting with
      | .returning result, [] =>
          -- what the message posted joins the queue the loop runs over
          let queue := if result.ok then queue ++ m.queue else queue
          .dispatching eval ret gas queue (index + 1) m.callStack m.world
      | .panicking, _ => finish eval gas m.world false
      | _, _ => .posting eval ret gas queue index (m.step (host.env tx block) db)
  | .finished w ok => .finished w ok

/-- The transition after a number of steps. -/
def run (w : World) (steps : Nat) : Config :=
  (step host db tx block)^[steps] (start host db tx cb w)

end StateTransition

end Thelonious
