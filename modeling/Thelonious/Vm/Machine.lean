import Thelonious.Vm.Instruction

/-!
# The virtual machine

`RunClosure` and `Message.Exec` call each other; `Machine` makes their call stack
explicit, so that one `step` is one instruction, the start of a message, or the
return to a waiting closure.  A waiting closure has the copy of the state that it
goes back to when the call fails.
-/

namespace Thelonious

structure Message where
  address : Bytes
  input : Bytes
  gas : Int
  price : Int
  value : Int

/-- What a closure does once the message it sent has succeeded. -/
inductive Pending
  | create (addr : Bytes)
  | call (retOffset retSize : Int)

/-- A closure that waits for `Exec`, with the local variables of `Exec` and of the
instruction. -/
structure Waiting where
  closure : Closure
  locals : Locals
  pending : Pending
  snapshot : State StateObject
  queue : List Message

/-- The outcome of `Exec` or `RunClosure`: the gas given back, and the object of the
message. -/
structure Result where
  ret : Bytes
  ok : Bool
  gas : Int
  object : Option Ref

inductive Control
  | running (closure : Closure) (locals : Locals)
  | executing (msg : Message) (caller : Ref)
  | returning (result : Result)
  /-- a panic outside of every closure -/
  | panicking
  /-- the loop of `CREATE` for a free address, which never tries another one -/
  | searching

structure Machine where
  world : World
  queue : List Message
  callStack : List Bytes
  waiting : List Waiting
  control : Control

/-- `Precompiled`: the gas and the function behind an address. -/
def Env.precompiled (env : Env) (name : Bytes) : Option (Int × (Bytes → Bytes)) :=
  if name = [0x65, 0x63, 0x72, 0x65, 0x63, 0x6f, 0x76, 0x65, 0x72] then
    some (500, env.ecrecoverFunc)
  else if name = [0x73, 0x68, 0x61, 0x32, 0x35, 0x36] then some (100, env.sha256Func)
  else if name = [0x72, 0x69, 0x70, 0x65, 0x6d, 0x64, 0x31, 0x36, 0x30] then
    some (100, env.ripemd160Func)
  else none

/-- `CreateAddress` -/
def createAddress (sha3Bin : Bytes → Bytes) (b : Bytes) (nonce : UInt64) : Bytes :=
  (sha3Bin (encode (.list [.bytes b, .uint64 nonce]))).drop 12

namespace World

/-- `GetBalance` -/
def getBalance (db : Database) (w : World) (addr : Bytes) : Option (Int × World) := do
  let (found, w) ← w.getStateObject db addr
  return ((found.map fun ref => (w.heap ref).balance).getD 0, w)

/-- `GetNonce` -/
def getNonce (db : Database) (w : World) (addr : Bytes) : Option (UInt64 × World) := do
  let (found, w) ← w.getStateObject db addr
  return ((found.map fun ref => (w.heap ref).nonce).getD 0, w)

/-- `GetCode` -/
def getCode (db : Database) (w : World) (addr : Bytes) : Option (Bytes × World) := do
  let (found, w) ← w.getStateObject db addr
  return ((found.map fun ref => (w.heap ref).code).getD [], w)

/-- `Closure.GetStorage` -/
def getStorage (db : Database) (w : World) (ref : Ref) (location : Int) :
    Option (Value × World) := do
  let (value, object) ← (w.heap ref).getStorage db location
  return (value, w.modify ref fun _ => object)

/-- The gas of a step and the new size of the memory. -/
def cost (env : Env) (db : Database) (w : World) (closure : Closure) (l : Locals) :
    OpCode → Option (Int × Int × World)
  | .sstore => do
      let (y, x, _) ← Stack.popn l.stack
      let (val, w) ← w.getStorage db closure.object x
      let mult := if val.asBigInt = 0 ∧ 0 < (bigBytes y).length then 2
        else if val.asBigInt ≠ 0 ∧ (bigBytes y).length = 0 then 0 else 1
      return (mult * 100, 0, w)
  | .create => do
      if 0 < env.blockNumber ∧ env.dougValidate w = false then none
      else do
        let (gas, newMemSize) ← l.cost .create
        return (gas, newMemSize, w)
  | op => do
      let (gas, newMemSize) ← l.cost op
      return (gas, newMemSize, w)

/-- The instructions that read the state or write the storage of the closure. -/
def access (db : Database) (w : World) (closure : Closure) (l : Locals) :
    OpCode → Option (Outcome × World)
  | .balance => do
      let (addr, rest) ← Stack.pop l.stack
      let (balance, w) ← w.getBalance db (bigBytes addr)
      return (.next { l with stack := balance :: rest }, w)
  | .nonce => do
      let (addr, rest) ← Stack.pop l.stack
      let (nonce, w) ← w.getNonce db (bigBytes addr)
      return (.next { l with stack := nonce.toInt64.toInt :: rest }, w)
  | .extcodecopy => do
      let (addr, rest) ← Stack.pop l.stack
      let (code, w) ← w.getCode db (bigBytes addr)
      let outcome ← { l with stack := rest }.copyFrom code
      return (outcome, w)
  | .sload => do
      let (loc, rest) ← Stack.pop l.stack
      let (val, w) ← w.getStorage db closure.object loc
      return (.next { l with stack := val.asBigInt :: rest }, w)
  | .sstore => do
      let (val, loc, rest) ← Stack.popn l.stack
      return (.next { l with stack := rest },
        w.modify closure.object (.setStorage loc (.bigInt val)))
  | _ => none

end World

namespace Machine

variable (env : Env) (db : Database)

/-- `RunClosure` returns. -/
def leave (m : Machine) (closure : Closure) (ret : Bytes) (ok : Bool) : Machine :=
  { m with
    callStack := m.callStack.dropLast
    control := .returning ⟨ret, ok, closure.gas, some closure.object⟩ }

/-- `RunClosure` starts. -/
def enter (m : Machine) (closure : Closure) : Machine :=
  if closure.code.length = 0 then
    { m with control := .returning ⟨[], true, closure.gas, some closure.object⟩ }
  else
    let callers := if m.callStack.length = 0 then [(m.world.heap closure.caller).address]
      else m.callStack
    { m with
      callStack := callers ++ [(m.world.heap closure.object).address]
      control := .running closure ⟨0, [], []⟩ }

/-- A panic during `Exec` is recovered by the closure that sent the message. -/
def raise (m : Machine) : Machine :=
  match m.waiting with
  | [] => { m with control := .panicking }
  | caller :: waiting =>
      leave { m with queue := caller.queue ++ m.queue, waiting := waiting } caller.closure [] false

/-- `Exec`.  The code is always the one at the address of the message. -/
def exec (m : Machine) (msg : Message) (caller : Ref) : Machine :=
  if (m.world.heap caller).balance < msg.value then
    { m with control := .returning ⟨[], false, msg.gas, none⟩ }
  else
    match env.precompiled (bigBytes (bigD msg.address)) with
    | some (gas, call) =>
        -- the gas of the message is gone, whatever the call needs
        let ret := if gas ≤ msg.gas then call msg.input else []
        { m with control := .returning ⟨ret, true, 0, none⟩ }
    | none =>
        match m.world.getOrNewStateObject db msg.address with
        | none => m.raise
        | some (object, w) =>
            let w := w.modify caller (.subAmount msg.value)
            let w := w.modify object (.addAmount msg.value)
            match w.getCode db msg.address with
            | none => raise { m with world := w }
            | some (code, w) =>
                enter { m with world := w }
                  ⟨caller, object, code, msg.input, msg.gas, msg.price⟩

/-- The message sent by `caller` has returned. -/
def resume (m : Machine) (caller : Waiting) (waiting : List Waiting) (result : Result) :
    Machine :=
  let closure := { caller.closure with gas := caller.closure.gas + result.gas }
  let l := caller.locals
  if result.ok then
    let m := { m with queue := caller.queue ++ m.queue, waiting := waiting }
    match caller.pending with
    | .create addr =>
        match result.object with
        -- a native contract leaves no object whose code could be set
        | none => m.leave closure [] false
        | some object =>
            { m with
              world := m.world.modify object (.setCode result.ret)
              control := .running closure ⟨l.pc + 1, bigD addr :: l.stack, l.mem⟩ }
    | .call retOffset retSize =>
        match Memory.set l.mem (int64 retOffset) (int64 retSize) result.ret with
        | none => m.leave closure [] false
        | some mem =>
            { m with control := .running closure ⟨l.pc + 1, 1 :: l.stack, mem⟩ }
  else
    { m with
      queue := caller.queue
      waiting := waiting
      world := m.world.set caller.snapshot
      control := .running closure ⟨l.pc + 1, 0 :: l.stack, l.mem⟩ }

/-- The closure sends a message and waits. -/
def send (m : Machine) (closure : Closure) (l : Locals) (pending : Pending)
    (snapshot : State StateObject) (msg : Message) : Machine :=
  { m with
    queue := []
    waiting := ⟨closure, l, pending, snapshot, m.queue⟩ :: m.waiting
    control := .executing msg closure.object }

/-- `CREATE`.  The loop that looks for a free address never tries another one. -/
def create (m : Machine) (closure : Closure) (l : Locals) (value : Int) (input : Bytes) :
    Machine :=
  let snapshot := m.world.copy
  let creator := m.world.heap closure.object
  let addr := createAddress env.sha3Bin creator.address creator.nonce
  match m.world.getStateObject db addr with
  | none => m.leave closure [] false
  | some (some _, w) => { m with world := w, control := .searching }
  | some (none, w) =>
      let w := w.modify closure.object .incrementNonce
      let spent := { closure with gas := 0 }
      match w.getOrNewStateObject db addr with
      | none => leave { m with world := w } spent [] false
      | some (obj, w) =>
          let w := w.modify obj (.setCode input)
          send { m with world := w } spent l (.create addr) snapshot
            ⟨addr, input, closure.gas, closure.price, value⟩

/-- The operands of `CREATE`: value and input, with the locals that are left. -/
def createOperands (l : Locals) : Option (Int × Bytes × Locals) := do
  let (value, rest) ← Stack.pop l.stack
  let (size, offset, rest) ← Stack.popn rest
  let input ← Memory.get l.mem (int64 offset) (int64 size)
  return (value, input, { l with stack := rest })

/-- The operands of `CALL` and `POST`: the message, with the locals that are left. -/
def messageOperands (closure : Closure) (l : Locals) : Option (Message × Locals) := do
  let (gas, rest) ← Stack.pop l.stack
  let (value, addr, rest) ← Stack.popn rest
  let (inSize, inOffset, rest) ← Stack.popn rest
  let args ← Memory.get l.mem (int64 inOffset) (int64 inSize)
  return (⟨bigBytes addr, args, gas, closure.price, value⟩, { l with stack := rest })

/-- The operands of `CALL`. -/
def callOperands (closure : Closure) (l : Locals) :
    Option (Message × Int × Int × Locals) := do
  let (msg, l) ← messageOperands closure l
  let (retSize, retOffset, rest) ← Stack.popn l.stack
  return (msg, retOffset, retSize, { l with stack := rest })

/-- `SUICIDE`, which keeps the balance of the object that is marked for deletion. -/
def suicide (m : Machine) (closure : Closure) (addr : Int) : Machine :=
  match m.world.getOrNewStateObject db (bigBytes addr) with
  | none => m.leave closure [] false
  | some (receiver, w) =>
      let w := w.modify receiver (.addAmount (w.heap closure.object).balance)
      let w := w.modify closure.object .markForDeletion
      leave { m with world := w } closure [] true

/-- The end of an instruction. -/
def settle (m : Machine) (closure : Closure) : Outcome → Machine
  | .next l => { m with control := .running closure { l with pc := l.pc + 1 } }
  | .jump l => { m with control := .running closure l }
  | .halt ret => m.leave closure ret true

/-- The second switch of `RunClosure`. -/
def perform (m : Machine) (closure : Closure) (l : Locals) (op : OpCode) : Machine :=
  match op with
  | .create =>
      match createOperands l with
      | none => m.leave closure [] false
      | some (value, input, l) => m.create env db closure l value input
  | .call | .callstateless =>
      match callOperands closure l with
      | none => m.leave closure [] false
      | some (msg, retOffset, retSize, l) =>
          m.send closure l (.call retOffset retSize) m.world.copy msg
  | .post =>
      match messageOperands closure l with
      | none => m.leave closure [] false
      | some (msg, l) => settle { m with queue := m.queue ++ [msg] } closure (.next l)
  | .suicide =>
      match Stack.pop l.stack with
      | none => m.leave closure [] false
      | some (addr, _) => m.suicide db closure addr
  | .balance | .nonce | .extcodecopy | .sload | .sstore =>
      match m.world.access db closure l op with
      | none => m.leave closure [] false
      | some (outcome, w) => settle { m with world := w } closure outcome
  | op =>
      match l.exec env closure (m.world.heap closure.object).address
          (m.world.heap closure.caller).address m.callStack op with
      | none => m.leave closure [] false
      | some outcome => m.settle closure outcome

/-- One turn of the loop of `RunClosure`. -/
def instruct (m : Machine) (closure : Closure) (l : Locals) : Machine :=
  match opAt closure.code l.pc with
  | none => m.leave closure [] false
  | some op =>
      match m.world.cost env db closure l op with
      | none => m.leave closure [] false
      | some (gas, newMemSize, w) =>
          let m := { m with world := w }
          let (memGasUsage, newMemSize) := l.memoryCost newMemSize
          let gas := gas + memGasUsage
          if closure.gas < gas then m.leave { closure with gas := 0 } [] false
          else
            let closure := { closure with gas := closure.gas - gas }
            match Memory.resize l.mem (uint64 newMemSize) with
            | none => m.leave closure [] false
            | some mem => m.perform env db closure { l with mem := mem } op

/-- One step; the machine rests when the outermost call has returned. -/
def step (m : Machine) : Machine :=
  match m.control with
  | .running closure l => m.instruct env db closure l
  | .executing msg caller => m.exec env db msg caller
  | .returning result =>
      match m.waiting with
      | [] => m
      | caller :: waiting => m.resume caller waiting result
  | .panicking | .searching => m

end Machine

end Thelonious
