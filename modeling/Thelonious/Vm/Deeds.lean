import Thelonious.Vm.Machine

/-!
# What a step of the machine does

Almost every step is mild: it loads objects, or changes one without touching its
balance.  The others transfer the value of a message, bequeath the balance of an
object that is deleted, or go back to a copy of the state.
-/

namespace Thelonious

/-- Reading a slot only changes what the object has cached. -/
theorem StateObject.getStorage_fields {db : Database} {object after : StateObject}
    {location : Int} {value : Value}
    (got : object.getStorage db location = some (value, after)) :
    ∃ trie storage, after = { object with trie := trie, storage := storage } := by
  unfold getStorage at got
  dsimp only at got
  split at got
  · cases got
    exact ⟨_, _, rfl⟩
  · obtain ⟨⟨text, trie⟩, -, got⟩ := Option.bind_eq_some_iff.mp got
    obtain ⟨read, -, got⟩ := Option.bind_eq_some_iff.mp got
    dsimp only at got
    split at got
    all_goals
      cases got
      exact ⟨_, _, rfl⟩

namespace World

/-- `after` differs from `w` by objects that have been loaded or created, and by code,
storage and nonces; `counting` are the objects whose nonce may have been counted up. -/
inductive Mild (db : Database) (counting : Ref → Prop) (w : World) : World → Prop
  | refl : Mild db counting w w
  | load {middle after : World} {addr : Bytes} {found : Option Ref}
      (mild : Mild db counting w middle)
      (got : middle.getStateObject db addr = some (found, after)) : Mild db counting w after
  | create {middle after : World} {addr : Bytes} {ref : Ref} (mild : Mild db counting w middle)
      (got : middle.getOrNewStateObject db addr = some (ref, after)) : Mild db counting w after
  | setCode {middle : World} (mild : Mild db counting w middle) (ref : Ref) (code : Bytes) :
      Mild db counting w (middle.modify ref (.setCode code))
  | incrementNonce {middle : World} {ref : Ref} (mild : Mild db counting w middle)
      (counted : counting ref) : Mild db counting w (middle.modify ref .incrementNonce)
  | cache {middle : World} {ref : Ref} {location : Int} {value : Value} {object : StateObject}
      (mild : Mild db counting w middle)
      (got : (middle.heap ref).getStorage db location = some (value, object)) :
      Mild db counting w (middle.modify ref fun _ => object)
  | setStorage {middle : World} (mild : Mild db counting w middle) (ref : Ref) (location : Int)
      (value : Value) : Mild db counting w (middle.modify ref (.setStorage location value))

variable {db : Database} {counting : Ref → Prop} {w : World} {after : World} {addr : Bytes}

theorem Mild.trans {middle : World} (first : Mild db counting w middle)
    (second : Mild db counting middle after) : Mild db counting w after := by
  induction second with
  | refl => exact first
  | load _ got induction => exact .load induction got
  | create _ got induction => exact .create induction got
  | setCode _ ref code induction => exact .setCode induction ref code
  | incrementNonce _ counted induction => exact .incrementNonce induction counted
  | cache _ got induction => exact .cache induction got
  | setStorage _ ref location value induction => exact .setStorage induction ref location value

theorem mild_getBalance {balance : Int} (got : w.getBalance db addr = some (balance, after)) :
    Mild db counting w after := by
  obtain ⟨⟨found, middle⟩, foundEq, got⟩ := Option.bind_eq_some_iff.mp got
  cases got
  exact .load .refl foundEq

theorem mild_getNonce {nonce : UInt64} (got : w.getNonce db addr = some (nonce, after)) :
    Mild db counting w after := by
  obtain ⟨⟨found, middle⟩, foundEq, got⟩ := Option.bind_eq_some_iff.mp got
  cases got
  exact .load .refl foundEq

theorem mild_getCode {code : Bytes} (got : w.getCode db addr = some (code, after)) :
    Mild db counting w after := by
  obtain ⟨⟨found, middle⟩, foundEq, got⟩ := Option.bind_eq_some_iff.mp got
  cases got
  exact .load .refl foundEq

theorem mild_getStorage {ref : Ref} {location : Int} {value : Value}
    (got : w.getStorage db ref location = some (value, after)) : Mild db counting w after := by
  obtain ⟨⟨read, object⟩, readEq, got⟩ := Option.bind_eq_some_iff.mp got
  cases got
  exact .cache .refl readEq

section Cost

variable {env : Env} {closure : Closure} {l : Locals} {op : OpCode} {gas newMemSize : Int}

theorem cost_cases (costs : w.cost env db closure l op = some (gas, newMemSize, after)) :
    (op = .sstore ∧ 0 ≤ gas ∧ newMemSize = 0 ∧
      ∃ ref location value, w.getStorage db ref location = some (value, after)) ∨
    l.cost op = some (gas, newMemSize) ∧ after = w := by
  unfold cost at costs
  split at costs
  · obtain ⟨⟨y, x, rest⟩, -, costs⟩ := Option.bind_eq_some_iff.mp costs
    obtain ⟨⟨val, loaded⟩, got, costs⟩ := Option.bind_eq_some_iff.mp costs
    cases costs
    refine .inl ⟨rfl, ?_, rfl, _, _, _, got⟩
    grind
  · split at costs
    · cases costs
    · obtain ⟨⟨paid, size⟩, costEq, costs⟩ := Option.bind_eq_some_iff.mp costs
      cases costs
      exact .inr ⟨costEq, rfl⟩
  · obtain ⟨⟨paid, size⟩, costEq, costs⟩ := Option.bind_eq_some_iff.mp costs
    cases costs
    exact .inr ⟨costEq, rfl⟩

theorem mild_cost (costs : w.cost env db closure l op = some (gas, newMemSize, after)) :
    Mild db counting w after := by
  rcases cost_cases costs with ⟨-, -, -, ref, location, value, got⟩ | ⟨-, rfl⟩
  · exact mild_getStorage got
  · exact .refl

theorem cost_of_ne_sstore (other : op ≠ .sstore)
    (costs : w.cost env db closure l op = some (gas, newMemSize, after)) :
    l.cost op = some (gas, newMemSize) ∧ after = w :=
  (cost_cases costs).resolve_left fun store => other store.1

end Cost

theorem mild_access {closure : Closure} {l : Locals} {op : OpCode} {outcome : Outcome}
    (accessed : w.access db closure l op = some (outcome, after)) : Mild db counting w after := by
  unfold access at accessed
  split at accessed
  · obtain ⟨⟨addr, rest⟩, -, accessed⟩ := Option.bind_eq_some_iff.mp accessed
    obtain ⟨⟨balance, middle⟩, gotten, accessed⟩ := Option.bind_eq_some_iff.mp accessed
    cases accessed
    exact mild_getBalance gotten
  · obtain ⟨⟨addr, rest⟩, -, accessed⟩ := Option.bind_eq_some_iff.mp accessed
    obtain ⟨⟨nonce, middle⟩, gotten, accessed⟩ := Option.bind_eq_some_iff.mp accessed
    cases accessed
    exact mild_getNonce gotten
  · obtain ⟨⟨addr, rest⟩, -, accessed⟩ := Option.bind_eq_some_iff.mp accessed
    obtain ⟨⟨code, middle⟩, gotten, accessed⟩ := Option.bind_eq_some_iff.mp accessed
    obtain ⟨copied, -, accessed⟩ := Option.bind_eq_some_iff.mp accessed
    cases accessed
    exact mild_getCode gotten
  · obtain ⟨⟨loc, rest⟩, -, accessed⟩ := Option.bind_eq_some_iff.mp accessed
    obtain ⟨⟨val, middle⟩, gotten, accessed⟩ := Option.bind_eq_some_iff.mp accessed
    cases accessed
    exact mild_getStorage gotten
  · obtain ⟨⟨val, loc, rest⟩, -, accessed⟩ := Option.bind_eq_some_iff.mp accessed
    cases accessed
    exact .setStorage .refl _ _ _
  · exact absurd accessed (by simp)

end World

/-! ### The cost of an instruction -/

theorem Locals.memoryCost_nonneg (l : Locals) (newMemSize : Int) :
    0 ≤ (l.memoryCost newMemSize).1 := by
  unfold memoryCost
  split
  · dsimp only
    split
    · apply Int.ediv_nonneg
      · omega
      · decide
    · exact le_rfl
  · exact le_rfl

variable {op : OpCode} {l : Locals}

theorem Locals.cost_call {gas newMemSize : Int} (isCall : op = .call ∨ op = .callstateless)
    (costs : l.cost op = some (gas, newMemSize)) :
    ∃ offer, l.stack.head? = some offer ∧ gas = 20 + max 0 offer := by
  simp only [List.head?_eq_getElem?]
  rcases isCall with rfl | rfl
  all_goals
    obtain ⟨offer, offerEq, costs⟩ := Option.bind_eq_some_iff.mp costs
    obtain ⟨inOffset, -, costs⟩ := Option.bind_eq_some_iff.mp costs
    obtain ⟨inSize, -, costs⟩ := Option.bind_eq_some_iff.mp costs
    obtain ⟨retOffset, -, costs⟩ := Option.bind_eq_some_iff.mp costs
    obtain ⟨retSize, -, costs⟩ := Option.bind_eq_some_iff.mp costs
    exact ⟨offer, offerEq, (congrArg Prod.fst (Option.some.inj costs)).symm⟩

theorem Locals.cost_pos {gas newMemSize : Int} (costs : l.cost op = some (gas, newMemSize)) :
    1 ≤ gas ∨ gas = 0 ∧ (op = .stop ∨ op = .suicide) := by
  by_cases isCall : op = .call ∨ op = .callstateless
  · obtain ⟨offer, -, gasEq⟩ := cost_call isCall costs
    exact .inl (by omega)
  · unfold cost at costs
    split at costs
    all_goals first
      | exact absurd (.inl rfl) isCall
      | exact absurd (.inr rfl) isCall
      | simp [Option.bind_eq_some_iff] at costs
        grind

namespace World

variable {env : Env} {db : Database} {w after : World} {closure : Closure} {l : Locals}
variable {op : OpCode} {gas newMemSize : Int}

theorem cost_pos (costs : w.cost env db closure l op = some (gas, newMemSize, after)) :
    1 ≤ gas ∨ gas = 0 ∧ (op = .stop ∨ op = .suicide ∨ op = .sstore) := by
  rcases cost_cases costs with ⟨isStore, nonneg, -⟩ | ⟨costEq, -⟩
  · by_cases zero : gas = 0
    · exact .inr ⟨zero, .inr (.inr isStore)⟩
    · exact .inl (by omega)
  · refine (Locals.cost_pos costEq).imp_right fun free => ⟨free.1, ?_⟩
    exact free.2.imp_right .inl

theorem cost_nonneg (costs : w.cost env db closure l op = some (gas, newMemSize, after)) :
    0 ≤ gas := by
  rcases cost_pos costs with positive | ⟨zero, -⟩
  · omega
  · omega

end World

namespace Locals

variable {stack rest : List Int} {top second : Int}

theorem pop_eq_some (popped : Stack.pop stack = some (top, rest)) : stack = top :: rest := by
  cases stack with
  | nil => cases popped
  | cons first below =>
      cases popped
      rfl

theorem popn_eq_some (popped : Stack.popn stack = some (second, top, rest)) :
    stack = top :: second :: rest := by
  cases stack with
  | nil => cases popped
  | cons first below =>
      cases below with
      | nil => cases popped
      | cons next below =>
          obtain ⟨rfl, both⟩ := Prod.mk.inj (Option.some.inj popped)
          cases both
          rfl

end Locals

/-! ### The acts of the machine -/

/-- The locals with which a closure goes on. -/
def Outcome.Goes : Outcome → Locals → Prop
  | .next l, locals => locals = { l with pc := l.pc + 1 }
  | .jump l, locals => locals = l
  | .halt _, _ => False

/-- The memory and the top of the stack of a closure that is resumed. -/
inductive Waiting.Receives (caller : Waiting) (result : Result) : Int → Bytes → Prop
  | failed (isFailed : result.ok = false) : Receives caller result 0 caller.locals.mem
  | created (addr : Bytes) (pending : caller.pending = .create addr) :
      Receives caller result (bigD addr) caller.locals.mem
  | called (retOffset retSize : Int) (mem : Bytes)
      (pending : caller.pending = .call retOffset retSize)
      (set : Memory.set caller.locals.mem (int64 retOffset) (int64 retSize) result.ret = some mem) :
      Receives caller result 1 mem

/-- The object on whose behalf the machine acts. -/
def Control.object : Control → Option Ref
  | .running closure _ => some closure.object
  | .executing _ caller => some caller
  | _ => none

namespace Machine

/-- The instruction in front of the closure that runs. -/
def instruction (m : Machine) : Option OpCode :=
  match m.control with
  | .running closure l => opAt closure.code l.pc
  | _ => none

/-- The object creates a contract now. -/
def Creating (m : Machine) (ref : Ref) : Prop :=
  m.instruction = some .create ∧ m.control.object = some ref

/-- What a message does to the state before its code runs. -/
def transferred (w : World) (caller object : Ref) (value : Int) : World :=
  (w.modify caller (.subAmount value)).modify object (.addAmount value)

/-- What `SUICIDE` does to the state, once the receiver is loaded. -/
def bequeathed (w : World) (object receiver : Ref) : World :=
  (w.modify receiver (.addAmount (w.heap object).balance)).modify object .markForDeletion

variable {env : Env} {db : Database} {m after : Machine}

/-- The machine is at rest, or searches for an address without end. -/
def idle (m : Machine) : Bool :=
  match m.control with
  | .panicking | .searching => true
  | .returning _ => m.waiting.isEmpty
  | _ => false

theorem idle_cases (idle : m.idle) :
    m.control = .panicking ∨ m.control = .searching ∨
      ∃ result, m.control = .returning result ∧ m.waiting = [] := by
  unfold Machine.idle at idle
  split at idle
  · exact .inl ‹_›
  · exact .inr (.inl ‹_›)
  · exact .inr (.inr ⟨_, ‹_›, List.isEmpty_iff.mp idle⟩)
  · cases idle

/-- What a closure that had `gas` may leave with. -/
def Pays (gas left : Int) : Prop := min 0 gas ≤ left ∧ left ≤ max 0 gas

/-- The closure has paid for its instruction, and its memory has been extended. -/
structure Paid (env : Env) (db : Database) (m : Machine) where
  caller : Closure
  l : Locals
  op : OpCode
  cost : Int
  newMemSize : Int
  world : World
  mem : Bytes
  running : m.control = .running caller l
  found : opAt caller.code l.pc = some op
  costs : m.world.cost env db caller l op = some (cost, newMemSize, world)
  covered : cost + (l.memoryCost newMemSize).1 ≤ caller.gas
  resized : Memory.resize l.mem (uint64 (l.memoryCost newMemSize).2) = some mem

namespace Paid

variable (paid : Paid env db m)

/-- The gas that is taken for the instruction. -/
def gas : Int := paid.cost + (paid.l.memoryCost paid.newMemSize).1

def closure : Closure := { paid.caller with gas := paid.caller.gas - paid.gas }

def locals : Locals := { paid.l with mem := paid.mem }

/-- The instruction ends with the outcome. -/
inductive Performs (outcome : Outcome) : Prop
  | exec (self caller : Bytes) (callStack : List Bytes)
      (executed : paid.locals.exec env paid.closure self caller callStack paid.op = some outcome)
  | access (w : World)
      (accessed : paid.world.access db paid.closure paid.locals paid.op = some (outcome, w))
  | post (msg : Message) (rest : Locals) (isPost : paid.op = .post)
      (operands : messageOperands paid.closure paid.locals = some (msg, rest))
      (outcomeEq : outcome = .next rest)

/-- The instruction sends the message, and `caller` waits for it. -/
inductive Sends (msg : Message) (caller : Waiting) : Prop
  | call (isCall : paid.op = .call ∨ paid.op = .callstateless) (retOffset retSize : Int)
      (operands : callOperands paid.closure paid.locals =
        some (msg, retOffset, retSize, caller.locals))
      (pending : caller.pending = .call retOffset retSize) (closure : caller.closure = paid.closure)
  | create (isCreate : paid.op = .create) (addr input : Bytes) (value : Int)
      (operands : createOperands paid.locals = some (value, input, caller.locals))
      (message : msg = ⟨addr, input, paid.closure.gas, paid.closure.price, value⟩)
      (pending : caller.pending = .create addr)
      (closure : caller.closure = { paid.closure with gas := 0 })

end Paid

/-- The value of the message has been transferred to the object it is for, whose code is
loaded. -/
structure Delivers (env : Env) (db : Database) (m : Machine) (msg : Message) (caller object : Ref)
    (w : World) : Prop where
  covered : msg.value ≤ (m.world.heap caller).balance
  ordinary : env.precompiled (bigBytes (bigD msg.address)) = none
  found : ∃ loaded, m.world.getOrNewStateObject db msg.address = some (object, loaded) ∧
    World.Mild db m.Creating (transferred loaded caller object msg.value) w

/-- Everything a step can do, with the machine it leads to. -/
inductive Act (env : Env) (db : Database) (m : Machine) : Machine → Prop
  | rest (idle : m.idle) : Act env db m m
  | leave {closure : Closure} {l : Locals} {w : World} {ok : Bool} (left : Closure)
      (running : m.control = .running closure l) (mild : World.Mild db m.Creating m.world w)
      (object : left.object = closure.object) (gas : Pays closure.gas left.gas)
      (success : ok → 0 ≤ left.gas) (ret : Bytes) :
      Act env db m (leave { m with world := w } left ret ok)
  | bequeath (paid : Paid env db m) {addr : Int} {rest : List Int} {receiver : Ref} {loaded : World}
      (isSuicide : paid.op = .suicide) (stack : paid.l.stack = addr :: rest)
      (found : m.world.getOrNewStateObject db (bigBytes addr) = some (receiver, loaded)) :
      Act env db m (leave { m with world := bequeathed loaded paid.caller.object receiver }
        paid.closure [] true)
  | go (paid : Paid env db m) {w : World} {queue : List Message} {outcome : Outcome}
      {locals : Locals}
      (mild : World.Mild db m.Creating m.world w)
      (posts : queue = m.queue ∨ paid.op = .post ∧ ∃ msg : Message,
        paid.l.stack.head? = some msg.gas ∧ queue = m.queue ++ [msg])
      (performs : paid.Performs outcome) (goes : outcome.Goes locals) :
      Act env db m { m with world := w, queue := queue, control := .running paid.closure locals }
  | send (paid : Paid env db m) {msg : Message} {caller : Waiting} {copied w : World}
      (loaded : World.Mild db m.Creating m.world copied) (mild : World.Mild db m.Creating copied w)
      (sends : paid.Sends msg caller) (snapshot : caller.snapshot = copied.copy)
      (queue : caller.queue = m.queue) :
      Act env db m { m with world := w, queue := [], waiting := caller :: m.waiting,
                            control := .executing msg paid.caller.object }
  | search (paid : Paid env db m) {ref : Ref} {w : World} (isCreate : paid.op = .create)
      (taken : m.world.getStateObject db (createAddress env.sha3Bin
        (m.world.heap paid.caller.object).address (m.world.heap paid.caller.object).nonce) =
          some (some ref, w)) : Act env db m { m with world := w, control := .searching }
  | answer {msg : Message} {caller : Ref} {result : Result}
      (executing : m.control = .executing msg caller)
      (gas : result.gas = msg.gas ∨ result.gas = 0) :
      Act env db m { m with control := .returning result }
  | run {msg : Message} {caller object : Ref} {w : World}
      (executing : m.control = .executing msg caller)
      (delivers : Delivers env db m msg caller object w) (code : Bytes) :
      Act env db m (enter { m with world := w }
        ⟨caller, object, code, msg.input, msg.gas, msg.price⟩)
  | panic {msg : Message} {caller : Ref} {w : World} (executing : m.control = .executing msg caller)
      (outermost : m.waiting = [])
      (world : w = m.world ∨ ∃ object, Delivers env db m msg caller object w) :
      Act env db m { m with world := w, control := .panicking }
  | raise {msg : Message} {caller : Ref} {sender : Waiting} {waiting : List Waiting} {w : World}
      (executing : m.control = .executing msg caller) (waitingEq : m.waiting = sender :: waiting)
      (world : w = m.world ∨ ∃ object, Delivers env db m msg caller object w) :
      Act env db m (leave
        { m with world := w, queue := sender.queue ++ m.queue, waiting := waiting }
        sender.closure [] false)
  | resume {result : Result} {caller : Waiting} {waiting : List Waiting} {top : Int} {mem : Bytes}
      {w : World} (returning : m.control = .returning result)
      (waitingEq : m.waiting = caller :: waiting)
      (mild : World.Mild db m.Creating m.world w) (receives : caller.Receives result top mem) :
      Act env db m { m with
        world := w, queue := caller.queue ++ m.queue, waiting := waiting,
        control := .running { caller.closure with gas := caller.closure.gas + result.gas }
          ⟨caller.locals.pc + 1, top :: caller.locals.stack, mem⟩ }
  | fail {result : Result} {caller : Waiting} {waiting : List Waiting}
      (returning : m.control = .returning result) (waitingEq : m.waiting = caller :: waiting) :
      Act env db m (leave { m with queue := caller.queue ++ m.queue, waiting := waiting }
        { caller.closure with gas := caller.closure.gas + result.gas } [] false)
  | revert {result : Result} {caller : Waiting} {waiting : List Waiting}
      (returning : m.control = .returning result) (waitingEq : m.waiting = caller :: waiting)
      (failed : result.ok = false) :
      Act env db m { m with
        queue := caller.queue, waiting := waiting, world := m.world.set caller.snapshot,
        control := .running { caller.closure with gas := caller.closure.gas + result.gas }
          ⟨caller.locals.pc + 1, 0 :: caller.locals.stack, caller.locals.mem⟩ }

variable {closure : Closure} {l : Locals} {msg : Message}

theorem messageOperands_cases {rest : Locals}
    (operands : messageOperands closure l = some (msg, rest)) :
    ∃ addr inOff inSize below,
      l.stack = msg.gas :: addr :: msg.value :: inOff :: inSize :: below ∧
      rest = { l with stack := below } := by
  obtain ⟨⟨gas, first⟩, popped, operands⟩ := Option.bind_eq_some_iff.mp operands
  obtain ⟨⟨value, addr, second⟩, secondEq, operands⟩ := Option.bind_eq_some_iff.mp operands
  obtain ⟨⟨inSize, inOff, below⟩, thirdEq, operands⟩ := Option.bind_eq_some_iff.mp operands
  obtain ⟨args, -, operands⟩ := Option.bind_eq_some_iff.mp operands
  cases operands
  refine ⟨addr, inOff, inSize, below, ?_, rfl⟩
  rw [Locals.pop_eq_some popped, Locals.popn_eq_some secondEq, Locals.popn_eq_some thirdEq]

/-- The last two operands of a call are the region of its return value. -/
theorem callOperands_cases {retOffset retSize : Int} {rest : Locals}
    (operands : callOperands closure l = some (msg, retOffset, retSize, rest)) :
    ∃ addr inOff inSize below,
      l.stack = msg.gas :: addr :: msg.value :: inOff :: inSize :: retOffset :: retSize :: below ∧
      rest = { l with stack := below } := by
  obtain ⟨⟨sent, middle⟩, message, operands⟩ := Option.bind_eq_some_iff.mp operands
  obtain ⟨⟨size, offset, below⟩, last, operands⟩ := Option.bind_eq_some_iff.mp operands
  cases operands
  obtain ⟨addr, inOff, inSize, stack, stackEq, rfl⟩ := messageOperands_cases message
  exact ⟨addr, inOff, inSize, below, Locals.popn_eq_some last ▸ stackEq, rfl⟩

theorem Paid.Sends.object {paid : Paid env db m} {caller : Waiting}
    (sends : paid.Sends msg caller) :
    caller.closure.object = paid.caller.object := by
  cases sends with
  | call isCall retOffset retSize operands pending closure =>
      rw [closure]
      rfl
  | create isCreate addr input value operands message pending closure =>
      rw [closure]
      rfl

section Instruction

variable (paid : Paid env db m)

theorem Paid.gas_nonneg : 0 ≤ paid.closure.gas := by
  have covered := paid.covered
  change 0 ≤ paid.caller.gas - (paid.cost + (paid.l.memoryCost paid.newMemSize).1)
  omega

theorem Paid.gas_le : paid.closure.gas ≤ paid.caller.gas - paid.cost := by
  have memoryNonneg := paid.l.memoryCost_nonneg paid.newMemSize
  change paid.caller.gas - (paid.cost + (paid.l.memoryCost paid.newMemSize).1) ≤ _
  omega

theorem Paid.pays : Pays paid.caller.gas paid.closure.gas := by
  have nonneg := paid.gas_nonneg
  have least := paid.gas_le
  have costNonneg := World.cost_nonneg paid.costs
  constructor
  · omega
  · omega

theorem Paid.mild : World.Mild db m.Creating m.world paid.world := World.mild_cost paid.costs

theorem Paid.object : m.control.object = some paid.caller.object := by
  rw [paid.running]
  rfl

theorem Paid.world_eq {op : OpCode} (isOp : paid.op = op) (other : op ≠ .sstore) :
    paid.world = m.world :=
  (World.cost_of_ne_sstore (isOp ▸ other) paid.costs).2

theorem Paid.cost_of_isCall (isCall : paid.op = .call ∨ paid.op = .callstateless) :
    paid.l.cost paid.op = some (paid.cost, paid.newMemSize) := by
  refine (World.cost_of_ne_sstore ?_ paid.costs).1
  rcases isCall with isCall | isCall
  · simp [isCall]
  · simp [isCall]

/-- A call pays for the gas that it offers. -/
theorem Paid.cost_call (isCall : paid.op = .call ∨ paid.op = .callstateless)
    {retOffset retSize : Int} {rest : Locals}
    (operands : callOperands paid.closure paid.locals = some (msg, retOffset, retSize, rest)) :
    paid.l.stack.head? = some msg.gas ∧ paid.cost = 20 + max 0 msg.gas := by
  obtain ⟨offer, top, costEq⟩ := Locals.cost_call isCall (paid.cost_of_isCall isCall)
  obtain ⟨_, _, _, _, stack, -⟩ := callOperands_cases operands
  have offered : paid.l.stack.head? = some msg.gas := congrArg List.head? stack
  cases top.symm.trans offered
  exact ⟨top, costEq⟩

theorem Paid.leave {w : World} (mild : World.Mild db m.Creating m.world w) (ret : Bytes)
    (ok : Bool) :
    Act env db m (Machine.leave { m with world := w } paid.closure ret ok) :=
  .leave paid.closure paid.running mild rfl paid.pays (fun _ => paid.gas_nonneg) ret

theorem Paid.settle {w : World} (mild : World.Mild db m.Creating m.world w) {outcome : Outcome}
    (performs : paid.Performs outcome) :
    Act env db m (Machine.settle { m with world := w } paid.closure outcome) := by
  cases outcome with
  | next l => exact .go paid mild (.inl rfl) performs rfl
  | jump l => exact .go paid mild (.inl rfl) performs rfl
  | halt ret => exact paid.leave mild ret true

theorem act_create (isCreate : paid.op = .create) {value : Int} {input : Bytes} {rest : Locals}
    (operands : createOperands paid.locals = some (value, input, rest)) :
    Act env db m (create env db { m with world := paid.world } paid.closure rest value input) := by
  have creating : m.Creating paid.caller.object := by
    refine ⟨?_, paid.object⟩
    rw [instruction, paid.running, ← isCreate]
    exact paid.found
  have spent : Pays paid.caller.gas 0 := ⟨min_le_left _ _, le_max_left _ _⟩
  rw [paid.world_eq isCreate (by decide)]
  unfold create
  dsimp only
  split
  · exact paid.leave .refl _ _
  · rename_i ref loaded found
    exact .search paid isCreate found
  · rename_i loaded found
    have counted : World.Mild db m.Creating m.world
        (loaded.modify paid.closure.object .incrementNonce) :=
      .incrementNonce (.load .refl found) creating
    split
    · exact .leave { paid.closure with gas := 0 } paid.running counted rfl spent
        (fun _ => le_rfl) []
    · rename_i object created createdEq
      exact .send paid .refl (.setCode (.create counted createdEq) object input)
        (.create isCreate _ input value operands rfl rfl rfl) rfl rfl

theorem act_perform :
    Act env db m (perform env db { m with world := paid.world }
      paid.closure paid.locals paid.op) := by
  have leaves := paid.leave paid.mild [] false
  have sends : ∀ {msg : Message} {retOffset retSize : Int} {rest : Locals},
      paid.op = .call ∨ paid.op = .callstateless →
      callOperands paid.closure paid.locals = some (msg, retOffset, retSize, rest) →
      Act env db m (send { m with world := paid.world } paid.closure rest (.call retOffset retSize)
        paid.world.copy msg) := by
    intro msg retOffset retSize rest isCall operands
    exact .send paid paid.mild .refl (.call isCall retOffset retSize operands rfl rfl) rfl rfl
  unfold perform
  split
  case h_1 isCreate =>
    split
    · exact leaves
    · exact act_create paid isCreate ‹_›
  case h_2 isCall =>
    split
    · exact leaves
    · exact sends (.inl isCall) ‹_›
  case h_3 isCall =>
    split
    · exact leaves
    · exact sends (.inr isCall) ‹_›
  case h_4 isPost =>
    split
    · exact leaves
    · rename_i msg rest operands
      obtain ⟨_, _, _, _, stack, -⟩ := messageOperands_cases operands
      have offered : paid.l.stack.head? = some msg.gas := congrArg List.head? stack
      exact .go paid paid.mild (.inr ⟨isPost, msg, offered, rfl⟩)
        (.post msg rest isPost operands rfl) rfl
  case h_5 isSuicide =>
    split
    · exact leaves
    · rename_i addr rest popped
      unfold suicide
      split
      · exact leaves
      · rename_i receiver loaded found
        rw [paid.world_eq isSuicide (by decide)] at found
        exact .bequeath paid isSuicide (Locals.pop_eq_some popped) found
  case h_11 =>
    split
    · exact leaves
    · rename_i outcome executed
      exact paid.settle paid.mild (.exec _ _ _ executed)
  all_goals
    split
    · exact leaves
    · rename_i outcome w accessed
      exact paid.settle (paid.mild.trans (World.mild_access accessed)) (.access w accessed)

end Instruction

theorem act_instruct (running : m.control = .running closure l) :
    Act env db m (m.instruct env db closure l) := by
  have unpaid : Act env db m (m.leave closure [] false) :=
    .leave closure running .refl rfl ⟨min_le_right _ _, le_max_right _ _⟩ (fun ok => by cases ok) []
  unfold instruct
  split
  · exact unpaid
  · rename_i op found
    split
    · exact unpaid
    · rename_i cost newMemSize w costs
      have costNonneg := World.cost_nonneg costs
      have memoryNonneg := l.memoryCost_nonneg newMemSize
      dsimp only
      split
      · exact .leave { closure with gas := 0 } running (World.mild_cost costs) rfl
          ⟨min_le_left _ _, le_max_left _ _⟩ (fun ok => by cases ok) []
      · rename_i covered
        split
        · refine .leave { closure with gas := closure.gas - (cost + (l.memoryCost newMemSize).1) }
            running (World.mild_cost costs) rfl ?_ (fun ok => by cases ok) []
          constructor
          · dsimp only
            omega
          · dsimp only
            omega
        · rename_i mem resized
          exact act_perform ⟨closure, l, op, cost, newMemSize, w, mem, running, found, costs,
            not_lt.mp covered, resized⟩

theorem act_exec {caller : Ref} (executing : m.control = .executing msg caller) :
    Act env db m (m.exec env db msg caller) := by
  have raises : ∀ {w : World}, (w = m.world ∨ ∃ object, Delivers env db m msg caller object w) →
      Act env db m (raise { m with world := w }) := by
    intro w world
    unfold raise
    split
    · exact .panic executing ‹_› world
    · exact .raise executing ‹_› world
  unfold exec
  split
  · exact .answer executing (.inl rfl)
  · rename_i covered
    split
    · exact .answer executing (.inr rfl)
    · rename_i ordinary
      split
      · exact raises (.inl rfl)
      · rename_i object loaded found
        dsimp only
        split
        · exact raises (.inr ⟨object, not_lt.mp covered, ordinary, loaded, found, .refl⟩)
        · rename_i code w coded
          exact .run executing
            ⟨not_lt.mp covered, ordinary, loaded, found, World.mild_getCode coded⟩ code

theorem act_resume {caller : Waiting} {waiting : List Waiting} {result : Result}
    (returning : m.control = .returning result) (waitingEq : m.waiting = caller :: waiting) :
    Act env db m (m.resume caller waiting result) := by
  unfold resume
  dsimp only
  split
  · split
    · rename_i addr pending
      split
      · exact .fail returning waitingEq
      · exact .resume returning waitingEq (.setCode .refl _ _) (.created addr pending)
    · rename_i retOffset retSize pending
      split
      · exact .fail returning waitingEq
      · exact .resume returning waitingEq .refl (.called retOffset retSize _ pending ‹_›)
  · rename_i failed
    exact .revert returning waitingEq (Bool.eq_false_iff.mpr failed)

theorem act_step (env : Env) (db : Database) (m : Machine) : Act env db m (m.step env db) := by
  unfold step
  split
  · exact act_instruct ‹_›
  · exact act_exec ‹_›
  · rename_i result returning
    split
    · exact .rest (by simp [idle, *])
    · exact act_resume returning ‹_›
  · exact .rest (by simp [idle, *])
  · exact .rest (by simp [idle, *])

/-! ### The deeds of the machine -/

/-- Everything a step can do to the state and to the waiting closures. -/
inductive Deed (env : Env) (db : Database) (m after : Machine) : Prop
  | mild (world : World.Mild db m.Creating m.world after.world)
      (waiting : after.waiting <:+ m.waiting)
      (acting : ∀ ref, after.control.object = some ref →
        m.control.object = some ref ∨ ∃ caller ∈ m.waiting, caller.closure.object = ref)
  | send (caller : Waiting) (msg : Message) (copied : World)
      (loaded : World.Mild db m.Creating m.world copied)
      (world : World.Mild db m.Creating copied after.world)
      (running : m.control.object = some caller.closure.object)
      (control : after.control = .executing msg caller.closure.object)
      (waiting : after.waiting = caller :: m.waiting) (snapshot : caller.snapshot = copied.copy)
  | transfer (msg : Message) (caller object : Ref) (loaded : World)
      (executing : m.control = .executing msg caller)
      (covered : msg.value ≤ (m.world.heap caller).balance)
      (ordinary : env.precompiled (bigBytes (bigD msg.address)) = none)
      (found : m.world.getOrNewStateObject db msg.address = some (object, loaded))
      (world : World.Mild db m.Creating (transferred loaded caller object msg.value) after.world)
      (waiting : after.waiting <:+ m.waiting)
      (acting : ∀ ref, after.control.object = some ref → ref = object)
  | bequeath (closure : Closure) (l : Locals) (addr : Int) (rest : List Int) (receiver : Ref)
      (loaded : World) (running : m.control = .running closure l)
      (suicide : opAt closure.code l.pc = some .suicide) (stack : l.stack = addr :: rest)
      (found : m.world.getOrNewStateObject db (bigBytes addr) = some (receiver, loaded))
      (world : after.world = bequeathed loaded closure.object receiver)
      (waiting : after.waiting = m.waiting) (acting : after.control.object = none)
  | revert (result : Result) (caller : Waiting) (returning : m.control = .returning result)
      (failed : result.ok = false) (waiting : m.waiting = caller :: after.waiting)
      (world : after.world = m.world.set caller.snapshot)
      (running : after.control.object = some caller.closure.object)

/-- `after` has the state of `base` and no further waiting closures, and acts for
`object` if for any. -/
structure Proceeds (base after : Machine) (object : Ref) : Prop where
  world : after.world = base.world
  waiting : after.waiting <:+ base.waiting
  object {ref : Ref} : after.control.object = some ref → ref = object

theorem proceeds_enter (m : Machine) (closure : Closure) :
    Proceeds m (m.enter closure) closure.object := by
  unfold enter
  split
  · exact ⟨rfl, List.suffix_rfl, fun acting => absurd acting (by simp [Control.object])⟩
  · refine ⟨rfl, List.suffix_rfl, fun acting => ?_⟩
    simpa [Control.object, eq_comm] using acting

theorem Act.deed (act : Act env db m after) : Deed env db m after := by
  have silent : ∀ {after : Machine}, World.Mild db m.Creating m.world after.world →
      after.waiting <:+ m.waiting → after.control.object = none → Deed env db m after := by
    intro after world waiting none
    exact .mild world waiting fun ref acting => absurd (none.symm.trans acting) (by simp)
  have delivered : ∀ {msg : Message} {caller object : Ref} {w : World} {after : Machine},
      m.control = .executing msg caller → Delivers env db m msg caller object w → after.world = w →
      after.waiting <:+ m.waiting → (∀ ref, after.control.object = some ref → ref = object) →
      Deed env db m after := by
    rintro msg caller object w after executing ⟨covered, ordinary, loaded, found, mild⟩ rfl waiting
      acting
    exact .transfer msg caller object loaded executing covered ordinary found mild waiting acting
  cases act with
  | rest idle => exact .mild .refl List.suffix_rfl fun ref acting => .inl acting
  | leave left running mild object gas success ret => exact silent mild List.suffix_rfl rfl
  | bequeath paid isSuicide stack found =>
      exact .bequeath paid.caller paid.l _ _ _ _ paid.running (isSuicide ▸ paid.found)
        stack found rfl
        rfl rfl
  | go paid mild posts performs goes =>
      refine .mild mild List.suffix_rfl fun ref acting => .inl ?_
      rw [paid.object]
      exact acting
  | @send paid msg caller copied w loaded mild sends snapshot queue =>
      refine .send caller msg copied loaded mild ?_ ?_ rfl snapshot
      · rw [sends.object, paid.object]
      · rw [sends.object]
  | search paid isCreate taken => exact silent (.load .refl taken) List.suffix_rfl rfl
  | answer executing gas => exact silent .refl List.suffix_rfl rfl
  | @run msg caller object w executing delivers code =>
      have enters := proceeds_enter { m with world := w }
        ⟨caller, object, code, msg.input, msg.gas, msg.price⟩
      exact delivered executing delivers enters.world enters.waiting fun ref => enters.object
  | panic executing outermost world =>
      rcases world with rfl | ⟨object, delivers⟩
      · exact silent .refl List.suffix_rfl rfl
      · exact delivered executing delivers rfl List.suffix_rfl (by simp [Control.object])
  | raise executing waitingEq world =>
      have suffix := waitingEq ▸ List.suffix_cons _ _
      rcases world with rfl | ⟨object, delivers⟩
      · exact silent .refl suffix rfl
      · exact delivered executing delivers rfl suffix (by simp [Machine.leave, Control.object])
  | resume returning waitingEq mild receives =>
      refine .mild mild (waitingEq ▸ List.suffix_cons _ _) fun ref acting => .inr ?_
      exact ⟨_, waitingEq ▸ List.mem_cons_self, Option.some.inj acting⟩
  | fail returning waitingEq => exact silent .refl (waitingEq ▸ List.suffix_cons _ _) rfl
  | revert returning waitingEq failed =>
      exact .revert _ _ returning failed waitingEq rfl rfl

theorem deed_step (env : Env) (db : Database) (m : Machine) : Deed env db m (m.step env db) :=
  (act_step env db m).deed

end Machine

end Thelonious
