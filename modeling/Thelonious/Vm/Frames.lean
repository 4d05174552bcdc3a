import Thelonious.Vm.Deeds

/-!
# The frames of the machine

What one step does to the closure that runs and to the closures that wait, with all
that is read for it: the gas and the memory that are paid before the instruction, its
operands, and what comes back from a message.
-/

namespace Thelonious

/-- The number of bytes that belong to an instruction besides its code. -/
def OpCode.width : OpCode → Nat
  | .push width => width
  | _ => 0

/-- The instructions whose outcome may have another memory. -/
def OpCode.Writes (op : OpCode) : Prop :=
  op ∈ [.calldatacopy, .codecopy, .extcodecopy, .mstore, .mstore8, .rlpdecode, .rlpencode]

/-- What an instruction may do to the local variables. -/
inductive Locals.Does (l : Locals) (op : OpCode) : Outcome → Prop
  | compute (stack : List Int) (width : op.width = 0) : Does l op (.next { l with stack := stack })
  | push (width : Nat) (stack : List Int) (isPush : op = .push width) :
      Does l op (.next { l with pc := l.pc + width, stack := stack })
  | write (stack : List Int) (mem : Bytes) (writes : op.Writes) (width : op.width = 0) :
      Does l op (.next { l with stack := stack, mem := mem })
  | jump (pos : Int) (stack : List Int) (isJump : op = .jump ∨ op = .jumpi) :
      Does l op (.jump { l with pc := pos, stack := stack })
  | halt (ret : Bytes) : Does l op (.halt ret)

/-! ### Local variables -/

namespace Locals

variable {l : Locals} {op : OpCode} {outcome : Outcome}

theorem does_of_push (width : op.width = 0) {value : Int} (executed : l.push value = some outcome) :
    l.Does op outcome := by
  cases executed
  exact .compute _ width

theorem does_of_unary (width : op.width = 0) {f : Int → Int} (executed : l.unary f = some outcome) :
    l.Does op outcome := by
  obtain ⟨⟨x, rest⟩, -, executed⟩ := Option.bind_eq_some_iff.mp executed
  cases executed
  exact .compute _ width

theorem does_of_binary (width : op.width = 0) {f : Int → Int → Option Int}
    (executed : l.binary f = some outcome) : l.Does op outcome := by
  obtain ⟨⟨x, y, rest⟩, -, executed⟩ := Option.bind_eq_some_iff.mp executed
  obtain ⟨result, -, executed⟩ := Option.bind_eq_some_iff.mp executed
  cases executed
  exact .compute _ width

theorem does_of_ternary (width : op.width = 0) {f : Int → Int → Int → Option Int}
    (executed : l.ternary f = some outcome) : l.Does op outcome := by
  obtain ⟨⟨x, rest⟩, -, executed⟩ := Option.bind_eq_some_iff.mp executed
  obtain ⟨⟨y, rest⟩, -, executed⟩ := Option.bind_eq_some_iff.mp executed
  obtain ⟨⟨z, rest⟩, -, executed⟩ := Option.bind_eq_some_iff.mp executed
  obtain ⟨result, -, executed⟩ := Option.bind_eq_some_iff.mp executed
  cases executed
  exact .compute _ width

theorem does_of_callDataLoad (width : op.width = 0) {args : Bytes}
    (executed : l.callDataLoad args = some outcome) : l.Does op outcome := by
  obtain ⟨⟨offset, rest⟩, -, executed⟩ := Option.bind_eq_some_iff.mp executed
  dsimp only at executed
  split at executed
  · split at executed
    · cases executed
      exact .compute _ width
    · cases executed
  · cases executed
    exact .compute _ width

/-- The part of a source of this size that is copied: where it starts, and its length. -/
def clip (size cOff len : Int) : Int × Int :=
  if size < int64 cOff then (0, 0)
  else if size < int64 (int64 cOff + int64 len) then (int64 cOff, 0)
  else (int64 cOff, int64 len)

variable {stack : List Int}

theorem copyFrom_cases {source : Bytes} (executed : l.copyFrom source = some outcome) :
    ∃ mOff cOff len rest mem, l.stack = mOff :: cOff :: len :: rest ∧
      (0 ≤ (clip source.length cOff len).1 ∧
        (clip source.length cOff len).1 ≤
          int64 ((clip source.length cOff len).1 + (clip source.length cOff len).2)) ∧
      Memory.set l.mem (int64 mOff) (clip source.length cOff len).2
        ((source.take (int64 ((clip source.length cOff len).1 +
          (clip source.length cOff len).2)).toNat).drop (clip source.length cOff len).1.toNat) =
          some mem ∧
      outcome = .next { l with stack := rest, mem := mem } := by
  obtain ⟨⟨mOff, first⟩, firstEq, executed⟩ := Option.bind_eq_some_iff.mp executed
  obtain ⟨⟨cOff, second⟩, secondEq, executed⟩ := Option.bind_eq_some_iff.mp executed
  obtain ⟨⟨len, rest⟩, restEq, executed⟩ := Option.bind_eq_some_iff.mp executed
  have stack : l.stack = mOff :: cOff :: len :: rest := by
    rw [pop_eq_some firstEq, pop_eq_some secondEq, pop_eq_some restEq]
  change (if 0 ≤ (clip source.length cOff len).1 ∧ (clip source.length cOff len).1 ≤
    int64 ((clip source.length cOff len).1 + (clip source.length cOff len).2) then _ else none) =
      some outcome at executed
  split at executed
  · rename_i bounds
    obtain ⟨mem, set, executed⟩ := Option.bind_eq_some_iff.mp executed
    exact ⟨mOff, cOff, len, rest, mem, stack, bounds, set, (Option.some.inj executed).symm⟩
  · cases executed

theorem does_of_copyFrom (writes : op.Writes) (width : op.width = 0) {source : Bytes}
    (executed : ({ l with stack := stack } : Locals).copyFrom source = some outcome) :
    l.Does op outcome := by
  obtain ⟨mOff, cOff, len, rest, mem, -, -, -, rfl⟩ := copyFrom_cases executed
  exact .write _ _ writes width

theorem does_of_rlpDecode (executed : l.rlpDecode = some outcome) : l.Does .rlpdecode outcome := by
  obtain ⟨items, -, executed⟩ := Option.bind_eq_some_iff.mp executed
  obtain ⟨⟨size, offset, rest⟩, -, executed⟩ := Option.bind_eq_some_iff.mp executed
  obtain ⟨⟨pos, rest⟩, -, executed⟩ := Option.bind_eq_some_iff.mp executed
  obtain ⟨first, -, executed⟩ := Option.bind_eq_some_iff.mp executed
  obtain ⟨mem, -, executed⟩ := Option.bind_eq_some_iff.mp executed
  cases executed
  exact .write _ _ (by simp [OpCode.Writes]) rfl

theorem does_of_rlpEncode (executed : l.rlpEncode = some outcome) : l.Does .rlpencode outcome := by
  obtain ⟨⟨count, offset, rest⟩, -, executed⟩ := Option.bind_eq_some_iff.mp executed
  obtain ⟨⟨pos, rest⟩, -, executed⟩ := Option.bind_eq_some_iff.mp executed
  obtain ⟨items, -, executed⟩ := Option.bind_eq_some_iff.mp executed
  obtain ⟨mem, -, executed⟩ := Option.bind_eq_some_iff.mp executed
  cases executed
  exact .write _ _ (by simp [OpCode.Writes]) rfl

theorem does_of_exec {env : Env} {closure : Closure} {self caller : Bytes} {callStack : List Bytes}
    (executed : l.exec env closure self caller callStack op = some outcome) :
    l.Does op outcome := by
  cases op with
  | add | sub | mul | div | sdiv | mod | smod | exp | lt | slt | gt | sgt | eq | and | or | xor
  | byte =>
      rw [exec] at executed
      exact does_of_binary rfl executed
  | neg | not =>
      rw [exec] at executed
      exact does_of_unary rfl executed
  | addmod | mulmod =>
      rw [exec] at executed
      exact does_of_ternary rfl executed
  | address | origin | caller | callvalue | calldatasize | codesize | extcodesize | gasprice
  | callstacksize | prevhash | coinbase | timestamp | number | difficulty | gaslimit | gendoug
  | pc | msize | gas =>
      rw [exec] at executed
      exact does_of_push rfl executed
  | calldataload => exact does_of_callDataLoad rfl executed
  | calldatacopy | codecopy => exact does_of_copyFrom (by simp [OpCode.Writes]) rfl executed
  | rlpdecode => exact does_of_rlpDecode executed
  | rlpencode => exact does_of_rlpEncode executed
  | logstack | logmem =>
      cases executed
      exact .compute _ rfl
  | sha3 =>
      obtain ⟨⟨size, offset, rest⟩, -, executed⟩ := Option.bind_eq_some_iff.mp executed
      obtain ⟨data, -, executed⟩ := Option.bind_eq_some_iff.mp executed
      cases executed
      exact .compute _ rfl
  | callstack =>
      obtain ⟨⟨frame, rest⟩, -, executed⟩ := Option.bind_eq_some_iff.mp executed
      dsimp only at executed
      split at executed
      · cases executed
        exact .compute _ rfl
      · obtain ⟨addr, -, executed⟩ := Option.bind_eq_some_iff.mp executed
        cases executed
        exact .compute _ rfl
  | push width =>
      obtain ⟨data, -, executed⟩ := Option.bind_eq_some_iff.mp executed
      cases executed
      exact .push width _ rfl
  | pop =>
      obtain ⟨⟨top, rest⟩, -, executed⟩ := Option.bind_eq_some_iff.mp executed
      cases executed
      exact .compute _ rfl
  | dup depth =>
      obtain ⟨v, -, executed⟩ := Option.bind_eq_some_iff.mp executed
      obtain ⟨printed, -, executed⟩ := Option.bind_eq_some_iff.mp executed
      cases executed
      exact .compute _ rfl
  | swap depth =>
      obtain ⟨stack, -, executed⟩ := Option.bind_eq_some_iff.mp executed
      cases executed
      exact .compute _ rfl
  | mload =>
      obtain ⟨⟨offset, rest⟩, -, executed⟩ := Option.bind_eq_some_iff.mp executed
      obtain ⟨data, -, executed⟩ := Option.bind_eq_some_iff.mp executed
      cases executed
      exact .compute _ rfl
  | mstore =>
      obtain ⟨⟨val, mStart, rest⟩, -, executed⟩ := Option.bind_eq_some_iff.mp executed
      obtain ⟨mem, -, executed⟩ := Option.bind_eq_some_iff.mp executed
      cases executed
      exact .write _ _ (by simp [OpCode.Writes]) rfl
  | mstore8 =>
      obtain ⟨⟨off, rest⟩, -, executed⟩ := Option.bind_eq_some_iff.mp executed
      obtain ⟨⟨val, rest⟩, -, executed⟩ := Option.bind_eq_some_iff.mp executed
      dsimp only at executed
      split at executed
      · cases executed
        exact .write _ _ (by simp [OpCode.Writes]) rfl
      · cases executed
  | jump =>
      obtain ⟨⟨pos, rest⟩, -, executed⟩ := Option.bind_eq_some_iff.mp executed
      cases executed
      exact .jump _ _ (.inl rfl)
  | jumpi =>
      obtain ⟨⟨cond, pos, rest⟩, -, executed⟩ := Option.bind_eq_some_iff.mp executed
      dsimp only at executed
      split at executed
      · cases executed
        exact .jump _ _ (.inr rfl)
      · cases executed
        exact .compute _ rfl
  | «return» =>
      obtain ⟨⟨size, offset, rest⟩, -, executed⟩ := Option.bind_eq_some_iff.mp executed
      obtain ⟨ret, -, executed⟩ := Option.bind_eq_some_iff.mp executed
      cases executed
      exact .halt ret
  | stop =>
      cases executed
      exact .halt []
  | invalid | balance | nonce | extcodecopy | sload | sstore | create | call | callstateless | post
  | suicide => cases executed

end Locals

theorem World.does_of_access {db : Database} {w after : World} {closure : Closure} {l : Locals}
    {op : OpCode} {outcome : Outcome}
    (accessed : w.access db closure l op = some (outcome, after)) :
    l.Does op outcome := by
  unfold access at accessed
  split at accessed
  · obtain ⟨⟨addr, rest⟩, -, accessed⟩ := Option.bind_eq_some_iff.mp accessed
    obtain ⟨⟨balance, loaded⟩, -, accessed⟩ := Option.bind_eq_some_iff.mp accessed
    cases accessed
    exact .compute _ rfl
  · obtain ⟨⟨addr, rest⟩, -, accessed⟩ := Option.bind_eq_some_iff.mp accessed
    obtain ⟨⟨nonce, loaded⟩, -, accessed⟩ := Option.bind_eq_some_iff.mp accessed
    cases accessed
    exact .compute _ rfl
  · obtain ⟨⟨addr, rest⟩, -, accessed⟩ := Option.bind_eq_some_iff.mp accessed
    obtain ⟨⟨code, loaded⟩, -, accessed⟩ := Option.bind_eq_some_iff.mp accessed
    obtain ⟨copied, copiedEq, accessed⟩ := Option.bind_eq_some_iff.mp accessed
    cases accessed
    exact Locals.does_of_copyFrom (by simp [OpCode.Writes]) rfl copiedEq
  · obtain ⟨⟨loc, rest⟩, -, accessed⟩ := Option.bind_eq_some_iff.mp accessed
    obtain ⟨⟨val, loaded⟩, -, accessed⟩ := Option.bind_eq_some_iff.mp accessed
    cases accessed
    exact .compute _ rfl
  · obtain ⟨⟨val, loc, rest⟩, -, accessed⟩ := Option.bind_eq_some_iff.mp accessed
    cases accessed
    exact .compute _ rfl
  · cases accessed

/-- No closure runs, and no message is executed. -/
def Control.Ends : Control → Prop
  | .running _ _ | .executing _ _ => False
  | _ => True

theorem Control.Ends.ne_running {control : Control} (ends : control.Ends) (closure : Closure)
    (l : Locals) : control ≠ .running closure l := by
  rintro rfl
  exact ends

namespace Machine

variable {env : Env} {db : Database} {m after : Machine}

/-- What a step does to the frames. -/
inductive Move (env : Env) (db : Database) (m after : Machine) : Prop
  | stop (ends : after.control.Ends) (waiting : after.waiting = m.waiting)
  | go (paid : Paid env db m) (outcome : Outcome) (locals : Locals)
      (performs : paid.Performs outcome) (goes : outcome.Goes locals)
      (control : after.control = .running paid.closure locals) (waiting : after.waiting = m.waiting)
  | send (paid : Paid env db m) (msg : Message) (caller : Waiting)
      (control : after.control = .executing msg paid.closure.object)
      (waiting : after.waiting = caller :: m.waiting) (sends : paid.Sends msg caller)
  | enter (msg : Message) (caller : Ref) (closure : Closure)
      (executing : m.control = .executing msg caller)
      (control : after.control = .running closure ⟨0, [], []⟩) (waiting : after.waiting = m.waiting)
  | drop (sender : Waiting) (ends : after.control.Ends)
      (waiting : m.waiting = sender :: after.waiting)
  | resume (result : Result) (caller : Waiting) (top : Int) (mem : Bytes)
      (returning : m.control = .returning result) (receives : caller.Receives result top mem)
      (control : after.control =
        .running { caller.closure with gas := caller.closure.gas + result.gas }
          ⟨caller.locals.pc + 1, top :: caller.locals.stack, mem⟩)
      (waiting : m.waiting = caller :: after.waiting)

theorem step_paid (paid : Paid env db m) :
    m.step env db =
      perform env db { m with world := paid.world } paid.closure paid.locals paid.op := by
  rw [step, paid.running]
  simp only [instruct, paid.found, paid.costs]
  rw [if_neg (not_lt.mpr paid.covered)]
  simp only [paid.resized]
  rfl

/-! ### Operands of messages -/

/-- `rest` is `l` with fewer values on the stack. -/
def Shortens (l rest : Locals) : Prop := ∃ stack, rest = { l with stack := stack }

variable {l rest : Locals} {closure : Closure} {msg : Message} {caller : Waiting} {depth : Nat}

theorem shortens_of_createOperands {value : Int} {input : Bytes}
    (operands : createOperands l = some (value, input, rest)) : Shortens l rest := by
  obtain ⟨⟨first, stack⟩, -, operands⟩ := Option.bind_eq_some_iff.mp operands
  obtain ⟨⟨size, offset, stack⟩, -, operands⟩ := Option.bind_eq_some_iff.mp operands
  obtain ⟨data, -, operands⟩ := Option.bind_eq_some_iff.mp operands
  obtain ⟨-, operands⟩ := Prod.mk.inj (Option.some.inj operands)
  obtain ⟨-, rfl⟩ := Prod.mk.inj operands
  exact ⟨_, rfl⟩

theorem Paid.Sends.shortens {paid : Paid env db m} (sends : paid.Sends msg caller) :
    Shortens paid.locals caller.locals := by
  cases sends with
  | call isCall retOffset retSize operands pending closure =>
      obtain ⟨_, _, _, below, -, locals⟩ := callOperands_cases operands
      exact ⟨below, locals⟩
  | create isCreate addr input value operands message pending closure =>
      exact shortens_of_createOperands operands

theorem Act.move (act : Act env db m after) : Move env db m after := by
  cases act with
  | rest idle =>
      refine .stop ?_ rfl
      rcases idle_cases idle with control | control | ⟨result, control, -⟩
      all_goals
        rw [control]
        trivial
  | leave | bequeath | search | answer | panic => exact .stop trivial rfl
  | go paid mild posts performs goes => exact .go paid _ _ performs goes rfl rfl
  | send paid loaded mild sends snapshot queue => exact .send paid _ _ rfl rfl sends
  | run executing delivers code =>
      unfold enter
      split
      · exact .stop trivial rfl
      · exact .enter _ _ _ executing rfl rfl
  | raise executing waitingEq world => exact .drop _ trivial waitingEq
  | fail returning waitingEq => exact .drop _ trivial waitingEq
  | resume returning waitingEq mild receives =>
      exact .resume _ _ _ _ returning receives rfl waitingEq
  | revert returning waitingEq failed =>
      exact .resume _ _ _ _ returning (.failed failed) rfl waitingEq

theorem move_step (env : Env) (db : Database) (m : Machine) : Move env db m (m.step env db) :=
  (act_step env db m).move

/-! ### The frame of a closure -/

/-- The closures that wait, the outermost first. -/
def callers (waiting : List Waiting) : List (Closure × Locals) :=
  (waiting.map fun caller => (caller.closure, caller.locals)).reverse

@[simp] theorem callers_cons (caller : Waiting) (waiting : List Waiting) :
    callers (caller :: waiting) = callers waiting ++ [(caller.closure, caller.locals)] := by
  simp [callers]

@[simp] theorem length_callers (waiting : List Waiting) :
    (callers waiting).length = waiting.length := by
  simp [callers]

/-- The closure at a depth with its local variables; it runs if nothing is above it. -/
def activation (m : Machine) (depth : Nat) : Option (Closure × Locals) :=
  (callers m.waiting ++
    match m.control with
    | .running closure l => [(closure, l)]
    | _ => [])[depth]?

theorem activation_of_lt (below : depth < m.waiting.length) :
    m.activation depth = (callers m.waiting)[depth]? := by
  rw [activation, List.getElem?_append_left (by simpa using below)]

theorem activation_of_running (running : m.control = .running closure l) :
    m.activation m.waiting.length = some (closure, l) := by
  rw [activation, running, List.getElem?_append_right (by simp)]
  simp

theorem callers_getElem?_of_lt {waiting : List Waiting} (below : depth < waiting.length) :
    (callers (caller :: waiting))[depth]? = (callers waiting)[depth]? := by
  rw [callers_cons, List.getElem?_append_left (by simpa using below)]

theorem callers_getElem?_length (caller : Waiting) (waiting : List Waiting) :
    (callers (caller :: waiting))[waiting.length]? = some (caller.closure, caller.locals) := by
  rw [callers_cons, List.getElem?_append_right (by simp)]
  simp

/-- Only a closure that runs has a frame above those that wait. -/
theorem running_of_activation {frame : Closure × Locals} (found : m.activation depth = some frame)
    (top : m.waiting.length ≤ depth) :
    m.waiting.length = depth ∧ m.control = .running frame.1 frame.2 := by
  rw [activation, List.getElem?_append_right (by simpa using top), length_callers] at found
  cases control : m.control with
  | running closure l =>
      rw [control] at found
      dsimp only at found
      rw [List.getElem?_singleton] at found
      split at found
      · cases found
        exact ⟨by omega, rfl⟩
      · cases found
  | executing | returning | panicking | searching =>
      rw [control] at found
      cases found

/-- What a step does to a frame that is there before and after it. -/
inductive Stride (env : Env) (db : Database) (m after : Machine) (depth : Nat) :
    Closure × Locals → Closure × Locals → Prop
  | inside {frame : Closure × Locals} (before : depth < m.waiting.length)
      (now : depth < after.waiting.length) : Stride env db m after depth frame frame
  | go (paid : Paid env db m) (outcome : Outcome) (locals : Locals)
      (before : m.waiting.length = depth)
      (waiting : after.waiting = m.waiting) (control : after.control = .running paid.closure locals)
      (performs : paid.Performs outcome) (goes : outcome.Goes locals) :
      Stride env db m after depth (paid.caller, paid.l) (paid.closure, locals)
  | send (paid : Paid env db m) (msg : Message) (caller : Waiting)
      (before : m.waiting.length = depth)
      (waiting : after.waiting = caller :: m.waiting)
      (control : after.control = .executing msg paid.closure.object)
      (sends : paid.Sends msg caller) :
      Stride env db m after depth (paid.caller, paid.l) (caller.closure, caller.locals)
  | resume (result : Result) (caller : Waiting) (top : Int) (mem : Bytes)
      (returning : m.control = .returning result) (waiting : m.waiting = caller :: after.waiting)
      (now : after.waiting.length = depth) (receives : caller.Receives result top mem) :
      Stride env db m after depth (caller.closure, caller.locals)
        ({ caller.closure with gas := caller.closure.gas + result.gas },
          ⟨caller.locals.pc + 1, top :: caller.locals.stack, mem⟩)

section Stride

variable {depth : Nat} {frame now : Closure × Locals}

/-- A closure deeper down is left alone. -/
theorem stride_inside (found : m.activation depth = some frame)
    (kept : after.activation depth = some now) (before : depth < m.waiting.length)
    (later : depth < after.waiting.length)
    (same : (callers after.waiting)[depth]? = (callers m.waiting)[depth]?) :
    Stride env db m after depth frame now := by
  rw [activation_of_lt before] at found
  rw [activation_of_lt later, same, found] at kept
  cases kept
  exact .inside before later

theorem activation_eq_none (top : after.waiting.length ≤ depth)
    (still : ∀ closure l, after.control ≠ .running closure l) : after.activation depth = none := by
  cases found : after.activation depth with
  | none => rfl
  | some frame => exact absurd (running_of_activation found top).2 (still _ _)

theorem Move.stride (move : Move env db m after) (found : m.activation depth = some frame)
    (kept : after.activation depth = some now) : Stride env db m after depth frame now := by
  have gone : ∀ {P : Prop}, after.waiting.length ≤ depth → after.control.Ends → P := by
    intro P top ends
    rw [activation_eq_none top ends.ne_running] at kept
    cases kept
  have keeps : after.waiting = m.waiting → depth < m.waiting.length →
      Stride env db m after depth frame now := by
    intro same below
    exact stride_inside found kept below (same ▸ below) (by rw [same])
  have runs : m.waiting.length ≤ depth →
      m.waiting.length = depth ∧ m.control = .running frame.1 frame.2 :=
    running_of_activation found
  cases move with
  | stop ends waiting =>
      by_cases below : depth < m.waiting.length
      · exact keeps waiting below
      · exact gone (waiting ▸ not_lt.mp below) ends
  | go paid outcome locals performs goes control waiting =>
      by_cases below : depth < m.waiting.length
      · exact keeps waiting below
      · obtain ⟨depthEq, -⟩ := runs (not_lt.mp below)
        have before := activation_of_running paid.running
        have later := activation_of_running control
        rw [depthEq, found] at before
        rw [waiting, depthEq, kept] at later
        cases before
        cases later
        exact .go paid outcome locals depthEq waiting control performs goes
  | send paid msg caller control waiting sends =>
      by_cases below : depth < m.waiting.length
      · refine stride_inside found kept below (by rw [waiting, List.length_cons]; omega) ?_
        rw [waiting, callers_getElem?_of_lt below]
      · obtain ⟨depthEq, -⟩ := runs (not_lt.mp below)
        have before := activation_of_running paid.running
        rw [depthEq, found] at before
        cases before
        rw [activation_of_lt (by rw [waiting, List.length_cons]; omega), waiting, ← depthEq,
          callers_getElem?_length] at kept
        cases kept
        exact .send paid msg caller depthEq waiting control sends
  | enter msg caller closure executing control waiting =>
      by_cases below : depth < m.waiting.length
      · exact keeps waiting below
      · have running := (runs (not_lt.mp below)).2
        rw [executing] at running
        cases running
  | drop sender ends waiting =>
      by_cases below : depth < after.waiting.length
      · refine stride_inside found kept (by rw [waiting, List.length_cons]; omega) below ?_
        rw [waiting, callers_getElem?_of_lt below]
      · exact gone (not_lt.mp below) ends
  | resume result caller top mem returning receives control waiting =>
      by_cases below : depth < after.waiting.length
      · refine stride_inside found kept (by rw [waiting, List.length_cons]; omega) below ?_
        rw [waiting, callers_getElem?_of_lt below]
      · obtain ⟨depthEq, later⟩ := running_of_activation kept (not_lt.mp below)
        rw [control] at later
        obtain ⟨closureEq, localsEq⟩ := Control.running.inj later
        have nowEq : now = ({ caller.closure with gas := caller.closure.gas + result.gas },
            ⟨caller.locals.pc + 1, top :: caller.locals.stack, mem⟩) :=
          Prod.ext closureEq.symm localsEq.symm
        rw [activation_of_lt (by rw [waiting, List.length_cons]; omega), waiting, ← depthEq,
          callers_getElem?_length] at found
        cases found
        rw [nowEq]
        exact .resume result caller top mem returning waiting depthEq receives

end Stride

end Machine

end Thelonious
