import Thelonious.Chain.Runs
import Thelonious.Vm.Balances

/-!
# Writes after a failed call

`Set` replaces the objects of the state by those of the snapshot, but the closure
that made the call goes on with the object it had.  What it writes from then on is
in an object that the state never gets back, and shows in the state only if the
object the state has did not need the write.
-/

namespace Thelonious

/-- What a closure writes to its object: a word, its nonce, its mark for deletion, or its
balance when a message with an amount is sent to the account at an address. -/
inductive Machine.Write
  | store (location value : Int)
  | count
  | quit
  | pay (amount : Int) (addr : Bytes)
deriving DecidableEq

/-- The word that the object has at the location. -/
def StateObject.word (db : Database) (object : StateObject) (location : Int) : Option Int :=
  (object.getStorage db location).map (·.1.asBigInt)

theorem StateObject.word_of_same (db : Database) (object : StateObject) (code : Bytes)
    (balance location : Int) :
    StateObject.word db { object with code := code, balance := balance } location =
      object.word db location := by
  unfold word getStorage
  dsimp only
  split
  · rfl
  · cases object.trie.get db (leftPadBytes (bigBytes location) 32) with
    | none => rfl
    | some read =>
        simp only [Option.bind_eq_bind, Option.bind_some]
        cases newValueFromBytes read.1 with
        | none => rfl
        | some value =>
            simp only [Option.bind_some]
            split <;> rfl

namespace Machine.Write

/-- The write shows in the object of the state, which was `before` and is `after`. -/
def Shows (db : Database) (before after : StateObject) : Write → Prop
  | store location value => after.word db location = some value
  | count => after.nonce = before.nonce + 1
  | quit => after.remove = true
  | pay amount addr =>
      after.balance = before.balance - amount + if addr = before.address then amount else 0

/-- The object of the state is already as the write leaves it. -/
def Idle (db : Database) (before : StateObject) : Write → Prop
  | store location value => before.word db location = some value
  | count => False
  | quit => before.remove = true
  | pay amount _ => amount = 0

end Machine.Write

namespace World

/-- The object that the state has for the address. -/
def objectAt (w : World) (addr : Bytes) : Option StateObject :=
  (AList.lookup addr w.state.stateObjects).map w.heap

/-- The objects of the state other than `object` keep everything but balance and code. -/
def Aside (object : Ref) (w after : World) : Prop :=
  ∀ addr ref, AList.lookup addr w.state.stateObjects = some ref → ref ≠ object →
    AList.lookup addr after.state.stateObjects = some ref ∧
      ∃ code balance, after.heap ref = { w.heap ref with code := code, balance := balance }

namespace Aside

variable {db : Database} {object : Ref} {w middle after : World}

theorem refl : Aside object w w := fun _ _ found _ => ⟨found, _, _, rfl⟩

theorem trans (first : Aside object w middle) (second : Aside object middle after) :
    Aside object w after := by
  intro addr ref found other
  obtain ⟨kept, code, balance, heapEq⟩ := first addr ref found other
  obtain ⟨keptAfter, codeAfter, balanceAfter, heapAfter⟩ := second addr ref kept other
  refine ⟨keptAfter, codeAfter, balanceAfter, ?_⟩
  rw [heapAfter, heapEq]

theorem modify_self (change : StateObject → StateObject) :
    Aside object w (w.modify object change) := by
  intro addr ref found other
  exact ⟨found, _, _, heap_modify_of_ne other⟩

theorem modify (target : Ref) {change : StateObject → StateObject}
    (changes : ∀ before : StateObject,
      ∃ code balance, change before = { before with code := code, balance := balance }) :
    Aside object w (w.modify target change) := by
  intro addr ref found other
  refine ⟨found, ?_⟩
  by_cases same : ref = target
  · rw [same, heap_modify_self]
    exact changes _
  · rw [heap_modify_of_ne same]
    exact ⟨_, _, rfl⟩

theorem loads (sound : w.Sound) (loads : Loads db w after) : Aside object w after := by
  intro addr ref found other
  exact ⟨loads.kept found, _, _, loads.heap_eq (sound.held found).1⟩

theorem cost {env : Env} {closure : Closure} {l : Locals} {op : OpCode} {gas newMemSize : Int}
    (costs : w.cost env db closure l op = some (gas, newMemSize, after)) :
    Aside closure.object w after := by
  unfold World.cost at costs
  split at costs
  · obtain ⟨_, -, costs⟩ := Option.bind_eq_some_iff.mp costs
    obtain ⟨⟨val, loaded⟩, got, costs⟩ := Option.bind_eq_some_iff.mp costs
    obtain ⟨_, -, got⟩ := Option.bind_eq_some_iff.mp got
    cases costs
    cases got
    exact modify_self _
  · split at costs
    · cases costs
    · obtain ⟨_, -, costs⟩ := Option.bind_eq_some_iff.mp costs
      cases costs
      exact refl
  · obtain ⟨_, -, costs⟩ := Option.bind_eq_some_iff.mp costs
    cases costs
    exact refl

end Aside

end World

namespace Machine

/-- The closure with `depth` closures waiting below it has not returned: it runs, on
behalf of `object`, or it waits itself. -/
def Frame (object : Ref) (depth : Nat) (m : Machine) : Prop :=
  match m.control with
  | .running closure _ =>
      depth < m.waiting.length ∨ m.waiting.length = depth ∧ closure.object = object
  | _ => depth < m.waiting.length

instance (object : Ref) (depth : Nat) : (m : Machine) → Decidable (m.Frame object depth)
  | ⟨_, _, _, waiting, .running closure _⟩ => inferInstanceAs (Decidable
      (depth < waiting.length ∨ waiting.length = depth ∧ closure.object = object))
  | ⟨_, _, _, waiting, .executing _ _⟩ | ⟨_, _, _, waiting, .returning _⟩
  | ⟨_, _, _, waiting, .panicking⟩ | ⟨_, _, _, waiting, .searching⟩ =>
      inferInstanceAs (Decidable (depth < waiting.length))

/-- The message that closure has sent has failed. -/
def Failing (object : Ref) (depth : Nat) (m : Machine) : Prop :=
  match m.control, m.waiting with
  | .returning result, caller :: rest =>
      result.ok = false ∧ caller.closure.object = object ∧ rest.length = depth
  | _, _ => False

instance (object : Ref) (depth : Nat) : (m : Machine) → Decidable (m.Failing object depth)
  | ⟨_, _, _, caller :: rest, .returning result⟩ => inferInstanceAs (Decidable
      (result.ok = false ∧ caller.closure.object = object ∧ rest.length = depth))
  | ⟨_, _, _, [], .returning _⟩ | ⟨_, _, _, _, .running _ _⟩ | ⟨_, _, _, _, .executing _ _⟩
  | ⟨_, _, _, _, .panicking⟩ | ⟨_, _, _, _, .searching⟩ => isFalse (by simp [Failing])

/-- What that closure writes to its object with the next step, unless the step fails. -/
def write (env : Env) (db : Database) (object : Ref) (depth : Nat) (m : Machine) : Option Write :=
  match m.control with
  | .running closure l =>
      if closure.object = object ∧ m.waiting.length = depth then
        match opAt closure.code l.pc, l.stack, (m.step env db).control with
        | some .sstore, location :: value :: _, .running _ _ => some (.store location value)
        | some .create, _, .executing _ _ => some .count
        | some .suicide, _, .returning result => if result.ok then some .quit else none
        | _, _, _ => none
      else none
  | .executing msg caller =>
      if caller = object ∧ m.waiting.length = depth + 1 ∧
          msg.value ≤ (m.world.heap caller).balance ∧
          env.precompiled (bigBytes (bigD msg.address)) = none ∧
          (m.world.getOrNewStateObject db msg.address).isSome then
        some (.pay msg.value (address msg.address))
      else none
  | _ => none

variable {env : Env} {db : Database} {m : Machine} {closure : Closure} {l : Locals}

/-- `CREATE`, apart from the object that creates. -/
theorem aside_create (sound : m.world.Sound) (value : Int) (input : Bytes) :
    World.Aside closure.object m.world (m.create env db closure l value input).world := by
  unfold create
  dsimp only
  split
  · exact .refl
  · rename_i found
    exact .loads sound (World.loads_getStateObject sound found).1
  · rename_i loaded missing
    have loads := (World.loads_getStateObject sound missing).1
    have counted : World.Aside closure.object m.world
        (loaded.modify closure.object .incrementNonce) :=
      .trans (.loads sound loads) (.modify_self _)
    have soundCounted : (loaded.modify closure.object .incrementNonce).Sound :=
      loads.sound.modify rfl
    split
    · exact counted
    · rename_i made madeEq
      have created := (World.loads_getOrNewStateObject soundCounted madeEq).1
      exact (counted.trans (.loads soundCounted created)).trans
        (.modify _ fun before => ⟨input, before.balance, rfl⟩)

/-- `SUICIDE`, apart from the object that is deleted. -/
theorem aside_suicide (sound : m.world.Sound) (addr : Int) :
    World.Aside closure.object m.world (m.suicide db closure addr).world := by
  unfold suicide
  split
  · exact .refl
  · rename_i receiver loaded found
    have loads := (World.loads_getOrNewStateObject sound found).1
    exact .trans (.trans (.loads sound loads)
      (.modify receiver fun before => ⟨before.code, _, rfl⟩)) (.modify_self _)

theorem aside_perform {w : World} {object : Ref} {op : OpCode} (sound : w.Sound)
    (writes : op = .sstore ∨ op = .create ∨ op = .suicide) (worldEq : m.world = w)
    (acting : closure.object = object) :
    World.Aside object w (m.perform env db closure l op).world := by
  subst acting worldEq
  rcases writes with rfl | rfl | rfl
  · cases accessed : m.world.access db closure l .sstore with
    | none =>
        simp only [perform, accessed]
        exact .refl
    | some access =>
        obtain ⟨_, -, stored⟩ := Option.bind_eq_some_iff.mp accessed
        simp only [perform, accessed]
        cases stored
        exact .modify_self _
  · simp only [perform]
    split
    · exact .refl
    · exact aside_create sound _ _
  · simp only [perform]
    split
    · exact .refl
    · exact aside_suicide sound _

/-- The instructions that write to the object of the closure change nothing else. -/
theorem aside_step (valid : m.Valid) (running : m.control = .running closure l) {op : OpCode}
    (instruction : opAt closure.code l.pc = some op)
    (writes : op = .sstore ∨ op = .create ∨ op = .suicide) :
    World.Aside closure.object m.world (m.step env db).world := by
  simp only [step, running, instruct, instruction]
  split
  · exact .refl
  · rename_i gas newMemSize w costs
    have costed := World.Aside.cost costs
    have mild : World.Mild db m.Creating m.world w := World.mild_cost costs
    have sound : w.Sound := (mild.quiet valid.sound).sound
    split
    · exact costed
    · split
      · exact costed
      · exact costed.trans (aside_perform sound writes rfl rfl)

theorem world_raise (m : Machine) : m.raise.world = m.world := by
  unfold raise
  split <;> rfl

/-- The value of a message is taken from the caller and given to the account it is for. -/
theorem pays_step (valid : m.Valid) {msg : Message} {caller own : Ref} {addr : Bytes}
    (executing : m.control = .executing msg caller)
    (covered : msg.value ≤ (m.world.heap caller).balance)
    (ordinary : env.precompiled (bigBytes (bigD msg.address)) = none)
    (found : (m.world.getOrNewStateObject db msg.address).isSome)
    (held : AList.lookup addr m.world.state.stateObjects = some own) (other : own ≠ caller) :
    AList.lookup addr (m.step env db).world.state.stateObjects = some own ∧
      ((m.step env db).world.heap own).balance = (m.world.heap own).balance +
        if address msg.address = addr then msg.value else 0 := by
  obtain ⟨⟨object, loaded⟩, foundEq⟩ := Option.isSome_iff_exists.mp found
  obtain ⟨loads, lookupEq⟩ := World.loads_getOrNewStateObject valid.sound foundEq
  have below := (valid.sound.held held).1
  have given : ((transferred loaded caller object msg.value).heap own).balance =
      (m.world.heap own).balance + if address msg.address = addr then msg.value else 0 := by
    have same : object = own ↔ address msg.address = addr := by
      constructor
      · rintro rfl
        rw [← (loads.sound.held lookupEq).2.1, (loads.sound.held (loads.kept held)).2.1]
      · rintro rfl
        exact Option.some.inj (lookupEq.symm.trans (loads.kept held))
    unfold transferred
    by_cases itself : object = own
    · rw [if_pos (same.mp itself), itself, World.heap_modify_self, World.heap_modify_of_ne other,
        loads.heap_eq below]
      rfl
    · rw [if_neg (same.not.mp itself), World.heap_modify_of_ne (Ne.symm itself),
        World.heap_modify_of_ne other, loads.heap_eq below, add_zero]
  have keeps : World.Keeps (transferred loaded caller object msg.value) (m.step env db).world := by
    simp only [step, executing, exec, if_neg (not_lt.mpr covered), ordinary, foundEq]
    split
    · rw [world_raise]
      exact .refl _
    · rename_i code w coded
      rw [(proceeds_enter _ _).world]
      exact World.Mild.keeps (World.mild_getCode coded : World.Mild db m.Creating _ w)
  exact ⟨keeps.kept (loads.kept held),
    (keeps.balance_eq (below.trans_le loads.next_le)).trans given⟩

theorem not_idle_of_write {object : Ref} {depth : Nat} {write : Write}
    (writes : m.write env db object depth = some write) : ¬ m.idle := by
  unfold Machine.write at writes
  split at writes
  · simp [idle, *]
  · simp [idle, *]
  · cases writes

/-- A write to an object that the state has lost shows in the state if it is idle, and only
then. -/
theorem shows_iff_of_write {object : Ref} {depth : Nat} {write : Write}
    (writes : m.write env db object depth = some write) (valid : m.Valid)
    (lost : m.world.Lost object) :
    (∃ before ∈ m.world.objectAt (m.world.heap object).address,
        ∃ after ∈ (m.step env db).world.objectAt (m.world.heap object).address,
          write.Shows db before after) ↔
      ∃ before ∈ m.world.objectAt (m.world.heap object).address, write.Idle db before := by
  cases held : AList.lookup (m.world.heap object).address m.world.state.stateObjects with
  | none => simp [World.objectAt, held]
  | some own =>
      have other : own ≠ object := fun same => lost.absent _ (same ▸ held)
      have aside : ∀ {closure : Closure} {l : Locals} {op : OpCode},
          m.control = .running closure l → closure.object = object →
          opAt closure.code l.pc = some op → op = .sstore ∨ op = .create ∨ op = .suicide →
          ∃ code balance, (m.step env db).world.objectAt (m.world.heap object).address =
            some { m.world.heap own with code := code, balance := balance } := by
        intro closure l op running acting instruction writes
        obtain ⟨kept, code, balance, heapEq⟩ :=
          aside_step valid running instruction writes _ own held (acting ▸ other)
        exact ⟨code, balance, by rw [World.objectAt, kept, Option.map_some, heapEq]⟩
      have before : m.world.objectAt (m.world.heap object).address = some (m.world.heap own) := by
        rw [World.objectAt, held, Option.map_some]
      simp only [before, Option.mem_some_iff, exists_eq_left']
      unfold Machine.write at writes
      split at writes
      · rename_i closure l running
        split at writes
        · rename_i here
          split at writes
          · rename_i instruction _ _
            cases writes
            obtain ⟨code, balance, after⟩ := aside running here.1 instruction (.inl rfl)
            simp [after, Write.Shows, Write.Idle, StateObject.word_of_same]
          · rename_i instruction _
            cases writes
            obtain ⟨code, balance, after⟩ := aside running here.1 instruction (.inr (.inl rfl))
            simp [after, Write.Shows, Write.Idle]
          · rename_i instruction _
            split at writes
            · cases writes
              obtain ⟨code, balance, after⟩ := aside running here.1 instruction (.inr (.inr rfl))
              simp [after, Write.Shows, Write.Idle]
            · cases writes
          · cases writes
        · cases writes
      · rename_i msg caller executing
        split at writes
        · rename_i pays
          obtain ⟨rfl, -, covered, ordinary, found⟩ := pays
          cases writes
          obtain ⟨kept, balance⟩ := pays_step valid executing covered ordinary found held other
          simp only [World.objectAt, kept, Option.map_some, Option.mem_some_iff, exists_eq_left',
            Write.Shows, Write.Idle, balance, (valid.sound.held held).2.1]
          split <;> omega
        · cases writes
      · cases writes

end Machine

namespace StateTransition

open World

variable (host : Host) (db : Database) (tx : Transaction) (block : Header) (cb : Ref) (w : World)

/-- At step `failure` the message sent by a closure has failed, with `object` the object
of the closure and `depth` closures waiting below it. -/
def Fails (failure : Nat) (object : Ref) (depth : Nat) : Prop :=
  ∃ m ∈ (run host db tx block cb w failure).machine, m.Failing object depth

/-- The closure has not returned since the failure, and step `step` is the write of it. -/
def WritesAfter (failure : Nat) (object : Ref) (depth step : Nat) (write : Machine.Write) : Prop :=
  (∀ between, failure < between → between ≤ step →
    ∃ m ∈ (run host db tx block cb w between).machine, m.Frame object depth) ∧
  ∃ m ∈ (run host db tx block cb w step).machine,
    m.write (host.env tx block) db object depth = some write

/-- The object that the state has for the address of the written one, as it is after a
number of steps. -/
def owned (object : Ref) (step steps : Nat) : Option StateObject :=
  (run host db tx block cb w steps).world.objectAt
    ((run host db tx block cb w step).world.heap object).address

/-- The write of the step is in the state: either the written object is in the state in the
end, or the object that the state has instead shows the write. -/
def Present (object : Ref) (step last : Nat) (write : Machine.Write) : Prop :=
  (run host db tx block cb w last).world.Holds object ∨
    ∃ before ∈ owned host db tx block cb w object step step,
      ∃ after ∈ owned host db tx block cb w object step (step + 1), write.Shows db before after

/-- The object that the state has instead of the written one does not need the write. -/
def Needless (object : Ref) (step : Nat) (write : Machine.Write) : Prop :=
  ∃ before ∈ owned host db tx block cb w object step step, write.Idle db before

variable {host db tx block cb w}

theorem world_of_machine {config : Config} {m : Machine} (machineEq : config.machine = some m) :
    config.world = m.world := by
  cases config with
  | evaluating | posting => exact congrArg Machine.world (Option.some.inj machineEq)
  | dispatching | finished => cases machineEq

theorem world_step {config : Config} {m : Machine} (machineEq : config.machine = some m)
    (busy : ¬ m.idle) :
    (step host db tx block config).world = (m.step (host.env tx block) db).world := by
  cases config with
  | evaluating eval machine | posting eval ret gas queue index machine =>
      obtain rfl : machine = m := Option.some.inj machineEq
      unfold step
      dsimp only
      split <;> simp_all [Machine.idle, Config.world]
  | dispatching | finished => cases machineEq

/-- The step after the failure goes back to the snapshot. -/
theorem Fails.lost {failure depth : Nat} {object : Ref}
    (fails : Fails host db tx block cb w failure object depth)
    (sound : w.Sound) (below : cb < w.next) :
    (run host db tx block cb w (failure + 1)).world.Lost object := by
  obtain ⟨m, machineEq, failing⟩ := fails
  unfold Machine.Failing at failing
  split at failing
  case h_2 => exact failing.elim
  rename_i result caller rest returning waitingEq
  obtain ⟨failed, rfl, -⟩ := failing
  have valid := (valid_run sound below failure).machine machineEq
  have reverts : (m.step (host.env tx block) db).world = m.world.set caller.snapshot := by
    simp [Machine.step, Machine.resume, returning, waitingEq, failed]
  rw [run_succ, world_step machineEq (by simp [Machine.idle, returning, waitingEq]), reverts]
  exact lost_set (valid.waiting (waitingEq ▸ List.mem_cons_self)).1

theorem present_iff_needless {failure depth step last : Nat} {object : Ref} {write : Machine.Write}
    (sound : w.Sound) (below : cb < w.next)
    (fails : Fails host db tx block cb w failure object depth) (after : failure < step)
    (before : step < last)
    (writes : WritesAfter host db tx block cb w failure object depth step write) :
    Present host db tx block cb w object step last write ↔
      Needless host db tx block cb w object step write := by
  obtain ⟨-, m, machineEq, writes⟩ := writes
  have lost := lost_run sound below after (fails.lost sound below)
  have never := lost_run sound below (after.trans before) (fails.lost sound below)
  have shows := Machine.shows_iff_of_write writes ((valid_run sound below step).machine machineEq)
    (world_of_machine machineEq ▸ lost)
  have absent : ¬ (run host db tx block cb w last).world.Holds object := never.absent _
  unfold Present Needless owned
  rw [or_iff_right absent, run_succ, world_step machineEq (Machine.not_idle_of_write writes),
    world_of_machine machineEq]
  exact shows

/-- The code stores 7, calls the account 4 with more than the contract has, and stores the
word. -/
def loggerCode (word : UInt8) : Bytes :=
  [0x60, 7, 0x60, 0, 0x57,
   0x60, 0, 0x60, 0, 0x60, 0, 0x60, 0, 0x60, 11, 0x60, 4, 0x60, 0, 0xf1,
   0x60, word, 0x60, 0, 0x57, 0]

def loggerTx : Transaction := sampleTx [2] 0 2000 0

def loggerWorld (word : UInt8) : World := sampleWorld 0 10 (loggerCode word) []

theorem loggerWorld_fails {word : UInt8} (isWord : word = 7 ∨ word = 8) :
    Fails (sampleHost id) ∅ loggerTx sampleHeader 2 (loggerWorld word) 12 1 0 := by
  unfold Fails
  rcases isWord with rfl | rfl <;> decide +kernel

theorem loggerWorld_writes {word : UInt8} (isWord : word = 7 ∨ word = 8) :
    WritesAfter (sampleHost id) ∅ loggerTx sampleHeader 2 (loggerWorld word) 12 1 0 15
      (.store 0 word.toNat) := by
  refine ⟨fun between after before => ?_, ?_⟩
  · rcases isWord with rfl | rfl <;> interval_cases between <;> decide +kernel
  · rcases isWord with rfl | rfl <;> decide +kernel

end StateTransition

end Thelonious
