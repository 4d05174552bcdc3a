import Thelonious.Vm.Effects

/-!
# The call stack of the virtual machine

`CALLSTACK` shows a contract the addresses of the origin and of the closures that
are being run.  A step pushes the address of the closure it enters, pops the one of
the closure it leaves, also after a panic, and otherwise leaves the stack alone.
-/

namespace Thelonious

namespace World

/-- The objects handed out keep their addresses. -/
structure Names (w after : World) : Prop where
  next_le : w.next ≤ after.next
  address_eq {ref : Ref} : ref < w.next → (after.heap ref).address = (w.heap ref).address

variable {db : Database} {w : World}

namespace Names

theorem refl (w : World) : Names w w := ⟨le_rfl, fun _ => rfl⟩

theorem trans {middle after : World} (first : Names w middle) (second : Names middle after) :
    Names w after where
  next_le := first.next_le.trans second.next_le
  address_eq below :=
    (second.address_eq (below.trans_le first.next_le)).trans (first.address_eq below)

theorem modify (w : World) {ref : Ref} {change : StateObject → StateObject}
    (addressEq : (change (w.heap ref)).address = (w.heap ref).address) :
    Names w (w.modify ref change) :=
  ⟨le_rfl, fun {other} _ => address_modify addressEq other⟩

theorem install (w : World) (addr : Bytes) (object : StateObject) :
    Names w (w.install addr object) :=
  ⟨Nat.le_succ _, fun below => by rw [heap_install_of_lt below]⟩

theorem set (w : World) (copied : State StateObject) : Names w (w.set copied) :=
  ⟨next_le_set w copied, fun below => by rw [heap_set_of_lt below]⟩

end Names

variable {after : World}

theorem names_getStateObject {addr : Bytes} {found : Option Ref}
    (got : w.getStateObject db addr = some (found, after)) : Names w after := by
  unfold getStateObject at got
  split at got
  · cases got
    exact .refl w
  · obtain ⟨⟨data, trie⟩, -, got⟩ := Option.bind_eq_some_iff.mp got
    dsimp only at got
    split at got
    · cases got
      exact ⟨le_rfl, fun _ => rfl⟩
    · obtain ⟨object, -, got⟩ := Option.bind_eq_some_iff.mp got
      cases got
      have loads : Names w (w.setTrie trie) := ⟨le_rfl, fun _ => rfl⟩
      exact loads.trans (.install _ _ _)

theorem names_getOrNewStateObject {addr : Bytes} {ref : Ref}
    (got : w.getOrNewStateObject db addr = some (ref, after)) : Names w after := by
  obtain ⟨⟨found, middle⟩, foundEq, got⟩ := Option.bind_eq_some_iff.mp got
  have names := names_getStateObject foundEq
  cases found with
  | some held =>
      cases got
      exact names
  | none =>
      cases got
      exact names.trans (.install middle _ _)

theorem Mild.names {counting : Ref → Prop} (mild : Mild db counting w after) : Names w after := by
  induction mild with
  | refl => exact .refl w
  | load _ got induction => exact induction.trans (names_getStateObject got)
  | create _ got induction => exact induction.trans (names_getOrNewStateObject got)
  | setCode _ ref code induction | incrementNonce _ _ induction
  | setStorage _ ref location value induction => exact induction.trans (.modify _ rfl)
  | cache _ got induction =>
      obtain ⟨trie, storage, rfl⟩ := StateObject.getStorage_fields got
      exact induction.trans (.modify _ rfl)

end World

namespace Machine

variable {env : Env} {db : Database} {m : Machine}

theorem names_step (env : Env) (db : Database) (m : Machine) :
    World.Names m.world (m.step env db).world := by
  cases deed_step env db m with
  | mild world waiting acting => exact world.names
  | send caller msg copied loaded world running control waiting snapshot =>
      exact loaded.names.trans world.names
  | transfer msg caller object loaded executing covered ordinary found world waiting acting =>
      have moved : World.Names loaded (transferred loaded caller object msg.value) :=
        (World.Names.modify _ rfl).trans (.modify _ rfl)
      exact (World.names_getOrNewStateObject found).trans (moved.trans world.names)
  | bequeath closure l addr rest receiver loaded running suicide stack found world waiting acting =>
      have left : World.Names loaded (bequeathed loaded closure.object receiver) :=
        (World.Names.modify _ rfl).trans (.modify _ rfl)
      exact world ▸ (World.names_getOrNewStateObject found).trans left
  | revert result caller returning failed waiting world running => exact world ▸ .set _ _

/-! ### The stack and the frames -/

/-- The objects of the closures that are being run, the outermost first. -/
def frames (m : Machine) : List Ref :=
  (m.waiting.map fun caller => caller.closure.object).reverse ++
    match m.control with
    | .running closure _ => [closure.object]
    | _ => []

/-- The addresses of the closures that are being run. -/
def addresses (m : Machine) : List Bytes := m.frames.map fun ref => (m.world.heap ref).address

/-- The call stack has the origin and the addresses of the frames, or nothing as long as
no closure has been run; a message without a sender is one of the origin. -/
structure Stacked (origin : Bytes) (m : Machine) : Prop where
  callStack : m.control ≠ .searching →
    m.callStack = origin :: m.addresses ∨ m.callStack = [] ∧ m.frames = []
  sender {msg : Message} {caller : Ref} : m.control = .executing msg caller → m.waiting = [] →
    (m.world.heap caller).address = origin

theorem Valid.frames_lt (valid : m.Valid) {ref : Ref} (frame : ref ∈ m.frames) :
    ref < m.world.next := by
  rcases List.mem_append.mp frame with waits | runs
  · obtain ⟨caller, member, rfl⟩ := List.mem_map.mp (List.mem_reverse.mp waits)
    exact (valid.waiting member).1
  · apply valid.object
    cases control : m.control with
    | running closure l =>
        rw [control] at runs
        rw [List.mem_singleton.mp runs]
        rfl
    | executing msg caller | returning result | panicking | searching => simp [control] at runs

section Stacked

variable {after : Machine} {origin : Bytes}

/-- The addresses of frames of `m` are the same in a later state. -/
theorem Valid.addresses_eq (valid : m.Valid) (names : World.Names m.world after.world)
    {refs : List Ref} (frames : ∀ ref ∈ refs, ref ∈ m.frames) :
    refs.map (fun ref => (after.world.heap ref).address) =
      refs.map fun ref => (m.world.heap ref).address :=
  List.map_congr_left fun ref member =>
    names.address_eq (valid.frames_lt (frames ref member))

theorem Stacked.callStack_eq (stacked : m.Stacked origin) (going : m.control ≠ .searching)
    (framed : m.frames ≠ []) : m.callStack = origin :: m.addresses := by
  rcases stacked.callStack going with full | ⟨-, none⟩
  · exact full
  · exact absurd none framed

section Step

variable (valid : m.Valid) (stacked : m.Stacked origin)
  (names : World.Names m.world after.world) (going : m.control ≠ .searching)
  (sent : ∀ msg caller, after.control = .executing msg caller → after.waiting ≠ [])

include valid stacked names going sent

theorem Stacked.keep (frames : after.frames = m.frames)
    (callStack : after.callStack = m.callStack) :
    after.Stacked origin where
  callStack _ := by
    have same : after.addresses = m.addresses := by
      rw [addresses, frames]
      exact valid.addresses_eq names fun _ member => member
    rw [callStack, same, frames]
    exact stacked.callStack going
  sender executing outermost := absurd outermost (sent _ _ executing)

theorem Stacked.pop {ref : Ref} (frames : m.frames = after.frames ++ [ref])
    (callStack : after.callStack = m.callStack.dropLast) :
    after.Stacked origin ∧ after.callStack ≠ [] := by
  have same : after.addresses = after.frames.map fun ref => (m.world.heap ref).address :=
    valid.addresses_eq names fun _ member => frames ▸ List.mem_append_left _ member
  have full : after.callStack = origin :: after.addresses := by
    rw [callStack, stacked.callStack_eq going (by simp [frames]), same, addresses, frames,
      List.map_append, List.map_singleton, ← List.cons_append, List.dropLast_concat]
  refine ⟨⟨fun _ => .inl full, fun executing outermost => ?_⟩, by simp [full]⟩
  exact absurd outermost (sent _ _ executing)

end Step

/-- A closure is entered; the outermost one also pushes the origin. -/
theorem Stacked.push (valid : m.Valid) (stacked : m.Stacked origin)
    (names : World.Names m.world after.world) {msg : Message} {caller : Ref} {closure : Closure}
    {l : Locals} (executing : m.control = .executing msg caller)
    (control : after.control = .running closure l) (waiting : after.waiting = m.waiting)
    (callStack : after.callStack = (if m.callStack.length = 0 then
      [(after.world.heap caller).address] else m.callStack) ++
        [(after.world.heap closure.object).address]) :
    after.Stacked origin ∧ (m.callStack ≠ [] → after.callStack ≠ []) := by
  have framesEq : after.frames = m.frames ++ [closure.object] := by
    simp only [frames, waiting, executing, control, List.append_nil]
  have addressesEq :
      after.addresses = m.addresses ++ [(after.world.heap closure.object).address] := by
    rw [addresses, framesEq, List.map_append, List.map_singleton,
      valid.addresses_eq names fun _ member => member]
    rfl
  have full : after.callStack = origin :: after.addresses := by
    rw [callStack, addressesEq]
    rcases stacked.callStack (by simp [executing]) with pushed | ⟨empty, outermost⟩
    · rw [pushed, if_neg (by simp)]
      rfl
    · have caller_lt : caller < m.world.next := valid.object (by rw [executing]; rfl)
      have none : m.waiting = [] := by simpa [frames, executing] using outermost
      rw [empty, if_pos List.length_nil, names.address_eq caller_lt, stacked.sender executing none,
        addresses,
        outermost]
      rfl
  refine ⟨⟨fun _ => .inl full, fun executing => ?_⟩, fun _ => by simp [full]⟩
  cases control.symm.trans executing

theorem Stacked.step (valid : m.Valid) (stacked : m.Stacked origin) (env : Env) (db : Database) :
    (m.step env db).Stacked origin ∧ (m.callStack ≠ [] → (m.step env db).callStack ≠ []) := by
  have names := names_step env db m
  have keeps : ∀ {after : Machine}, World.Names m.world after.world → m.control ≠ .searching →
      (∀ msg caller, after.control = .executing msg caller → after.waiting ≠ []) →
      after.frames = m.frames → after.callStack = m.callStack →
      after.Stacked origin ∧ (m.callStack ≠ [] → after.callStack ≠ []) := by
    intro after names going sent frames callStack
    exact ⟨stacked.keep valid names going sent frames callStack, fun pushed => callStack ▸ pushed⟩
  have pops : ∀ {after : Machine} (ref : Ref), World.Names m.world after.world →
      m.control ≠ .searching → (∃ result, after.control = .returning result) →
      m.frames = after.frames ++ [ref] → after.callStack = m.callStack.dropLast →
      after.Stacked origin ∧ (m.callStack ≠ [] → after.callStack ≠ []) := by
    rintro after ref names going ⟨result, control⟩ frames callStack
    obtain ⟨popped, pushed⟩ :=
      stacked.pop valid names going (by simp [control]) frames callStack
    exact ⟨popped, fun _ => pushed⟩
  have act := act_step env db m
  generalize m.step env db = after at act names ⊢
  cases act with
  | rest idle => exact ⟨stacked, id⟩
  | leave left running mild object gas success ret =>
      refine pops left.object names (by simp [running]) ⟨_, rfl⟩ ?_ rfl
      simp only [frames, running, object, Machine.leave, List.append_nil]
  | bequeath paid isSuicide stack found =>
      refine pops paid.caller.object names (by simp [paid.running]) ⟨_, rfl⟩ ?_ rfl
      simp only [frames, paid.running, Machine.leave, List.append_nil]
  | go paid mild posts performs goes =>
      refine keeps names (by simp [paid.running]) (by simp) ?_ rfl
      simp only [frames, paid.running]
      rfl
  | send paid loaded mild sends snapshot queue =>
      refine keeps names (by simp [paid.running]) (by simp) ?_ rfl
      simp only [frames, paid.running, sends.object, List.map_cons, List.reverse_cons,
        List.append_nil]
  | search paid isCreate taken =>
      refine ⟨⟨fun going => absurd rfl going, fun executing => ?_⟩, id⟩
      cases executing
  | answer executing gas | panic executing outermost world =>
      refine keeps names (by simp [executing]) (by simp) ?_ rfl
      simp only [frames, executing]
  | @run msg caller object w executing delivers code =>
      rw [(proceeds_enter { m with world := w } _).world] at names
      unfold enter
      split
      · refine keeps names (by simp [executing]) (by simp) ?_ rfl
        simp only [frames, executing]
      · exact stacked.push valid names executing rfl rfl rfl
  | @raise msg caller sender waiting w executing waitingEq world =>
      refine pops sender.closure.object names (by simp [executing]) ⟨_, rfl⟩ ?_ rfl
      simp only [frames, waitingEq, executing, Machine.leave, List.map_cons, List.reverse_cons,
        List.append_nil]
  | resume returning waitingEq mild receives | revert returning waitingEq failed =>
      refine keeps names (by simp [returning]) (by simp) ?_ rfl
      simp only [frames, waitingEq, returning, List.map_cons, List.reverse_cons, List.append_nil]
  | @fail result caller waiting returning waitingEq =>
      refine pops caller.closure.object names (by simp [returning]) ⟨_, rfl⟩ ?_ rfl
      simp only [frames, waitingEq, returning, Machine.leave, List.map_cons, List.reverse_cons,
        List.append_nil]

end Stacked

end Machine

end Thelonious
