import Thelonious.Chain.PostedGas
import Thelonious.Chain.Refund
import Thelonious.Vm.CallStack

/-!
# The call stack of a transition

`Eval` uses one virtual machine for the closure of the receiver and for every message
that is posted.  Whatever the contracts do, and however they fail, the call stack is
the origin followed by the addresses of the closures that are being run.
-/

namespace Thelonious

namespace Config

/-- The call stack that the machine has, or will go on with. -/
def callStack : Config → List Bytes
  | .evaluating _ m => m.callStack
  | .dispatching _ _ _ _ _ callStack _ => callStack
  | .posting _ _ _ _ _ m => m.callStack
  | .finished _ _ => []

/-- The machine is stacked on the origin, which is the address of the sender. -/
def Stacked (origin : Bytes) : Config → Prop
  | .evaluating eval m => m.Stacked origin ∧ (m.world.heap eval.sen).address = origin
  | .dispatching eval _ _ _ _ callStack w =>
      (callStack = [] ∨ callStack = [origin]) ∧ (w.heap eval.sen).address = origin
  | .posting eval _ _ _ _ m => m.Stacked origin ∧ (m.world.heap eval.sen).address = origin
  | .finished _ _ => True

variable {host : Host} {db : Database} {tx : Transaction} {block : Header} {config : Config}
  {origin : Bytes}

theorem world_of_machine {m : Machine} (machineEq : config.machine = some m) :
    config.world = m.world ∧ config.callStack = m.callStack ∧ config.returned = none := by
  cases config with
  | evaluating => cases machineEq; exact ⟨rfl, rfl, rfl⟩
  | dispatching => cases machineEq
  | posting => cases machineEq; exact ⟨rfl, rfl, rfl⟩
  | finished => cases machineEq

theorem Stacked.machine (stacked : config.Stacked origin) {m : Machine}
    (machineEq : config.machine = some m) : m.Stacked origin := by
  cases config with
  | evaluating eval machine => exact Option.some.inj machineEq ▸ stacked.1
  | dispatching => cases machineEq
  | posting eval ret gas queue index machine => exact Option.some.inj machineEq ▸ stacked.1
  | finished => cases machineEq

theorem callStack_of_outermost {m : Machine} {result : Result} (stacked : m.Stacked origin)
    (returning : m.control = .returning result) (outermost : m.waiting = []) :
    m.callStack = [] ∨ m.callStack = [origin] := by
  have none : m.frames = [] := by simp [Machine.frames, returning, outermost]
  rcases stacked.callStack (by simp [returning]) with full | ⟨empty, -⟩
  · right
    rw [full, Machine.addresses, none, List.map_nil]
  · exact .inl empty

theorem names_refundGas (w : World) (cb sen : Ref) (gas price : Int) :
    World.Names w (StateTransition.refundGas w cb sen gas price) :=
  (World.Names.modify w rfl).trans (.modify _ rfl)

theorem names_step (host : Host) (db : Database) (tx : Transaction) (block : Header)
    (config : Config) :
    World.Names config.world (StateTransition.step host db tx block config).world := by
  have stage := StateTransition.stage_step host db tx block config
  generalize StateTransition.step host db tx block config = after at stage ⊢
  cases stage with
  | run | deliver => exact Machine.names_step _ _ _
  | succeed | post | join | rest => exact .refl _
  | settle settled ends =>
      refine World.Names.trans ?_ (names_refundGas settled.world _ _ _ _)
      cases StateTransition.settles_of_settlement ends with
      | failed => exact .set _ _
      | created => exact .modify _ rfl
      | called | panicked => exact .refl _

/-- A step of the transition keeps the discipline, and does not empty the stack as long as
the transition goes on. -/
theorem Stacked.step (valid : config.Valid) (stacked : config.Stacked origin) :
    (StateTransition.step host db tx block config).Stacked origin ∧
      (config.callStack ≠ [] →
        (StateTransition.step host db tx block config).returned = none →
        (StateTransition.step host db tx block config).callStack ≠ []) := by
  have stage := StateTransition.stage_step host db tx block config
  generalize StateTransition.step host db tx block config = after at stage ⊢
  cases stage with
  | run eval m =>
      obtain ⟨next, pushed⟩ := stacked.1.step valid.1 (host.env tx block) db
      refine ⟨⟨next, ?_⟩, fun before _ => pushed before⟩
      rw [(Machine.names_step _ _ _).address_eq valid.2.1.2]
      exact stacked.2
  | succeed eval m result returning outermost
  | join eval ret gas queue index m result returning outermost =>
      exact ⟨⟨callStack_of_outermost stacked.1 returning outermost, stacked.2⟩,
        fun pushed _ => pushed⟩
  | post =>
      obtain ⟨stack, sender⟩ := stacked
      refine ⟨⟨⟨fun _ => ?_, fun executing _ => ?_⟩, sender⟩, fun pushed _ => pushed⟩
      · exact stack.symm.imp id fun empty => ⟨empty, rfl⟩
      · cases executing
        exact sender
  | deliver eval ret gas queue index m =>
      obtain ⟨next, pushed⟩ := stacked.1.step valid.1 (host.env tx block) db
      refine ⟨⟨next, ?_⟩, fun before _ => pushed before⟩
      rw [(Machine.names_step _ _ _).address_eq valid.2.2]
      exact stacked.2
  | settle | rest => exact ⟨trivial, fun _ going => by cases going⟩

end Config

namespace StateTransition

variable {host : Host} {db : Database} {tx : Transaction} {block : Header} {cb : Ref} {w : World}

theorem stacked_evaluate {eval : Evaluation} {gas : Int} {origin : Bytes}
    (sender : (w.heap eval.sen).address = origin) :
    (evaluate eval gas w).Stacked origin := by
  unfold evaluate
  split
  · exact ⟨.inl rfl, sender⟩
  · unfold Machine.enter
    split
    · exact ⟨⟨fun _ => .inr ⟨rfl, rfl⟩, fun executing => by cases executing⟩, sender⟩
    · refine ⟨⟨fun _ => .inl ?_, fun executing => by cases executing⟩, sender⟩
      rw [← sender]
      rfl

theorem names_transfer {sen : Ref} {eval : Evaluation} {after : World}
    (transferred : transfer host db tx cb sen w = some (eval, after)) : World.Names w after := by
  unfold transfer at transferred
  split at transferred
  · cases transferred
    have taken : World.Names w (w.modify sen (.subAmount tx.value)) := .modify w rfl
    exact taken.trans ((World.Names.install _ _ _).trans
      ((World.Names.modify _ rfl).trans (.modify _ rfl)))
  · obtain ⟨⟨receiver, loaded⟩, found, transferred⟩ := Option.bind_eq_some_iff.mp transferred
    cases transferred
    exact (World.names_getOrNewStateObject found).trans
      ((World.Names.modify _ rfl).trans (.modify _ rfl))

theorem stacked_start (sound : w.Sound)
    (recovers : ∀ addr, host.sender tx = some addr → addr.length = 20) :
    (start host db tx cb w).Stacked (host.env tx block).origin := by
  rw [start_eq]
  cases begins : outset host db tx cb w with
  | refused after => trivial
  | stopped sen after gas => trivial
  | begun eval after gas =>
      obtain ⟨sen, bought, checked, -, transferred, -, -⟩ := outset_begun begins
      obtain ⟨addr, loaded, recovered, got, -, -, rfl⟩ := preCheck_ok checked
      obtain ⟨loads, found⟩ := World.loads_getOrNewStateObject sound got
      obtain ⟨below, named, -⟩ := loads.sound.held found
      obtain ⟨-, -, senEq⟩ := transfer_fields transferred
      have bought : World.Names loaded (((loaded.modify cb (.addAmount tx.gasValue)).modify sen
          (.subAmount tx.gasValue)).modify sen .incrementNonce) :=
        (World.Names.modify _ rfl).trans ((World.Names.modify _ rfl).trans (.modify _ rfl))
      have origin : (host.env tx block).origin = addr := by simp [Host.env, recovered]
      apply stacked_evaluate
      rw [senEq, (names_transfer transferred).address_eq below, bought.address_eq below, named,
        origin, address_of_length (recovers addr recovered)]

variable (host db tx block cb w) in
theorem stacked_run (sound : w.Sound) (below : cb < w.next)
    (recovers : ∀ addr, host.sender tx = some addr → addr.length = 20) (n : Nat) :
    (run host db tx block cb w n).Stacked (host.env tx block).origin := by
  induction n with
  | zero => exact stacked_start sound recovers
  | succ n induction =>
      rw [run_succ]
      exact (induction.step (valid_run sound below n)).1

/-- What holds between two steps of a transition that has not returned. -/
theorem callStack_run (sound : w.Sound) (below : cb < w.next)
    (recovers : ∀ addr, host.sender tx = some addr → addr.length = 20) {first last : Nat}
    (le : first ≤ last) :
    World.Names (run host db tx block cb w first).world (run host db tx block cb w last).world ∧
      ((run host db tx block cb w first).callStack ≠ [] →
        (run host db tx block cb w last).returned = none →
        (run host db tx block cb w last).callStack ≠ []) := by
  induction last, le using Nat.le_induction with
  | base => exact ⟨.refl _, fun pushed _ => pushed⟩
  | succ last le induction =>
      obtain ⟨names, pushed⟩ := induction
      have stacked := stacked_run host db tx block cb w sound below recovers last
      rw [run_succ]
      refine ⟨names.trans (Config.names_step _ _ _ _ _), fun before going => ?_⟩
      apply (stacked.step (valid_run sound below last)).2 ?_ going
      apply pushed before
      by_contra returned
      rw [step_of_returned (Option.ne_none_iff_isSome.mp returned)] at going
      exact returned going

/-- At every instruction of a transition the call stack is the origin followed by the
addresses of the closures that are being run; and when a message has been executed, it is
the one the message found, or the origin if that was the first closure to be run. -/
theorem callStack_disciplined (host : Host) (db : Database) (tx : Transaction) (block : Header)
    (cb : Ref) (w : World) (sound : w.Sound) (below : cb < w.next)
    (recovers : ∀ addr, host.sender tx = some addr → addr.length = 20) (n : Nat) (m : Machine)
    (machineEq : (run host db tx block cb w n).machine = some m) :
    (∀ closure l, m.control = .running closure l →
      m.callStack = (host.env tx block).origin :: m.addresses) ∧
    (∀ result, m.control = .returning result → m.waiting = [] →
      m.callStack = [] ∨ m.callStack = [(host.env tx block).origin]) ∧
    ∀ result, m.control = .returning result → ∀ first ≤ n, ∀ before msg caller,
      (run host db tx block cb w first).machine = some before →
      before.control = .executing msg caller → before.waiting = m.waiting →
      m.callStack = before.callStack ∨
        before.callStack = [] ∧ m.callStack = [(host.env tx block).origin] := by
  have stacked := (stacked_run host db tx block cb w sound below recovers n).machine machineEq
  refine ⟨fun closure l running => ?_, fun result returning outermost => ?_,
    fun result returning first le before msg caller beforeEq executing same => ?_⟩
  · exact stacked.callStack_eq (by simp [running]) (by simp [Machine.frames, running])
  · exact Config.callStack_of_outermost stacked returning outermost
  · obtain ⟨names, pushed⟩ := callStack_run sound below recovers le
    obtain ⟨worldEq, callStackEq, going⟩ := Config.world_of_machine machineEq
    obtain ⟨firstWorld, firstCallStack, -⟩ := Config.world_of_machine beforeEq
    rw [firstWorld, worldEq] at names
    rw [firstCallStack, callStackEq] at pushed
    have framesEq : m.frames = before.frames := by
      simp only [Machine.frames, returning, executing, same]
    have addressesEq : m.addresses = before.addresses := by
      rw [Machine.addresses, framesEq]
      exact ((valid_run sound below first).machine beforeEq).addresses_eq names
        fun _ member => member
    have earlier := (stacked_run host db tx block cb w sound below recovers first).machine beforeEq
    rcases earlier.callStack (by simp [executing]) with found | ⟨found, none⟩
    · rcases stacked.callStack (by simp [returning]) with left | ⟨left, -⟩
      · exact .inl (by rw [left, addressesEq, found])
      · exact absurd left (pushed (by simp [found]) going)
    · rcases stacked.callStack (by simp [returning]) with left | ⟨left, -⟩
      · exact .inr ⟨found, by rw [left, addressesEq, Machine.addresses, none, List.map_nil]⟩
      · exact .inl (left.trans found.symm)

/-- The posting contract, called by a sender that is recovered in full. -/
abbrev postingRun (steps : Nat) : Config :=
  run { codelessHost with sender := fun _ => some (address [1]) } ∅ postingTx sampleHeader 2
    (postingWorld 255) steps

/-- A posted message runs after ten steps. -/
theorem callStack_disciplined_posted :
    ∃ m closure l, (postingRun 10).machine = some m ∧ m.control = .running closure l ∧
      m.callStack = address [1] :: m.addresses := by
  have runs : (postingRun 10).machine.bind Machine.instruction = some (.push 1) := by
    decide +kernel
  obtain ⟨m, machineEq, instruction⟩ := Option.bind_eq_some_iff.mp runs
  obtain ⟨closure, l, running⟩ : ∃ closure l, m.control = .running closure l := by
    unfold Machine.instruction at instruction
    split at instruction
    · exact ⟨_, _, ‹_›⟩
    · cases instruction
  refine ⟨m, closure, l, machineEq, running, ?_⟩
  refine (callStack_disciplined { codelessHost with sender := fun _ => some (address [1]) } ∅
    postingTx sampleHeader 2 (postingWorld 255) sound_sampleWorld (Nat.lt_succ_self 2) ?_
    10 m machineEq).1 closure l running
  intro addr recovered
  cases recovered
  exact length_address _

end StateTransition

end Thelonious
