import Thelonious.Chain.StateTransition
import Thelonious.Vm.Effects

/-!
# Runs of the state transition

Every configuration that a transition reaches has a sound state, and only uses
references that have been handed out.  The state never gets back an object that
it has lost.
-/

namespace Thelonious

/-- The objects of the coinbase and of the sender have been handed out. -/
def Evaluation.Below (eval : Evaluation) (w : World) : Prop :=
  eval.cb < w.next ∧ eval.sen < w.next

theorem Evaluation.Below.mono {eval : Evaluation} {w after : World} (below : eval.Below w)
    (next_le : w.next ≤ after.next) : eval.Below after :=
  ⟨below.1.trans_le next_le, below.2.trans_le next_le⟩

namespace World

/-- The object is none of those the state has. -/
structure Lost (w : World) (ref : Ref) : Prop where
  below : ref < w.next
  absent (addr : Bytes) : AList.lookup addr w.state.stateObjects ≠ some ref

namespace Renews

variable {w after : World}

theorem lost (renews : Renews w after) {ref : Ref} (lost : w.Lost ref) : after.Lost ref where
  below := lost.below.trans_le renews.next_le
  absent addr found := by
    rcases renews.fresh found with found | above
    · exact lost.absent addr found
    · exact absurd lost.below above.not_gt

end Renews

/-- Going back to a copy loses every object there was. -/
theorem lost_set {w : World} {copied : State StateObject} {ref : Ref} (below : ref < w.next) :
    (w.set copied).Lost ref where
  below := below.trans_le (next_le_set w copied)
  absent _ found := absurd below (next_le_of_lookup_set found).not_gt

end World

theorem Machine.Valid.renews_step {env : Env} {db : Database} {m : Machine} (valid : m.Valid) :
    World.Renews m.world (m.step env db).world := by
  exact (valid.deed (deed_step env db m)).2

namespace StateTransition

/-! ### One step -/

/-- The end of a transition that has begun: what `RefundGas` is called with. -/
structure Settlement where
  eval : Evaluation
  world : World
  gas : Int
  ok : Bool

/-- The settlement, when the next step is the last one. -/
def settlement : Config → Option Settlement
  | .evaluating eval m =>
      match m.control, m.waiting with
      | .returning result, [] =>
          if result.ok then none
          else some ⟨eval, m.world.set eval.snapshot, result.gas, false⟩
      | _, _ => none
  | .dispatching eval ret gas queue index _ w =>
      match queue[index]? with
      | some _ => none
      | none =>
          let w := if eval.tx.recipient.length = 0 then
              w.modify eval.receiver (.setCode ret)
            else w
          some ⟨eval, w, gas, true⟩
  | .posting eval _ gas _ _ m =>
      match m.control, m.waiting with
      | .returning _, [] => none
      | .panicking, _ => some ⟨eval, m.world, gas, false⟩
      | _, _ => none
  | .finished _ _ => none

def Settlement.ending (settled : Settlement) : Config :=
  finish settled.eval settled.gas settled.world settled.ok

/-- How the last step finds the transition: the closure of the receiver has failed, no message
is left of a creation or a call, or a message panics. -/
inductive Settles : Config → Settlement → Prop
  | failed (eval : Evaluation) (m : Machine) (result : Result)
      (returning : m.control = .returning result) (outermost : m.waiting = [])
      (failed : result.ok = false) :
      Settles (.evaluating eval m) ⟨eval, m.world.set eval.snapshot, result.gas, false⟩
  | created (eval : Evaluation) (ret : Bytes) (gas : Int) (queue : List Message) (index : Nat)
      (callStack : List Bytes) (w : World) (last : queue[index]? = none)
      (creates : eval.tx.recipient.length = 0) :
      Settles (.dispatching eval ret gas queue index callStack w)
        ⟨eval, w.modify eval.receiver (.setCode ret), gas, true⟩
  | called (eval : Evaluation) (ret : Bytes) (gas : Int) (queue : List Message) (index : Nat)
      (callStack : List Bytes) (w : World) (last : queue[index]? = none)
      (calls : ¬ eval.tx.recipient.length = 0) :
      Settles (.dispatching eval ret gas queue index callStack w) ⟨eval, w, gas, true⟩
  | panicked (eval : Evaluation) (ret : Bytes) (gas : Int) (queue : List Message) (index : Nat)
      (m : Machine) (panicking : m.control = .panicking) :
      Settles (.posting eval ret gas queue index m) ⟨eval, m.world, gas, false⟩

variable {host : Host} {db : Database} {tx : Transaction} {block : Header} {config : Config}
  {settled : Settlement}

theorem settles_of_settlement (found : settlement config = some settled) :
    Settles config settled := by
  cases config with
  | evaluating eval m =>
      simp only [settlement] at found
      split at found
      · rename_i result returning outermost
        split at found
        · cases found
        · rename_i failed
          cases found
          exact .failed eval m result returning outermost (by simpa using failed)
      · cases found
  | dispatching eval ret gas queue index callStack w =>
      simp only [settlement] at found
      split at found
      · cases found
      · rename_i last
        split at found
        · cases found
          exact .created eval ret gas queue index callStack w last ‹_›
        · cases found
          exact .called eval ret gas queue index callStack w last ‹_›
  | posting eval ret gas queue index m =>
      simp only [settlement] at found
      split at found
      · cases found
      · rename_i panicking
        cases found
        exact .panicked eval ret gas queue index m panicking
      · cases found
  | finished w ok => cases found

theorem step_of_settlement (found : settlement config = some settled) :
    step host db tx block config = settled.ending := by
  cases settles_of_settlement found with
  | failed eval m result returning outermost failed =>
      simp [StateTransition.step, returning, outermost, failed, Settlement.ending]
  | created eval ret gas queue index callStack w last creates =>
      simp only [StateTransition.step, last, creates, if_true, Settlement.ending]
  | called eval ret gas queue index callStack w last calls =>
      simp only [StateTransition.step, last, calls, if_false, Settlement.ending]
  | panicked eval ret gas queue index m panicking =>
      simp only [StateTransition.step, panicking, Settlement.ending]

/-- What a step does: the machine takes one, the transition goes from the closure to the
messages or from one message to the next, or it is settled. -/
inductive Stage (host : Host) (db : Database) (tx : Transaction) (block : Header) :
    Config → Config → Prop
  | run (eval : Evaluation) (m : Machine) : Stage host db tx block (.evaluating eval m)
      (.evaluating eval (m.step (host.env tx block) db))
  | succeed (eval : Evaluation) (m : Machine) (result : Result)
      (returning : m.control = .returning result) (outermost : m.waiting = [])
      (ok : result.ok = true) : Stage host db tx block (.evaluating eval m)
        (.dispatching eval result.ret result.gas m.queue 0 m.callStack m.world)
  | post (eval : Evaluation) (ret : Bytes) (gas : Int) (queue : List Message) (index : Nat)
      (callStack : List Bytes) (w : World) (msg : Message) (next : queue[index]? = some msg) :
      Stage host db tx block (.dispatching eval ret gas queue index callStack w)
        (.posting eval ret gas queue index ⟨w, [], callStack, [], .executing msg eval.sen⟩)
  | deliver (eval : Evaluation) (ret : Bytes) (gas : Int) (queue : List Message) (index : Nat)
      (m : Machine) : Stage host db tx block (.posting eval ret gas queue index m)
        (.posting eval ret gas queue index (m.step (host.env tx block) db))
  | join (eval : Evaluation) (ret : Bytes) (gas : Int) (queue : List Message) (index : Nat)
      (m : Machine) (result : Result) (returning : m.control = .returning result)
      (outermost : m.waiting = []) : Stage host db tx block (.posting eval ret gas queue index m)
        (.dispatching eval ret gas (if result.ok then queue ++ m.queue else queue) (index + 1)
          m.callStack m.world)
  | settle {config : Config} (settled : Settlement) (ends : settlement config = some settled) :
      Stage host db tx block config settled.ending
  | rest (w : World) (ok : Bool) : Stage host db tx block (.finished w ok) (.finished w ok)

variable (host db tx block) in
theorem stage_step (config : Config) :
    Stage host db tx block config (step host db tx block config) := by
  cases config with
  | evaluating eval m =>
      simp only [StateTransition.step]
      split
      · rename_i result returning outermost
        split
        · exact .succeed eval m result returning outermost ‹_›
        · exact .settle ⟨eval, m.world.set eval.snapshot, result.gas, false⟩
            (by simp [settlement, *])
      · exact .run eval m
  | dispatching eval ret gas queue index callStack w =>
      simp only [StateTransition.step]
      split
      · exact .post eval ret gas queue index callStack w _ ‹_›
      · exact .settle ⟨eval, if eval.tx.recipient.length = 0 then
          w.modify eval.receiver (.setCode ret) else w, gas, true⟩ (by simp [settlement, *])
  | posting eval ret gas queue index m =>
      simp only [StateTransition.step]
      split
      · exact .join eval ret gas queue index m _ ‹_› ‹_›
      · exact .settle ⟨eval, m.world, gas, false⟩ (by simp [settlement, *])
      · exact .deliver eval ret gas queue index m
  | finished w ok => exact .rest w ok

end StateTransition

namespace Config

/-- The state of the transition. -/
def world : Config → World
  | .evaluating _ m => m.world
  | .dispatching _ _ _ _ _ _ w => w
  | .posting _ _ _ _ _ m => m.world
  | .finished w _ => w

/-- The machine that runs, if any. -/
def machine : Config → Option Machine
  | .evaluating _ m => some m
  | .posting _ _ _ _ _ m => some m
  | _ => none

/-- Whether the transition has returned, and without error. -/
def returned : Config → Option Bool
  | .finished _ ok => some ok
  | _ => none

/-- The state is sound, and the references in use have been handed out. -/
def Valid : Config → Prop
  | .evaluating eval m => m.Valid ∧ eval.Below m.world ∧ eval.snapshot.SoundCopy
  | .dispatching eval _ _ _ _ _ w => w.Sound ∧ eval.Below w
  | .posting eval _ _ _ _ m => m.Valid ∧ eval.Below m.world
  | .finished _ _ => True

variable {host : Host} {db : Database} {tx : Transaction} {block : Header} {config : Config}

theorem Valid.machine (valid : config.Valid) {m : Machine} (machineEq : config.machine = some m) :
    m.Valid := by
  cases config with
  | evaluating eval machine => exact Option.some.inj machineEq ▸ valid.1
  | dispatching => exact absurd machineEq (by simp [Config.machine])
  | posting eval ret gas queue index machine => exact Option.some.inj machineEq ▸ valid.1
  | finished => exact absurd machineEq (by simp [Config.machine])

theorem Valid.step (valid : config.Valid) :
    (StateTransition.step host db tx block config).Valid := by
  have stage := StateTransition.stage_step host db tx block config
  generalize StateTransition.step host db tx block config = after at stage ⊢
  cases stage with
  | run => exact ⟨valid.1.step, valid.2.1.mono valid.1.renews_step.next_le, valid.2.2⟩
  | succeed => exact ⟨valid.1.sound, valid.2.1⟩
  | post =>
      obtain ⟨sound, below⟩ := valid
      refine ⟨⟨sound, fun acting => ?_, by simp⟩, below⟩
      exact (Option.some.inj acting) ▸ below.2
  | deliver => exact ⟨valid.1.step, valid.2.mono valid.1.renews_step.next_le⟩
  | join => exact ⟨valid.1.sound, valid.2⟩
  | settle | rest => trivial

theorem renews_refundGas (w : World) (cb sen : Ref) (gas price : Int) :
    World.Renews w (StateTransition.refundGas w cb sen gas price) :=
  (World.Renews.modify w _ _).trans (.modify _ _ _)

theorem Valid.renews_step (valid : config.Valid) :
    World.Renews config.world (StateTransition.step host db tx block config).world := by
  have stage := StateTransition.stage_step host db tx block config
  generalize StateTransition.step host db tx block config = after at stage ⊢
  cases stage with
  | run | deliver => exact valid.1.renews_step
  | succeed | post | join | rest => exact .refl _
  | settle settled ends =>
      refine World.Renews.trans ?_ (renews_refundGas settled.world ..)
      cases StateTransition.settles_of_settlement ends with
      | failed => exact .set ..
      | created => exact .modify ..
      | called | panicked => exact .refl _

end Config

/-! ### The beginning of a transition -/

namespace StateTransition

open World

section Outset

variable (host : Host) (db : Database) (tx : Transaction) (cb : Ref)

/-- The beginning of `TransitionState`: it is refused by `preCheck`, it stops before
anything is evaluated, or the evaluation begins. -/
inductive Outset
  | refused (w : World)
  | stopped (sen : Ref) (w : World) (gas : Int)
  | begun (eval : Evaluation) (w : World) (gas : Int)

/-- `TransitionState` up to the evaluation, with the gas that is left. -/
def outset (w : World) : Outset :=
  match preCheck host db tx cb w with
  | .error w => .refused w
  | .ok (sen, w) =>
      let w := w.modify sen .incrementNonce
      let dataPrice : Int := tx.data.length * 5
      if tx.gas < 500 then .stopped sen w tx.gas
      else if tx.gas - 500 < dataPrice then .stopped sen w (tx.gas - 500)
      else
        let gas := tx.gas - 500 - dataPrice
        if (w.heap sen).balance < tx.value then .stopped sen w gas
        else
          match transfer host db tx cb sen w with
          | none => .stopped sen w gas
          | some (eval, w) => .begun eval w gas

/-- The first configuration. -/
def Outset.config : Outset → Config
  | .refused w => .finished w false
  | .stopped sen w gas => .finished (refundGas w cb sen gas tx.gasPrice) false
  | .begun eval w gas => evaluate eval gas w

theorem start_eq (w : World) :
    start host db tx cb w = (outset host db tx cb w).config tx cb := by
  unfold start outset
  cases preCheck host db tx cb w with
  | error after => rfl
  | ok bought =>
      dsimp only
      split
      · rfl
      · split
        · rfl
        · split
          · rfl
          · cases transfer host db tx cb bought.1 (bought.2.modify bought.1 .incrementNonce) with
            | none => rfl
            | some moved => rfl

end Outset

variable {host : Host} {db : Database} {tx : Transaction} {block : Header} {cb : Ref} {w : World}

theorem step_of_returned {config : Config} (returned : config.returned.isSome) :
    step host db tx block config = config := by
  cases config with
  | finished => rfl
  | evaluating => cases returned
  | dispatching => cases returned
  | posting => cases returned

variable {sen : Ref} {after : World} {eval : Evaluation} {gas : Int}

/-- What a sender has paid that passes `preCheck`. -/
theorem preCheck_ok {bought : World} (checked : preCheck host db tx cb w = .ok (sen, bought)) :
    ∃ addr loaded, host.sender tx = some addr ∧
      w.getOrNewStateObject db addr = some (sen, loaded) ∧
      tx.gasValue ≤ (loaded.heap sen).balance ∧ tx.gas ≤ (loaded.heap cb).gasPool ∧
      bought = (loaded.modify cb (.addAmount tx.gasValue)).modify sen (.subAmount tx.gasValue) := by
  unfold preCheck at checked
  split at checked
  · cases checked
  · split at checked
    · cases checked
    · rename_i addr recovered
      split at checked
      · cases checked
      · rename_i sender loaded got
        split at checked
        · cases checked
        · rename_i covered
          split at checked
          · cases checked
          · rename_i pool
            cases checked
            exact ⟨addr, loaded, recovered, got, not_lt.mp covered, not_lt.mp pool, rfl⟩

theorem preCheck_error (checked : preCheck host db tx cb w = .error after) :
    after = w ∨ ∃ addr ref, w.getOrNewStateObject db addr = some (ref, after) := by
  unfold preCheck at checked
  split at checked
  · cases checked
    exact .inl rfl
  · split at checked
    · cases checked
      exact .inl rfl
    · rename_i addr _
      split at checked
      · cases checked
        exact .inl rfl
      · rename_i sender loaded got
        have loads : ∃ addr ref, w.getOrNewStateObject db addr = some (ref, loaded) :=
          ⟨addr, sender, got⟩
        split at checked
        · cases checked
          exact .inr loads
        · split at checked
          · cases checked
            exact .inr loads
          · cases checked

theorem outset_stopped (stopped : outset host db tx cb w = .stopped sen after gas) :
    ∃ bought, preCheck host db tx cb w = .ok (sen, bought) ∧
      after = bought.modify sen .incrementNonce ∧ gas ≤ tx.gas ∧ min 0 tx.gas ≤ gas := by
  unfold outset at stopped
  split at stopped
  · cases stopped
  · rename_i sender bought checked
    dsimp only at stopped
    split at stopped
    · cases stopped
      exact ⟨bought, checked, rfl, le_rfl, by omega⟩
    · split at stopped
      · cases stopped
        exact ⟨bought, checked, rfl, by omega, by omega⟩
      · split at stopped
        · cases stopped
          exact ⟨bought, checked, rfl, by omega, by omega⟩
        · split at stopped
          · cases stopped
            exact ⟨bought, checked, rfl, by omega, by omega⟩
          · cases stopped

theorem outset_begun (begun : outset host db tx cb w = .begun eval after gas) :
    ∃ sen bought, preCheck host db tx cb w = .ok (sen, bought) ∧
      tx.value ≤ ((bought.modify sen .incrementNonce).heap sen).balance ∧
      transfer host db tx cb sen (bought.modify sen .incrementNonce) = some (eval, after) ∧
      gas = tx.gas - 500 - tx.data.length * 5 ∧ 0 ≤ gas := by
  unfold outset at begun
  split at begun
  · cases begun
  · rename_i sender bought checked
    dsimp only at begun
    split at begun
    · cases begun
    · split at begun
      · cases begun
      · split at begun
        · cases begun
        · rename_i covered
          split at begun
          · cases begun
          · rename_i transferred
            cases begun
            exact ⟨sender, bought, checked, not_lt.mp covered, transferred, rfl, by omega⟩

theorem outset_refused (refused : outset host db tx cb w = .refused after) :
    preCheck host db tx cb w = .error after := by
  unfold outset at refused
  split at refused
  · cases refused
    assumption
  · dsimp only at refused
    split_ifs at refused
    split at refused
    · cases refused
    · cases refused

theorem preCheck_valid (sound : w.Sound) (checked : preCheck host db tx cb w = .ok (sen, after)) :
    after.Sound ∧ sen < after.next ∧ w.next ≤ after.next := by
  obtain ⟨addr, loaded, -, got, -, -, rfl⟩ := preCheck_ok checked
  obtain ⟨loads, lookupEq⟩ := loads_getOrNewStateObject sound got
  exact ⟨(loads.sound.modify rfl).modify rfl, (loads.sound.held lookupEq).1, loads.next_le⟩

theorem sound_makeContract (host : Host) (tx : Transaction) (sound : w.Sound) :
    (makeContract host tx w).2.Sound := by
  have installed : (w.install (address (creationAddress host tx))
      (.new (creationAddress host tx))).Sound := sound.install rfl (length_address _)
  exact installed.modify rfl

/-- What holds when the value has been transferred. -/
structure Evaluation.Valid (eval : Evaluation) (w : World) : Prop where
  sound : w.Sound
  below : eval.Below w
  receiver : eval.receiver < w.next
  copied : eval.snapshot.SoundCopy

theorem transfer_valid (sound : w.Sound) (cbBelow : cb < w.next) (senBelow : sen < w.next)
    (transferred : transfer host db tx cb sen w = some (eval, after)) :
    Evaluation.Valid eval after := by
  unfold transfer at transferred
  split at transferred
  · cases transferred
    have taken : (w.modify sen (.subAmount tx.value)).Sound := sound.modify rfl
    have made := sound_makeContract host tx taken
    exact ⟨made.modify rfl,
      ⟨cbBelow.trans (Nat.lt_succ_self _), senBelow.trans (Nat.lt_succ_self _)⟩,
      Nat.lt_succ_self _, taken.copy⟩
  · obtain ⟨⟨receiver, loaded⟩, found, transferred⟩ := Option.bind_eq_some_iff.mp transferred
    cases transferred
    obtain ⟨loads, lookupEq⟩ := loads_getOrNewStateObject sound found
    have moved : (Machine.transferred loaded sen receiver tx.value).Sound :=
      (loads.sound.modify rfl).modify rfl
    exact ⟨moved, ⟨cbBelow.trans_le loads.next_le, senBelow.trans_le loads.next_le⟩,
      (loads.sound.held lookupEq).1, moved.copy⟩

theorem transfer_fields (transferred : transfer host db tx cb sen w = some (eval, after)) :
    eval.tx = tx ∧ eval.cb = cb ∧ eval.sen = sen := by
  unfold transfer at transferred
  split at transferred
  · cases transferred
    exact ⟨rfl, rfl, rfl⟩
  · obtain ⟨⟨receiver, loaded⟩, -, transferred⟩ := Option.bind_eq_some_iff.mp transferred
    cases transferred
    exact ⟨rfl, rfl, rfl⟩

theorem valid_evaluate (valid : Evaluation.Valid eval w) :
    (evaluate eval gas w).Valid := by
  unfold evaluate
  split
  · exact ⟨valid.sound, valid.below⟩
  · rename_i code _
    have enters := Machine.proceeds_enter ⟨w, [], [], [], .panicking⟩
      ⟨eval.sen, eval.receiver, code, eval.tx.data, gas, eval.tx.gasPrice⟩
    refine ⟨⟨?_, fun acting => ?_, ?_⟩, ?_, valid.copied⟩
    · rw [enters.world]
      exact valid.sound
    · rw [enters.object acting, enters.world]
      exact valid.receiver
    · simp [List.suffix_nil.mp enters.waiting]
    · rw [enters.world]
      exact valid.below

theorem valid_start (sound : w.Sound) (below : cb < w.next) : (start host db tx cb w).Valid := by
  rw [start_eq]
  cases outsetEq : outset host db tx cb w with
  | refused | stopped => trivial
  | begun eval after gas =>
      obtain ⟨sen, bought, checked, -, transferred, -⟩ := outset_begun outsetEq
      obtain ⟨soundAfter, senBelow, next_le⟩ := preCheck_valid sound checked
      have counted : (bought.modify sen .incrementNonce).Sound := soundAfter.modify rfl
      exact valid_evaluate (transfer_valid counted (below.trans_le next_le) senBelow transferred)

theorem run_succ (host : Host) (db : Database) (tx : Transaction) (block : Header) (cb : Ref)
    (w : World) (steps : Nat) :
    run host db tx block cb w (steps + 1) =
      step host db tx block (run host db tx block cb w steps) :=
  Function.iterate_succ_apply' _ _ _

theorem valid_run (sound : w.Sound) (below : cb < w.next) (steps : Nat) :
    (run host db tx block cb w steps).Valid := by
  induction steps with
  | zero => exact valid_start sound below
  | succ steps induction =>
      rw [run_succ]
      exact induction.step

theorem lost_run (sound : w.Sound) (below : cb < w.next) {first last : Nat} (le : first ≤ last)
    {ref : Ref} (lost : (run host db tx block cb w first).world.Lost ref) :
    (run host db tx block cb w last).world.Lost ref := by
  induction last, le using Nat.le_induction with
  | base => exact lost
  | succ last le induction =>
      rw [run_succ]
      exact (valid_run sound below last).renews_step.lost induction

end StateTransition

/-! ### A small state

A sender, a contract and a coinbase, at the addresses 1, 2 and 3. -/

def sampleHost (sha3Bin : Bytes → Bytes) : Host where
  sha3Bin := sha3Bin
  ecrecoverFunc _ := []
  sha256Func data := data
  ripemd160Func data := data
  sender _ := some [1]
  doug := []
  validateTx _ _ := true
  validateCreate _ _ := true

/-- The digest of an account without code. -/
def codelessDigest : List (Bytes × Bytes) :=
  [([], digest 0xc5d2460186f7233c927e7db2dcc703c0e500b653ca82273b7bfad8045d85a470)]

def codelessHost : Host := sampleHost (sampled codelessDigest shortened)

def sampleTx (recipient : Bytes) (value gas gasPrice : Int) : Transaction :=
  { nonce := 0, recipient := recipient, value := value, gas := gas, gasPrice := gasPrice,
    data := [], v := 27, r := [], s := [], contractCreation := false }

def sampleHeader : Header :=
  { prevHash := [], uncleSha := [], coinbase := address [3], root := .str [], txSha := [],
    difficulty := 0, number := 1, minGasPrice := 0, gasLimit := 10000, gasUsed := 0, time := 0,
    extra := [], nonce := [] }

def sampleHeap (funds balance : Int) (code coinbaseCode : Bytes) : Ref → StateObject
  | 0 => { StateObject.new [1] with balance := funds }
  | 1 => { StateObject.new [2] with balance := balance, code := code }
  | _ => { StateObject.new [3] with gasPool := 10000, code := coinbaseCode }

theorem nodup_sampleAddresses : [address [1], address [2], address [3]].Nodup := by
  decide

def sampleWorld (funds balance : Int) (code coinbaseCode : Bytes) : World where
  heap := sampleHeap funds balance code coinbaseCode
  next := 3
  state := ⟨.new (.str []),
    ⟨[⟨address [1], 0⟩, ⟨address [2], 1⟩, ⟨address [3], 2⟩], nodup_sampleAddresses⟩⟩

section Sample

variable {funds balance : Int} {code coinbaseCode : Bytes}

theorem sampleWorld_lookup {addr : Bytes} {ref : Ref}
    (found : AList.lookup addr
      (sampleWorld funds balance code coinbaseCode).state.stateObjects = some ref) :
    (addr = address [1] ∧ ref = 0) ∨ (addr = address [2] ∧ ref = 1) ∨
      (addr = address [3] ∧ ref = 2) := by
  simpa [sampleWorld] using AList.mem_lookup_iff.mp found

theorem sound_sampleWorld : (sampleWorld funds balance code coinbaseCode).Sound := by
  constructor
  intro addr ref found
  rcases sampleWorld_lookup found with ⟨rfl, rfl⟩ | ⟨rfl, rfl⟩ | ⟨rfl, rfl⟩
  · exact ⟨Nat.zero_lt_succ 2, rfl, length_address _⟩
  · exact ⟨Nat.one_lt_succ_succ 1, rfl, length_address _⟩
  · exact ⟨Nat.lt_succ_self 2, rfl, length_address _⟩

end Sample

end Thelonious
