import Thelonious.Chain.Runs

/-!
# A transaction creates no money

The sum of all balances grows when an amount is taken from an object the state
does not count: one that `Set` has replaced while a closure goes on with it, or
one that is already marked for deletion.  In a run in which every amount is taken
from an object of the state no state has a larger sum than the first.
-/

namespace Thelonious

namespace World

variable {db : Database} {w : World}

section Balance

variable {ref : Ref} {change : StateObject → StateObject}
variable (addressEq : (change (w.heap ref)).address = (w.heap ref).address)
variable (removeEq : (change (w.heap ref)).remove = (w.heap ref).remove)

include addressEq removeEq

theorem counts_modify (other : Ref) : (w.modify ref change).Counts other ↔ w.Counts other := by
  unfold Counts
  rw [holds_modify addressEq]
  by_cases same : other = ref
  · rw [same, heap_modify_self, removeEq]
  · rw [heap_modify_of_ne same]

theorem total_modify_balance (sound : w.Sound) {amount : Int}
    (balanceEq : (change (w.heap ref)).balance = (w.heap ref).balance + amount) :
    (w.modify ref change).total db = w.total db + if w.Counts ref then amount else 0 := by
  rw [total_modify addressEq sound]
  unfold StateObject.worth
  rw [removeEq, balanceEq]
  by_cases holds : w.Holds ref <;> cases removed : (w.heap ref).remove <;>
    simp [Counts, holds, removed]

end Balance

theorem worth_markForDeletion (object : StateObject) : object.markForDeletion.worth = 0 := rfl

theorem total_addAmount (sound : w.Sound) (ref : Ref) (amount : Int) :
    (w.modify ref (.addAmount amount)).total db =
      w.total db + if w.Counts ref then amount else 0 :=
  total_modify_balance rfl rfl sound rfl

variable {giver taker : Ref} {amount : Int}

/-- Two changes of balances, the second one raising it by what the first one takes. -/
theorem total_moved {take : StateObject → StateObject} (sound : w.Sound)
    (addressEq : (take (w.heap giver)).address = (w.heap giver).address)
    (removeEq : (take (w.heap giver)).remove = (w.heap giver).remove)
    (balanceEq : (take (w.heap giver)).balance = (w.heap giver).balance - amount) :
    ((w.modify giver take).modify taker (.addAmount amount)).total db =
      w.total db - (if w.Counts giver then amount else 0) +
        if w.Counts taker then amount else 0 := by
  have taken : (w.modify giver take).total db =
      w.total db + if w.Counts giver then -amount else 0 :=
    total_modify_balance addressEq removeEq sound (by rw [balanceEq]; ring)
  rw [total_addAmount (sound.modify addressEq), taken]
  simp only [counts_modify addressEq removeEq]
  by_cases counts : w.Counts giver
  · simp only [if_pos counts]
    ring
  · simp only [if_neg counts]
    ring

/-- The change of the sum when an amount goes from one object to another. -/
theorem total_transferred (sound : w.Sound) (giver taker : Ref) (amount : Int) :
    (Machine.transferred w giver taker amount).total db =
      w.total db - (if w.Counts giver then amount else 0) +
        if w.Counts taker then amount else 0 :=
  total_moved sound rfl rfl rfl

theorem total_bequeathed (sound : w.Sound) (object receiver : Ref) :
    (Machine.bequeathed w object receiver).total db =
      w.total db + (if w.Counts receiver ∧ receiver ≠ object then (w.heap object).balance else 0) -
        if w.Counts object then (w.heap object).balance else 0 := by
  have soundGiven : (w.modify receiver (.addAmount (w.heap object).balance)).Sound :=
    sound.modify rfl
  unfold Machine.bequeathed
  rw [total_modify rfl soundGiven, total_addAmount sound, worth_markForDeletion]
  have holdsEq : (w.modify receiver (.addAmount (w.heap object).balance)).Holds object ↔
      w.Holds object := holds_modify rfl object
  simp only [holdsEq]
  by_cases same : receiver = object
  · -- the object bequeaths to itself: twice the balance is deleted
    subst same
    rw [heap_modify_self]
    by_cases holds : w.Holds receiver <;> cases removed : (w.heap receiver).remove <;>
      simp [Counts, holds, removed, StateObject.worth, StateObject.addAmount, sub_eq_add_neg,
        add_assoc]
  · rw [heap_modify_of_ne (Ne.symm same)]
    by_cases holds : w.Holds object <;> cases removed : (w.heap object).remove <;>
      simp [Counts, holds, removed, same, StateObject.worth, sub_eq_add_neg]

/-- The amount is taken from an object of the state that is not marked for deletion: from
the giver or, when it is negative, from the taker, which `accepts` says counts. -/
structure Takes (w : World) (giver : Ref) (amount : Int) (accepts : Prop) : Prop where
  gift : 0 < amount → w.Counts giver
  debt : amount < 0 → accepts

instance (w : World) (giver : Ref) (amount : Int) (accepts : Prop) [Decidable accepts] :
    Decidable (w.Takes giver amount accepts) :=
  decidable_of_iff ((0 < amount → w.Counts giver) ∧ (amount < 0 → accepts))
    ⟨fun takes => ⟨takes.1, takes.2⟩, fun takes => ⟨takes.gift, takes.debt⟩⟩

section Takes

variable {accepts : Prop}

theorem Takes.sum_le [Decidable accepts] (takes : w.Takes giver amount accepts) (sum : Int) :
    sum - (if w.Counts giver then amount else 0) + (if accepts then amount else 0) ≤ sum := by
  rcases lt_trichotomy amount 0 with negative | rfl | positive
  · rw [if_pos (takes.debt negative)]
    split <;> omega
  · simp
  · rw [if_pos (takes.gift positive)]
    split <;> omega

/-- The state in which the receiver has been loaded has the same objects. -/
theorem Takes.loads {loaded : World} (takes : w.Takes giver amount accepts)
    (loads : Loads db w loaded) (below : giver < w.next) {reaches : Prop}
    (reached : accepts → reaches) : loaded.Takes giver amount reaches :=
  ⟨fun positive => (loads.counts_iff below).mpr (takes.gift positive),
    fun negative => reached (takes.debt negative)⟩

variable {addr : Bytes} {loaded : World} {object receiver : Ref}

/-- The transfer as the code makes it: the receiver is loaded first. -/
theorem Takes.total_transferred_le (takes : w.Takes giver amount (w.Accepts addr))
    (sound : w.Sound) (below : giver < w.next)
    (found : w.getOrNewStateObject db addr = some (taker, loaded)) :
    (Machine.transferred loaded giver taker amount).total db ≤ w.total db := by
  obtain ⟨loads, -⟩ := loads_getOrNewStateObject sound found
  have reaches := counts_of_getOrNewStateObject sound found
  rw [total_transferred loads.sound, ← loads.total_eq]
  exact (takes.loads loads below reaches.mpr).sum_le _

/-- What an object bequeaths to itself is deleted with it. -/
def Inherits (w : World) (object : Ref) (addr : Bytes) : Prop :=
  w.Accepts addr ∧ AList.lookup (address addr) w.state.stateObjects ≠ some object

instance (w : World) (object : Ref) (addr : Bytes) : Decidable (w.Inherits object addr) := by
  unfold Inherits
  infer_instance

theorem Takes.total_bequeathed_le
    (takes : w.Takes object (w.heap object).balance (w.Inherits object addr))
    (sound : w.Sound) (below : object < w.next)
    (found : w.getOrNewStateObject db addr = some (receiver, loaded)) :
    (Machine.bequeathed loaded object receiver).total db ≤ w.total db := by
  obtain ⟨loads, lookupEq⟩ := loads_getOrNewStateObject sound found
  have reaches : w.Inherits object addr → loaded.Counts receiver ∧ receiver ≠ object := by
    rintro ⟨accepts, other⟩
    refine ⟨(counts_of_getOrNewStateObject sound found).mpr accepts, ?_⟩
    rintro rfl
    rcases loads.fresh lookupEq with held | ⟨above, -⟩
    · exact other held
    · exact absurd below above.not_gt
  have sum_le := (takes.loads loads below reaches).sum_le (loaded.total db)
  rw [total_bequeathed loads.sound, loads.heap_eq below, ← loads.total_eq]
  omega

end Takes

end World

namespace Machine

/-- An amount that the next step moves is taken from an object of the state: the value of
a message that is executed, and the balance of the object of a closure at `SUICIDE`. -/
def Honest (env : Env) (m : Machine) : Prop :=
  match m.control with
  | .executing msg caller =>
      msg.value ≤ (m.world.heap caller).balance →
        env.precompiled (bigBytes (bigD msg.address)) = none →
        m.world.Takes caller msg.value (m.world.Accepts msg.address)
  | .running closure l =>
      opAt closure.code l.pc = some .suicide → ∀ addr ∈ l.stack.head?,
        m.world.Takes closure.object (m.world.heap closure.object).balance
          (m.world.Inherits closure.object (bigBytes addr))
  | _ => True

instance (env : Env) : (m : Machine) → Decidable (m.Honest env)
  | ⟨world, _, _, _, .executing msg caller⟩ => inferInstanceAs (Decidable
      (msg.value ≤ (world.heap caller).balance →
        env.precompiled (bigBytes (bigD msg.address)) = none →
        world.Takes caller msg.value (world.Accepts msg.address)))
  | ⟨world, _, _, _, .running closure l⟩ => inferInstanceAs (Decidable
      (opAt closure.code l.pc = some .suicide → ∀ addr ∈ l.stack.head?,
        world.Takes closure.object (world.heap closure.object).balance
          (world.Inherits closure.object (bigBytes addr))))
  | ⟨_, _, _, _, .returning _⟩ | ⟨_, _, _, _, .panicking⟩ | ⟨_, _, _, _, .searching⟩ =>
      instDecidableTrue

/-- No state the machine has or may go back to holds more than `bound`. -/
structure Bounded (db : Database) (bound : Int) (m : Machine) : Prop where
  total_le : m.world.total db ≤ bound
  snapshot_le {caller : Waiting} : caller ∈ m.waiting → caller.snapshot.total db id ≤ bound

variable {env : Env} {db : Database} {m : Machine} {bound : Int}

theorem Bounded.step (bounded : m.Bounded db bound) (valid : m.Valid) (honest : m.Honest env) :
    (m.step env db).Bounded db bound := by
  obtain ⟨total_le, snapshot_le⟩ := bounded
  refine ⟨?_, ?_⟩
  · cases deed_step env db m with
    | mild world _ _ => exact (world.quiet valid.sound).total_eq.trans_le total_le
    | send _ _ _ loaded world _ _ _ _ =>
        have quiet := loaded.quiet valid.sound
        exact ((world.quiet quiet.sound).total_eq.trans quiet.total_eq).trans_le total_le
    | transfer msg caller object loaded executing covered ordinary found world _ _ =>
        simp only [Honest, executing] at honest
        have below : caller < m.world.next := valid.object (by rw [executing]; rfl)
        have loads := (World.loads_getOrNewStateObject valid.sound found).1
        rw [(world.quiet ((loads.sound.modify rfl).modify rfl)).total_eq]
        have moved := (honest covered ordinary).total_transferred_le valid.sound below found
        exact moved.trans total_le
    | bequeath closure l addr rest receiver loaded running suicide stack found world _ _ =>
        simp only [Honest, running] at honest
        have below : closure.object < m.world.next := valid.object (by rw [running]; rfl)
        have takes := honest suicide addr (by rw [stack]; rfl)
        rw [world]
        exact (takes.total_bequeathed_le valid.sound below found).trans total_le
    | revert result caller _ _ waiting world _ =>
        rw [world, World.total_set]
        exact snapshot_le (waiting ▸ List.mem_cons_self)
  · intro caller member
    cases deed_step env db m with
    | mild _ waiting _ => exact snapshot_le (waiting.mem member)
    | send sender _ _ loaded _ _ _ waiting snapshot =>
        rcases List.mem_cons.mp (waiting ▸ member) with rfl | member
        · rw [snapshot, World.total_copy, (loaded.quiet valid.sound).total_eq]
          exact total_le
        · exact snapshot_le member
    | transfer _ _ _ _ _ _ _ _ _ waiting _ => exact snapshot_le (waiting.mem member)
    | bequeath _ _ _ _ _ _ _ _ _ _ _ waiting _ => exact snapshot_le (waiting ▸ member)
    | revert _ _ _ _ waiting _ _ => exact snapshot_le (waiting ▸ List.mem_cons_of_mem _ member)

end Machine

theorem StateTransition.total_refundGas {db : Database} {w : World} (sound : w.Sound) (cb sen : Ref)
    (gas price : Int) :
    (refundGas w cb sen gas price).total db =
      w.total db - (if w.Counts cb then gas * price else 0) +
        if w.Counts sen then gas * price else 0 :=
  World.total_moved sound rfl rfl rfl

namespace Config

/-- An amount that the next step moves is taken from an object of the state, also what
`RefundGas` takes from the coinbase. -/
def Honest (env : Env) : Config → Prop
  | .evaluating _ m => m.Honest env
  | .dispatching eval _ gas queue index _ w =>
      queue[index]? = none → w.Takes eval.cb (gas * eval.tx.gasPrice) (w.Counts eval.sen)
  | .posting eval _ gas _ _ m =>
      m.Honest env ∧ (m.control = .panicking →
        m.world.Takes eval.cb (gas * eval.tx.gasPrice) (m.world.Counts eval.sen))
  | .finished _ _ => True

instance : (control : Control) → Decidable (control = .panicking)
  | .panicking => isTrue rfl
  | .executing _ _ | .running _ _ | .returning _ | .searching => isFalse (by simp)

instance (env : Env) : (config : Config) → Decidable (config.Honest env)
  | .evaluating _ m => inferInstanceAs (Decidable (m.Honest env))
  | .dispatching eval _ gas queue index _ w => inferInstanceAs (Decidable
      (queue[index]? = none → w.Takes eval.cb (gas * eval.tx.gasPrice) (w.Counts eval.sen)))
  | .posting eval _ gas _ _ m => inferInstanceAs (Decidable (m.Honest env ∧
      (m.control = .panicking →
        m.world.Takes eval.cb (gas * eval.tx.gasPrice) (m.world.Counts eval.sen))))
  | .finished _ _ => instDecidableTrue

/-- No state the transition has or may go back to holds more than `bound`. -/
def Bounded (db : Database) (bound : Int) : Config → Prop
  | .evaluating eval m => m.Bounded db bound ∧ eval.snapshot.total db id ≤ bound
  | .dispatching _ _ _ _ _ _ w => w.total db ≤ bound
  | .posting _ _ _ _ _ m => m.Bounded db bound
  | .finished w _ => w.total db ≤ bound

variable {host : Host} {db : Database} {tx : Transaction} {block : Header} {bound : Int}

theorem Bounded.total_le {config : Config} (bounded : config.Bounded db bound) :
    config.world.total db ≤ bound := by
  cases config with
  | evaluating _ m => exact bounded.1.total_le
  | dispatching _ _ _ _ _ _ w => exact bounded
  | posting _ _ _ _ _ m => exact Machine.Bounded.total_le bounded
  | finished w _ => exact bounded

theorem bounded_finish {eval : Evaluation} {gas : Int} {w : World} {ok : Bool} (sound : w.Sound)
    (total_le : w.total db ≤ bound)
    (takes : w.Takes eval.cb (gas * eval.tx.gasPrice) (w.Counts eval.sen)) :
    (StateTransition.finish eval gas w ok).Bounded db bound := by
  change (StateTransition.refundGas w eval.cb eval.sen gas eval.tx.gasPrice).total db ≤ bound
  rw [StateTransition.total_refundGas sound]
  exact (takes.sum_le _).trans total_le

/-- The objects of the transition are out of the state that `Set` brings back, and so is the
refund. -/
theorem bounded_finish_set {eval : Evaluation} {gas : Int} {w : World} {ok : Bool}
    {copied : State StateObject} (sound : (w.set copied).Sound) (below : eval.Below w)
    (total_le : (w.set copied).total db ≤ bound) :
    (StateTransition.finish eval gas (w.set copied) ok).Bounded db bound := by
  have lost : ∀ {ref : Ref}, ref < w.next → ¬ (w.set copied).Counts ref := by
    intro ref under counts
    exact absurd (World.next_le_of_lookup_set counts.1) under.not_ge
  change (StateTransition.refundGas _ eval.cb eval.sen gas eval.tx.gasPrice).total db ≤ bound
  rw [StateTransition.total_refundGas sound, if_neg (lost below.1), if_neg (lost below.2)]
  omega

theorem Bounded.step {config : Config} (bounded : config.Bounded db bound) (valid : config.Valid)
    (honest : config.Honest (host.env tx block)) :
    (StateTransition.step host db tx block config).Bounded db bound := by
  have stage := StateTransition.stage_step host db tx block config
  generalize StateTransition.step host db tx block config = after at stage ⊢
  cases stage with
  | run => exact ⟨bounded.1.step valid.1 honest, bounded.2⟩
  | succeed => exact bounded.1.total_le
  | post => exact ⟨bounded, by simp⟩
  | deliver => exact Machine.Bounded.step bounded valid.1 honest.1
  | join => exact Machine.Bounded.total_le bounded
  | rest => exact bounded
  | settle settled ends =>
      cases StateTransition.settles_of_settlement ends with
      | failed eval m =>
          obtain ⟨-, below, copied⟩ := valid
          refine bounded_finish_set (.set copied) below ?_
          rw [World.total_set]
          exact bounded.2
      | created eval ret gas queue index callStack w last =>
          have takes := honest last
          have quiet : World.Quiet db w (w.modify eval.receiver (.setCode ret)) :=
            World.quiet_modify valid.1 rfl rfl
          apply bounded_finish quiet.sound (quiet.total_eq.trans_le bounded)
          have counts : ∀ ref, (w.modify eval.receiver (.setCode ret)).Counts ref ↔ w.Counts ref :=
            World.counts_modify rfl rfl
          exact ⟨fun positive => (counts _).mpr (takes.gift positive),
            fun negative => (counts _).mpr (takes.debt negative)⟩
      | called eval ret gas queue index callStack w last =>
          exact bounded_finish valid.1 bounded (honest last)
      | panicked eval ret gas queue index m panicking =>
          exact bounded_finish valid.1.sound (Machine.Bounded.total_le bounded) (honest.2 panicking)

end Config

/-! ### The beginning of a transition -/

namespace World

/-- No object is marked for deletion and no account is in debt. -/
structure Solvent (db : Database) (w : World) : Prop where
  sound : w.Sound
  kept {addr : Bytes} {ref : Ref} :
    AList.lookup addr w.state.stateObjects = some ref → (w.heap ref).remove = false
  nonneg (addr : Bytes) : 0 ≤ w.worthAt db addr

namespace Solvent

variable {db : Database} {w : World} {ref : Ref}

theorem counts (solvent : Solvent db w) (holds : w.Holds ref) : w.Counts ref :=
  ⟨holds, solvent.kept holds⟩

theorem balance_nonneg (solvent : Solvent db w) (counts : w.Counts ref) :
    0 ≤ (w.heap ref).balance := by
  have worthEq : w.worthAt db (w.heap ref).address = (w.heap ref).worth :=
    State.worthAt_of_some counts.1
  have nonneg := solvent.nonneg (w.heap ref).address
  rw [worthEq] at nonneg
  simpa [StateObject.worth, counts.2] using nonneg

theorem loads (solvent : Solvent db w) {after : World} (loads : Loads db w after) :
    Solvent db after where
  sound := loads.sound
  kept {addr ref} found := by
    rcases loads.fresh found with held | ⟨-, kept⟩
    · rw [loads.heap_eq (solvent.sound.held held).1]
      exact solvent.kept held
    · exact kept
  nonneg addr := loads.worthAt_eq addr ▸ solvent.nonneg addr

theorem modify (solvent : Solvent db w) {change : StateObject → StateObject}
    (addressEq : (change (w.heap ref)).address = (w.heap ref).address)
    (removeEq : (change (w.heap ref)).remove = (w.heap ref).remove)
    (nonneg : 0 ≤ (change (w.heap ref)).balance) : Solvent db (w.modify ref change) where
  sound := solvent.sound.modify addressEq
  kept {addr held} found := by
    by_cases same : held = ref
    · rw [same, heap_modify_self, removeEq]
      exact solvent.kept (same ▸ found)
    · rw [heap_modify_of_ne same]
      exact solvent.kept found
  nonneg addr := by
    rw [worthAt_modify addressEq solvent.sound]
    split
    · by_cases same : addr = (w.heap ref).address
      · rw [same, Function.update_self, StateObject.worth]
        split
        · exact le_rfl
        · exact nonneg
      · rw [Function.update_of_ne same]
        exact solvent.nonneg addr
    · exact solvent.nonneg addr

end Solvent

end World

/-- What the callers of `TransitionState` provide: the object of the coinbase is the one
the state has, no object is marked for deletion, no account is in debt, and the
amounts of the transaction are not negative. -/
structure Settled (db : Database) (cb : Ref) (tx : Transaction) (w : World) : Prop where
  solvent : w.Solvent db
  coinbase : w.Holds cb
  gasValue_nonneg : 0 ≤ tx.gasValue
  value_nonneg : 0 ≤ tx.value

/-- The state once the gas has been bought. -/
structure Paid (db : Database) (bound : Int) (cb sen : Ref) (w : World) : Prop where
  solvent : w.Solvent db
  total_eq : w.total db = bound
  coinbase : w.Counts cb
  sender : w.Counts sen

namespace StateTransition

open World

variable {host : Host} {db : Database} {tx : Transaction} {block : Header} {cb : Ref} {w : World}
  {sen : Ref} {bound : Int}

/-- Buying gas moves an amount the sender has to the coinbase. -/
theorem paid_buyGas {amount : Int} (solvent : w.Solvent db) (coinbase : w.Counts cb)
    (sender : w.Counts sen) (nonneg : 0 ≤ amount) (covered : amount ≤ (w.heap sen).balance) :
    Paid db (w.total db) cb sen
      ((w.modify cb (.addAmount amount)).modify sen (.subAmount amount)) := by
  have given : (w.modify cb (.addAmount amount)).Solvent db := by
    apply solvent.modify rfl rfl
    exact add_nonneg (solvent.balance_nonneg coinbase) nonneg
  have counts : ∀ ref, (w.modify cb (.addAmount amount)).Counts ref ↔ w.Counts ref :=
    counts_modify rfl rfl
  have countsAfter : ∀ ref,
      ((w.modify cb (.addAmount amount)).modify sen (.subAmount amount)).Counts ref ↔
        w.Counts ref := fun ref => (counts_modify rfl rfl ref).trans (counts ref)
  refine ⟨given.modify rfl rfl ?_, ?_, (countsAfter cb).mpr coinbase, (countsAfter sen).mpr sender⟩
  · have larger : (w.heap sen).balance ≤ ((w.modify cb (.addAmount amount)).heap sen).balance := by
      by_cases same : sen = cb
      · rw [same, heap_modify_self]
        exact le_add_of_nonneg_right nonneg
      · rw [heap_modify_of_ne same]
    exact sub_nonneg.mpr (covered.trans larger)
  · have taken : ((w.modify cb (.addAmount amount)).modify sen (.subAmount amount)).total db =
        (w.modify cb (.addAmount amount)).total db +
          if (w.modify cb (.addAmount amount)).Counts sen then -amount else 0 :=
      total_modify_balance rfl rfl given.sound rfl
    rw [taken, if_pos ((counts sen).mpr sender), total_addAmount solvent.sound, if_pos coinbase]
    ring

theorem preCheck_spec (settled : Settled db cb tx w) :
    (∀ after, preCheck host db tx cb w = .error after → after.total db = w.total db) ∧
      ∀ sen after, preCheck host db tx cb w = .ok (sen, after) →
        Paid db (w.total db) cb sen after := by
  unfold preCheck
  split
  · exact ⟨by rintro _ ⟨⟩; rfl, by rintro _ _ ⟨⟩⟩
  · split
    · exact ⟨by rintro _ ⟨⟩; rfl, by rintro _ _ ⟨⟩⟩
    · split
      · exact ⟨by rintro _ ⟨⟩; rfl, by rintro _ _ ⟨⟩⟩
      · rename_i sen loaded found
        obtain ⟨loads, lookupEq⟩ := loads_getOrNewStateObject settled.solvent.sound found
        have solvent := settled.solvent.loads loads
        have sender := solvent.counts (loads.sound.holds lookupEq)
        have coinbase : loaded.Counts cb := by
          have below := (settled.solvent.sound.held settled.coinbase).1
          exact (loads.counts_iff below).mpr (settled.solvent.counts settled.coinbase)
        split
        · exact ⟨by rintro _ ⟨⟩; exact loads.total_eq, by rintro _ _ ⟨⟩⟩
        · rename_i covered
          split
          · exact ⟨by rintro _ ⟨⟩; exact loads.total_eq, by rintro _ _ ⟨⟩⟩
          · refine ⟨by rintro _ ⟨⟩, ?_⟩
            rintro _ _ ⟨⟩
            rw [← loads.total_eq]
            exact paid_buyGas solvent coinbase sender settled.gasValue_nonneg (not_lt.mp covered)

/-- A failure after the gas has been bought gives it back. -/
theorem Paid.total_after_refund {gas price : Int} (paid : Paid db bound cb sen w) :
    (refundGas w cb sen gas price).total db = bound := by
  rw [StateTransition.total_refundGas paid.solvent.sound, if_pos paid.coinbase, if_pos paid.sender,
    paid.total_eq]
  ring

theorem Paid.after_incrementNonce (paid : Paid db bound cb sen w) :
    Paid db bound cb sen (w.modify sen .incrementNonce) := by
  have counts : ∀ ref, (w.modify sen .incrementNonce).Counts ref ↔ w.Counts ref :=
    counts_modify rfl rfl
  refine ⟨paid.solvent.modify rfl rfl (paid.solvent.balance_nonneg paid.sender), ?_,
    (counts cb).mpr paid.coinbase, (counts sen).mpr paid.sender⟩
  have quiet : Quiet db w (w.modify sen .incrementNonce) :=
    quiet_modify paid.solvent.sound rfl rfl
  rw [quiet.total_eq, paid.total_eq]

/-- A new contract replaces an account that is not in debt, and receives the value. -/
theorem total_makeContract_le (host : Host) (tx : Transaction) (solvent : w.Solvent db)
    (nonneg : 0 ≤ tx.value) {contract : Ref} {made : World}
    (makes : makeContract host tx w = (contract, made)) :
    (made.modify contract (.addAmount tx.value)).total db ≤ w.total db + tx.value := by
  cases makes
  generalize creationAddress host tx = addr
  have lengthEq := length_address addr
  have installed : (w.install (address addr) (.new addr)).Sound :=
    solvent.sound.install rfl lengthEq
  have prepared : Quiet db (w.install (address addr) (.new addr))
      ((w.install (address addr) (.new addr)).modify w.next (.setInit tx.data)) :=
    quiet_modify installed rfl rfl
  have replaced : (w.install (address addr) (.new addr)).total db ≤ w.total db := by
    have worths : (w.install (address addr) (.new addr)).worthAt db =
        Function.update (w.worthAt db) (address addr) 0 :=
      worthAt_install solvent.sound _ _
    have totalEq : (w.install (address addr) (.new addr)).total db =
        ∑ other ∈ addresses, (w.install (address addr) (.new addr)).worthAt db other := rfl
    have worth := solvent.nonneg (address addr)
    rw [totalEq, worths, sum_update_addresses _ lengthEq]
    change w.total db + _ ≤ _
    omega
  rw [total_addAmount prepared.sound]
  have total_eq := prepared.total_eq
  split <;> omega

/-- The transfer of the value to the receiver, an account or a new contract. -/
theorem Paid.bounded_transfer (paid : Paid db bound cb sen w) (nonneg : 0 ≤ tx.value)
    (covered : tx.value ≤ (w.heap sen).balance) {eval : Evaluation} {after : World}
    (transferred : transfer host db tx cb sen w = some (eval, after)) :
    after.total db ≤ bound ∧ eval.snapshot.total db id ≤ bound := by
  unfold transfer at transferred
  split at transferred
  · cases transferred
    have solvent : (w.modify sen (.subAmount tx.value)).Solvent db :=
      paid.solvent.modify rfl rfl (sub_nonneg.mpr covered)
    have taken : (w.modify sen (.subAmount tx.value)).total db = bound - tx.value := by
      have balance : (w.modify sen (.subAmount tx.value)).total db =
          w.total db + if w.Counts sen then -tx.value else 0 :=
        total_modify_balance rfl rfl paid.solvent.sound rfl
      rw [balance, if_pos paid.sender, paid.total_eq]
      ring
    have total_le := total_makeContract_le host tx solvent nonneg rfl
    refine ⟨total_le.trans (by omega), ?_⟩
    rw [total_copy, taken]
    omega
  · obtain ⟨⟨receiver, loaded⟩, found, transferred⟩ := Option.bind_eq_some_iff.mp transferred
    cases transferred
    obtain ⟨loads, lookupEq⟩ := loads_getOrNewStateObject paid.solvent.sound found
    have total_eq : (Machine.transferred loaded sen receiver tx.value).total db = bound := by
      have senBelow := (paid.solvent.sound.held paid.sender.1).1
      have receives := (paid.solvent.loads loads).counts (loads.sound.holds lookupEq)
      rw [total_transferred loads.sound, if_pos ((loads.counts_iff senBelow).mpr paid.sender),
        if_pos receives, loads.total_eq, paid.total_eq]
      ring
    exact ⟨total_eq.le, (total_copy _).trans_le total_eq.le⟩

theorem bounded_evaluate {eval : Evaluation} {gas : Int} (total_le : w.total db ≤ bound)
    (copy_le : eval.snapshot.total db id ≤ bound) : (evaluate eval gas w).Bounded db bound := by
  unfold evaluate
  split
  · exact total_le
  · rename_i code _
    have enters := Machine.proceeds_enter ⟨w, [], [], [], .panicking⟩
      ⟨eval.sen, eval.receiver, code, eval.tx.data, gas, eval.tx.gasPrice⟩
    refine ⟨⟨?_, ?_⟩, copy_le⟩
    · rwa [enters.world]
    · simp [List.suffix_nil.mp enters.waiting]

theorem bounded_start (settled : Settled db cb tx w) :
    (start host db tx cb w).Bounded db (w.total db) := by
  obtain ⟨onError, onSuccess⟩ := @preCheck_spec host db tx cb w settled
  rw [start_eq]
  cases outsetEq : outset host db tx cb w with
  | refused after => exact (onError after (outset_refused outsetEq)).le
  | stopped sen after gas =>
      obtain ⟨bought, checked, rfl, -⟩ := outset_stopped outsetEq
      have paid := Paid.after_incrementNonce (onSuccess sen bought checked)
      exact (Paid.total_after_refund paid).le
  | begun eval after gas =>
      obtain ⟨sen, bought, checked, covered, transferred, -⟩ := outset_begun outsetEq
      have paid := Paid.after_incrementNonce (onSuccess sen bought checked)
      obtain ⟨total_le, copy_le⟩ :=
        Paid.bounded_transfer paid settled.value_nonneg covered transferred
      exact bounded_evaluate total_le copy_le

theorem bounded_run (settled : Settled db cb tx w) (steps : Nat)
    (honest : ∀ step < steps, (run host db tx block cb w step).Honest (host.env tx block)) :
    (run host db tx block cb w steps).Bounded db (w.total db) := by
  induction steps with
  | zero => exact bounded_start settled
  | succ steps induction =>
      have bounded := induction fun step before => honest step (before.trans (Nat.lt_succ_self _))
      have sound := settled.solvent.sound
      rw [run_succ]
      exact bounded.step (valid_run sound (sound.held settled.coinbase).1 steps)
        (honest steps (Nat.lt_succ_self _))

/-- No state that a transition reaches holds more than the state it started from,
provided that every amount has been taken from an object the state had and was not
going to delete. -/
theorem total_run_le (host : Host) (db : Database) (tx : Transaction) (block : Header) (cb : Ref)
    (w : World) (settled : Settled db cb tx w) (steps : Nat)
    (honest : ∀ step < steps, (run host db tx block cb w step).Honest (host.env tx block)) :
    (run host db tx block cb w steps).world.total db ≤ w.total db :=
  (bounded_run settled steps honest).total_le

theorem settled_sample {funds balance value gas price : Int} {code recipient : Bytes}
    (fundsNonneg : 0 ≤ funds) (balanceNonneg : 0 ≤ balance) (valueNonneg : 0 ≤ value)
    (gasNonneg : 0 ≤ gas) (priceNonneg : 0 ≤ price) :
    Settled ∅ 2 (sampleTx recipient value gas price) (sampleWorld funds balance code []) where
  solvent :=
    { sound := sound_sampleWorld
      kept := fun found => by
        rcases sampleWorld_lookup found with ⟨rfl, rfl⟩ | ⟨rfl, rfl⟩ | ⟨rfl, rfl⟩ <;> rfl
      nonneg := fun addr => by
        cases found : AList.lookup addr
            (sampleWorld funds balance code []).state.stateObjects with
        | none =>
            rw [worthAt, State.worthAt_of_none found, Trie.account_of_root rfl rfl]
            exact le_rfl
        | some ref =>
            rw [worthAt, State.worthAt_of_some found]
            rcases sampleWorld_lookup found with ⟨rfl, rfl⟩ | ⟨rfl, rfl⟩ | ⟨rfl, rfl⟩
            · exact fundsNonneg
            · exact balanceNonneg
            · exact le_rfl }
  coinbase := rfl
  gasValue_nonneg := mul_nonneg gasNonneg priceNonneg
  value_nonneg := valueNonneg

/-- The code sends ten to the account 4 and bequeaths what is left to it. -/
def heirCode : Bytes :=
  [0x60, 0, 0x60, 0, 0x60, 0, 0x60, 0, 0x60, 10, 0x60, 4, 0x60, 0, 0xf1, 0x60, 4, 0xff]

/-- The sender pays for the gas and gives five to a contract, which passes everything on. -/
theorem total_run_le_heir :
    Settled ∅ 2 (sampleTx [2] 5 2000 1) (sampleWorld 5000 10 heirCode []) ∧
      (run (sampleHost id) ∅ (sampleTx [2] 5 2000 1) sampleHeader 2
        (sampleWorld 5000 10 heirCode []) 17).returned = some true ∧
      (run (sampleHost id) ∅ (sampleTx [2] 5 2000 1) sampleHeader 2
        (sampleWorld 5000 10 heirCode []) 17).world.total ∅ ≤
        (sampleWorld 5000 10 heirCode []).total ∅ := by
  have settled : Settled ∅ 2 (sampleTx [2] 5 2000 1) (sampleWorld 5000 10 heirCode []) := by
    apply settled_sample <;> decide
  refine ⟨settled, by decide +kernel, total_run_le _ _ _ _ _ _ settled 17 ?_⟩
  intro step before
  interval_cases step <;> decide +kernel

/-- The code calls the account 4 twice without input, first with more than the contract
has and then with all of it. -/
def vaultCode : Bytes :=
  [0x60, 0, 0x60, 0, 0x60, 0, 0x60, 0, 0x60, 11, 0x60, 4, 0x60, 0, 0xf1,
   0x60, 0, 0x60, 0, 0x60, 0, 0x60, 0, 0x60, 10, 0x60, 4, 0x60, 0, 0xf1, 0]

/-- After the failed call the contract pays with an object that the state has lost: the
account 4 gets ten and the contract keeps ten. -/
theorem total_run_vault_gt :
    Settled ∅ 2 (sampleTx [2] 0 2000 0) (sampleWorld 0 10 vaultCode []) ∧
      (run (sampleHost id) ∅ (sampleTx [2] 0 2000 0) sampleHeader 2
        (sampleWorld 0 10 vaultCode []) 23).returned = some true ∧
      (sampleWorld 0 10 vaultCode []).total ∅ = 10 ∧
      (run (sampleHost id) ∅ (sampleTx [2] 0 2000 0) sampleHeader 2
        (sampleWorld 0 10 vaultCode []) 23).world.total ∅ = 20 := by
  refine ⟨by apply settled_sample <;> decide, by decide +kernel, ?_, ?_⟩
  · exact (State.total_eq_sum (Trie.account_of_root rfl rfl) (by decide +kernel)).trans
      (by decide +kernel)
  · exact (State.total_eq_sum (Trie.account_of_root (by decide +kernel) (by decide +kernel))
      (by decide +kernel)).trans (by decide +kernel)

end StateTransition

end Thelonious
