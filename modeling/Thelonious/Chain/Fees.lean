import Thelonious.Chain.ProcessTransactions
import Thelonious.Vm.Balances

/-!
# The fees that the receipts state

A receipt charges the gas that a transaction has used.  The gas is bought and
refunded on the objects that the transition got at its beginning.  When the
state goes back to a snapshot on the way, or a contract is created at the
address of the sender or of the coinbase, the state has other objects for these
accounts by the time of the refund: what remains of the gas is then paid for as
well.
-/

namespace Thelonious

namespace World

variable {w : World} {db : Database}

/-- A payment shows in an account if the state has the object that is paid. -/
theorem balanceAt_pay {ref : Ref} {change : StateObject → StateObject} {amount : Int}
    (paid : (change (w.heap ref)).balance = (w.heap ref).balance + amount) (addr : Bytes) :
    (w.modify ref change).balanceAt db addr = w.balanceAt db addr +
      if AList.lookup addr w.state.stateObjects = some ref then amount else 0 := by
  have same : (w.modify ref change).state = w.state := rfl
  unfold balanceAt
  rw [same]
  cases found : AList.lookup addr w.state.stateObjects with
  | none => simp
  | some held =>
      by_cases own : held = ref
      · subst own
        simp [paid]
      · simp [heap_modify_of_ne own, own]

end World

namespace Machine

/-- The message of a closure has failed, and the state goes back to a copy. -/
def Reverts (m : Machine) : Prop :=
  ∃ result caller rest, m.control = .returning result ∧ result.ok = false ∧
    m.waiting = caller :: rest

variable {env : Env} {db : Database} {m after : Machine}

theorem Deed.kept (deed : Deed env db m after) (calm : ¬ m.Reverts) {addr : Bytes} {ref : Ref}
    (found : AList.lookup addr m.world.state.stateObjects = some ref) :
    AList.lookup addr after.world.state.stateObjects = some ref := by
  cases deed with
  | mild world waiting acting => exact world.keeps.kept found
  | send caller msg copied loaded world running control waiting snapshot =>
      exact world.keeps.kept (loaded.keeps.kept found)
  | transfer msg caller object loaded executing covered ordinary got world waiting acting =>
      exact world.keeps.kept ((World.keeps_getOrNewStateObject got).1.kept found)
  | bequeath closure l addr rest receiver loaded running suicide stack got world waiting acting =>
      rw [world]
      exact (World.keeps_getOrNewStateObject got).1.kept found
  | revert result caller returning failed waiting world running =>
      exact absurd ⟨result, caller, _, returning, failed, waiting⟩ calm

theorem world_step_of_reverts (reverts : m.Reverts) :
    ∃ copied, (m.step env db).world = m.world.set copied := by
  obtain ⟨result, caller, rest, returning, failed, waiting⟩ := reverts
  exact ⟨caller.snapshot, by simp [Machine.step, Machine.resume, returning, waiting, failed]⟩

end Machine

/-- The next step takes the state back to a copy. -/
def Config.Reverts : Config → Prop
  | .evaluating _ m => ∃ result, m.control = .returning result ∧ result.ok = false
  | .posting _ _ _ _ _ m => m.Reverts
  | _ => False

namespace StateTransition

open World

variable {host : Host} {db : Database} {tx : Transaction} {block : Header} {config : Config}
  {addr : Bytes} {ref : Ref} {settled : Settlement}

/-! ### Without failures -/

theorem shows_settlement (calm : ¬ config.Reverts) (ends : settlement config = some settled)
    (found : AList.lookup addr config.world.state.stateObjects = some ref) :
    AList.lookup addr settled.world.state.stateObjects = some ref := by
  cases settles_of_settlement ends with
  | failed eval m result returning outermost failed =>
      exact absurd ⟨result, returning, failed⟩ calm
  | created | called | panicked => exact found

theorem shows_step (calm : ¬ config.Reverts)
    (found : AList.lookup addr config.world.state.stateObjects = some ref) :
    AList.lookup addr (step host db tx block config).world.state.stateObjects = some ref := by
  have stage := stage_step host db tx block config
  generalize step host db tx block config = after at stage ⊢
  cases stage with
  | run =>
      refine (Machine.deed_step _ _ _).kept ?_ found
      rintro ⟨result, caller, rest, returning, failed, waiting⟩
      exact calm ⟨result, returning, failed⟩
  | deliver => exact (Machine.deed_step _ _ _).kept calm found
  | succeed | post | join | rest => exact found
  | settle settled ends => exact shows_settlement calm ends found

/-! ### With a failure -/

theorem lost_step_of_reverts (reverts : config.Reverts) (below : ref < config.world.next) :
    (step host db tx block config).world.Lost ref := by
  have machine : ∀ {m : Machine}, m.Reverts → ref < m.world.next →
      (m.step (host.env tx block) db).world.Lost ref := by
    intro m failed below
    obtain ⟨copied, world⟩ := Machine.world_step_of_reverts failed
    rw [world]
    exact lost_set below
  cases config with
  | evaluating eval m =>
      obtain ⟨result, returning, failed⟩ := reverts
      cases waiting : m.waiting with
      | nil =>
          simp only [StateTransition.step, returning, waiting, failed]
          exact (Config.renews_refundGas _ _ _ _ _).lost (lost_set below)
      | cons caller rest =>
          simp only [StateTransition.step, returning, waiting]
          exact machine ⟨result, caller, rest, returning, failed, waiting⟩ below
  | dispatching => exact reverts.elim
  | posting eval ret gas queue index m =>
      have failed : m.Reverts := reverts
      obtain ⟨result, caller, rest, returning, -, waiting⟩ := reverts
      simp only [StateTransition.step, returning, waiting]
      exact machine failed below
  | finished => exact reverts.elim

theorem lost_settlement (ends : settlement config = some settled)
    (gone : config.world.Lost ref ∨ config.Reverts ∧ ref < config.world.next) :
    settled.world.Lost ref := by
  cases settles_of_settlement ends with
  | failed =>
      apply lost_set
      rcases gone with lost | ⟨-, below⟩
      · exact lost.below
      · exact below
  | created => exact (Renews.modify _ _ _).lost (gone.resolve_right fun reverts => reverts.1)
  | called => exact gone.resolve_right fun reverts => reverts.1
  | panicked eval ret gas queue index m panicking =>
      rcases gone with lost | ⟨⟨result, _, _, returning, _⟩, -⟩
      · exact lost
      · cases panicking.symm.trans returning

theorem valid_iterate (valid : config.Valid) (n : Nat) :
    ((step host db tx block)^[n] config).Valid := by
  induction n generalizing config with
  | zero => exact valid
  | succ n induction => exact induction valid.step

theorem lost_iterate (valid : config.Valid) (lost : config.world.Lost ref) (n : Nat) :
    ((step host db tx block)^[n] config).world.Lost ref := by
  induction n generalizing config with
  | zero => exact lost
  | succ n induction => exact induction valid.step (valid.renews_step.lost lost)

theorem below_iterate (valid : config.Valid) (below : ref < config.world.next) (n : Nat) :
    ref < ((step host db tx block)^[n] config).world.next := by
  induction n generalizing config with
  | zero => exact below
  | succ n induction => exact induction valid.step (below.trans_le valid.renews_step.next_le)

theorem not_reverts_of_returned (returned : config.returned.isSome) : ¬ config.Reverts := by
  cases config with
  | finished => exact id
  | evaluating | dispatching | posting => cases returned

/-- The state has the same object for an account at the end just if it has never gone back
to a copy. -/
theorem shows_settlement_iff {last : Nat} (valid : config.Valid)
    (ends : settlement ((step host db tx block)^[last] config) = some settled)
    (found : AList.lookup addr config.world.state.stateObjects = some ref)
    (below : ref < config.world.next) :
    AList.lookup addr settled.world.state.stateObjects = some ref ↔
      ∀ n, ¬ ((step host db tx block)^[n] config).Reverts := by
  constructor
  · intro shown n reverts
    have belowThen : ref < ((step host db tx block)^[n] config).world.next :=
      below_iterate valid below n
    rcases lt_trichotomy n last with before | rfl | later
    · -- the object is lost by the next step, and stays lost until the end
      obtain ⟨more, rfl⟩ := Nat.exists_eq_add_of_lt before
      have validThen : ((step host db tx block)^[n] config).Valid := valid_iterate valid n
      have lost : ((step host db tx block)^[n + more + 1] config).world.Lost ref := by
        rw [show n + more + 1 = more + (n + 1) by omega, Function.iterate_add_apply,
          Function.iterate_succ_apply']
        exact lost_iterate validThen.step (lost_step_of_reverts reverts belowThen) more
      exact (lost_settlement ends (.inl lost)).absent addr shown
    · exact (lost_settlement ends (.inr ⟨reverts, belowThen⟩)).absent addr shown
    · obtain ⟨more, rfl⟩ := Nat.exists_eq_add_of_lt later
      have fixed : step host db tx block settled.ending = settled.ending := rfl
      rw [show last + more + 1 = more + (last + 1) by omega, Function.iterate_add_apply,
        Function.iterate_succ_apply', step_of_settlement ends,
        Function.iterate_fixed fixed] at reverts
      exact not_reverts_of_returned rfl reverts
  · intro calm
    refine shows_settlement (calm last) ends ?_
    exact Iteration.invariant (step host db tx block)
      (fun config => AList.lookup addr config.world.state.stateObjects = some ref)
      (fun config => ¬ config.Reverts) (fun _ found calm => shows_step calm found) found calm last

/-- The transition that a configuration belongs to. -/
def Config.evaluation : Config → Option Evaluation
  | .evaluating eval _ | .dispatching eval _ _ _ _ _ _ | .posting eval _ _ _ _ _ => some eval
  | .finished _ _ => none

theorem evaluation_step (host : Host) (db : Database) (tx : Transaction) (block : Header)
    (config : Config) :
    Config.evaluation (step host db tx block config) = Config.evaluation config ∨
      (step host db tx block config).returned.isSome := by
  have stage := stage_step host db tx block config
  generalize step host db tx block config = after at stage ⊢
  cases stage with
  | run | succeed | post | deliver | join | rest => exact .inl rfl
  | settle => exact .inr rfl

theorem evaluation_settlement (ends : settlement config = some settled) :
    Config.evaluation config = some settled.eval := by
  cases settles_of_settlement ends with
  | failed | created | called | panicked => rfl

theorem evaluation_iterate {n : Nat}
    (ends : settlement ((step host db tx block)^[n] config) = some settled) :
    Config.evaluation config = some settled.eval := by
  induction n generalizing config with
  | zero => exact evaluation_settlement ends
  | succ n induction =>
      rw [Function.iterate_succ_apply] at ends
      rcases evaluation_step host db tx block config with same | returned
      · rw [← same]
        exact induction ends
      · rw [Function.iterate_fixed (step_of_returned returned)] at ends
        cases next : step host db tx block config with
        | finished => rw [next] at ends; cases ends
        | evaluating | dispatching | posting => rw [next] at returned; cases returned

/-! ### The transfer -/

section Transfer

variable {cb sen : Ref} {w after : World} {eval : Evaluation}

theorem lookup_makeContract (host : Host) (tx : Transaction) (w : World) (other : Bytes) :
    AList.lookup other (makeContract host tx w).2.state.stateObjects =
      if other = address (creationAddress host tx) then some w.next
      else AList.lookup other w.state.stateObjects :=
  lookup_install w _ (.new (creationAddress host tx)) other

theorem transfer_shows (transferred : transfer host db tx cb sen w = some (eval, after))
    (found : AList.lookup addr w.state.stateObjects = some ref)
    (apart : tx.contractCreation = true → address (creationAddress host tx) ≠ addr) :
    AList.lookup addr after.state.stateObjects = some ref := by
  unfold transfer at transferred
  split at transferred
  · rename_i creates
    cases transferred
    exact (lookup_makeContract host tx _ addr).trans ((if_neg (apart creates).symm).trans found)
  · obtain ⟨⟨receiver, loaded⟩, got, transferred⟩ := Option.bind_eq_some_iff.mp transferred
    cases transferred
    exact (keeps_getOrNewStateObject got).1.kept found

/-- The new contract takes the place of an account with its address. -/
theorem transfer_lost (transferred : transfer host db tx cb sen w = some (eval, after))
    (sound : w.Sound) (creates : tx.contractCreation = true)
    (found : AList.lookup (address (creationAddress host tx)) w.state.stateObjects = some ref) :
    after.Lost ref := by
  unfold transfer at transferred
  rw [if_pos creates] at transferred
  cases transferred
  obtain ⟨below, addressEq, -⟩ := sound.held found
  constructor
  · exact below.trans (Nat.lt_succ_self _)
  · intro other held
    have installed := (lookup_makeContract host tx _ other).symm.trans held
    split at installed
    · exact absurd (Option.some.inj installed) below.ne'
    · rename_i different
      exact different ((sound.held installed).2.1.symm.trans addressEq)

theorem world_evaluate (eval : Evaluation) (gas : Int) (w : World) :
    (evaluate eval gas w).world = w := by
  unfold evaluate
  split
  · rfl
  · exact (Machine.proceeds_enter _ _).world

theorem evaluation_evaluate (eval : Evaluation) (gas : Int) (w : World) :
    Config.evaluation (evaluate eval gas w) = some eval := by
  unfold evaluate
  split <;> rfl

variable {gas : Int} {last : Nat}

/-- An account that the transfer leaves alone has the same object at the end just if nothing
has failed. -/
theorem transfer_shows_iff (sound : w.Sound) (cbBelow : cb < w.next) (senBelow : sen < w.next)
    (transferred : transfer host db tx cb sen w = some (eval, after))
    (ends : settlement ((step host db tx block)^[last] (evaluate eval gas after)) = some settled)
    (found : AList.lookup addr w.state.stateObjects = some ref)
    (apart : tx.contractCreation = true → address (creationAddress host tx) ≠ addr) :
    AList.lookup addr settled.world.state.stateObjects = some ref ↔
      ∀ n, ¬ ((step host db tx block)^[n] (evaluate eval gas after)).Reverts := by
  have valid := transfer_valid sound cbBelow senBelow transferred
  have moved := transfer_shows transferred found apart
  have worldEq := world_evaluate eval gas after
  apply shows_settlement_iff (valid_evaluate valid) ends
  · rwa [worldEq]
  · rw [worldEq]
    exact (valid.sound.held moved).1

/-- An account whose place a contract has taken does not come back. -/
theorem transfer_gone (sound : w.Sound) (cbBelow : cb < w.next) (senBelow : sen < w.next)
    (transferred : transfer host db tx cb sen w = some (eval, after))
    (ends : settlement ((step host db tx block)^[last] (evaluate eval gas after)) = some settled)
    (creates : tx.contractCreation = true)
    (found : AList.lookup (address (creationAddress host tx)) w.state.stateObjects = some ref) :
    AList.lookup addr settled.world.state.stateObjects ≠ some ref := by
  have valid : (evaluate eval gas after).Valid :=
    valid_evaluate (transfer_valid sound cbBelow senBelow transferred)
  have lost := transfer_lost transferred sound creates found
  rw [← world_evaluate eval gas after] at lost
  exact (lost_settlement ends (.inl (lost_iterate valid lost last))).absent addr

end Transfer

end StateTransition

namespace BlockManager

open Thelonious.StateTransition World

variable (manager : BlockManager) (block : Block) (db : Database) (tx : Transaction) (cb : Ref)
  (w : World)

/-- `tx.Sender()` -/
def senderOf : Bytes := (manager.host.sender tx).getD []

/-- The sender, and the state in which the gas is bought. -/
def purchase : Option (Ref × World) := w.getOrNewStateObject db (manager.senderOf tx)

/-- The state in which `RefundGas` is called, and the gas that is left. -/
def refund : Option (World × Int) :=
  match outset manager.validated db tx cb w with
  | .refused _ => none
  | .stopped _ after gas => some (after, gas)
  | .begun eval after gas =>
      (settle manager.validated db tx block.header manager.fuel (evaluate eval gas after)).map
        fun settled => (settled.world, settled.gas)

/-- The fee of a transaction as the accounts show it: what the sender pays for the gas and
is not refunded, and what the coinbase is given and does not return. -/
def fees : Option (Int × Int) := do
  let (sen, before) ← manager.purchase db tx w
  let (ended, gas) ← manager.refund block db tx cb w
  let sender := address (manager.senderOf tx)
  let coinbase := address block.header.coinbase
  let given := before.modify cb (.addAmount tx.gasValue)
  let bought := given.modify sen (.subAmount tx.gasValue)
  let returned := ended.modify cb (.refundGas gas tx.gasPrice)
  let refunded := returned.modify sen (.addAmount (gas * tx.gasPrice))
  return (given.balanceAt db sender - bought.balanceAt db sender -
      (refunded.balanceAt db sender - returned.balanceAt db sender),
    given.balanceAt db coinbase - before.balanceAt db coinbase -
      (ended.balanceAt db coinbase - returned.balanceAt db coinbase))

/-- The transaction creates a contract at the address of the sender or of the coinbase. -/
def Replaces : Prop :=
  (∃ eval after gas, outset manager.validated db tx cb w = .begun eval after gas) ∧
    tx.contractCreation = true ∧
    (address (creationAddress manager.validated tx) = address (manager.senderOf tx) ∨
      address (creationAddress manager.validated tx) = address block.header.coinbase)

variable {manager block db tx cb w} {sen : Ref} {bought : World} {ending : Ending}

/-- The state at the end is the one in which `RefundGas` is called, with the refund. -/
theorem transition_refund (checked : preCheck manager.validated db tx cb w = .ok (sen, bought))
    (ends : manager.transition block db tx cb w = some ending) :
    ∃ ended, manager.refund block db tx cb w = some (ended, ending.gas) ∧
      ending.world = refundGas ended cb sen ending.gas tx.gasPrice := by
  unfold transition at ends
  split at ends
  · rename_i refused
    rw [outset_refused refused] at checked
    cases checked
  · rename_i sender after gas stopped
    obtain ⟨before, sameCheck, -, -, -⟩ := outset_stopped stopped
    rw [sameCheck] at checked
    cases checked
    cases ends
    exact ⟨after, by simp only [refund, stopped], rfl⟩
  · rename_i eval after gas begun
    obtain ⟨sender, before, sameCheck, -, transferred, -, -⟩ := outset_begun begun
    rw [sameCheck] at checked
    cases checked
    obtain ⟨settled, found, rfl⟩ := Option.map_eq_some_iff.mp ends
    obtain ⟨n, last⟩ := settlement_of_settle found
    have same := (evaluation_evaluate eval gas after).symm.trans (evaluation_iterate last)
    obtain ⟨txEq, cbEq, senEq⟩ := transfer_fields transferred
    refine ⟨settled.world, by simp [refund, begun, found], ?_⟩
    rw [← Option.some.inj same, txEq, cbEq, senEq]

section Refunded

variable (coinbase : AList.lookup (address block.header.coinbase) w.state.stateObjects = some cb)
  (checked : preCheck manager.validated db tx cb w = .ok (sen, bought)) {ended : World} {gas : Int}
  (refunded : manager.refund block db tx cb w = some (ended, gas))

include coinbase checked refunded in
/-- The state has the objects of the sender and of the coinbase when the gas is refunded,
unless it has gone back to a copy or a contract has taken their place. -/
theorem refund_shows_iff (sound : w.Sound) :
    (AList.lookup (address (manager.senderOf tx)) ended.state.stateObjects = some sen ∧
        AList.lookup (address block.header.coinbase) ended.state.stateObjects = some cb) ↔
      (∀ n, ¬ (run manager.validated db tx block.header cb w n).Reverts) ∧
        ¬ manager.Replaces block db tx cb w := by
  obtain ⟨addr, loaded, recovered, got, -, -, boughtEq⟩ := preCheck_ok checked
  obtain ⟨boughtSound, senBelow, next_le⟩ := preCheck_valid sound checked
  have senderEq : manager.senderOf tx = addr := by
    rw [senderOf, show manager.host.sender tx = some addr from recovered]
    rfl
  obtain ⟨keeps, senFound⟩ := keeps_getOrNewStateObject got
  have counted : (bought.modify sen .incrementNonce).Sound := boughtSound.modify rfl
  have sender : AList.lookup (address (manager.senderOf tx))
      (bought.modify sen .incrementNonce).state.stateObjects = some sen := by
    rw [senderEq, boughtEq]
    exact senFound
  have miner : AList.lookup (address block.header.coinbase)
      (bought.modify sen .incrementNonce).state.stateObjects = some cb := by
    rw [boughtEq]
    exact keeps.kept coinbase
  unfold refund at refunded
  split at refunded
  · cases refunded
  · rename_i sender' after left stopped
    obtain ⟨before, sameCheck, rfl, -, -⟩ := outset_stopped stopped
    rw [sameCheck] at checked
    cases checked
    cases refunded
    refine iff_of_true ⟨sender, miner⟩ ⟨fun n => ?_, ?_⟩
    · rw [run, start_eq, stopped]
      exact not_reverts_of_returned (by rw [Function.iterate_fixed (by rfl)]; rfl)
    · rintro ⟨⟨eval, after, gas, begun⟩, -⟩
      cases stopped.symm.trans begun
  · rename_i eval after left begun
    obtain ⟨sender', before, sameCheck, -, transferred, -, -⟩ := outset_begun begun
    rw [sameCheck] at checked
    cases checked
    obtain ⟨settled, found, last⟩ := Option.map_eq_some_iff.mp refunded
    cases last
    obtain ⟨last, ends⟩ := settlement_of_settle found
    have cbBelow : cb < (bought.modify sen .incrementNonce).next := (counted.held miner).1
    have runs : ∀ n, run manager.validated db tx block.header cb w n =
        (step manager.validated db tx block.header)^[n] (evaluate eval left after) := by
      intro n
      rw [run, start_eq, begun]
      rfl
    simp only [runs]
    by_cases replaces : manager.Replaces block db tx cb w
    · refine iff_of_false ?_ fun calm => calm.2 replaces
      rintro ⟨senShown, cbShown⟩
      obtain ⟨-, creates, own | own⟩ := replaces
      · rw [← own] at sender
        exact transfer_gone counted cbBelow senBelow transferred ends creates sender senShown
      · rw [← own] at miner
        exact transfer_gone counted cbBelow senBelow transferred ends creates miner cbShown
    · have senIff := transfer_shows_iff counted cbBelow senBelow transferred ends sender
        fun creates own => replaces ⟨⟨eval, after, left, begun⟩, creates, .inl own⟩
      have cbIff := transfer_shows_iff counted cbBelow senBelow transferred ends miner
        fun creates own => replaces ⟨⟨eval, after, left, begun⟩, creates, .inr own⟩
      rw [senIff, cbIff, and_self, and_iff_left replaces]

include coinbase checked refunded in
/-- The fee is the gas of the transaction, less what is refunded to the accounts that the
state has. -/
theorem fees_eq :
    manager.fees block db tx cb w = some
      (tx.gasValue -
          (if AList.lookup (address (manager.senderOf tx)) ended.state.stateObjects = some sen then
            gas * tx.gasPrice else 0),
        tx.gasValue -
          (if AList.lookup (address block.header.coinbase) ended.state.stateObjects = some cb then
            gas * tx.gasPrice else 0)) := by
  obtain ⟨addr, before, recovered, got, -, -, -⟩ := preCheck_ok checked
  obtain rfl : manager.senderOf tx = addr := by
    rw [senderOf, show manager.host.sender tx = some addr from recovered]
    rfl
  obtain ⟨keeps, senFound⟩ := keeps_getOrNewStateObject got
  have cbFound := keeps.kept coinbase
  have purchased : manager.purchase db tx w = some (sen, before) := got
  have given : ∀ other, (before.modify cb (.addAmount tx.gasValue)).balanceAt db other =
      before.balanceAt db other +
        if AList.lookup other before.state.stateObjects = some cb then tx.gasValue else 0 :=
    balanceAt_pay rfl
  have paid : ∀ (w : World) other, (w.modify sen (.subAmount tx.gasValue)).balanceAt db other =
      w.balanceAt db other +
        if AList.lookup other w.state.stateObjects = some sen then -tx.gasValue else 0 :=
    fun w => balanceAt_pay (Int.sub_eq_add_neg)
  have returned : ∀ other, (ended.modify cb (.refundGas gas tx.gasPrice)).balanceAt db other =
      ended.balanceAt db other +
        if AList.lookup other ended.state.stateObjects = some cb then -(gas * tx.gasPrice) else 0 :=
    balanceAt_pay (Int.sub_eq_add_neg)
  have refund : ∀ (w : World) other,
      (w.modify sen (.addAmount (gas * tx.gasPrice))).balanceAt db other =
        w.balanceAt db other +
          if AList.lookup other w.state.stateObjects = some sen then gas * tx.gasPrice else 0 :=
    fun w => balanceAt_pay rfl
  have given' : (before.modify cb (.addAmount tx.gasValue)).state = before.state := rfl
  have returned' : (ended.modify cb (.refundGas gas tx.gasPrice)).state = ended.state := rfl
  simp only [fees, purchased, refunded, Option.bind_eq_bind, Option.bind_some, Option.pure_def,
    paid, refund, returned, given, given', returned', senFound, cbFound, if_true,
    Option.some.injEq, Prod.mk.injEq]
  constructor
  · ring
  · split <;> ring

include coinbase checked in
/-- The accounts show the fee that the receipt states just if nothing is refunded, or if the
refund reaches them. -/
theorem fees_iff (sound : w.Sound)
    (ends : manager.transition block db tx cb w = some ending) {fee : Int}
    (feeEq : fee = (tx.gas - ending.gas) * tx.gasPrice) :
    manager.fees block db tx cb w = some (fee, fee) ↔
      ending.gas * tx.gasPrice = 0 ∨
        (∀ n, ¬ (run manager.validated db tx block.header cb w n).Reverts) ∧
          ¬ manager.Replaces block db tx cb w := by
  obtain ⟨ended, refunded, -⟩ := transition_refund checked ends
  rw [← refund_shows_iff coinbase checked refunded sound, fees_eq coinbase checked refunded, feeEq,
    Option.some.injEq, Prod.mk.injEq, Transaction.gasValue, sub_mul]
  by_cases nothing : ending.gas * tx.gasPrice = 0
  · simp [nothing]
  · have either : ∀ shown : Prop, ∀ [Decidable shown],
        tx.gas * tx.gasPrice - (if shown then ending.gas * tx.gasPrice else 0) =
          tx.gas * tx.gasPrice - ending.gas * tx.gasPrice ↔ shown := by
      intro shown _
      by_cases isShown : shown
      · simp [isShown]
      · simp only [isShown, if_false, sub_zero, iff_false]
        intro same
        exact nothing (by linarith)
    rw [either, either, or_iff_right nothing]

end Refunded

/-- A receipt states the fee that the accounts of the sender and of the coinbase show just if
nothing is refunded, or if the state has not gone back to a copy and no contract has taken
the place of one of the accounts. -/
theorem receipts_state_fees (manager : BlockManager) (onlyLoads : manager.OnlyLoads)
    (block : Block) (db : Database) (w : World) (sound : w.Sound) (txs : List Transaction) (n : Nat)
    (progress after : Progress)
    (current : manager.processing block db w txs n = .processing progress)
    (next : manager.processing block db w txs (n + 1) = .processing after) (receipt : Receipt)
    (added : after.receipts = progress.receipts ++ [receipt]) (cb sen : Ref)
    (found valid bought : World)
    (coinbase : progress.world.getStateObject progress.db block.header.coinbase =
      some (some cb, found))
    (validated : manager.validateTx progress.db receipt.tx found = (none, valid))
    (checked : preCheck manager.validated progress.db receipt.tx cb valid = .ok (sen, bought)) :
    let tx := receipt.tx
    let used := receipt.cumulativeGasUsed - progress.totalUsedGas
    manager.fees block progress.db tx cb valid =
        some (used * tx.gasPrice, used * tx.gasPrice) ↔
      (tx.gas - used) * tx.gasPrice = 0 ∨
        (∀ n, ¬ (run manager.validated progress.db tx block.header cb valid n).Reverts) ∧
          ¬ manager.Replaces block progress.db tx cb valid := by
  have soundThen := sound_processing sound onlyLoads n progress (by rw [current]; rfl)
  obtain ⟨loads, cbFound, -⟩ := loads_getStateObject soundThen coinbase
  have validLoads := onlyLoads loads.sound validated
  have outcome := iterated manager block progress
  rw [← current, ← processing_succ, next] at outcome
  cases outcome with
  | skipped => exact absurd added (by simp)
  | handled tx rest cb' w' ending db' after' root txs' found' ends counts updated rootEq =>
      cases coinbase.symm.trans found'
      obtain rfl : receipt = _ := by simpa using added.symm
      rw [transitionState, validated] at ends
      have usedEq : progress.totalUsedGas + (tx.gas - ending.gas) - progress.totalUsedGas =
          tx.gas - ending.gas := by ring
      have leftEq : tx.gas - (tx.gas - ending.gas) = ending.gas := by ring
      dsimp only
      rw [usedEq, leftEq]
      exact fees_iff (validLoads.kept cbFound) checked validLoads.sound ends rfl

theorem ledgerWith_calm (n : Nat) :
    ¬ (run ledgerManager.validated ∅ (ledgerTx 0 600) ledgerBlock.header 1 (ledgerWith [])
      n).Reverts := by
  refine Iteration.forall_of_fixed
    (step ledgerManager.validated ∅ (ledgerTx 0 600) ledgerBlock.header)
    (fun config : Config => ¬ config.Reverts) 1 rfl ?_ n
  intro n le
  interval_cases n
  · exact id
  · exact id

/-- Nothing fails, and what is left of the gas is refunded. -/
theorem receipts_state_fees_ledger :
    ∃ after receipt,
      ledgerManager.processing ledgerBlock ∅ (ledgerWith [])
        [ledgerTx 0 600] 1 = .processing after ∧
      after.receipts = [receipt] ∧ receipt.tx = ledgerTx 0 600 ∧ receipt.cumulativeGasUsed = 500 ∧
      ledgerManager.fees ledgerBlock ∅ (ledgerTx 0 600) 1 (ledgerWith []) = some (500, 500) := by
  obtain ⟨after, next, totals⟩ : ∃ after,
      ledgerManager.processing ledgerBlock ∅ (ledgerWith [])
        [ledgerTx 0 600] 1 = .processing after ∧
        after.receipts.map Receipt.cumulativeGasUsed = [500] :=
    exists_processing (by decide +kernel)
  obtain ⟨receipt, added, txEq⟩ := exists_receipt (processing_zero _ _ _) next rfl
    (by simpa [initially] using congrArg List.length totals)
  have receipts : after.receipts = [receipt] := added
  have used : receipt.cumulativeGasUsed = 500 := by simpa [receipts] using totals
  obtain ⟨bought, checked⟩ := ledgerWith_checked
  have fees := receipts_state_fees ledgerManager (onlyLoads_of_eth rfl) ledgerBlock ∅
    (ledgerWith [])
    ((sound_ledgerWorld.modify rfl).modify rfl)
    [ledgerTx 0 600] 0 _ after (processing_zero _ _ _) next
    receipt added 1 0 _ _ bought ledgerWith_coinbase
    (by rw [txEq]; exact ledgerWith_validated) (by rw [txEq]; exact checked)
  refine ⟨after, receipt, next, receipts, txEq, used, ?_⟩
  rw [txEq, used] at fees
  refine fees.mpr (.inr ⟨ledgerWith_calm, ?_⟩)
  rintro ⟨-, creates, -⟩
  cases creates

/-- The code of the coinbase fails with 99 gas left.  The receipt states that 501 gas was
used, and the sender has paid for 600. -/
theorem failed_refund_lost :
    (ledgerManager.processing ledgerBlock ∅ (ledgerWith [0x50, 0x00]) [ledgerTx 0 600]
        2).receipts.map Receipt.cumulativeGasUsed = [501] ∧
      ledgerManager.fees ledgerBlock ∅ (ledgerTx 0 600) 1 (ledgerWith [0x50, 0x00]) =
        some (600, 600) := by
  decide +kernel

end BlockManager

end Thelonious
