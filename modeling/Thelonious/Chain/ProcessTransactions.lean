import Thelonious.Chain.Refund
import Thelonious.State.Update

/-!
# Processing the transactions of a block

`ProcessTransactions` runs one state transition after the other on the same
state.  The dynamic type of the error of a transition decides whether the
transaction is skipped, ends the loop, or gets a receipt like one that has
succeeded.  After each transaction that gets a receipt the pending changes are
written with `State.Update`.
-/

namespace Thelonious

/-- The types of the errors of a transition.  `GasLimitErr` is declared twice: `gasLimitErr`
is the one of `monkchain`, `poolErr` the one of `monkstate`. -/
inductive TxErr
  | nonceErr
  | gasLimitTxErr
  | gasLimitErr
  | poolErr
  | otherErr
  deriving DecidableEq

/-- `SetGasPool` -/
def StateObject.setGasPool (gasLimit : Int) (object : StateObject) : StateObject :=
  { object with gasPool := gasLimit }

/-- `StateObject.BuyGas`; `none` is its `GasLimitErr`. -/
def StateObject.buyGas (gas price : Int) (object : StateObject) : Option StateObject :=
  if object.gasPool < gas then none else some (object.addAmount (gas * price))

/-- What `ProcessTransactions` depends on besides the block: the protocol, with the state
after its check, the order in which maps are traversed, and bounds for the recursion
of the trie iterator and for the steps of a transition. -/
structure BlockManager where
  host : Host
  validateTx : Database → Transaction → World → Option TxErr × World
  addresses : World → List Bytes
  slots : World → Bytes → StorageOrder
  depth : Nat
  fuel : Nat

/-- The host of a transition whose transaction has been validated. -/
def BlockManager.validated (manager : BlockManager) : Host :=
  { manager.host with validateTx := fun _ _ => true }

/-- `EthModel.ValidateTx`, which can create the account of the sender.  A panic is
recovered as an error. -/
def ethValidateTx (host : Host) (db : Database) (tx : Transaction) (w : World) :
    Option TxErr × World :=
  match host.sender tx with
  | none => (some .otherErr, w)
  | some addr =>
      match w.getOrNewStateObject db addr with
      | none => (some .otherErr, w)
      | some (sender, w) =>
          (if (w.heap sender).nonce ≠ tx.nonce then some .nonceErr else none, w)

/-- The result of `TransitionState`: the state, `st.gas` and the error. -/
structure Ending where
  world : World
  gas : Int
  err : Option TxErr

/-- The transaction gets a receipt. -/
def Ending.Counts (ending : Ending) : Prop :=
  ending.err ≠ some .nonceErr ∧ ending.err ≠ some .gasLimitTxErr ∧ ending.err ≠ some .gasLimitErr

/-- The loop of `ProcessTransactions`, before `txs[index]`. -/
structure Progress where
  txs : List Transaction
  index : Nat
  db : Database
  world : World
  totalUsedGas : Int
  receipts : List Receipt
  handled : List Transaction

/-- `mismatch`: a receipt differs from the one in the block.  `panicked`: a panic outside
of a transition.  `unfinished`: a transition has taken more steps than were counted. -/
inductive Processing
  | processing (progress : Progress)
  | returned (progress : Progress) (unhandled : List Transaction)
  | mismatch
  | panicked
  | unfinished

/-- The receipts that `ProcessTransactions` returns; there are none with an error. -/
def Processing.receipts : Processing → List Receipt
  | .returned progress _ => progress.receipts
  | _ => []

/-- `handled` and `unhandled`, as they are returned without an error. -/
def Processing.lists : Processing → Option (List Transaction × List Transaction)
  | .returned progress unhandled => some (progress.handled, unhandled)
  | _ => none

/-- The loop variables, when the loop goes on or has returned. -/
def Processing.progress : Processing → Option Progress
  | .processing progress | .returned progress _ => some progress
  | _ => none

/-- `ProcessTransactions` is over. -/
def Processing.ended : Processing → Bool
  | .processing _ => false
  | _ => true

/-- What the receipts of a loop that goes on add up to. -/
theorem exists_processing {state : Processing} {totals : List Int}
    (known : state.ended = false ∧
      (state.progress.map fun progress => progress.receipts.map Receipt.cumulativeGasUsed) =
        some totals) :
    ∃ progress, state = .processing progress ∧
      progress.receipts.map Receipt.cumulativeGasUsed = totals := by
  cases state with
  | processing progress => exact ⟨progress, rfl, Option.some.inj known.2⟩
  | returned | mismatch | panicked | unfinished => cases known.1

namespace BlockManager

open Thelonious.StateTransition

variable (manager : BlockManager) (block : Block)

/-- Why the gas was not bought. -/
def purchaseErr (db : Database) (tx : Transaction) (cb : Ref) (w : World) : TxErr :=
  match (manager.host.sender tx).bind (w.getOrNewStateObject db) with
  | none => .otherErr
  | some (sender, w) =>
      if (w.heap sender).balance < tx.gasValue then .otherErr
      else
        match (w.heap cb).buyGas tx.gas tx.gasPrice with
        | none => .poolErr
        | some _ => .otherErr

/-- `TransitionState`, for a transaction that has been validated. -/
def transition (db : Database) (tx : Transaction) (cb : Ref) (w : World) : Option Ending :=
  match outset manager.validated db tx cb w with
  | .refused after => some ⟨after, 0, some (manager.purchaseErr db tx cb w)⟩
  | .stopped sen after gas =>
      some ⟨refundGas after cb sen gas tx.gasPrice, gas, some .otherErr⟩
  | .begun eval after gas =>
      (settle manager.validated db tx block.header manager.fuel (evaluate eval gas after)).map
        fun settled =>
          ⟨refundGas settled.world settled.eval.cb settled.eval.sen settled.gas
            settled.eval.tx.gasPrice, settled.gas, if settled.ok then none else some .otherErr⟩

/-- `TransitionState` -/
def transitionState (db : Database) (tx : Transaction) (cb : Ref) (w : World) : Option Ending :=
  match manager.validateTx db tx w with
  | (some err, w) => some ⟨w, 0, some err⟩
  | (none, w) => manager.transition block db tx cb w

/-- The second half of the loop body, for a transaction that gets a receipt. -/
def record (progress : Progress) (tx : Transaction) (rest : List Transaction) (ending : Ending) :
    Processing :=
  let w := ending.world
  match w.update manager.host.sha3Bin progress.db manager.depth (manager.addresses w)
      (manager.slots w) with
  | none => .panicked
  | some (db, w) =>
      match w.state.trie.root with
      | .bytes root =>
          let total := progress.totalUsedGas + (tx.gas - ending.gas)
          if (block.receipts[progress.index]?).any (fun original => original.postState ≠ root) then
            .mismatch
          else .processing {
            txs := rest, index := progress.index + 1, db := db, world := w, totalUsedGas := total
            receipts := progress.receipts ++ [⟨tx, root, total⟩]
            handled := progress.handled ++ [tx] }
      | _ => .panicked

/-- The loop body for one transaction, with the coinbase found. -/
def handle (progress : Progress) (tx : Transaction) (rest : List Transaction) (cb : Ref)
    (w : World) : Processing :=
  match manager.transitionState block progress.db tx cb w with
  | none => .unfinished
  | some ending =>
      match ending.err with
      | some .nonceErr | some .gasLimitTxErr =>
          .processing { progress with
            txs := rest, index := progress.index + 1, world := ending.world }
      | some .gasLimitErr => .returned { progress with world := ending.world } progress.txs
      | _ => manager.record block progress tx rest ending

/-- One iteration of `ProcessTransactions`. -/
def iterate : Processing → Processing
  | .processing progress =>
      match progress.txs with
      | [] => .returned progress []
      | tx :: rest =>
          match progress.world.getStateObject progress.db block.header.coinbase with
          | some (some cb, w) => manager.handle block progress tx rest cb w
          | _ => .panicked
  | stopped => stopped

/-- The state of the loop before the first transaction. -/
def initially (db : Database) (w : World) (txs : List Transaction) : Progress where
  txs := txs
  index := 0
  db := db
  world := w
  totalUsedGas := 0
  receipts := []
  handled := []

/-- `ProcessTransactions` after some iterations. -/
def processing (db : Database) (w : World) (txs : List Transaction) (n : Nat) : Processing :=
  (manager.iterate block)^[n] (.processing (initially db w txs))

/-- `ProcessTransactions` -/
def processTransactions (db : Database) (w : World) (txs : List Transaction) : Processing :=
  manager.processing block db w txs (txs.length + 1)

end BlockManager

/-! ### Transitions -/

namespace BlockManager

open Thelonious.StateTransition World

variable {manager : BlockManager} {block : Block}

section Transition

variable {db : Database} {tx : Transaction} {cb : Ref} {w : World} {ending : Ending}

theorem run_of_transition (ends : manager.transition block db tx cb w = some ending) :
    ∃ n, run manager.validated db tx block.header cb w n =
      .finished ending.world ending.err.isNone := by
  unfold transition at ends
  split at ends
  · rename_i after refused
    cases ends
    exact ⟨0, by rw [run, Function.iterate_zero_apply, start_eq, refused]; rfl⟩
  · rename_i sen after gas stopped
    cases ends
    exact ⟨0, by rw [run, Function.iterate_zero_apply, start_eq, stopped]; rfl⟩
  · rename_i eval after gas begun
    obtain ⟨settled, found, rfl⟩ := Option.map_eq_some_iff.mp ends
    obtain ⟨n, last⟩ := settlement_of_settle found
    refine ⟨n + 1, ?_⟩
    rw [run, start_eq, begun, Function.iterate_succ_apply']
    refine (step_of_settlement last).trans ?_
    rw [Settlement.ending, finish]
    cases settled.ok <;> rfl

theorem sound_settlement {config : Config} {settled : Settlement} (valid : config.Valid)
    (ends : settlement config = some settled) : settled.world.Sound := by
  cases settles_of_settlement ends with
  | failed => exact .set valid.2.2
  | created => exact valid.1.modify rfl
  | called => exact valid.1
  | panicked => exact valid.1.sound

theorem sound_refundGas (sound : w.Sound) (cb sen : Ref) (gas price : Int) :
    (refundGas w cb sen gas price).Sound :=
  (sound.modify rfl).modify rfl

theorem sound_transition (sound : w.Sound) (below : cb < w.next)
    (ends : manager.transition block db tx cb w = some ending) : ending.world.Sound := by
  unfold transition at ends
  split at ends
  · rename_i after refused
    cases ends
    rcases preCheck_error (outset_refused refused) with rfl | ⟨addr, ref, got⟩
    · exact sound
    · exact (loads_getOrNewStateObject sound got).1.sound
  · rename_i sen after gas stopped
    cases ends
    obtain ⟨bought, checked, rfl, -, -⟩ := outset_stopped stopped
    obtain ⟨boughtSound, -, -⟩ := preCheck_valid sound checked
    exact sound_refundGas (boughtSound.modify rfl) _ _ _ _
  · rename_i eval after gas begun
    obtain ⟨settled, found, rfl⟩ := Option.map_eq_some_iff.mp ends
    obtain ⟨n, last⟩ := settlement_of_settle found
    have valid : (run manager.validated db tx block.header cb w n).Valid :=
      valid_run sound below n
    rw [run, start_eq, begun] at valid
    exact sound_refundGas (sound_settlement valid last) _ _ _ _

/-- The check of the protocol does no more than load accounts. -/
def OnlyLoads (manager : BlockManager) : Prop :=
  ∀ {db : Database} {tx : Transaction} {w after : World} {err : Option TxErr}, w.Sound →
    manager.validateTx db tx w = (err, after) → Loads db w after

theorem loads_ethValidateTx {host : Host} {after : World} {err : Option TxErr} (sound : w.Sound)
    (validated : ethValidateTx host db tx w = (err, after)) : Loads db w after := by
  unfold ethValidateTx at validated
  split at validated
  · cases validated
    exact .refl sound
  · split at validated
    · cases validated
      exact .refl sound
    · rename_i sender loaded got
      cases validated
      exact (loads_getOrNewStateObject sound got).1

theorem onlyLoads_of_eth (eth : manager.validateTx = ethValidateTx manager.host) :
    manager.OnlyLoads := by
  intro db tx w after err sound validated
  rw [eth] at validated
  exact loads_ethValidateTx sound validated

theorem sound_transitionState (onlyLoads : manager.OnlyLoads) (sound : w.Sound)
    (below : cb < w.next) (ends : manager.transitionState block db tx cb w = some ending) :
    ending.world.Sound := by
  unfold transitionState at ends
  split at ends
  · rename_i err after validated
    cases ends
    exact (onlyLoads sound validated).sound
  · rename_i after validated
    have loads := onlyLoads sound validated
    exact sound_transition loads.sound (below.trans_le loads.next_le) ends

end Transition

/-! ### What an iteration does -/

/-- The outcomes of an iteration: the list is exhausted, the transaction is skipped, it ends
the loop, it gets a receipt, or `ProcessTransactions` does not return its results. -/
inductive Iterated (manager : BlockManager) (block : Block) (progress : Progress) :
    Processing → Prop
  | done (empty : progress.txs = []) : Iterated manager block progress (.returned progress [])
  | skipped (tx : Transaction) (rest : List Transaction) (cb : Ref) (w : World) (ending : Ending)
      (txs : progress.txs = tx :: rest)
      (found : progress.world.getStateObject progress.db block.header.coinbase =
        some (some cb, w))
      (ends : manager.transitionState block progress.db tx cb w = some ending)
      (err : ending.err = some .nonceErr ∨ ending.err = some .gasLimitTxErr) :
      Iterated manager block progress (.processing { progress with
        txs := rest, index := progress.index + 1, world := ending.world })
  | full (tx : Transaction) (rest : List Transaction) (cb : Ref) (w : World) (ending : Ending)
      (txs : progress.txs = tx :: rest)
      (found : progress.world.getStateObject progress.db block.header.coinbase =
        some (some cb, w))
      (ends : manager.transitionState block progress.db tx cb w = some ending)
      (err : ending.err = some .gasLimitErr) :
      Iterated manager block progress
        (.returned { progress with world := ending.world } progress.txs)
  | handled (tx : Transaction) (rest : List Transaction) (cb : Ref) (w : World) (ending : Ending)
      (db : Database) (after : World) (root : Bytes)
      (txs : progress.txs = tx :: rest)
      (found : progress.world.getStateObject progress.db block.header.coinbase =
        some (some cb, w))
      (ends : manager.transitionState block progress.db tx cb w = some ending)
      (counts : ending.Counts)
      (updated : ending.world.update manager.host.sha3Bin progress.db manager.depth
        (manager.addresses ending.world) (manager.slots ending.world) = some (db, after))
      (rootEq : after.state.trie.root = .bytes root) :
      Iterated manager block progress (.processing {
        txs := rest, index := progress.index + 1, db := db, world := after
        totalUsedGas := progress.totalUsedGas + (tx.gas - ending.gas)
        receipts := progress.receipts ++
          [⟨tx, root, progress.totalUsedGas + (tx.gas - ending.gas)⟩]
        handled := progress.handled ++ [tx] })
  | mismatch : Iterated manager block progress .mismatch
  | panicked : Iterated manager block progress .panicked
  | unfinished : Iterated manager block progress .unfinished

variable {w : World} {progress : Progress} {db : Database} {txs rest : List Transaction}
  {tx : Transaction}

theorem iterated_record {cb : Ref} {ending : Ending} (txs : progress.txs = tx :: rest)
    (found : progress.world.getStateObject progress.db block.header.coinbase = some (some cb, w))
    (ends : manager.transitionState block progress.db tx cb w = some ending)
    (counts : ending.Counts) :
    Iterated manager block progress (manager.record block progress tx rest ending) := by
  unfold record
  dsimp only
  split
  · exact .panicked
  · rename_i db after updated
    split
    · rename_i root rootEq
      split
      · exact .mismatch
      · exact .handled tx rest cb w ending db after root txs found ends counts updated rootEq
    · exact .panicked

theorem iterated_handle {cb : Ref} (txs : progress.txs = tx :: rest)
    (found : progress.world.getStateObject progress.db block.header.coinbase = some (some cb, w)) :
    Iterated manager block progress (manager.handle block progress tx rest cb w) := by
  unfold handle
  split
  · exact .unfinished
  · rename_i ending ends
    split
    · rename_i err
      exact .skipped tx rest cb w ending txs found ends (.inl err)
    · rename_i err
      exact .skipped tx rest cb w ending txs found ends (.inr err)
    · rename_i err
      exact .full tx rest cb w ending txs found ends err
    · rename_i nonce gasLimitTx gasLimit
      exact iterated_record txs found ends ⟨nonce, gasLimitTx, gasLimit⟩

theorem iterated (manager : BlockManager) (block : Block) (progress : Progress) :
    Iterated manager block progress (manager.iterate block (.processing progress)) := by
  simp only [iterate]
  split
  · rename_i empty
    exact .done empty
  · rename_i tx rest txs
    split
    · rename_i cb w found
      exact iterated_handle txs found
    · exact .panicked

theorem iterate_of_ended {state : Processing} (ended : state.ended = true) :
    manager.iterate block state = state := by
  cases state with
  | processing => cases ended
  | returned | mismatch | panicked | unfinished => rfl

theorem processing_succ (db : Database) (w : World) (txs : List Transaction) (n : Nat) :
    manager.processing block db w txs (n + 1) =
      manager.iterate block (manager.processing block db w txs n) :=
  Function.iterate_succ_apply' _ _ _

theorem processing_zero (db : Database) (w : World) (txs : List Transaction) :
    manager.processing block db w txs 0 = .processing (initially db w txs) := rfl

/-- The transaction of a receipt that an iteration adds. -/
theorem exists_receipt {n : Nat} {after : Progress}
    (current : manager.processing block db w txs n = .processing progress)
    (next : manager.processing block db w txs (n + 1) = .processing after)
    (pending : progress.txs = tx :: rest)
    (more : after.receipts.length = progress.receipts.length + 1) :
    ∃ receipt, after.receipts = progress.receipts ++ [receipt] ∧ receipt.tx = tx := by
  have outcome := iterated manager block progress
  rw [← current, ← processing_succ, next] at outcome
  cases outcome with
  | skipped => simp at more
  | handled tx' rest' cb w ending db after root txs found ends counts updated rootEq =>
      cases pending.symm.trans txs
      exact ⟨_, rfl, rfl⟩

/-- What every iteration keeps holds of the loop at each time, and of what it returns. -/
theorem processing_invariant (Inv Allowed : Progress → Prop) (initial : Inv (initially db w txs))
    (keeps : ∀ progress next, Inv progress → Allowed progress →
      Iterated manager block progress next → ∀ after ∈ next.progress, Inv after)
    (allowed : ∀ n progress, manager.processing block db w txs n = .processing progress →
      Allowed progress) (n : Nat) :
    ∀ progress ∈ (manager.processing block db w txs n).progress, Inv progress := by
  induction n with
  | zero =>
      rintro progress ⟨⟩
      exact initial
  | succ n induction =>
      rw [processing_succ]
      cases current : manager.processing block db w txs n with
      | processing progress =>
          rw [current] at induction
          exact keeps progress _ (induction progress rfl) (allowed n progress current)
            (iterated manager block progress)
      | returned | mismatch | panicked | unfinished =>
          rw [current] at induction
          exact induction

theorem sound_processing (sound : w.Sound) (onlyLoads : manager.OnlyLoads) (n : Nat) :
    ∀ progress ∈ (manager.processing block db w txs n).progress, progress.world.Sound := by
  refine processing_invariant (fun progress => progress.world.Sound) (fun _ => True) sound ?_
    (fun _ _ _ => trivial) n
  intro progress next sound _ iterated
  have ended : ∀ {tx : Transaction} {cb : Ref} {w : World} {ending : Ending},
      progress.world.getStateObject progress.db block.header.coinbase = some (some cb, w) →
      manager.transitionState block progress.db tx cb w = some ending → ending.world.Sound := by
    intro tx cb w ending found ends
    obtain ⟨loads, lookupEq, -⟩ := loads_getStateObject sound found
    exact sound_transitionState onlyLoads loads.sound (loads.sound.held lookupEq).1 ends
  cases iterated with
  | done empty =>
      rintro _ ⟨⟩
      exact sound
  | skipped tx rest cb w ending txs found ends err =>
      rintro _ ⟨⟩
      exact ended found ends
  | full tx rest cb w ending txs found ends err =>
      rintro _ ⟨⟩
      exact ended found ends
  | handled tx rest cb w ending db after root txs found ends counts updated rootEq =>
      rintro _ ⟨⟩
      have endedSound := ended found ends
      exact (refreshes_update endedSound updated).sound endedSound
  | mismatch | panicked | unfinished => rintro _ ⟨⟩

/-! ### A small state

The account 1 sends transactions to the account 3, which is the coinbase. -/

theorem nodup_ledgerAddresses : [address [1], address [3]].Nodup := by
  decide

def ledgerWorld : World where
  heap
    | 0 => { StateObject.new [1] with balance := 5000 }
    | _ => StateObject.new [3]
  next := 2
  state := ⟨.new (.str []),
    ⟨[⟨address [1], 0⟩, ⟨address [3], 1⟩], nodup_ledgerAddresses⟩⟩

def ledgerHost : Host := sampleHost folded

def ledgerTx (nonce : UInt64) (gas : Int) : Transaction :=
  { sampleTx [3] 0 gas 1 with nonce := nonce }

def ledgerBlock : Block where
  header := { sampleHeader with gasLimit := 500 }
  transactions := []
  receipts := []
  uncles := []
  v := 0
  r := []
  s := []

def ledgerManager : BlockManager where
  host := ledgerHost
  validateTx := ethValidateTx ledgerHost
  addresses _ := [address [1], address [3]]
  slots _ _ := []
  depth := 50
  fuel := 2

/-- The small state with a gas limit of 1000, and some code at the coinbase. -/
def ledgerWith (code : Bytes) : World :=
  (ledgerWorld.modify 1 (.setGasPool 1000)).modify 1 (.setCode code)

theorem sound_ledgerWorld : ledgerWorld.Sound := by
  constructor
  intro addr ref found
  have member : (addr = address [1] ∧ ref = 0) ∨ (addr = address [3] ∧ ref = 1) := by
    simpa [ledgerWorld] using AList.mem_lookup_iff.mp found
  rcases member with ⟨rfl, rfl⟩ | ⟨rfl, rfl⟩
  · exact ⟨Nat.zero_lt_two, rfl, length_address _⟩
  · exact ⟨Nat.one_lt_two, rfl, length_address _⟩

theorem ledgerWith_coinbase :
    (ledgerWith []).getStateObject ∅ ledgerBlock.header.coinbase = some (some 1, ledgerWith []) :=
    rfl

theorem ledgerWith_validated :
    ledgerManager.validateTx ∅ (ledgerTx 0 600) (ledgerWith []) = (none, ledgerWith []) := rfl

theorem ledgerWith_checked :
    ∃ bought, preCheck ledgerManager.validated ∅ (ledgerTx 0 600) 1 (ledgerWith []) =
      .ok (0, bought) := ⟨_, rfl⟩

end BlockManager

end Thelonious
