import Thelonious.Chain.ProcessTransactions

/-!
# The gas limit of a block

`StateObject.BuyGas` compares the gas of a transaction with the pool of the
coinbase and leaves the pool as it is, and `RefundGas` adds to it.  So the pool
never falls, and the transactions of a block can use more than the gas limit
together.  They stay within the limit if the gas they ask for does.
-/

namespace Thelonious

/-! ### The pool -/

/-- A call of `BuyGas` or of `RefundGas`. -/
inductive PoolCall
  | buyGas (gas price : Int)
  | refundGas (gas price : Int)

namespace PoolCall

/-- The coinbase after the call. -/
def apply (object : StateObject) : PoolCall → StateObject
  | .buyGas gas price => (object.buyGas gas price).getD object
  | .refundGas gas price => object.refundGas gas price

/-- The gas that the call buys. -/
def bought (object : StateObject) : PoolCall → Int
  | .buyGas gas price => if (object.buyGas gas price).isSome then gas else 0
  | .refundGas _ _ => 0

def refunded : PoolCall → Int
  | .buyGas _ _ => 0
  | .refundGas gas _ => gas

theorem gasPool_apply (object : StateObject) (call : PoolCall) :
    (call.apply object).gasPool = object.gasPool + call.refunded := by
  cases call with
  | buyGas gas price =>
      simp only [apply, StateObject.buyGas, refunded, add_zero]
      split <;> rfl
  | refundGas gas price => rfl

end PoolCall

/-- The coinbase after a sequence of calls. -/
def StateObject.calls (object : StateObject) (calls : List PoolCall) : StateObject :=
  calls.foldl PoolCall.apply object

/-- The gas that a sequence of calls buys. -/
def StateObject.bought : StateObject → List PoolCall → Int
  | _, [] => 0
  | object, call :: calls => call.bought object + (call.apply object).bought calls

theorem StateObject.gasPool_calls (object : StateObject) (calls : List PoolCall) :
    (object.calls calls).gasPool = object.gasPool + (calls.map PoolCall.refunded).sum := by
  induction calls generalizing object with
  | nil => simp [StateObject.calls]
  | cons call calls induction =>
      rw [StateObject.calls, List.foldl_cons, ← StateObject.calls, induction,
        PoolCall.gasPool_apply, List.map_cons, List.sum_cons, add_assoc]

/-! ### The gas of the transactions -/

namespace BlockManager

open Thelonious.StateTransition

variable {manager : BlockManager} {block : Block}

/-- No message of the next transaction is given a negative amount of gas. -/
def Offers (manager : BlockManager) (block : Block) (progress : Progress) : Prop :=
  ∀ tx ∈ progress.txs.head?, ∀ cb w valid,
    progress.world.getStateObject progress.db block.header.coinbase = some (some cb, w) →
    manager.validateTx progress.db tx w = (none, valid) →
      ∀ n, Config.Offers (run manager.validated progress.db tx block.header cb valid n)

variable {db : Database} {tx : Transaction} {cb : Ref} {w : World} {ending : Ending}

theorem used_le_of_transition
    (offers : ∀ n, Config.Offers (run manager.validated db tx block.header cb w n))
    (ends : manager.transition block db tx cb w = some ending) :
    tx.gas - ending.gas ≤ max 0 tx.gas := by
  unfold transition at ends
  split at ends
  · cases ends
    dsimp only
    omega
  · rename_i sen after gas stopped
    cases ends
    obtain ⟨-, -, -, -, least⟩ := outset_stopped stopped
    dsimp only
    omega
  · rename_i eval after gas begun
    obtain ⟨settled, found, rfl⟩ := Option.map_eq_some_iff.mp ends
    obtain ⟨-, -, -, -, -, -, nonneg⟩ := outset_begun begun
    have starts : start manager.validated db tx cb w = evaluate eval gas after := by
      rw [start_eq, begun]
      rfl
    simp only [run, starts] at offers
    have left := gas_nonneg_of_settle eval after nonneg offers found
    dsimp only
    omega

/-- What a receipt adds is part of the gas of its transaction. -/
theorem used_le (offers : ∀ valid, manager.validateTx db tx w = (none, valid) →
      ∀ n, Config.Offers (run manager.validated db tx block.header cb valid n))
    (ends : manager.transitionState block db tx cb w = some ending) :
    tx.gas - ending.gas ≤ max 0 tx.gas := by
  unfold transitionState at ends
  split at ends
  · cases ends
    dsimp only
    omega
  · rename_i valid validated
    exact used_le_of_transition (offers valid validated) ends

/-- The receipts so far, and the transactions that are still to come. -/
structure Budgeted (limit : Int) (progress : Progress) : Prop where
  total : progress.totalUsedGas + (progress.txs.map fun tx => max 0 tx.gas).sum ≤ limit
  receipts {receipt : Receipt} : receipt ∈ progress.receipts.getLast? →
    receipt.cumulativeGasUsed = progress.totalUsedGas

variable {progress : Progress}

theorem budgeted_iterated {limit : Int} {next : Processing} (budgeted : Budgeted limit progress)
    (offers : Offers manager block progress) (iterated : Iterated manager block progress next) :
    ∀ after ∈ next.progress, Budgeted limit after := by
  cases iterated with
  | done empty =>
      rintro _ ⟨⟩
      exact budgeted
  | skipped tx rest cb w ending txs found ends err =>
      rintro _ ⟨⟩
      have total := budgeted.total
      rw [txs, List.map_cons, List.sum_cons] at total
      exact ⟨by dsimp only; omega, budgeted.receipts⟩
  | full tx rest cb w ending txs found ends err =>
      rintro _ ⟨⟩
      exact ⟨budgeted.total, budgeted.receipts⟩
  | handled tx rest cb w ending db after root txs found ends counts updated rootEq =>
      rintro _ ⟨⟩
      have total := budgeted.total
      rw [txs, List.map_cons, List.sum_cons] at total
      have used := used_le (fun valid validated =>
        offers tx (by rw [txs]; rfl) cb w valid found validated) ends
      refine ⟨by dsimp only; omega, fun last => ?_⟩
      rw [List.getLast?_append_of_ne_nil _ (List.cons_ne_nil _ _)] at last
      cases last
      rfl
  | mismatch | panicked | unfinished => rintro _ ⟨⟩

theorem Budgeted.last_le {limit : Int} (budgeted : Budgeted limit progress) {receipt : Receipt}
    (last : receipt ∈ progress.receipts.getLast?) : receipt.cumulativeGasUsed ≤ limit := by
  have pending : 0 ≤ (progress.txs.map fun tx => max 0 tx.gas).sum :=
    List.sum_nonneg (by simp)
  have total := budgeted.total
  rw [budgeted.receipts last]
  omega

/-- The pool of a coinbase only grows, so that it agrees with the gas that was bought and
refunded just as long as none is bought.  The receipts of a block stay within the
gas limit if the gas of its transactions does, and if no message is given a negative
amount of gas. -/
theorem gas_limit_kept (manager : BlockManager) (block : Block) (db : Database) (w : World)
    (cb : Ref) (limit : Int) (txs : List Transaction) :
    (∀ calls : List PoolCall,
      let coinbase := (w.heap cb).setGasPool limit
      let refunded := (calls.map PoolCall.refunded).sum
      ((coinbase.calls calls).gasPool = limit - coinbase.bought calls + refunded ↔
          coinbase.bought calls = 0) ∧
        (0 ≤ (coinbase.calls calls).gasPool ∧ (coinbase.calls calls).gasPool ≤ limit ↔
          -limit ≤ refunded ∧ refunded ≤ 0)) ∧
    ((txs.map fun tx => max 0 tx.gas).sum ≤ limit →
      (∀ n progress, manager.processing block db (w.modify cb (.setGasPool limit)) txs n =
        .processing progress → Offers manager block progress) →
      ∀ n progress unhandled,
        manager.processing block db (w.modify cb (.setGasPool limit)) txs n =
          .returned progress unhandled →
        ∀ receipt ∈ progress.receipts.getLast?, receipt.cumulativeGasUsed ≤ limit) := by
  constructor
  · intro calls coinbase refunded
    have pool : (coinbase.calls calls).gasPool = limit + refunded := coinbase.gasPool_calls calls
    constructor
    · constructor <;> intro <;> omega
    · constructor <;> intro <;> omega
  · intro budget offers n progress unhandled returned receipt last
    have initial : Budgeted limit
        (initially db (w.modify cb (.setGasPool limit)) txs) := by
      constructor
      · simpa [initially] using budget
      · simp [initially]
    have kept := processing_invariant (Budgeted limit) (Offers manager block) initial
      (fun _ _ budgeted offers => budgeted_iterated budgeted offers) offers n
    exact (kept progress (by rw [returned]; rfl)).last_le last

/-- The transitions of a list of transactions end within `last` steps, and their messages
are given their gas. -/
def offersWithin (manager : BlockManager) (block : Block) (last : Nat) (progress : Progress) :
    Bool :=
  match progress.txs, progress.world.getStateObject progress.db block.header.coinbase with
  | tx :: _, some (some cb, w) =>
      match manager.validateTx progress.db tx w with
      | (none, valid) =>
          let run := run manager.validated progress.db tx block.header cb valid
          (List.range (last + 1)).all (fun n => decide (Config.Offers (run n))) &&
            (run last).returned.isSome
      | _ => true
  | _, _ => true

theorem offers_of_within {last : Nat} (within : offersWithin manager block last progress = true) :
    Offers manager block progress := by
  intro tx next cb w valid found validated n
  obtain ⟨rest, txs⟩ : ∃ rest, progress.txs = tx :: rest := by
    cases txs : progress.txs with
    | nil => simp [txs] at next
    | cons first rest =>
        rw [txs] at next
        cases next
        exact ⟨rest, rfl⟩
  simp only [offersWithin, txs, found, validated, Bool.and_eq_true, List.all_eq_true,
    List.mem_range, decide_eq_true_eq] at within
  refine Iteration.forall_of_fixed _ Config.Offers last
    (step_of_returned within.2) (fun n le => within.1 n (by omega)) n

/-- The loop at one time. -/
def loopOffersWithin (manager : BlockManager) (block : Block) (last : Nat) : Processing → Bool
  | .processing progress => offersWithin manager block last progress
  | _ => true

/-- The transactions of the small state with a limit. -/
def ledgerRun (limit : Int) (n : Nat) : Processing :=
  ledgerManager.processing ledgerBlock ∅ (ledgerWorld.modify 1 (.setGasPool limit))
    [ledgerTx 0 500, ledgerTx 1 500] n

/-- Two transactions of 500 gas each, with a limit of 1000. -/
theorem gas_limit_kept_ledger :
    (ledgerRun 1000 3).receipts.map Receipt.cumulativeGasUsed = [500, 1000] ∧
      ∀ receipt ∈ (ledgerRun 1000 3).receipts.getLast?, receipt.cumulativeGasUsed ≤ 1000 := by
  refine ⟨by decide +kernel, ?_⟩
  have offers : ∀ n progress, ledgerRun 1000 n = .processing progress →
      Offers ledgerManager ledgerBlock progress := by
    intro n progress current
    have within := Iteration.forall_of_fixed (ledgerManager.iterate ledgerBlock)
      (fun state => loopOffersWithin ledgerManager ledgerBlock 1 state = true) 3
      (iterate_of_ended (by decide +kernel : (ledgerRun 1000 3).ended = true))
      (fun n le => by interval_cases n <;> decide +kernel) n
    rw [← processing, ← ledgerRun, current] at within
    exact offers_of_within within
  cases returned : ledgerRun 1000 3 with
  | returned progress unhandled =>
      exact (gas_limit_kept ledgerManager ledgerBlock ∅ ledgerWorld 1 1000
        [ledgerTx 0 500, ledgerTx 1 500]).2 (by decide) offers 3 progress unhandled returned
  | processing | mismatch | panicked | unfinished => simp [Processing.receipts]

/-- The same transactions with a limit of 500: each of them is compared with the whole
pool, which does not shrink and can be refunded beyond the limit. -/
theorem gas_limit_exceeded :
    (ledgerRun 500 3).receipts.map Receipt.cumulativeGasUsed = [500, 1000] ∧
      let coinbase := (ledgerWorld.heap 1).setGasPool 500
      (coinbase.calls [.buyGas 500 1]).gasPool = 500 ∧
        coinbase.bought [.buyGas 500 1] = 500 ∧
        (coinbase.calls [.buyGas 500 1, .refundGas 100 1]).gasPool = 600 := by
  decide +kernel

end BlockManager

end Thelonious
