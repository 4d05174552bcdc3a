import Thelonious.Chain.Serialization
import Thelonious.Lib.Schedule

/-!
# The transaction pool

The sections of `queueTransaction`, `CurrentTransactions` and `RemoveSet` that hold the mutex
are single steps.  `Flush` has two of them: it reads the pool with `CurrentTransactions`, gives
the mutex back, and takes it again to replace the list.  What the calls do is kept in a log, so
that it can be said of a transaction what became of it after it was accepted.
-/

namespace Thelonious

open Schedule

/-- What the pool takes from outside; transactions are pointers, `heap` has their contents. -/
structure PoolHost (ρ : Type) where
  heap : ρ → Transaction
  sha3Bin : Bytes → Bytes
  /-- `tx.Sender()`, which panics when no key is recovered -/
  sender : Transaction → Option Bytes

/-- What `ValidateTransaction` reads of the chain at the time of its call. -/
structure ChainView where
  currentBlock : Bool
  balance : Bytes → Int

inductive TxRefusal
  | noLastBlock
  | invalidRecipient (len : Nat)
  | gasPriceTooLow (got : Int)
  | insufficientAmount (sender : Bytes)
  | contractGasPriceTooLow (given : Int)
deriving DecidableEq

/-- `MinGasPrice`, and the constant `minGasPrice` -/
def minGasPrice : Int := 0

/-- What a call did to the pool, or returned. -/
inductive PoolEvent (ρ : Type)
  | accepted (tx : ρ)
  | found (tx : ρ)
  | refused (tx : ρ) (err : TxRefusal)
  | current (txs : List ρ)
  | removed (txs : List ρ)
  | flushed (txs : List ρ)

/-- The pool, the lists that calls of `Flush` have read between their sections, and the log,
the newest event first. -/
structure TxPool (κ ρ : Type) where
  pool : List ρ
  flushing : κ → Option (List ρ)
  log : List (PoolEvent ρ)

inductive PoolAction (κ ρ : Type)
  | queueTransaction (tx : ρ) (chain : ChainView)
  | currentTransactions
  | removeSet (txs : List ρ)
  | flushRead (caller : κ)
  | flushReset (caller : κ)

namespace TxPool

variable {κ ρ : Type} {host : PoolHost ρ} {p after : TxPool κ ρ}

/-- `NewTxPool` -/
def new : TxPool κ ρ := ⟨[], fun _ => none, []⟩

def hash (host : PoolHost ρ) (tx : ρ) : Bytes := (host.heap tx).hash host.sha3Bin

/-- `ValidateTransaction`; `none` is the panic of `Sender`. -/
def validateTransaction (host : PoolHost ρ) (chain : ChainView) (tx : Transaction) :
    Option (Except TxRefusal Unit) :=
  if !chain.currentBlock then some (.error .noLastBlock)
  else if tx.recipient.length ≠ 0 ∧ tx.recipient.length ≠ 20 then
    some (.error (.invalidRecipient tx.recipient.length))
  else if tx.gasPrice < minGasPrice then some (.error (.gasPriceTooLow tx.gasPrice))
  else do
    let sender ← host.sender tx
    if chain.balance sender < tx.value then return .error (.insufficientAmount sender)
    else if tx.contractCreation ∧ tx.gasPrice < minGasPrice then
      return .error (.contractGasPriceTooLow tx.gasPrice)
    else return .ok ()

def findTx (host : PoolHost ρ) (pool : List ρ) (hash : Bytes) : Option ρ :=
  pool.find? fun tx => TxPool.hash host tx = hash

def record (p : TxPool κ ρ) (event : PoolEvent ρ) : TxPool κ ρ :=
  { p with log := event :: p.log }

def queueTransaction (host : PoolHost ρ) (p : TxPool κ ρ) (tx : ρ) (chain : ChainView) :
    Option (TxPool κ ρ) :=
  match findTx host p.pool (hash host tx) with
  | some _ => some (p.record (.found tx))
  | none => do
      match ← validateTransaction host chain (host.heap tx) with
      | .error err => return p.record (.refused tx err)
      | .ok () => return { p with pool := p.pool ++ [tx] }.record (.accepted tx)

/-- `RemoveSet`: the loop of `EachTx` stops at the first pointer that is the transaction's. -/
def removeSet [DecidableEq ρ] (p : TxPool κ ρ) (txs : List ρ) : TxPool κ ρ :=
  { p with pool := txs.foldl List.erase p.pool }.record (.removed txs)

/-- The sections that hold the mutex. -/
def step [DecidableEq κ] [DecidableEq ρ] (host : PoolHost ρ) (p : TxPool κ ρ) :
    PoolAction κ ρ → Option (TxPool κ ρ)
  | .queueTransaction tx chain => p.queueTransaction host tx chain
  | .currentTransactions => some (p.record (.current p.pool))
  | .removeSet txs => some (p.removeSet txs)
  | .flushRead caller =>
      match p.flushing caller with
      | none => some { p with flushing := Function.update p.flushing caller (some p.pool) }
      | some _ => none
  | .flushReset caller =>
      match p.flushing caller with
      | none => none
      | some txs =>
          let emptied := { p with pool := [], flushing := Function.update p.flushing caller none }
          some (emptied.record (.flushed txs))

end TxPool

/-- The event is a `Flush` that returns the transaction or a `RemoveSet` that names it. -/
def PoolEvent.TakesOut {ρ : Type} (tx : ρ) : PoolEvent ρ → Prop
  | .removed txs => tx ∈ txs
  | .flushed txs => tx ∈ txs
  | _ => False

namespace TxPool

variable {κ ρ : Type} {host : PoolHost ρ} {p after : TxPool κ ρ}

/-- Of every acceptance: the transaction is in the pool, or a later event has taken it out. -/
def Accounted (p : TxPool κ ρ) : Prop :=
  ∀ later tx earlier, p.log = later ++ .accepted tx :: earlier →
    tx ∈ p.pool ∨ ∃ event ∈ later, event.TakesOut tx

/-- No two transactions of the pool have the same hash. -/
def Distinct (host : PoolHost ρ) (p : TxPool κ ρ) : Prop := (p.pool.map (hash host)).Nodup

/-- No `queueTransaction` runs between the two sections of a `Flush`. -/
def Quiet (p : TxPool κ ρ) : PoolAction κ ρ → Prop
  | .queueTransaction _ _ => ∀ caller, p.flushing caller = none
  | _ => True

/-! ### What the steps do -/

/-- The outcomes of `queueTransaction`. -/
theorem queueTransaction_cases {tx : ρ} {chain : ChainView}
    (queued : p.queueTransaction host tx chain = some after) :
    (∃ event, (∀ other, event ≠ .accepted other) ∧ after = p.record event) ∨
      (∀ other ∈ p.pool, hash host other ≠ hash host tx) ∧
        after = { p with pool := p.pool ++ [tx] }.record (.accepted tx) := by
  unfold queueTransaction at queued
  split at queued
  case h_1 => exact .inl ⟨.found tx, by simp, (Option.some.inj queued).symm⟩
  case h_2 absent =>
    obtain ⟨result, -, returned⟩ := Option.bind_eq_some_iff.mp queued
    cases result with
    | error err => exact .inl ⟨.refused tx err, by simp, (Option.some.inj returned).symm⟩
    | ok =>
        refine .inr ⟨?_, (Option.some.inj returned).symm⟩
        intro other member same
        have missed := List.find?_eq_none.mp absent other member
        exact missed (decide_eq_true same)

theorem removeSet_pool [DecidableEq ρ] (p : TxPool κ ρ) (txs : List ρ) :
    (p.removeSet txs).pool = p.pool.diff txs :=
  (List.diff_eq_foldl _ _).symm

/-- One more event in the log: what was in the pool still is, or the event takes it out. -/
theorem Accounted.record (accounted : p.Accounted) {event : PoolEvent ρ}
    (logged : after.log = event :: p.log)
    (kept : ∀ tx ∈ p.pool, tx ∈ after.pool ∨ event.TakesOut tx)
    (accepted : ∀ tx, event = .accepted tx → tx ∈ after.pool) : after.Accounted := by
  intro later tx earlier split
  rw [logged] at split
  cases later with
  | nil =>
      obtain ⟨isAccepted, -⟩ := List.cons.inj split
      exact .inl (accepted tx isAccepted)
  | cons newest later =>
      obtain ⟨rfl, before⟩ := List.cons.inj split
      rcases accounted later tx earlier before with member | ⟨taking, member, takesOut⟩
      · rcases kept tx member with stays | takesOut
        · exact .inl stays
        · exact .inr ⟨event, List.mem_cons_self, takesOut⟩
      · exact .inr ⟨taking, List.mem_cons_of_mem _ member, takesOut⟩

variable [DecidableEq κ] [DecidableEq ρ]

theorem Distinct.step (distinct : p.Distinct host) {action : PoolAction κ ρ}
    (stepped : p.step host action = some after) : after.Distinct host := by
  cases action with
  | queueTransaction tx chain =>
      rcases queueTransaction_cases stepped with ⟨event, -, rfl⟩ | ⟨fresh, rfl⟩
      · exact distinct
      · change ((p.pool ++ [tx]).map (hash host)).Nodup
        rw [List.map_append, List.map_singleton]
        apply List.Nodup.append distinct (List.nodup_singleton _)
        rw [List.disjoint_singleton]
        intro member
        obtain ⟨other, member, same⟩ := List.mem_map.mp member
        exact fresh other member same
  | currentTransactions =>
      cases stepped
      exact distinct
  | removeSet txs =>
      cases stepped
      rw [Distinct, removeSet_pool]
      exact distinct.sublist ((List.diff_sublist _ _).map _)
  | flushRead caller =>
      simp only [TxPool.step] at stepped
      split at stepped
      · cases stepped
        exact distinct
      · exact absurd stepped (by simp)
  | flushReset caller =>
      simp only [TxPool.step] at stepped
      split at stepped
      · exact absurd stepped (by simp)
      · cases stepped
        exact List.nodup_nil

/-- Nothing has been lost, and nothing would be by the flushes that are under way. -/
structure Kept (p : TxPool κ ρ) : Prop where
  accounted : p.Accounted
  covered : ∀ caller txs, p.flushing caller = some txs → p.pool ⊆ txs

theorem Kept.step (kept : p.Kept) {action : PoolAction κ ρ} (quiet : p.Quiet action)
    (stepped : p.step host action = some after) : after.Kept := by
  cases action with
  | queueTransaction tx chain =>
      rcases queueTransaction_cases stepped with ⟨event, other, rfl⟩ | ⟨-, rfl⟩
      · refine ⟨kept.accounted.record rfl (fun _ member => .inl member) ?_, kept.covered⟩
        intro tx isAccepted
        exact absurd isAccepted (other tx)
      · constructor
        case accounted =>
          apply kept.accounted.record rfl
          · intro other member
            exact .inl (List.mem_append_left _ member)
          · intro other same
            obtain rfl := PoolEvent.accepted.inj same
            exact List.mem_append_right _ List.mem_cons_self
        case covered =>
          -- no flush has read the pool yet
          intro caller txs flushing
          exact absurd (flushing.symm.trans (quiet caller)) (by simp)
  | currentTransactions =>
      cases stepped
      exact ⟨kept.accounted.record rfl (fun _ member => .inl member) (by simp), kept.covered⟩
  | removeSet txs =>
      cases stepped
      constructor
      case accounted =>
        apply kept.accounted.record rfl _ (by simp)
        intro tx member
        rw [removeSet_pool]
        by_cases named : tx ∈ txs
        · exact .inr named
        · exact .inl (List.mem_diff_of_mem member named)
      case covered =>
        intro caller read flushing
        rw [removeSet_pool]
        exact List.Subset.trans (List.diff_subset _ _) (kept.covered caller read flushing)
  | flushRead caller =>
      simp only [TxPool.step] at stepped
      split at stepped
      · cases stepped
        refine ⟨kept.accounted, ?_⟩
        intro other txs flushing
        by_cases same : other = caller
        · subst same
          simp only [Function.update_self, Option.some.injEq] at flushing
          rw [← flushing]
          exact List.Subset.refl _
        · simp only [Function.update_of_ne same] at flushing
          exact kept.covered other txs flushing
      · exact absurd stepped (by simp)
  | flushReset caller =>
      simp only [TxPool.step] at stepped
      split at stepped
      case h_1 => exact absurd stepped (by simp)
      case h_2 txs flushing =>
        cases stepped
        refine ⟨?_, fun _ _ _ => List.nil_subset _⟩
        apply kept.accounted.record rfl _ (by simp)
        intro tx member
        exact .inr (kept.covered caller txs flushing member)

/-- The pool never holds two transactions with one hash.  If no `queueTransaction` runs between
the two sections of a `Flush`, every accepted transaction is in the pool, or a later `Flush`
has returned it, or a later `RemoveSet` has named it. -/
theorem pool_loses_nothing (host : PoolHost ρ) :
    (∀ p : TxPool κ ρ, Run (step host) (fun _ _ => True) new p → p.Distinct host) ∧
      ∀ p : TxPool κ ρ, Run (step host) Quiet new p → p.Accounted := by
  constructor
  · intro p run
    apply run.invariant (Distinct host)
    · intro state action after distinct _ stepped
      exact distinct.step stepped
    · exact List.nodup_nil
  · intro p run
    have kept : p.Kept := by
      apply run.invariant Kept
      · intro state action after kept quiet stepped
        exact kept.step quiet stepped
      · constructor
        · intro later tx earlier split
          exact absurd split (by simp [new])
        · intro caller txs flushing
          exact absurd flushing (by simp [new])
    exact kept.accounted

/-! ### One transaction and one flush -/

/-- A transaction without fields, signed with the private key one. -/
def emptyTx : Transaction where
  nonce := 0
  recipient := []
  value := 0
  gas := 0
  gasPrice := 0
  data := []
  v := 28
  r := digest 0xc6047f9441ed7d6d3045406e95c07cd85c778e4b8cef3ca7abac09b95c709ee5
  s := digest 0x72cd60f277fa1af93cb7b417d1ac3e0bbcf0700d5926ffd4a861d9ac1edcd314
  contractCreation := true

def emptyTxHost : PoolHost Nat where
  heap := fun _ => emptyTx
  sha3Bin := sampled [(bigBytes 0xc6808080808080, digest
    0x5460be86ce1e4ca0564b5761c6e7070d9f054b671f5404268335000806423d75)]
    fun data => data ++ List.replicate 33 0
  sender := fun tx =>
    if tx.r = emptyTx.r then some (bigBytes 0x7e5f4552091a69125d5dfcb7b8c2659029395bdf) else none

def emptyTxChain : ChainView := ⟨true, fun _ => 0⟩

/-- The transaction is accepted after `Flush` has read the pool, and gone when it returns. -/
theorem pool_loses_transaction : ∃ p : TxPool Nat Nat,
    Run (step emptyTxHost) (fun _ _ => True) new p ∧ ¬ p.Accounted := by
  have read : Run (step emptyTxHost) (fun _ _ => True) new
      ⟨[], Function.update (fun _ => none) 0 (some []), []⟩ :=
    .next (.flushRead 0) .start trivial rfl
  have queued : Run (step emptyTxHost) (fun _ _ => True) new
      ⟨[7], Function.update (fun _ => none) 0 (some []), [.accepted 7]⟩ :=
    .next (.queueTransaction 7 emptyTxChain) read trivial rfl
  refine ⟨_, .next (.flushReset 0) queued trivial rfl, ?_⟩
  intro accounted
  rcases accounted [.flushed []] 7 [] rfl with member | ⟨event, member, takesOut⟩
  · exact absurd member List.not_mem_nil
  · obtain rfl := List.mem_singleton.mp member
    exact absurd takesOut List.not_mem_nil

/-- The transaction is accepted before `Flush` reads the pool. -/
theorem pool_loses_nothing_flushed : ∃ p : TxPool Nat Nat,
    Run (step emptyTxHost) Quiet new p ∧ p.log = [.flushed [7], .accepted 7] ∧ p.Accounted := by
  have queued : Run (step emptyTxHost) Quiet new
      (⟨[7], fun _ => none, [.accepted 7]⟩ : TxPool Nat Nat) :=
    .next (.queueTransaction 7 emptyTxChain) .start (fun _ => rfl) rfl
  have read : Run (step emptyTxHost) Quiet new
      ⟨[7], Function.update (fun _ => none) 0 (some [7]), [.accepted 7]⟩ :=
    .next (.flushRead 0) queued trivial rfl
  have run := Run.next (PoolAction.flushReset 0) read trivial rfl
  exact ⟨_, run, rfl, (pool_loses_nothing emptyTxHost).2 _ run⟩

/-! ### Removal by pointer -/

omit [DecidableEq κ] in
/-- What `RemoveSet` names has one of the hashes; the rest of the pool is not touched. -/
theorem filter_removeSet (host : PoolHost ρ) (p : TxPool κ ρ) (txs : List ρ) :
    (p.removeSet txs).pool.filter (fun tx => hash host tx ∉ txs.map (hash host)) =
      p.pool.filter (fun tx => hash host tx ∉ txs.map (hash host)) := by
  have named : ∀ erased, erased ⊆ txs →
      (p.pool.diff erased).filter (fun tx => hash host tx ∉ txs.map (hash host)) =
        p.pool.filter (fun tx => hash host tx ∉ txs.map (hash host)) := by
    intro erased
    induction erased using List.reverseRecOn with
    | nil => exact fun _ => rfl
    | append_singleton erased tx induction =>
        intro inside
        rw [List.diff_append, List.diff_cons, List.diff_nil, ← List.erase_filter,
          induction (List.append_subset.mp inside).1]
        apply List.erase_of_not_mem
        intro left
        have named := (List.append_subset.mp inside).2 List.mem_cons_self
        exact of_decide_eq_true (List.mem_filter.mp left).2 (List.mem_map_of_mem named)
  rw [removeSet_pool]
  exact named txs (List.Subset.refl txs)

omit [DecidableEq κ] in
/-- `RemoveSet` takes out the transactions with the hashes of the block, and no others, exactly
when each of them is in the block as the object that is in the pool. -/
theorem removeSet_by_hash_iff (host : PoolHost ρ) (p : TxPool κ ρ) (txs : List ρ) :
    (p.removeSet txs).pool = p.pool.filter (fun tx => hash host tx ∉ txs.map (hash host)) ↔
      ∀ tx ∈ p.pool, hash host tx ∈ txs.map (hash host) → p.pool.count tx ≤ txs.count tx := by
  constructor
  · intro removed tx _ mined
    have absent : tx ∉ (p.removeSet txs).pool := by
      rw [removed]
      intro left
      exact of_decide_eq_true (List.mem_filter.mp left).2 mined
    rw [removeSet_pool, ← List.count_eq_zero, List.count_diff] at absent
    omega
  · intro own
    rw [← filter_removeSet, eq_comm, List.filter_eq_self]
    intro tx member
    rw [removeSet_pool] at member
    have left := List.count_pos_iff.mpr member
    rw [List.count_diff] at left
    rw [decide_eq_true_iff]
    intro mined
    have many := own tx ((List.diff_subset _ _) member) mined
    omega

deriving instance DecidableEq for Transaction

/-- The transaction is in the pool, and comes again in a block that is decoded. -/
theorem removeSet_leaves_copy : ∃ p : TxPool Nat Nat,
    Run (step emptyTxHost) (fun _ _ => True) new p ∧ p.pool = [7] ∧
      (newValueFromBytes (encode (emptyTxHost.heap 7).rlpData)).map Transaction.rlpValueDecode =
        some (emptyTxHost.heap 8) ∧
      (p.removeSet [8]).pool = [7] ∧ hash emptyTxHost 7 ∈ [8].map (hash emptyTxHost) := by
  refine ⟨_, .next (.queueTransaction 7 emptyTxChain) .start trivial rfl, rfl, ?_, rfl, ?_⟩
  · decide +kernel
  · decide +kernel

end TxPool

end Thelonious
