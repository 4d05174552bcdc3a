import Thelonious.Chain.Refund
import Thelonious.Vm.Balances

/-!
# Balances stay out of the red

The gas of a transaction is paid to the coinbase in advance, and `RefundGas`
takes the unused part back without looking at the balance.  A coinbase that has
code can have spent it by then.  A message can also carry a negative value, which
moves the balance of the receiver.  Apart from these no balance becomes negative.
-/

namespace Thelonious

namespace StateTransition

open World

variable {mine : Ref → Prop} {cb sen : Ref} {amount : Int} {w after : World}

/-- The coinbase has an amount in advance, unless it is the sender itself. -/
structure Prepaid (mine : Ref → Prop) (cb sen : Ref) (amount : Int) (w : World) : Prop where
  credit : w.Credit mine
  coinbase : mine cb ∧ cb < w.next
  sender : mine sen ∧ sen < w.next
  reserve : cb = sen ∨ amount ≤ (w.heap cb).balance

namespace Prepaid

theorem keeps (prepaid : Prepaid mine cb sen amount w) (keeps : World.Keeps w after) :
    Prepaid mine cb sen amount after where
  credit := prepaid.credit.keeps keeps
  coinbase := ⟨prepaid.coinbase.1, prepaid.coinbase.2.trans_le keeps.next_le⟩
  sender := ⟨prepaid.sender.1, prepaid.sender.2.trans_le keeps.next_le⟩
  reserve := prepaid.reserve.imp_right fun reserve => by
    rwa [keeps.balance_eq prepaid.coinbase.2]

theorem refundGas (prepaid : Prepaid mine cb sen amount w) {gas price : Int}
    (nonneg : 0 ≤ gas * price) (le : gas * price ≤ amount) :
    (StateTransition.refundGas w cb sen gas price).Credit mine := by
  rcases prepaid.reserve with same | reserve
  · subst same
    constructor
    case above => exact prepaid.credit.above
    case visible => exact prepaid.credit.visible
    case nonneg =>
      intro ref own below
      have known := prepaid.credit.nonneg own below
      by_cases same : ref = cb
      · subst same
        simpa [StateTransition.refundGas, StateObject.refundGas, StateObject.addAmount] using known
      · simpa [StateTransition.refundGas, heap_modify_of_ne same] using known
  · refine Credit.addAmount (prepaid.credit.modify fun _ _ => ?_) sen nonneg
    simp only [StateObject.refundGas]
    omega

end Prepaid

variable {host : Host} {db : Database} {tx : Transaction} {block : Header}

theorem prepaid_preCheck (credit : w.Credit mine) (coinbase : mine cb ∧ cb < w.next)
    (nonneg : 0 ≤ tx.gasValue) (checked : preCheck host db tx cb w = .ok (sen, after)) :
    Prepaid mine cb sen tx.gasValue after := by
  obtain ⟨addr, loaded, -, got, covered, -, rfl⟩ := preCheck_ok checked
  obtain ⟨loads, lookupEq⟩ := keeps_getOrNewStateObject got
  have loadedCredit := credit.keeps loads
  have there : mine cb ∧ cb < loaded.next := ⟨coinbase.1, coinbase.2.trans_le loads.next_le⟩
  have known := loadedCredit.nonneg there.1 there.2
  have paid : tx.gasValue ≤ ((loaded.modify cb (.addAmount tx.gasValue)).heap sen).balance := by
    by_cases same : sen = cb
    · subst same
      simp only [heap_modify_self, StateObject.addAmount]
      omega
    · rwa [heap_modify_of_ne same]
  constructor
  case credit => exact (loadedCredit.addAmount cb nonneg).subAmount paid
  case coinbase => exact there
  case sender => exact loadedCredit.visible lookupEq
  case reserve =>
    by_cases same : cb = sen
    · exact .inl same
    · refine .inr ?_
      rw [heap_modify_of_ne same, heap_modify_self]
      simp only [StateObject.addAmount]
      omega

theorem credit_refused (credit : w.Credit mine)
    (checked : preCheck host db tx cb w = .error after) : after.Credit mine := by
  rcases preCheck_error checked with rfl | ⟨addr, ref, got⟩
  · exact credit
  · exact credit.keeps (keeps_getOrNewStateObject got).1

/-- What the sender spends is not what the coinbase has in advance. -/
theorem Prepaid.subAmount (prepaid : Prepaid mine cb sen amount w) {value : Int}
    (covered : value ≤ (w.heap sen).balance) :
    Prepaid mine cb sen amount (w.modify sen (.subAmount value)) where
  credit := prepaid.credit.subAmount covered
  coinbase := prepaid.coinbase
  sender := prepaid.sender
  reserve := by
    by_cases same : cb = sen
    · exact .inl same
    · rw [heap_modify_of_ne same]
      exact prepaid.reserve

theorem Prepaid.addAmount (prepaid : Prepaid mine cb sen amount w) (ref : Ref) {value : Int}
    (nonneg : 0 ≤ value) : Prepaid mine cb sen amount (w.modify ref (.addAmount value)) where
  credit := prepaid.credit.addAmount ref nonneg
  coinbase := prepaid.coinbase
  sender := prepaid.sender
  reserve := prepaid.reserve.imp_right fun reserve => by
    by_cases same : cb = ref
    · subst same
      simp only [heap_modify_self, StateObject.addAmount]
      omega
    · rwa [heap_modify_of_ne same]

theorem Prepaid.install (prepaid : Prepaid mine cb sen amount w) (addr : Bytes)
    {object : StateObject} (nonneg : 0 ≤ object.balance) :
    Prepaid mine cb sen amount (w.install addr object) where
  credit := prepaid.credit.install addr nonneg
  coinbase := ⟨prepaid.coinbase.1, prepaid.coinbase.2.trans (Nat.lt_succ_self _)⟩
  sender := ⟨prepaid.sender.1, prepaid.sender.2.trans (Nat.lt_succ_self _)⟩
  reserve := prepaid.reserve.imp_right fun reserve => by
    rwa [heap_install_of_lt prepaid.coinbase.2]

/-- What holds when the value has been transferred. -/
structure Afloat (mine : Ref → Prop) (tx : Transaction) (cb : Ref) (eval : Evaluation)
    (w : World) : Prop where
  prepaid : Prepaid mine cb eval.sen tx.gasValue w
  tx_eq : eval.tx = tx
  cb_eq : eval.cb = cb

variable {eval : Evaluation}

theorem Afloat.keeps (afloat : Afloat mine tx cb eval w) (keeps : World.Keeps w after) :
    Afloat mine tx cb eval after :=
  ⟨afloat.prepaid.keeps keeps, afloat.tx_eq, afloat.cb_eq⟩

theorem afloat_transfer (prepaid : Prepaid mine cb sen tx.gasValue w) (nonneg : 0 ≤ tx.value)
    (covered : tx.value ≤ (w.heap sen).balance)
    (transferred : transfer host db tx cb sen w = some (eval, after)) :
    Afloat mine tx cb eval after ∧ (mine eval.receiver ∧ eval.receiver < after.next) ∧
      eval.snapshot.Nonneg := by
  unfold transfer at transferred
  split at transferred
  · cases transferred
    have taken := prepaid.subAmount covered
    have made : Prepaid mine cb sen tx.gasValue
        (makeContract host tx (w.modify sen (.subAmount tx.value))).2 :=
      (taken.install _ le_rfl).keeps (.modify _ rfl)
    exact ⟨⟨made.addAmount _ nonneg, rfl, rfl⟩, ⟨prepaid.credit.above le_rfl, Nat.lt_succ_self _⟩,
      taken.credit.copy⟩
  · obtain ⟨⟨receiver, loaded⟩, found, transferred⟩ := Option.bind_eq_some_iff.mp transferred
    cases transferred
    obtain ⟨loads, lookupEq⟩ := keeps_getOrNewStateObject found
    have loadedPrepaid := prepaid.keeps loads
    have stillCovered : tx.value ≤ (loaded.heap sen).balance := by
      rwa [loads.balance_eq prepaid.sender.2]
    have taken := loadedPrepaid.subAmount stillCovered
    have moved := taken.addAmount receiver nonneg
    exact ⟨⟨moved, rfl, rfl⟩, loadedPrepaid.credit.visible lookupEq, moved.credit.copy⟩

/-! ### The run -/

/-- No account that is loaded is in debt. -/
def Floats (w : World) : Prop :=
  ∀ addr ref, AList.lookup addr w.state.stateObjects = some ref → 0 ≤ (w.heap ref).balance

theorem floats_of_credit (credit : w.Credit mine) : Floats w := by
  intro addr ref found
  obtain ⟨own, below⟩ := credit.visible found
  exact credit.nonneg own below

/-- The refund of a transition that has gone back to its snapshot changes objects that the
state has lost. -/
theorem floats_refund_set {copied : State StateObject} (nonneg : copied.Nonneg)
    (cbBelow : cb < w.next) (senBelow : sen < w.next) (gas price : Int) :
    Floats (refundGas (w.set copied) cb sen gas price) := by
  intro addr ref found
  have lookupEq : AList.lookup addr (w.set copied).state.stateObjects = some ref := found
  have above := next_le_of_lookup_set lookupEq
  have heapEq : (refundGas (w.set copied) cb sen gas price).heap ref = (w.set copied).heap ref := by
    rw [refundGas, heap_modify_of_ne (senBelow.trans_le above).ne',
      heap_modify_of_ne (cbBelow.trans_le above).ne']
  rw [heapEq]
  rcases lookup_set_cases w copied addr with
    ⟨held, object, heldEq, copiedEq, -, -, objectEq⟩ | ⟨absent, -⟩
  · obtain rfl : held = ref := Option.some.inj (heldEq.symm.trans lookupEq)
    rw [objectEq]
    exact nonneg ⟨addr, object⟩ (AList.mem_lookup_iff.mp copiedEq)
  · cases absent.symm.trans lookupEq

/-- No message that is executed now has a negative value, and the coinbase keeps what it
has in advance, unless it is the sender. -/
def Thrifty (tx : Transaction) (cb : Ref) : Config → Prop
  | .evaluating eval m | .posting eval _ _ _ _ m =>
      m.Gives ∧ (cb = eval.sen ∨ m.Reserves cb tx.gasValue)
  | _ => True

instance (tx : Transaction) (cb : Ref) (config : Config) : Decidable (Thrifty tx cb config) := by
  unfold Thrifty
  split <;> infer_instance

/-- What holds along a run. -/
def Solid (mine : Ref → Prop) (tx : Transaction) (cb : Ref) : Config → Prop
  | .evaluating eval m =>
      m.Credit mine ∧ Afloat mine tx cb eval m.world ∧ eval.snapshot.Nonneg
  | .dispatching eval _ _ _ _ _ w => Afloat mine tx cb eval w
  | .posting eval _ _ _ _ m => m.Credit mine ∧ Afloat mine tx cb eval m.world
  | .finished w _ => Floats w

theorem Afloat.machine {m : Machine} (afloat : Afloat mine tx cb eval m.world)
    (credit : m.Credit mine) (gives : m.Gives)
    (reserves : cb = eval.sen ∨ m.Reserves cb tx.gasValue) (env : Env) (db : Database) :
    Afloat mine tx cb eval (m.step env db).world := by
  obtain ⟨prepaid, txEq, cbEq⟩ := afloat
  have deed := Machine.deed_step env db m
  have next_le := deed.next_le
  refine ⟨?_, txEq, cbEq⟩
  constructor
  case credit => exact (credit.deed gives deed).world
  case coinbase => exact ⟨prepaid.coinbase.1, prepaid.coinbase.2.trans_le next_le⟩
  case sender => exact ⟨prepaid.sender.1, prepaid.sender.2.trans_le next_le⟩
  case reserve =>
    by_cases same : cb = eval.sen
    · exact .inl same
    · exact .inr (credit.reserve gives (reserves.resolve_left same) prepaid.coinbase.2
        (prepaid.reserve.resolve_left same) deed)

/-- The refund at the end of a transition that does not go back to its snapshot. -/
theorem Afloat.floats (afloat : Afloat mine tx cb eval w) (price : 0 ≤ tx.gasPrice) {gas : Int}
    (nonneg : 0 ≤ gas) (le : gas ≤ tx.gas) :
    Floats (refundGas w eval.cb eval.sen gas eval.tx.gasPrice) := by
  obtain ⟨prepaid, rfl, rfl⟩ := afloat
  apply floats_of_credit
  apply prepaid.refundGas
  · exact mul_nonneg nonneg price
  · exact mul_le_mul_of_nonneg_right le price

theorem Solid.step {config : Config} (solid : Solid mine tx cb config)
    (thrifty : Thrifty tx cb config) (within : Within tx.gas config) (price : 0 ≤ tx.gasPrice) :
    Solid mine tx cb (step host db tx block config) := by
  have stage := stage_step host db tx block config
  generalize StateTransition.step host db tx block config = after at stage ⊢
  cases stage with
  | run =>
      obtain ⟨credit, afloat, nonneg⟩ := solid
      obtain ⟨gives, reserves⟩ := thrifty
      exact ⟨credit.deed gives (Machine.deed_step _ _ _),
        afloat.machine credit gives reserves _ _, nonneg⟩
  | succeed => exact solid.2.1
  | post eval =>
      have afloat : Afloat mine tx cb eval _ := solid
      refine ⟨⟨afloat.prepaid.credit, fun acting => ?_, by simp⟩, afloat⟩
      obtain rfl : eval.sen = _ := by simpa [Control.object] using acting
      exact afloat.prepaid.sender
  | deliver =>
      obtain ⟨credit, afloat⟩ := solid
      obtain ⟨gives, reserves⟩ := thrifty
      exact ⟨credit.deed gives (Machine.deed_step _ _ _),
        afloat.machine credit gives reserves _ _⟩
  | join => exact solid.2
  | rest => exact solid
  | settle settled ends =>
      cases settles_of_settlement ends with
      | failed =>
          obtain ⟨-, afloat, nonneg⟩ := solid
          refine floats_refund_set nonneg ?_ afloat.prepaid.sender.2 _ _
          rw [afloat.cb_eq]
          exact afloat.prepaid.coinbase.2
      | created => exact (Afloat.keeps solid (.modify _ rfl)).floats price within.1 within.2
      | called => exact Afloat.floats solid price within.1 within.2
      | panicked => exact solid.2.floats price within.1 within.2

theorem Solid.floats {config : Config} (solid : Solid mine tx cb config) : Floats config.world := by
  cases config with
  | evaluating => exact floats_of_credit solid.1.world
  | dispatching => exact floats_of_credit solid.prepaid.credit
  | posting => exact floats_of_credit solid.1.world
  | finished => exact solid

theorem solid_evaluate {gas : Int} (afloat : Afloat mine tx cb eval w)
    (receiver : mine eval.receiver ∧ eval.receiver < w.next) (nonneg : eval.snapshot.Nonneg) :
    Solid mine tx cb (evaluate eval gas w) := by
  unfold evaluate
  split
  · exact afloat
  · rename_i code _
    have enters := Machine.proceeds_enter ⟨w, [], [], [], .panicking⟩
      ⟨eval.sen, eval.receiver, code, eval.tx.data, gas, eval.tx.gasPrice⟩
    refine ⟨⟨?_, fun acting => ?_, ?_⟩, ?_, nonneg⟩
    · rw [enters.world]
      exact afloat.prepaid.credit
    · rw [enters.object acting, enters.world]
      exact receiver
    · simp [List.suffix_nil.mp enters.waiting]
    · rw [enters.world]
      exact afloat

theorem solid_start (credit : w.Credit mine) (coinbase : mine cb ∧ cb < w.next)
    (value : 0 ≤ tx.value) (gas : 0 ≤ tx.gas) (price : 0 ≤ tx.gasPrice) :
    Solid mine tx cb (start host db tx cb w) := by
  have gasValue : 0 ≤ tx.gasValue := mul_nonneg gas price
  rw [start_eq]
  cases outsetEq : outset host db tx cb w with
  | refused after =>
      apply floats_of_credit
      exact credit_refused credit (outset_refused outsetEq)
  | stopped sen after left =>
      obtain ⟨bought, checked, rfl, le, least⟩ := outset_stopped outsetEq
      have prepaid :=
        (prepaid_preCheck credit coinbase gasValue checked).keeps (.modify bought rfl :
        World.Keeps bought (bought.modify sen .incrementNonce))
      apply floats_of_credit
      apply prepaid.refundGas
      · exact mul_nonneg (by omega) price
      · exact mul_le_mul_of_nonneg_right le price
  | begun eval after left =>
      obtain ⟨sen, bought, checked, covered, transferred, -, -⟩ := outset_begun outsetEq
      have prepaid :=
        (prepaid_preCheck credit coinbase gasValue checked).keeps (.modify bought rfl :
        World.Keeps bought (bought.modify sen .incrementNonce))
      obtain ⟨afloat, receiver, nonneg⟩ := afloat_transfer prepaid value covered transferred
      exact solid_evaluate afloat receiver nonneg

theorem solid_run (credit : w.Credit mine) (coinbase : mine cb ∧ cb < w.next)
    (value : 0 ≤ tx.value) (gas : 0 ≤ tx.gas) (price : 0 ≤ tx.gasPrice) (steps : Nat)
    (thrifty : ∀ step < steps, Thrifty tx cb (run host db tx block cb w step)) :
    Solid mine tx cb (run host db tx block cb w steps) := by
  induction steps with
  | zero => exact solid_start credit coinbase value gas price
  | succ steps induction =>
      have solid := induction fun step before => thrifty step (before.trans (Nat.lt_succ_self _))
      rw [run_succ]
      exact solid.step (thrifty steps (Nat.lt_succ_self _)) (within_run steps) price

/-- No account of a state that a transition reaches is in debt, provided that no message
has had a negative value and that the coinbase has kept the gas paid in advance. -/
theorem balances_nonneg (host : Host) (db : Database) (tx : Transaction) (block : Header)
    (cb : Ref) (w : World) (sound : w.Sound) (coinbase : w.Holds cb)
    (nonneg : ∀ addr, 0 ≤ w.balanceAt db addr) (value : 0 ≤ tx.value) (gas : 0 ≤ tx.gas)
    (price : 0 ≤ tx.gasPrice) (steps : Nat)
    (thrifty : ∀ step < steps, Thrifty tx cb (run host db tx block cb w step)) (addr : Bytes) :
    0 ≤ (run host db tx block cb w steps).world.balanceAt db addr := by
  have credit := sound.credit nonneg
  have solid := solid_run credit (credit.visible coinbase) value gas price steps thrifty
  exact balanceAt_nonneg (solid.floats addr)

/-- A coinbase that sends an amount to the account 4 when it is called. -/
def minerCode (high low : UInt8) : Bytes :=
  [0x60, 0, 0x60, 0, 0x60, 0, 0x60, 0, 0x61, high, low, 0x60, 4, 0x60, 0, 0xf1]

def minerWorld (code : Bytes) : World := sampleWorld 5000 0 [] code

/-- The sender gives the coinbase an amount, and pays for the gas in advance. -/
def minerTx (value : Int) : Transaction := sampleTx [3] value 2000 1

theorem minerWorld_nonneg (code addr : Bytes) : 0 ≤ (minerWorld code).balanceAt ∅ addr := by
  apply balanceAt_nonneg
  intro ref found
  rcases sampleWorld_lookup found with ⟨rfl, rfl⟩ | ⟨rfl, rfl⟩ | ⟨rfl, rfl⟩
  · exact Int.natCast_nonneg 5000
  · exact le_rfl
  · exact le_rfl

/-- The coinbase passes on what it is given, and gives back what is left of the gas. -/
theorem balances_nonneg_miner :
    (minerWorld (minerCode 0 7)).Sound ∧
      (run codelessHost ∅ (minerTx 7) sampleHeader 2 (minerWorld (minerCode 0 7)) 13).returned =
        some true ∧
      0 ≤ (run codelessHost ∅ (minerTx 7) sampleHeader 2 (minerWorld (minerCode 0 7))
        13).world.balanceAt ∅ (address [3]) := by
  refine ⟨sound_sampleWorld, by decide +kernel, ?_⟩
  refine balances_nonneg codelessHost ∅ (minerTx 7) sampleHeader 2 _ sound_sampleWorld
    (by decide +kernel) (minerWorld_nonneg _) (by decide) (by decide) (by decide) 13 ?_ _
  intro step before
  interval_cases step <;> decide +kernel

/-- The coinbase sends the gas that was paid in advance to the account 4, and is in debt
after the refund. -/
theorem coinbase_in_debt :
    (∀ addr, 0 ≤ (minerWorld (minerCode 0x07 0xd0)).balanceAt ∅ addr) ∧
      (run codelessHost ∅ (minerTx 0) sampleHeader 2 (minerWorld (minerCode 0x07 0xd0))
        13).returned = some true ∧
      (run codelessHost ∅ (minerTx 0) sampleHeader 2 (minerWorld (minerCode 0x07 0xd0))
        13).world.balanceAt ∅ (address [3]) = -1473 := by
  refine ⟨minerWorld_nonneg _, ?_⟩
  decide +kernel

end StateTransition

end Thelonious
