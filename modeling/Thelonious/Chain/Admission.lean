import Thelonious.Chain.ProcessTransactions
import Thelonious.Vm.Tracking

/-!
# Which transactions are handled

Under `EthModel` a transaction whose nonce is not the one of its account is
skipped.  Every other error falls into the default case, and the transaction
gets a receipt: also when the gas was not bought because the sender cannot pay
for it or the pool is too small, for the `GasLimitErr` of `monkstate` is not
the one that `ProcessTransactions` looks for.  Such a transaction does not
count up the nonce, and is handled again when it comes again.
-/

namespace Thelonious

namespace StateTransition

open World

variable {host : Host} {db : Database} {tx : Transaction} {block : Header} {config : Config}
  {addr : Bytes} {P : UInt64 → Bool → Prop} {must : Prop}

/-! ### The account of a sender during a transition -/

/-- The account does not create a contract or commit suicide now. -/
def Undisturbed (addr : Bytes) : Config → Prop
  | .evaluating _ m | .posting _ _ _ _ _ m => m.Spares addr
  | _ => True

/-- The account is tracked in the state, and in the copies it may go back to. -/
def Tracked (addr : Bytes) (P : UInt64 → Bool → Prop) (must : Prop) : Config → Prop
  | .evaluating eval m => m.Tracks addr P must ∧ eval.snapshot.Tracks addr P must
  | .dispatching _ _ _ _ _ _ w => w.Tracks addr P must
  | .posting _ _ _ _ _ m => m.Tracks addr P must
  | .finished w _ => w.Tracks addr P must

variable {w : World} {cb : Ref}

theorem tracks_refundGas (tracks : w.Tracks addr P must) (cb sen : Ref) (gas price : Int) :
    (refundGas w cb sen gas price).Tracks addr P must :=
  (tracks.touch rfl rfl).touch rfl rfl

theorem Tracked.step (tracked : Tracked addr P must config)
    (fresh : ¬ must → ∀ nonce, P nonce false) (valid : config.Valid)
    (undisturbed : Undisturbed addr config) :
    Tracked addr P must (step host db tx block config) := by
  have stage := stage_step host db tx block config
  generalize StateTransition.step host db tx block config = after at stage ⊢
  cases stage with
  | run =>
      exact ⟨tracked.1.deed fresh valid.1 undisturbed (Machine.deed_step _ _ _), tracked.2⟩
  | succeed => exact tracked.1.world
  | post => exact ⟨tracked, by simp⟩
  | deliver =>
      exact Machine.Tracks.deed tracked fresh valid.1 undisturbed (Machine.deed_step _ _ _)
  | join => exact Machine.Tracks.world tracked
  | rest => exact tracked
  | settle settled ends =>
      refine tracks_refundGas (w := settled.world) ?_ _ _ _ _
      cases settles_of_settlement ends with
      | failed => exact .set tracked.2 _
      | created => exact World.Tracks.touch tracked rfl rfl
      | called => exact tracked
      | panicked => exact Machine.Tracks.world tracked

theorem tracked_run (sound : w.Sound) (below : cb < w.next)
    (fresh : ¬ must → ∀ nonce, P nonce false) (starts : Tracked addr P must (start host db tx cb w))
    (undisturbed : ∀ n, Undisturbed addr (run host db tx block cb w n)) (n : Nat) :
    Tracked addr P must (run host db tx block cb w n) := by
  induction n with
  | zero => exact starts
  | succ n induction =>
      rw [run_succ]
      exact induction.step fresh (valid_run sound below n) (undisturbed n)

theorem tracks_transfer {sen : Ref} {after : World} {eval : Evaluation}
    (tracks : w.Tracks addr P must) (fresh : ¬ must → ∀ nonce, P nonce false)
    (apart : tx.contractCreation = true → address (creationAddress host tx) ≠ addr)
    (transferred : transfer host db tx cb sen w = some (eval, after)) :
    after.Tracks addr P must ∧ eval.snapshot.Tracks addr P must := by
  unfold transfer at transferred
  split at transferred
  · rename_i creates
    cases transferred
    have taken : (w.modify sen (.subAmount tx.value)).Tracks addr P must := tracks.touch rfl rfl
    have made : (makeContract host tx (w.modify sen (.subAmount tx.value))).2.Tracks addr P must :=
      (taken.install_of_ne (apart creates).symm _).touch rfl rfl
    exact ⟨made.touch rfl rfl, taken.copy⟩
  · obtain ⟨⟨receiver, loaded⟩, found, transferred⟩ := Option.bind_eq_some_iff.mp transferred
    cases transferred
    have moved : (Machine.transferred loaded sen receiver tx.value).Tracks addr P must :=
      ((tracks.getOrNewStateObject fresh found).touch rfl rfl).touch rfl rfl
    exact ⟨moved, moved.copy⟩

theorem tracked_evaluate {eval : Evaluation} (gas : Int) (tracks : w.Tracks addr P must)
    (snapshot : eval.snapshot.Tracks addr P must) : Tracked addr P must (evaluate eval gas w) := by
  unfold evaluate
  split
  · exact tracks
  · rename_i code _
    have enters := Machine.proceeds_enter ⟨w, [], [], [], .panicking⟩
      ⟨eval.sen, eval.receiver, code, eval.tx.data, gas, eval.tx.gasPrice⟩
    refine ⟨⟨?_, ?_⟩, snapshot⟩
    · rwa [enters.world]
    · simp [List.suffix_nil.mp enters.waiting]

/-- The account of a sender, from the time its nonce has been counted up. -/
theorem tracked_start {sen : Ref} {bought : World}
    (checked : preCheck host db tx cb w = .ok (sen, bought))
    (tracks : (bought.modify sen .incrementNonce).Tracks addr P must)
    (fresh : ¬ must → ∀ nonce, P nonce false)
    (apart : tx.contractCreation = true → address (creationAddress host tx) ≠ addr) :
    Tracked addr P must (start host db tx cb w) := by
  rw [start_eq]
  cases outsetEq : outset host db tx cb w with
  | refused after => cases (outset_refused outsetEq).symm.trans checked
  | stopped sen' after gas =>
      obtain ⟨bought', sameCheck, rfl, -, -⟩ := outset_stopped outsetEq
      cases sameCheck.symm.trans checked
      exact tracks_refundGas tracks _ _ _ _
  | begun eval after gas =>
      obtain ⟨sen', bought', sameCheck, -, transferred, -, -⟩ := outset_begun outsetEq
      cases sameCheck.symm.trans checked
      obtain ⟨moved, snapshot⟩ := tracks_transfer tracks fresh apart transferred
      exact tracked_evaluate gas moved snapshot

end StateTransition

namespace BlockManager

open Thelonious.StateTransition World

variable {manager : BlockManager} {block : Block} {db : Database} {tx : Transaction} {cb sen : Ref}
  {w bought : World} {ending : Ending} {addr : Bytes} {P : UInt64 → Bool → Prop} {must : Prop}

theorem tracks_transition (sound : w.Sound) (below : cb < w.next)
    (checked : preCheck manager.validated db tx cb w = .ok (sen, bought))
    (tracks : (bought.modify sen .incrementNonce).Tracks addr P must)
    (fresh : ¬ must → ∀ nonce, P nonce false)
    (apart : tx.contractCreation = true → address (creationAddress manager.host tx) ≠ addr)
    (undisturbed : ∀ n, Undisturbed addr (run manager.validated db tx block.header cb w n))
    (ends : manager.transition block db tx cb w = some ending) :
    ending.world.Tracks addr P must := by
  obtain ⟨n, finished⟩ := run_of_transition ends
  have tracked := tracked_run sound below fresh (tracked_start checked tracks fresh apart)
    undisturbed n
  rwa [finished] at tracked

theorem tracks_refreshes {after : World} (tracks : w.Tracks addr P must)
    (refreshes : Refreshes w after)
    (unmarked : ∀ nonce remove, P nonce remove → remove = false) :
    after.Tracks addr P must where
  held found := by
    obtain ⟨old, trie, heapEq⟩ := refreshes.known found
    obtain ⟨below, holds⟩ := tracks.held old
    rw [refreshes.next_eq, heapEq]
    exact ⟨below, holds⟩
  there holds := by
    obtain ⟨ref, found⟩ := tracks.there holds
    exact ⟨ref, refreshes.kept found (unmarked _ _ (tracks.held found).2)⟩

variable {valid : World} {host : Host}

/-! ### The checks of the protocol -/

theorem getOrNewStateObject_again {loaded : World}
    (got : w.getOrNewStateObject db addr = some (sen, loaded)) :
    loaded.getOrNewStateObject db addr = some (sen, loaded) := by
  have found := (keeps_getOrNewStateObject got).2
  simp [World.getOrNewStateObject, World.getStateObject, found]

/-- What `EthModel` finds out about a transaction. -/
theorem ethValidateTx_eq {loaded : World} (recovered : host.sender tx = some addr)
    (got : w.getOrNewStateObject db addr = some (sen, loaded)) :
    ethValidateTx host db tx w =
      (if (loaded.heap sen).nonce ≠ tx.nonce then some .nonceErr else none, loaded) := by
  simp only [ethValidateTx, recovered, got]

theorem ethValidateTx_none (validated : ethValidateTx host db tx w = (none, valid)) :
    ∃ addr sen, host.sender tx = some addr ∧ w.getOrNewStateObject db addr = some (sen, valid) ∧
      (valid.heap sen).nonce = tx.nonce := by
  unfold ethValidateTx at validated
  split at validated
  · cases validated
  · rename_i addr recovered
    split at validated
    · cases validated
    · rename_i sen loaded got
      obtain ⟨matching, rfl⟩ := Prod.mk.inj validated
      refine ⟨addr, sen, recovered, got, ?_⟩
      by_contra different
      rw [if_pos different] at matching
      cases matching

/-- The gas of a validated transaction is bought just if the sender can pay for it and the
pool has it. -/
theorem preCheck_iff (recovered : manager.host.sender tx = some addr)
    (got : valid.getOrNewStateObject db addr = some (sen, valid)) :
    (∃ sen bought, preCheck manager.validated db tx cb valid = .ok (sen, bought)) ↔
      tx.gasValue ≤ (valid.heap sen).balance ∧ tx.gas ≤ (valid.heap cb).gasPool := by
  have recovers : manager.validated.sender tx = some addr := recovered
  constructor
  · rintro ⟨sen', bought, checked⟩
    obtain ⟨addr', loaded, recovered', got', covered, pool, -⟩ := preCheck_ok checked
    cases recovers.symm.trans recovered'
    cases got.symm.trans got'
    exact ⟨covered, pool⟩
  · rintro ⟨covered, pool⟩
    refine ⟨sen,
      (valid.modify cb (.addAmount tx.gasValue)).modify sen (.subAmount tx.gasValue), ?_⟩
    unfold preCheck
    simp only [recovers, got]
    rw [if_neg (by simp [validated]), if_neg (not_lt.mpr covered), if_neg (not_lt.mpr pool)]

variable (manager block)

/-- The transaction passes `preCheck` when it is its turn. -/
def Passes (progress : Progress) (tx : Transaction) : Prop :=
  ∃ cb w valid sen bought,
    progress.world.getStateObject progress.db block.header.coinbase = some (some cb, w) ∧
    manager.validateTx progress.db tx w = (none, valid) ∧
    preCheck manager.validated progress.db tx cb valid = .ok (sen, bought)

/-- The next transaction has a sender whose account can be read and, if it has the nonce of
the account, the sender can pay for its gas and the pool has it. -/
def Affords (progress : Progress) : Prop :=
  ∀ tx ∈ progress.txs.head?, ∀ cb w,
    progress.world.getStateObject progress.db block.header.coinbase = some (some cb, w) →
    ∃ addr sen loaded, manager.host.sender tx = some addr ∧
      w.getOrNewStateObject progress.db addr = some (sen, loaded) ∧
      ((loaded.heap sen).nonce = tx.nonce →
        tx.gasValue ≤ (loaded.heap sen).balance ∧ tx.gas ≤ (loaded.heap cb).gasPool)

/-- The gas of the next transaction is refused because the pool of the coinbase is too
small. -/
def PoolRefuses (progress : Progress) (tx : Transaction) : Prop :=
  ∃ cb w valid after,
    progress.world.getStateObject progress.db block.header.coinbase = some (some cb, w) ∧
    manager.validateTx progress.db tx w = (none, valid) ∧
    preCheck manager.validated progress.db tx cb valid = .error after ∧
    manager.purchaseErr progress.db tx cb valid = .poolErr

variable {manager block} {progress : Progress} {rest : List Transaction}

/-- A transaction that the loop comes to is skipped for its nonce, or its gas is bought. -/
theorem affords_cases (eth : manager.validateTx = ethValidateTx manager.host)
    (affords : manager.Affords block progress) (txs : progress.txs = tx :: rest)
    (found : progress.world.getStateObject progress.db block.header.coinbase =
      some (some cb, w)) :
    ∃ addr sen loaded, manager.host.sender tx = some addr ∧
      w.getOrNewStateObject progress.db addr = some (sen, loaded) ∧
      (manager.validateTx progress.db tx w = (some .nonceErr, loaded) ∨
        manager.validateTx progress.db tx w = (none, loaded) ∧
          (loaded.heap sen).nonce = tx.nonce ∧
          ∃ bought, preCheck manager.validated progress.db tx cb loaded = .ok (sen, bought)) := by
  obtain ⟨addr, sen, loaded, recovered, got, covered⟩ := affords tx (by rw [txs]; rfl) cb w found
  have validates := ethValidateTx_eq recovered got
  refine ⟨addr, sen, loaded, recovered, got, ?_⟩
  rw [eth, validates]
  by_cases matching : (loaded.heap sen).nonce = tx.nonce
  · rw [if_neg (not_not.mpr matching)]
    have again := getOrNewStateObject_again got
    obtain ⟨sen', bought, checked⟩ := (preCheck_iff recovered again).mpr (covered matching)
    obtain ⟨addr', loaded', recovered', got', -, -, -⟩ := preCheck_ok checked
    have recovers : manager.validated.sender tx = some addr := recovered
    cases recovers.symm.trans recovered'
    cases again.symm.trans got'
    exact .inr ⟨rfl, matching, bought, checked⟩
  · rw [if_pos matching]
    exact .inl rfl

/-- A transaction that gets a receipt passes `preCheck` just if it can be afforded. -/
theorem passes_iff (eth : manager.validateTx = ethValidateTx manager.host)
    (txs : progress.txs = tx :: rest)
    (found : progress.world.getStateObject progress.db block.header.coinbase = some (some cb, w))
    (ends : manager.transitionState block progress.db tx cb w = some ending)
    (counts : ending.Counts) :
    manager.Passes block progress tx ↔ manager.Affords block progress := by
  constructor
  · rintro ⟨cb', w', valid, sen, bought, found', validated, checked⟩
    cases found.symm.trans found'
    intro tx' next cb' w' found'
    cases found.symm.trans found'
    rw [txs] at next
    cases next
    rw [eth] at validated
    obtain ⟨addr, sen, recovered, got, -⟩ := ethValidateTx_none validated
    have covered := (preCheck_iff recovered (getOrNewStateObject_again got)).mp ⟨_, bought, checked⟩
    exact ⟨addr, sen, valid, recovered, got, fun _ => covered⟩
  · intro affords
    obtain ⟨addr, sen, loaded, -, -, refused | ⟨validated, -, bought, checked⟩⟩ :=
      affords_cases eth affords txs found
    · rw [transitionState, refused] at ends
      cases ends
      exact absurd rfl counts.1
    · exact ⟨cb, w, loaded, sen, bought, found, validated, checked⟩

theorem counts_of_transition (ends : manager.transition block db tx cb w = some ending) :
    ending.Counts := by
  have other : Ending.Counts ⟨w, 0, some .otherErr⟩ := by simp [Ending.Counts]
  unfold transition at ends
  split at ends
  · cases ends
    simp only [Ending.Counts, purchaseErr]
    split
    · exact other
    · split
      · exact other
      · split
        · simp
        · exact other
  · cases ends
    exact other
  · obtain ⟨settled, -, rfl⟩ := Option.map_eq_some_iff.mp ends
    simp only [Ending.Counts]
    cases settled.ok <;> simp

/-! ### The nonces of an account -/

/-- The transactions of an account. -/
def ofAccount (host : Host) (addr : Bytes) (txs : List Transaction) : List Transaction :=
  txs.filter fun tx => (host.sender tx).map address = some addr

/-- The numbers that follow `start`, as a `uint64` counts. -/
def successive (start : UInt64) (count : Nat) : List UInt64 :=
  (List.range count).map fun i => start + UInt64.ofNat i

theorem successive_succ (start : UInt64) (count : Nat) :
    successive start (count + 1) = successive start count ++ [start + UInt64.ofNat count] := by
  rw [successive, List.range_succ, List.map_append]
  rfl

/-- The account of the sender creates no contract and does not commit suicide while the next
transaction is run, and the transaction creates no contract in its place. -/
def LeavesAlone (manager : BlockManager) (block : Block) (addr : Bytes) (progress : Progress) :
    Prop :=
  ∀ tx ∈ progress.txs.head?, ∀ cb w valid,
    progress.world.getStateObject progress.db block.header.coinbase = some (some cb, w) →
    manager.validateTx progress.db tx w = (none, valid) →
      (tx.contractCreation = true → address (creationAddress manager.host tx) ≠ addr) ∧
        ∀ n, Undisturbed addr (run manager.validated progress.db tx block.header cb valid n)

/-- The first transaction of the account finds it with the nonce `first`. -/
def Begins (manager : BlockManager) (block : Block) (addr : Bytes) (first : UInt64)
    (progress : Progress) : Prop :=
  ofAccount manager.host addr progress.handled = [] →
    ∀ tx ∈ progress.txs.head?, ∀ sender, manager.host.sender tx = some sender →
      address sender = addr → ∀ cb w,
        progress.world.getStateObject progress.db block.header.coinbase = some (some cb, w) →
        (w.getNonce progress.db sender).map Prod.fst = some first

theorem getNonce_of_getOrNewStateObject {sender : Bytes}
    (got : w.getOrNewStateObject db sender = some (sen, valid)) :
    (w.getNonce db sender).map Prod.fst = some (valid.heap sen).nonce := by
  obtain ⟨⟨found, loaded⟩, foundEq, got⟩ := Option.bind_eq_some_iff.mp got
  cases found with
  | none =>
      cases got
      simp [World.getNonce, foundEq, StateObject.new]
  | some ref =>
      cases got
      simp [World.getNonce, foundEq]

/-- What is known about the object of the account: it is not marked for deletion and, when
the account is followed, has the nonce that is expected next. -/
def Expects (followed : Prop) (next nonce : UInt64) (remove : Bool) : Prop :=
  remove = false ∧ (followed → nonce = next)

theorem expects_fresh {followed : Prop} {next : UInt64} (loose : ¬ followed) (nonce : UInt64) :
    Expects followed next nonce false :=
  ⟨rfl, fun follows => absurd follows loose⟩

/-- The transactions of the account so far have successive nonces, from `start` on.  The
account is followed from its first transaction on, or from the beginning when it was
`loaded`; it had the nonce `first` then. -/
structure Sequenced (host : Host) (addr : Bytes) (loaded : Prop) (first : UInt64)
    (progress : Progress) (start : UInt64) : Prop where
  nonces : (ofAccount host addr progress.handled).map Transaction.nonce =
    successive start (ofAccount host addr progress.handled).length
  begins : loaded ∨ ofAccount host addr progress.handled ≠ [] → start = first
  tracks : progress.world.Tracks addr
    (Expects (loaded ∨ ofAccount host addr progress.handled ≠ [])
      (start + UInt64.ofNat (ofAccount host addr progress.handled).length))
    (loaded ∨ ofAccount host addr progress.handled ≠ [])

variable {loaded : Prop} {first start : UInt64}

theorem ofAccount_append_of_ne (handled : List Transaction)
    (other : (host.sender tx).map address ≠ some addr) :
    ofAccount host addr (handled ++ [tx]) = ofAccount host addr handled := by
  simpa [ofAccount] using other

theorem ofAccount_append_self (handled : List Transaction)
    (own : (host.sender tx).map address = some addr) :
    ofAccount host addr (handled ++ [tx]) = ofAccount host addr handled ++ [tx] := by
  simpa [ofAccount] using own

section Transition

variable {sender : Bytes} (sound : valid.Sound) (below : cb < valid.next)
  (got : valid.getOrNewStateObject db sender = some (sen, valid))
  (recovered : manager.host.sender tx = some sender)
  (apart : tx.contractCreation = true → address (creationAddress manager.host tx) ≠ addr)
  (undisturbed : ∀ n, Undisturbed addr (run manager.validated db tx block.header cb valid n))
  (checked : preCheck manager.validated db tx cb valid = .ok (sen, bought))
  (ends : manager.transition block db tx cb valid = some ending)

include got recovered checked in
theorem bought_eq :
    bought = (valid.modify cb (.addAmount tx.gasValue)).modify sen (.subAmount tx.gasValue) := by
  obtain ⟨sender', loaded, recovered', got', -, -, boughtEq⟩ := preCheck_ok checked
  have recovers : manager.validated.sender tx = some sender := recovered
  cases recovers.symm.trans recovered'
  cases got.symm.trans got'
  exact boughtEq

include sound below got recovered apart undisturbed checked ends

/-- The state after a transaction of another account. -/
theorem tracks_other (other : address sender ≠ addr) (tracks : valid.Tracks addr P must)
    (fresh : ¬ must → ∀ nonce, P nonce false) : ending.world.Tracks addr P must := by
  have boughtEq := bought_eq got recovered checked
  refine tracks_transition sound below checked ?_ fresh apart undisturbed ends
  have boughtTracks : bought.Tracks addr P must := by
    rw [boughtEq]
    exact (tracks.touch rfl rfl).touch rfl rfl
  refine boughtTracks.modify fun found => ?_
  rw [boughtEq] at found
  have own := (keeps_getOrNewStateObject got).2
  exact absurd ((sound.held own).2.1.symm.trans (sound.held found).2.1) other

/-- The state after a transaction of the account itself. -/
theorem tracks_own (own : address sender = addr) (unmarked : (valid.heap sen).remove = false)
    {followed : Prop} (follows : followed) :
    ending.world.Tracks addr (Expects followed ((valid.heap sen).nonce + 1)) followed := by
  have boughtEq := bought_eq got recovered checked
  have found := (keeps_getOrNewStateObject got).2
  rw [own] at found
  refine tracks_transition sound below checked ?_ (fun loose => absurd follows loose) apart
    undisturbed ends
  have kept : (bought.heap sen).nonce = (valid.heap sen).nonce ∧
      (bought.heap sen).remove = (valid.heap sen).remove := by
    rw [boughtEq, heap_modify_self]
    by_cases same : sen = cb
    · subst same
      rw [heap_modify_self]
      exact ⟨rfl, rfl⟩
    · rw [heap_modify_of_ne same]
      exact ⟨rfl, rfl⟩
  have held : AList.lookup addr bought.state.stateObjects = some sen := by
    rw [boughtEq]
    exact found
  constructor
  case held =>
    intro ref other
    cases held.symm.trans other
    rw [heap_modify_self]
    refine ⟨?_, kept.2.trans unmarked, fun _ => ?_⟩
    · rw [boughtEq]
      exact (sound.held found).1
    · rw [StateObject.incrementNonce, kept.1]
  case there => exact fun _ => ⟨sen, held⟩

end Transition

/-- A handled transaction of the account continues the sequence. -/
theorem sequenced_own {after : Progress}
    (sequenced : Sequenced manager.host addr loaded first progress start)
    (tracks : valid.Tracks addr
      (Expects (loaded ∨ ofAccount manager.host addr progress.handled ≠ [])
        (start + UInt64.ofNat (ofAccount manager.host addr progress.handled).length))
      (loaded ∨ ofAccount manager.host addr progress.handled ≠ []))
    (held : AList.lookup addr valid.state.stateObjects = some sen)
    (matching : (valid.heap sen).nonce = tx.nonce)
    (began : ofAccount manager.host addr progress.handled = [] → (valid.heap sen).nonce = first)
    (handled : after.handled = progress.handled ++ [tx])
    (own : (manager.host.sender tx).map address = some addr)
    (ended : ∀ {followed : Prop}, followed → after.world.Tracks addr
      (Expects followed ((valid.heap sen).nonce + 1)) followed) :
    ∃ start, Sequenced manager.host addr loaded first after start := by
  obtain ⟨-, -, expected⟩ := tracks.held held
  have appended := ofAccount_append_self progress.handled own
  rw [← handled] at appended
  by_cases followed : loaded ∨ ofAccount manager.host addr progress.handled ≠ []
  · have nonceEq := matching.symm.trans (expected followed)
    refine ⟨start, ?_, fun _ => sequenced.begins followed, ?_⟩
    · rw [appended, List.map_append, sequenced.nonces, List.length_append, List.length_singleton,
        successive_succ, List.map_singleton, nonceEq]
    · have nextEq : (valid.heap sen).nonce + 1 =
          start + UInt64.ofNat (ofAccount manager.host addr after.handled).length := by
        rw [expected followed, appended, List.length_append, List.length_singleton,
          UInt64.ofNat_add, UInt64.add_assoc]
        rfl
      rw [← nextEq]
      exact ended (.inr (by simp [appended]))
  · have none : ofAccount manager.host addr progress.handled = [] := by
      by_contra some
      exact followed (.inr some)
    rw [none, List.nil_append] at appended
    refine ⟨tx.nonce, ?_, fun _ => matching.symm.trans (began none), ?_⟩
    · simp [appended, successive]
    · rw [appended, ← matching]
      exact ended (.inr (by simp))

theorem sequenced_iterated {next : Processing}
    (eth : manager.validateTx = ethValidateTx manager.host) (sound : progress.world.Sound)
    (sequenced : ∃ start, Sequenced manager.host addr loaded first progress start)
    (affords : manager.Affords block progress)
    (alone : LeavesAlone manager block addr progress)
    (begins : Begins manager block addr first progress)
    (iterated : Iterated manager block progress next) :
    ∀ after ∈ next.progress, ∃ start, Sequenced manager.host addr loaded first after start := by
  obtain ⟨start, sequenced⟩ := sequenced
  cases iterated with
  | done empty =>
      rintro _ ⟨⟩
      exact ⟨start, sequenced⟩
  | skipped tx rest cb w ending txs found ends err =>
      rintro _ ⟨⟩
      obtain ⟨addr', sen, valid, recovered, got, refused | ⟨validated, -, bought, checked⟩⟩ :=
        affords_cases eth affords txs found
      · rw [transitionState, refused] at ends
        cases ends
        refine ⟨start, sequenced.nonces, sequenced.begins, ?_⟩
        exact (sequenced.tracks.getStateObject expects_fresh found).getOrNewStateObject
          expects_fresh got
      · rw [transitionState, validated] at ends
        obtain ⟨nonce, gasLimitTx, -⟩ := counts_of_transition ends
        exact absurd err (not_or.mpr ⟨nonce, gasLimitTx⟩)
  | full tx rest cb w ending txs found ends err =>
      obtain ⟨addr', sen, valid, recovered, got, refused | ⟨validated, -, bought, checked⟩⟩ :=
        affords_cases eth affords txs found
      · rw [transitionState, refused] at ends
        cases ends
        cases err
      · rw [transitionState, validated] at ends
        exact absurd err (counts_of_transition ends).2.2
  | handled tx rest cb w ending db after root txs found ends counts updated rootEq =>
      rintro _ ⟨⟩
      obtain ⟨sender, sen, valid, recovered, got,
        refused | ⟨validated, matching, bought, checked⟩⟩ :=
        affords_cases eth affords txs found
      · rw [transitionState, refused] at ends
        cases ends
        exact absurd rfl counts.1
      · rw [transitionState, validated] at ends
        obtain ⟨apart, undisturbed⟩ := alone tx (by rw [txs]; rfl) cb w valid found validated
        obtain ⟨loads, cbFound, -⟩ := loads_getStateObject sound found
        obtain ⟨validLoads, senFound⟩ := loads_getOrNewStateObject loads.sound got
        have below := (validLoads.sound.held (validLoads.kept cbFound)).1
        have again := getOrNewStateObject_again got
        have tracks := (sequenced.tracks.getStateObject expects_fresh found).getOrNewStateObject
          expects_fresh got
        have refreshes := refreshes_update (sound_transition validLoads.sound below ends) updated
        have unmarked : ∀ {followed : Prop} {next : UInt64} nonce remove,
            Expects followed next nonce remove → remove = false := fun _ _ expects => expects.1
        by_cases own : address sender = addr
        · subst own
          have began : ofAccount manager.host (address sender) progress.handled = [] →
              (valid.heap sen).nonce = first := by
            intro none
            have reads := begins none tx (by rw [txs]; rfl) sender recovered rfl cb w found
            exact Option.some.inj ((getNonce_of_getOrNewStateObject got).symm.trans reads)
          refine sequenced_own sequenced tracks senFound matching began rfl (by rw [recovered]; rfl)
            ?_
          intro followed follows
          refine tracks_refreshes ?_ refreshes unmarked
          exact tracks_own validLoads.sound below again recovered apart undisturbed checked ends rfl
            (tracks.held senFound).2.1 follows
        · have other : (manager.host.sender tx).map address ≠ some addr := by
            rw [recovered]
            exact fun same => own (Option.some.inj same)
          have ended := tracks_other validLoads.sound below again recovered apart undisturbed
            checked ends own tracks expects_fresh
          rw [← ofAccount_append_of_ne progress.handled other] at ended
          refine ⟨start, ?_, ?_, tracks_refreshes ended refreshes unmarked⟩
          · rw [ofAccount_append_of_ne progress.handled other]
            exact sequenced.nonces
          · rw [ofAccount_append_of_ne progress.handled other]
            exact sequenced.begins
  | mismatch | panicked | unfinished => rintro _ ⟨⟩

theorem sequenced_initially (db : Database) (w : World) (txs : List Transaction)
    (unmarked : ∀ ref, AList.lookup addr w.state.stateObjects = some ref →
      (w.heap ref).remove = false) (sound : w.Sound)
    (reads : (w.getNonce db addr).map Prod.fst = some first) :
    ∃ start, Sequenced manager.host addr
      (∃ ref, AList.lookup addr w.state.stateObjects = some ref) first (initially db w txs)
      start := by
  refine ⟨first, rfl, fun _ => rfl, ?_⟩
  constructor
  case held =>
    intro ref found
    have here : AList.lookup addr w.state.stateObjects = some ref := found
    obtain ⟨below, -, lengthEq⟩ := sound.held here
    refine ⟨below, unmarked ref here, fun _ => ?_⟩
    have loaded : w.getStateObject db addr = some (some ref, w) := by
      rw [World.getStateObject, address_of_length lengthEq, here]
    have nonceEq : (w.heap ref).nonce = first := by simpa [World.getNonce, loaded] using reads
    simp [initially, ofAccount, nonceEq]
  case there =>
    rintro (⟨ref, found⟩ | more)
    · exact ⟨ref, found⟩
    · exact absurd rfl more

theorem handled_length_le {txs : List Transaction} (n : Nat) :
    ∀ progress ∈ (manager.processing block db w txs n).progress,
      progress.handled.length + progress.txs.length ≤ txs.length := by
  refine processing_invariant
    (fun progress => progress.handled.length + progress.txs.length ≤ txs.length) (fun _ => True)
    (by simp [initially]) ?_ (fun _ _ _ => trivial) n
  intro progress next bound _ iterated
  cases iterated with
  | done empty =>
      rintro _ ⟨⟩
      exact bound
  | skipped tx rest cb w ending pending found ends err =>
      rintro _ ⟨⟩
      rw [pending, List.length_cons] at bound
      dsimp only
      omega
  | full tx rest cb w ending pending found ends err =>
      rintro _ ⟨⟩
      exact bound
  | handled tx rest cb w ending db after root pending found ends counts updated rootEq =>
      rintro _ ⟨⟩
      rw [pending, List.length_cons] at bound
      dsimp only
      rw [List.length_append, List.length_singleton]
      omega
  | mismatch | panicked | unfinished => rintro _ ⟨⟩

theorem nodup_successive (start : UInt64) {count : Nat} (small : count ≤ 2 ^ 64) :
    (successive start count).Nodup := by
  refine List.Nodup.map_on ?_ List.nodup_range
  intro i iMem j jMem same
  rw [List.mem_range] at iMem jMem
  have offsets := congrArg UInt64.toNat ((UInt64.add_right_inj start).mp same)
  rw [UInt64.toNat_ofNat', UInt64.toNat_ofNat'] at offsets
  omega

/-- A purchase that the pool refuses does not end the loop: the transaction is handled. -/
theorem handled_of_poolRefuses {next : Processing} {refusedTx : Transaction}
    (pending : progress.txs = refusedTx :: rest)
    (refuses : manager.PoolRefuses block progress refusedTx)
    (iterated : Iterated manager block progress next) :
    (∀ after unhandled, next ≠ .returned after unhandled) ∧
      ∀ after, next = .processing after → after.handled = progress.handled ++ [refusedTx] := by
  obtain ⟨cb, w, valid, after, coinbase, validated, refused, isPool⟩ := refuses
  have ended : ∀ {tx txs cb' w' ending}, progress.txs = tx :: txs →
      progress.world.getStateObject progress.db block.header.coinbase = some (some cb', w') →
      manager.transitionState block progress.db tx cb' w' = some ending →
      tx = refusedTx ∧ ending.err = some .poolErr := by
    intro tx txs cb' w' ending pending' coinbase' ends
    cases pending.symm.trans pending'
    cases coinbase.symm.trans coinbase'
    rw [transitionState, validated] at ends
    have outsetEq : outset manager.validated progress.db refusedTx cb valid = .refused after := by
      simp only [outset, refused]
    simp only [transition, outsetEq, isPool] at ends
    cases ends
    exact ⟨rfl, rfl⟩
  cases iterated with
  | done empty => cases empty.symm.trans pending
  | skipped tx rest cb w ending txs found ends err =>
      rcases err with err | err <;> cases (ended txs found ends).2.symm.trans err
  | full tx rest cb w ending txs found ends err => cases (ended txs found ends).2.symm.trans err
  | handled tx rest cb w ending db after root txs found ends counts updated rootEq =>
      refine ⟨nofun, ?_⟩
      rintro _ ⟨⟩
      rw [(ended txs found ends).1]
  | mismatch | panicked | unfinished => exact ⟨nofun, nofun⟩

/-- A transaction that gets a receipt has passed `preCheck` just if its gas could be
afforded.  A transaction whose gas the pool refuses never ends the loop, it is handled
like the others.  When every transaction that the loop comes to can be afforded, those
that are handled for an account have successive nonces from the one on that the account
has at the beginning, provided that the account has that nonce when its first
transaction comes, is not marked for deletion, creates no contract, does not commit
suicide, and no contract is created in its place. -/
theorem handled_admitted (manager : BlockManager)
    (eth : manager.validateTx = ethValidateTx manager.host) (block : Block) (db : Database)
    (w : World) (sound : w.Sound) (txs : List Transaction) :
    (∀ n progress after tx, manager.processing block db w txs n = .processing progress →
      manager.processing block db w txs (n + 1) = .processing after →
      after.handled = progress.handled ++ [tx] →
      (manager.Passes block progress tx ↔ manager.Affords block progress)) ∧
    (∀ n progress tx rest, manager.processing block db w txs n = .processing progress →
      progress.txs = tx :: rest → manager.PoolRefuses block progress tx →
      (∀ after unhandled, manager.processing block db w txs (n + 1) ≠ .returned after unhandled) ∧
        ∀ after, manager.processing block db w txs (n + 1) = .processing after →
          after.handled = progress.handled ++ [tx]) ∧
    ((∀ n progress, manager.processing block db w txs n = .processing progress →
        manager.Affords block progress) →
      ∀ addr first, (w.getNonce db addr).map Prod.fst = some first →
        (∀ ref, AList.lookup addr w.state.stateObjects = some ref →
          (w.heap ref).remove = false) →
        (∀ n progress, manager.processing block db w txs n = .processing progress →
          LeavesAlone manager block addr progress ∧ Begins manager block addr first progress) →
        ∀ n, ∀ progress ∈ (manager.processing block db w txs n).progress,
          (ofAccount manager.host addr progress.handled).map Transaction.nonce =
            successive first (ofAccount manager.host addr progress.handled).length ∧
          (txs.length ≤ 2 ^ 64 → (ofAccount manager.host addr progress.handled).Nodup)) := by
  refine ⟨?_, ?_, ?_⟩
  · intro n progress after tx current next handled
    have outcome := iterated manager block progress
    rw [← current, ← processing_succ, next] at outcome
    cases outcome with
    | skipped => exact absurd handled (by simp)
    | handled tx' rest cb w ending db after root pending found ends counts updated rootEq =>
        obtain rfl : tx' = tx := by simpa using handled
        exact passes_iff eth pending found ends counts
  · intro n progress tx rest current pending refuses
    have outcome := iterated manager block progress
    rw [← current, ← processing_succ] at outcome
    exact handled_of_poolRefuses pending refuses outcome
  · intro affords addr first reads unmarked conditions n progress reached
    obtain ⟨start, sequenced⟩ := processing_invariant
      (fun progress => ∃ start, Sequenced manager.host addr _ first progress start)
      (fun progress => progress.world.Sound ∧ manager.Affords block progress ∧
        LeavesAlone manager block addr progress ∧ Begins manager block addr first progress)
      (sequenced_initially db w txs unmarked sound reads)
      (fun _ _ sequenced allowed => sequenced_iterated eth allowed.1 sequenced allowed.2.1
        allowed.2.2.1 allowed.2.2.2)
      (fun n progress current => ⟨sound_processing sound (onlyLoads_of_eth eth) n progress
        (by rw [current]; rfl), affords n progress current, conditions n progress current⟩)
      n progress reached
    have nonces : (ofAccount manager.host addr progress.handled).map Transaction.nonce =
        successive first (ofAccount manager.host addr progress.handled).length := by
      by_cases none : ofAccount manager.host addr progress.handled = []
      · rw [none]
        rfl
      · rw [sequenced.nonces, sequenced.begins (.inr none)]
    refine ⟨nonces, fun small => ?_⟩
    have short : (ofAccount manager.host addr progress.handled).length ≤ 2 ^ 64 := by
      have total := handled_length_le n progress reached
      have part := List.length_filter_le
        (fun tx => decide ((manager.host.sender tx).map address = some addr)) progress.handled
      rw [ofAccount]
      omega
    apply List.Nodup.of_map Transaction.nonce
    rw [nonces]
    exact nodup_successive first short

/-- The next transaction can be afforded and runs no code, and the first one of the account
has the nonce `first`, as far as an evaluation can tell. -/
def plain (manager : BlockManager) (block : Block) (addr : Bytes) (first : UInt64) :
    Processing → Bool
  | .processing progress =>
      match progress.txs, progress.world.getStateObject progress.db block.header.coinbase with
      | tx :: _, some (some cb, w) =>
          match (manager.host.sender tx).bind (w.getOrNewStateObject progress.db) with
          | some (sen, loaded) =>
              let run := run manager.validated progress.db tx block.header cb loaded
              decide ((loaded.heap sen).nonce = tx.nonce ∧
                  tx.gasValue ≤ (loaded.heap sen).balance ∧ tx.gas ≤ (loaded.heap cb).gasPool ∧
                  (ofAccount manager.host addr progress.handled = [] → tx.nonce = first) ∧
                  tx.contractCreation = false) &&
                (run 0).machine.isNone && (run 1).returned.isSome
          | none => false
      | _, _ => true
  | _ => true

theorem undisturbed_of_rests {config : Config}
    (rests : config.machine.isNone ∨ config.returned.isSome) : Undisturbed addr config := by
  cases config with
  | evaluating | posting => rcases rests with rests | rests <;> cases rests
  | dispatching | finished => trivial

theorem conditions_of_plain (eth : manager.validateTx = ethValidateTx manager.host)
    (isPlain : plain manager block addr first (.processing progress)) :
    manager.Affords block progress ∧ LeavesAlone manager block addr progress ∧
      Begins manager block addr first progress := by
  have reads : ∀ tx ∈ progress.txs.head?, ∀ cb w,
      progress.world.getStateObject progress.db block.header.coinbase = some (some cb, w) →
      ∃ sender sen loaded, manager.host.sender tx = some sender ∧
        w.getOrNewStateObject progress.db sender = some (sen, loaded) ∧
        ((loaded.heap sen).nonce = tx.nonce ∧
          tx.gasValue ≤ (loaded.heap sen).balance ∧ tx.gas ≤ (loaded.heap cb).gasPool ∧
          (ofAccount manager.host addr progress.handled = [] → tx.nonce = first) ∧
          tx.contractCreation = false) ∧
        (run manager.validated progress.db tx block.header cb loaded 0).machine.isNone ∧
        (run manager.validated progress.db tx block.header cb loaded 1).returned.isSome := by
    intro tx next cb w found
    obtain ⟨rest, txs⟩ := List.head?_eq_some_iff.mp next
    simp only [plain, txs, found] at isPlain
    split at isPlain
    · rename_i sen loaded got
      obtain ⟨sender, recovered, got⟩ := Option.bind_eq_some_iff.mp got
      simp only [Bool.and_eq_true, decide_eq_true_eq] at isPlain
      exact ⟨sender, sen, loaded, recovered, got, isPlain.1.1, isPlain.1.2, isPlain.2⟩
    · cases isPlain
  refine ⟨?_, ?_, ?_⟩
  · intro tx next cb w found
    obtain ⟨sender, sen, loaded, recovered, got, ⟨-, balance, pool, -⟩, -⟩ :=
      reads tx next cb w found
    exact ⟨sender, sen, loaded, recovered, got, fun _ => ⟨balance, pool⟩⟩
  · intro tx next cb w valid found validated
    obtain ⟨sender, sen, loaded, recovered, got, ⟨matching, -, -, -, calls⟩, starts, returns⟩ :=
      reads tx next cb w found
    rw [eth, ethValidateTx_eq recovered got, if_neg (not_not.mpr matching)] at validated
    cases validated
    refine ⟨fun creates => absurd creates (by simp [calls]), fun n => ?_⟩
    refine Iteration.forall_of_fixed _ (Undisturbed addr) 1 (step_of_returned returns) ?_ n
    intro n le
    interval_cases n
    · exact undisturbed_of_rests (.inl starts)
    · exact undisturbed_of_rests (.inr returns)
  · intro none tx next sender recovered own cb w found
    obtain ⟨sender', sen, loaded, recovered', got, ⟨matching, -, -, begins, -⟩, -⟩ :=
      reads tx next cb w found
    cases recovered.symm.trans recovered'
    rw [getNonce_of_getOrNewStateObject got, matching, begins none]

/-- Two transactions that the sender can pay for. -/
theorem handled_admitted_ledger :
    ∃ progress,
      (ledgerManager.processing ledgerBlock ∅ (ledgerWith []) [ledgerTx 0 500, ledgerTx 1 500]
        3).progress = some progress ∧
      (ofAccount ledgerManager.host (address [1]) progress.handled).map Transaction.nonce =
        [0, 1] := by
  have conditions : ∀ n progress, ledgerManager.processing ledgerBlock ∅ (ledgerWith [])
      [ledgerTx 0 500, ledgerTx 1 500] n = .processing progress →
      ledgerManager.Affords ledgerBlock progress ∧
        LeavesAlone ledgerManager ledgerBlock (address [1]) progress ∧
        Begins ledgerManager ledgerBlock (address [1]) 0 progress := by
    intro n progress current
    have isPlain := Iteration.forall_of_fixed (ledgerManager.iterate ledgerBlock)
      (fun state => plain ledgerManager ledgerBlock (address [1]) 0 state = true) 3
      (iterate_of_ended (by decide +kernel : (ledgerManager.processing ledgerBlock ∅
        (ledgerWith []) [ledgerTx 0 500, ledgerTx 1 500] 3).ended = true))
      (fun n le => by interval_cases n <;> decide +kernel) n
    rw [← processing, current] at isPlain
    exact conditions_of_plain rfl isPlain
  have counts : (ledgerManager.processing ledgerBlock ∅ (ledgerWith [])
      [ledgerTx 0 500, ledgerTx 1 500] 3).progress.map (fun progress =>
        (ofAccount ledgerManager.host (address [1]) progress.handled).length) = some 2 := by
    decide +kernel
  obtain ⟨progress, reached, length⟩ := Option.map_eq_some_iff.mp counts
  have admitted := (handled_admitted ledgerManager rfl ledgerBlock ∅ (ledgerWith [])
    ((sound_ledgerWorld.modify rfl).modify rfl) [ledgerTx 0 500, ledgerTx 1 500]).2.2
    (fun n progress current => (conditions n progress current).1) (address [1]) 0
    (by decide +kernel) (by rintro ref ⟨⟩; rfl)
    (fun n progress current => (conditions n progress current).2) 3 progress reached
  refine ⟨progress, reached, ?_⟩
  rw [admitted.1, length]
  decide

/-- The gas of both transactions is refused, as the pool has only 400; each gets a receipt
all the same, none is unhandled, and it is one transaction that is handled twice. -/
theorem refused_transaction_handled_twice :
    ledgerManager.PoolRefuses ledgerBlock
        (initially ∅ (ledgerWorld.modify 1 (.setGasPool 400)) [ledgerTx 0 500, ledgerTx 0 500])
        (ledgerTx 0 500) ∧
      (ledgerManager.processTransactions ledgerBlock ∅ (ledgerWorld.modify 1 (.setGasPool 400))
          [ledgerTx 0 500, ledgerTx 0 500]).lists.map
        (fun lists => (lists.1.map Transaction.nonce, lists.2.length)) = some ([0, 0], 0) := by
  refine ⟨⟨1, _, _, _, rfl, rfl, rfl, rfl⟩, ?_⟩
  decide +kernel

end BlockManager

end Thelonious
