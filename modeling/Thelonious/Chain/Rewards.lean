import Thelonious.Chain.Processing
import Thelonious.Vm.Balances

/-!
# The rewards of a block

`AccumelateRewards` checks and rewards the uncles one by one.  The sum of all balances grows by
the amounts that are paid, also when some of them go to the same account.  An uncle that is
refused stops the loop, but the ones before it have their rewards already.
-/

namespace Thelonious

/-! ### Balances -/

namespace World

/-- The sum of all balances, with those of objects that are marked for deletion. -/
noncomputable def sumBalances (db : Database) (w : World) : Int :=
  ∑ addr ∈ addresses, w.balanceAt db addr

variable {db : Database} {w : World} {addr : Bytes} {ref : Ref} {after : World}

theorem balanceAt_of_some (found : AList.lookup addr w.state.stateObjects = some ref) :
    w.balanceAt db addr = (w.heap ref).balance := by
  rw [balanceAt, found]

theorem worth_of_account {trie : Trie} {object : StateObject}
    (stored : trie.account db addr = some object) : object.worth = object.balance := by
  obtain ⟨data, _, made⟩ := Option.bind_eq_some_iff.mp stored
  split at made
  · cases made
  · obtain ⟨decoder, _, made⟩ := Option.bind_eq_some_iff.mp made
    cases made
    rfl

/-- Objects that are not loaded yet are not marked. -/
theorem balanceAt_of_none (absent : AList.lookup addr w.state.stateObjects = none) :
    w.balanceAt db addr = w.worthAt db addr := by
  rw [worthAt, State.worthAt_of_none absent, balanceAt, absent]
  cases stored : w.state.trie.account db addr with
  | none => rfl
  | some object => exact (worth_of_account stored).symm

theorem Loads.balanceAt_eq (sound : w.Sound) (loads : Loads db w after) :
    after.balanceAt db = w.balanceAt db := by
  funext addr
  cases before : AList.lookup addr w.state.stateObjects with
  | some ref =>
      rw [balanceAt_of_some before, balanceAt_of_some (loads.kept before),
        loads.heap_eq (sound.held before).1]
  | none =>
      rw [balanceAt_of_none before, ← loads.worthAt_eq addr]
      cases found : AList.lookup addr after.state.stateObjects with
      | none => exact balanceAt_of_none found
      | some ref =>
          rcases loads.fresh found with old | ⟨_, unmarked⟩
          · cases before.symm.trans old
          · rw [balanceAt_of_some found, worthAt, State.worthAt_of_some found, StateObject.worth,
              unmarked]
            rfl

/-- An amount added to the account at an address changes this balance only. -/
theorem balanceAt_credit (sound : w.Sound) (amount : Int)
    (got : w.getOrNewStateObject db addr = some (ref, after)) :
    (after.modify ref (.addAmount amount)).Sound ∧
      (after.modify ref (.addAmount amount)).balanceAt db =
        Function.update (w.balanceAt db) (address addr)
          (w.balanceAt db (address addr) + amount) := by
  obtain ⟨loads, found⟩ := loads_getOrNewStateObject sound got
  refine ⟨loads.sound.modify rfl, ?_⟩
  rw [← loads.balanceAt_eq sound]
  funext other
  have lookupEq : AList.lookup other (after.modify ref (.addAmount amount)).state.stateObjects =
      AList.lookup other after.state.stateObjects := rfl
  by_cases same : other = address addr
  · rw [same] at lookupEq ⊢
    rw [Function.update_self, balanceAt_of_some (lookupEq.trans found), balanceAt_of_some found,
      heap_modify_self]
    rfl
  · rw [Function.update_of_ne same]
    cases held : AList.lookup other after.state.stateObjects with
    | none =>
        rw [balanceAt, balanceAt, lookupEq, held]
        rfl
    | some heldRef =>
        have different : heldRef ≠ ref := by
          rintro rfl
          exact same ((loads.sound.held held).2.1.symm.trans (loads.sound.held found).2.1)
        rw [balanceAt_of_some (lookupEq.trans held), balanceAt_of_some held,
          heap_modify_of_ne different]

theorem sumBalances_credit (sound : w.Sound) (amount : Int)
    (got : w.getOrNewStateObject db addr = some (ref, after)) :
    (after.modify ref (.addAmount amount)).Sound ∧
      (after.modify ref (.addAmount amount)).sumBalances db = w.sumBalances db + amount := by
  obtain ⟨soundAfter, balances⟩ := balanceAt_credit sound amount got
  refine ⟨soundAfter, ?_⟩
  rw [sumBalances, balances, sum_update_addresses _ (length_address addr), sumBalances]
  ring

end World

/-! ### The uncles -/

section Rewards

variable (sha3Bin : Bytes → Bytes) (numberOf : Bytes → Option Int) (parent : Block)

/-- The uncle would be rewarded by a block in which no other uncle has its nonce: its parent is
known and not too old, and it is not an uncle of the parent block. -/
def Eligible (uncle : Header) : Prop :=
  (∃ number, numberOf uncle.prevHash = some number ∧ parent.header.number - 6 ≤ number) ∧
    uncle.hash sha3Bin ∉ parent.uncles.map (Header.hash sha3Bin)

theorem uncleMessage_eq_none_iff (nonces : List Bytes) (uncle : Header) :
    uncleMessage sha3Bin numberOf parent nonces uncle = none ↔
      uncle.nonce ∉ nonces ∧ Eligible sha3Bin numberOf parent uncle := by
  unfold uncleMessage Eligible
  cases numberOf uncle.prevHash with
  | none =>
      by_cases repeated : uncle.nonce ∈ nonces
      · simp [repeated]
      · simp [repeated]
  | some number =>
      simp only [Option.some.injEq, exists_eq_left']
      grind

/-- How many uncles the loop rewards. -/
def rewardedUncles (nonces : List Bytes) : List Header → Nat
  | [] => 0
  | uncle :: uncles =>
      if uncleMessage sha3Bin numberOf parent nonces uncle = none then
        rewardedUncles (uncle.nonce :: nonces) uncles + 1
      else 0

theorem rewardedUncles_eq_length_iff (nonces : List Bytes) (uncles : List Header) :
    rewardedUncles sha3Bin numberOf parent nonces uncles = uncles.length ↔
      ((uncles.map Header.nonce).Nodup ∧ ∀ uncle ∈ uncles, uncle.nonce ∉ nonces) ∧
        ∀ uncle ∈ uncles, Eligible sha3Bin numberOf parent uncle := by
  induction uncles generalizing nonces with
  | nil => simp [rewardedUncles]
  | cons uncle uncles induction =>
      rw [rewardedUncles, List.length_cons]
      by_cases accepted : uncleMessage sha3Bin numberOf parent nonces uncle = none
      · rw [if_pos accepted, Nat.add_right_cancel_iff, induction]
        obtain ⟨new, eligible⟩ := (uncleMessage_eq_none_iff _ _ _ _ _).mp accepted
        constructor
        · rintro ⟨⟨nodup, apart⟩, all⟩
          have others : uncle.nonce ∉ uncles.map Header.nonce := by
            intro member
            obtain ⟨other, inside, same⟩ := List.mem_map.mp member
            exact apart other inside (same ▸ List.mem_cons_self)
          refine ⟨⟨List.nodup_cons.mpr ⟨others, nodup⟩, ?_⟩, ?_⟩
          · rw [List.forall_mem_cons]
            exact ⟨new, fun other inside => mt (List.mem_cons_of_mem _) (apart other inside)⟩
          · rw [List.forall_mem_cons]
            exact ⟨eligible, all⟩
        · rintro ⟨⟨nodup, apart⟩, all⟩
          obtain ⟨others, nodup⟩ := List.nodup_cons.mp nodup
          rw [List.forall_mem_cons] at apart all
          refine ⟨⟨nodup, ?_⟩, all.2⟩
          intro other inside member
          rcases List.mem_cons.mp member with same | old
          · exact others (same ▸ List.mem_map_of_mem inside)
          · exact apart.2 other inside old
      · rw [if_neg accepted]
        apply iff_of_false
        · exact (Nat.succ_ne_zero _).symm
        · rintro ⟨⟨_, apart⟩, all⟩
          rw [List.forall_mem_cons] at apart all
          exact accepted ((uncleMessage_eq_none_iff _ _ _ _ _).mpr ⟨apart.1, all.1⟩)

/-- What the loop over the uncles has done: as many rewards as there are uncles before the first
one that is refused. -/
structure RewardsPaid (db : Database) (nonces : List Bytes) (uncles : List Header) (reward : Int)
    (w after : World) (result : Except String Int) : Prop where
  sound : after.Sound
  sum : after.sumBalances db = w.sumBalances db +
    rewardedUncles sha3Bin numberOf parent nonces uncles * (blockReward * 15 / 16)
  nothing : rewardedUncles sha3Bin numberOf parent nonces uncles = 0 → after = w
  all : rewardedUncles sha3Bin numberOf parent nonces uncles = uncles.length →
    result = .ok (reward + uncles.length * (blockReward / 32))
  refused : rewardedUncles sha3Bin numberOf parent nonces uncles ≠ uncles.length →
    ∃ message, result = .error message

variable {sha3Bin numberOf parent} {db : Database} {w after : World} {block : Block}

theorem rewardsPaid {nonces : List Bytes} {uncles : List Header} {reward : Int}
    {result : Except String Int} (sound : w.Sound)
    (ran : rewardUncles sha3Bin numberOf parent db nonces reward w uncles = some (after, result)) :
    RewardsPaid sha3Bin numberOf parent db nonces uncles reward w after result := by
  induction uncles generalizing nonces reward w with
  | nil =>
      cases ran
      constructor
      case sound => exact sound
      case sum => simp [rewardedUncles]
      case nothing => exact fun _ => rfl
      case all => simp
      case refused => exact fun different => absurd rfl different
  | cons uncle uncles induction =>
      rw [rewardUncles] at ran
      cases verdict : uncleMessage sha3Bin numberOf parent nonces uncle with
      | some message =>
          rw [verdict] at ran
          cases ran
          have none : rewardedUncles sha3Bin numberOf parent nonces (uncle :: uncles) = 0 := by
            rw [rewardedUncles, verdict]
            rfl
          constructor
          case sound => exact sound
          case sum => simp [none]
          case nothing => exact fun _ => rfl
          case all => exact fun same => absurd (none.symm.trans same) (Nat.succ_ne_zero _).symm
          case refused => exact fun _ => ⟨message, rfl⟩
      | none =>
          rw [verdict] at ran
          obtain ⟨⟨account, loaded⟩, got, ran⟩ := Option.bind_eq_some_iff.mp ran
          obtain ⟨soundPaid, sumPaid⟩ :=
            World.sumBalances_credit sound (blockReward * 15 / 16) got
          have rest := induction soundPaid ran
          have one : rewardedUncles sha3Bin numberOf parent nonces (uncle :: uncles) =
              rewardedUncles sha3Bin numberOf parent (uncle.nonce :: nonces) uncles + 1 := by
            rw [rewardedUncles, if_pos verdict]
          constructor
          case sound => exact rest.sound
          case sum =>
              rw [rest.sum, sumPaid, one]
              push_cast
              ring
          case nothing => exact fun zero => absurd (one.symm.trans zero) (Nat.succ_ne_zero _)
          case all =>
              intro same
              rw [one, List.length_cons, Nat.add_right_cancel_iff] at same
              rw [rest.all same, List.length_cons]
              congr 1
              push_cast
              ring
          case refused =>
              intro different
              rw [one, List.length_cons, Ne, Nat.add_right_cancel_iff] at different
              exact rest.refused different

/-! ### All or nothing -/

/-- The first uncle is refused, or none is. -/
def FirstOrNone (sha3Bin : Bytes → Bytes) (numberOf : Bytes → Option Int) (parent block : Block) :
    Prop :=
  (∃ uncle ∈ block.uncles.head?, uncle.nonce = block.header.nonce ∨
      ¬Eligible sha3Bin numberOf parent uncle) ∨
    (block.header.nonce :: block.uncles.map Header.nonce).Nodup ∧
      ∀ uncle ∈ block.uncles, Eligible sha3Bin numberOf parent uncle

theorem rewardedUncles_eq_length_iff_nodup (block : Block) :
    rewardedUncles sha3Bin numberOf parent [block.header.nonce] block.uncles =
        block.uncles.length ↔
      (block.header.nonce :: block.uncles.map Header.nonce).Nodup ∧
        ∀ uncle ∈ block.uncles, Eligible sha3Bin numberOf parent uncle := by
  rw [rewardedUncles_eq_length_iff, List.nodup_cons, and_comm (b := (List.map _ _).Nodup)]
  simp [List.mem_map]

theorem rewardedUncles_eq_zero_iff (block : Block) :
    rewardedUncles sha3Bin numberOf parent [block.header.nonce] block.uncles = 0 ↔
      block.uncles = [] ∨ ∃ uncle ∈ block.uncles.head?, uncle.nonce = block.header.nonce ∨
        ¬Eligible sha3Bin numberOf parent uncle := by
  cases block.uncles with
  | nil => simp [rewardedUncles]
  | cons uncle uncles =>
      by_cases accepted :
          uncleMessage sha3Bin numberOf parent [block.header.nonce] uncle = none
      · rw [rewardedUncles, if_pos accepted]
        obtain ⟨new, eligible⟩ := (uncleMessage_eq_none_iff _ _ _ _ _).mp accepted
        rw [List.mem_singleton] at new
        simp [new, eligible]
      · rw [rewardedUncles, if_neg accepted]
        rw [uncleMessage_eq_none_iff, List.mem_singleton, not_and_or, not_not] at accepted
        simp [accepted]

/-- What `AccumelateRewards` returns: the error of the loop, or the world in which the coinbase
has its reward too. -/
theorem accumelateRewards_cases {message : Option String}
    (ran : accumelateRewards sha3Bin numberOf parent db block w = some (after, message)) :
    ∃ paid result, rewardUncles sha3Bin numberOf parent db [block.header.nonce] blockReward w
        block.uncles = some (paid, result) ∧
      ((∃ text, result = .error text ∧ message = some text ∧ after = paid) ∨
        ∃ reward account loaded, result = .ok reward ∧ message = none ∧
          paid.getOrNewStateObject db block.header.coinbase = some (account, loaded) ∧
          after = loaded.modify account (.addAmount reward)) := by
  obtain ⟨⟨paid, result⟩, loop, ran⟩ := Option.bind_eq_some_iff.mp ran
  refine ⟨paid, result, loop, ?_⟩
  cases result with
  | error text =>
      cases ran
      exact .inl ⟨text, rfl, rfl, rfl⟩
  | ok reward =>
      obtain ⟨⟨account, loaded⟩, got, ran⟩ := Option.bind_eq_some_iff.mp ran
      cases ran
      exact .inr ⟨reward, account, loaded, rfl, rfl, got, rfl⟩

theorem rewardedUncles_of_success (sound : w.Sound)
    (ran : accumelateRewards sha3Bin numberOf parent db block w = some (after, none)) :
    rewardedUncles sha3Bin numberOf parent [block.header.nonce] block.uncles =
      block.uncles.length := by
  obtain ⟨paid, result, loop, ⟨_, _, impossible, _⟩ | ⟨reward, account, loaded, rfl, _⟩⟩ :=
    accumelateRewards_cases ran
  · cases impossible
  · by_contra different
    obtain ⟨text, impossible⟩ := (rewardsPaid sound loop).refused different
    cases impossible

/-- Without an error the sum of all balances grows by the rewards. -/
theorem sumBalances_of_success (sound : w.Sound)
    (ran : accumelateRewards sha3Bin numberOf parent db block w = some (after, none)) :
    after.sumBalances db = w.sumBalances db +
      (blockReward + block.uncles.length * (blockReward * 15 / 16 + blockReward / 32)) := by
  have all := rewardedUncles_of_success sound ran
  obtain ⟨paid, result, loop, ⟨_, _, impossible, _⟩ | ⟨reward, account, loaded, rfl, _, got,
    rfl⟩⟩ :=
    accumelateRewards_cases ran
  · cases impossible
  · have paidEq := rewardsPaid sound loop
    cases paidEq.all all
    rw [(World.sumBalances_credit paidEq.sound _ got).2, paidEq.sum, all]
    ring

/-- With an error the balances are those before exactly when no uncle was rewarded. -/
theorem balances_of_error {text : String} (sound : w.Sound)
    (ran : accumelateRewards sha3Bin numberOf parent db block w = some (after, some text)) :
    rewardedUncles sha3Bin numberOf parent [block.header.nonce] block.uncles ≠
        block.uncles.length ∧
      ((∀ addr, after.balanceAt db addr = w.balanceAt db addr) ↔
        rewardedUncles sha3Bin numberOf parent [block.header.nonce] block.uncles = 0) := by
  obtain ⟨paid, result, loop, ⟨_, rfl, _, rfl⟩ | ⟨_, _, _, _, impossible, _⟩⟩ :=
    accumelateRewards_cases ran
  · have paidEq := rewardsPaid sound loop
    refine ⟨fun all => (nofun : Except.error _ ≠ Except.ok _) (paidEq.all all), ?_, ?_⟩
    · intro unchanged
      have sums : after.sumBalances db = w.sumBalances db :=
        Finset.sum_congr rfl fun addr _ => unchanged addr
      have paidSum := paidEq.sum
      have positive : (0 : Int) < blockReward * 15 / 16 := by decide
      rw [sums, left_eq_add, mul_eq_zero] at paidSum
      exact Int.natCast_eq_zero.mp (paidSum.resolve_right positive.ne')
    · intro zero addr
      rw [paidEq.nothing zero]
  · cases impossible

/-- Rewards are all or nothing exactly when the first uncle is refused or none is. -/
theorem rewards_all_or_nothing_iff (sha3Bin : Bytes → Bytes) (numberOf : Bytes → Option Int)
    (parent : Block) (db : Database) (block : Block) (w after : World) (message : Option String)
    (sound : w.Sound)
    (ran : accumelateRewards sha3Bin numberOf parent db block w = some (after, message)) :
    ((message = none →
        after.sumBalances db = w.sumBalances db +
            (blockReward + block.uncles.length * (blockReward * 15 / 16 + blockReward / 32)) ∧
          (block.header.nonce :: block.uncles.map Header.nonce).Nodup) ∧
      (message ≠ none → ∀ addr, after.balanceAt db addr = w.balanceAt db addr)) ↔
    FirstOrNone sha3Bin numberOf parent block := by
  cases message with
  | none =>
      have all := (rewardedUncles_eq_length_iff_nodup block).mp
        (rewardedUncles_of_success sound ran)
      apply iff_of_true
      · exact ⟨fun _ => ⟨sumBalances_of_success sound ran, all.1⟩, fun error => absurd rfl error⟩
      · exact .inr all
  | some text =>
      obtain ⟨notAll, unchanged_iff⟩ := balances_of_error sound ran
      rw [rewardedUncles_eq_zero_iff] at unchanged_iff
      constructor
      · intro claimed
        rcases unchanged_iff.mp (claimed.2 (Option.some_ne_none text)) with noUncles | first
        · rw [noUncles] at notAll
          exact absurd rfl notAll
        · exact .inl first
      · rintro (first | all)
        · refine ⟨fun success => absurd success (Option.some_ne_none text), fun _ => ?_⟩
          exact unchanged_iff.mpr (.inr first)
        · exact absurd ((rewardedUncles_eq_length_iff_nodup block).mpr all) notAll

end Rewards

/-! ### The block with an uncle -/

/-- The state before the first block. -/
def emptyWorld : World := .atRoot (.str [])

theorem sound_emptyWorld : emptyWorld.Sound where
  held found := by cases found

/-- The block and its uncle have the same coinbase. -/
theorem rewards_of_uncleBlock : ∃ after,
    accumelateRewards bareHash (fun _ => some 0) bareGenesis ∅ uncleBlock emptyWorld =
      some (after, none) ∧
    after.sumBalances ∅ = emptyWorld.sumBalances ∅ +
      (blockReward + 1 * (blockReward * 15 / 16 + blockReward / 32)) := by
  have success : (accumelateRewards bareHash (fun _ => some 0) bareGenesis ∅ uncleBlock
      emptyWorld).map Prod.snd = some none := by decide +kernel
  obtain ⟨⟨after, message⟩, ran, rfl⟩ := Option.map_eq_some_iff.mp success
  have accepted : FirstOrNone bareHash (fun _ => some 0) bareGenesis uncleBlock := by
    apply Or.inr
    refine ⟨by decide, ?_⟩
    intro uncle _
    exact ⟨⟨0, rfl, by decide⟩, List.not_mem_nil⟩
  exact ⟨after, ran,
    ((rewards_all_or_nothing_iff bareHash (fun _ => some 0) bareGenesis ∅ uncleBlock
    emptyWorld after none sound_emptyWorld ran).mpr accepted).1 rfl |>.1⟩

/-- The block with its uncle twice: the second one is refused, and the first one has its reward. -/
theorem refused_uncle_after_reward :
    (accumelateRewards bareHash (fun _ => some 0) bareGenesis ∅
        { uncleBlock with uncles := [bareUncle, bareUncle] } emptyWorld).map
      (fun result => (result.2, result.1.balanceAt ∅ (address [0]))) =
        some (some "Uncle not unique", blockReward * 15 / 16) ∧
    emptyWorld.balanceAt ∅ (address [0]) = 0 := by
  constructor
  · decide +kernel
  · decide +kernel

end Thelonious
