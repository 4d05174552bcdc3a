import Thelonious.Chain.EthModel

/-!
# Taking turns

Under the consensus "robin" the miners of a linked list take turns.  `RoundRobinDifficulty`
looks for the coinbase from the miner on whose turn it is: it compares and then advances.
`Participate` advances and then compares, so that the miner on whose turn it is comes last.
-/

namespace Thelonious

/-- `ZeroHash256` -/
def zeroHash256 : Bytes := List.replicate 32 0

/-- What `StdLibModel` reads of a state: single values, and the linked list `seq:name`. -/
structure StdLibState where
  consensus : String
  blocktime : Int
  linkedListLength : Nat
  linkedListHead : Bytes
  nextLinkedListElement : Bytes → Bytes

namespace StdLibState

variable (state : StdLibState)

/-- `nextCoinbase`; `Mod` panics when there are no miners. -/
def nextCoinbase (prevblock : Header) : Option Bytes :=
  if prevblock.prevHash ≠ zeroHash256 then
    if state.linkedListLength = 0 then none
    else
      let n := (prevblock.number % state.linkedListLength).toNat
      some (state.nextLinkedListElement^[n] state.linkedListHead)
  else some state.linkedListHead

/-- The loop of `RoundRobinDifficulty`, with `rest` turns left. -/
def compareThenAdvance (coinbase : Bytes) : (rest i : Nat) → (next : Bytes) → Nat
  | 0, i, _ => i
  | rest + 1, i, next =>
      if next = coinbase then i
      else compareThenAdvance coinbase rest (i + 1) (state.nextLinkedListElement next)

/-- The loop of `Participate`. -/
def advanceThenCompare (coinbase : Bytes) : (rest i : Nat) → (next : Bytes) → Nat
  | 0, i, _ => i
  | rest + 1, i, next =>
      if state.nextLinkedListElement next = coinbase then i
      else advanceThenCompare coinbase rest (i + 1) (state.nextLinkedListElement next)

/-- The position that `RoundRobinDifficulty` finds. -/
def robinPosition (coinbase : Bytes) (parent : Header) : Option Nat :=
  (state.nextCoinbase parent).map (state.compareThenAdvance coinbase state.linkedListLength 0)

/-- The distance that `Participate` finds. -/
def participateDistance (coinbase : Bytes) (parent : Header) : Option Nat :=
  (state.nextCoinbase parent).map (state.advanceThenCompare coinbase state.linkedListLength 0)

/-- `Participate` at the time `cur`; the time that has gone by is divided by the block time. -/
def participate (adversary : Int) (coinbase : Bytes) (parent : Header) (cur : Int) :
    Option Bool :=
  if adversary ≠ 0 then some true
  else if state.consensus ≠ "robin" then some true
  else do
    let i ← state.participateDistance coinbase parent
    if i ≤ state.linkedListLength / 2 then return true
    else if state.blocktime = 0 then none
    else
      let mDiff := i - state.linkedListLength / 2
      let tDiff := (int64 (cur - parent.time)).tdiv state.blocktime
      return decide (tDiff > mDiff)

end StdLibState

/-- The miner at a position, counted around the list. -/
def minerAt (miners : List Bytes) (position : Nat) : Bytes :=
  miners.getD (position % miners.length) []

/-- The functions of the library return the length, the first element and the successor, after
the last element the first one again. -/
structure StdLibState.Lists (state : StdLibState) (miners : List Bytes) : Prop where
  length : state.linkedListLength = miners.length
  head : state.linkedListHead = minerAt miners 0
  next : ∀ position,
    state.nextLinkedListElement (minerAt miners position) = minerAt miners (position + 1)

section Miners

variable {state : StdLibState} {miners : List Bytes}

theorem minerAt_mod (position : Nat) :
    minerAt miners (position % miners.length) = minerAt miners position := by
  rw [minerAt, minerAt, Nat.mod_mod]

theorem exists_minerAt {coinbase : Bytes} (member : coinbase ∈ miners) :
    ∃ position < miners.length, minerAt miners position = coinbase := by
  obtain ⟨position, inside, found⟩ := List.mem_iff_getElem.mp member
  refine ⟨position, inside, ?_⟩
  rw [minerAt, Nat.mod_eq_of_lt inside, List.getD_eq_getElem _ _ inside, found]

theorem minerAt_inj (nodup : miners.Nodup) (nonempty : miners ≠ []) {left right : Nat}
    (same : minerAt miners left = minerAt miners right) :
    left % miners.length = right % miners.length := by
  have positive := List.length_pos_iff.mpr nonempty
  have leftInside := Nat.mod_lt left positive
  have rightInside := Nat.mod_lt right positive
  rw [minerAt, minerAt, List.getD_eq_getElem _ _ leftInside,
    List.getD_eq_getElem _ _ rightInside] at same
  exact nodup.getElem_inj_iff.mp same

theorem StdLibState.Lists.iterate (lists : state.Lists miners) (position steps : Nat) :
    state.nextLinkedListElement^[steps] (minerAt miners position) =
      minerAt miners (position + steps) := by
  induction steps generalizing position with
  | zero => rfl
  | succ steps induction =>
      rw [Function.iterate_succ_apply, lists.next, induction, Nat.add_right_comm, Nat.add_assoc]

theorem StdLibState.Lists.exists_nextCoinbase (lists : state.Lists miners)
    (nonempty : miners ≠ []) (parent : Header) :
    ∃ turn, state.nextCoinbase parent = some (minerAt miners turn) := by
  have positive := List.length_pos_iff.mpr nonempty
  unfold nextCoinbase
  split
  · rw [if_neg (by rw [lists.length]; omega), lists.head]
    exact ⟨_, congrArg some (lists.iterate 0 _)⟩
  · exact ⟨0, by rw [lists.head]⟩

/-- To advance first is to begin at the successor. -/
theorem advanceThenCompare_eq (coinbase : Bytes) (rest i : Nat) (next : Bytes) :
    state.advanceThenCompare coinbase rest i next =
      state.compareThenAdvance coinbase rest i (state.nextLinkedListElement next) := by
  induction rest generalizing i next with
  | zero => rfl
  | succ rest induction =>
      rw [StdLibState.advanceThenCompare, StdLibState.compareThenAdvance, induction]

/-- The search ends after as many steps as the coinbase is away. -/
theorem StdLibState.Lists.compareThenAdvance_eq (lists : state.Lists miners)
    (nodup : miners.Nodup) (nonempty : miners ≠ []) (turn : Nat) {steps rest : Nat} (i : Nat)
    (inside : steps < rest) (atMost : steps < miners.length) :
    state.compareThenAdvance (minerAt miners (turn + steps)) rest i (minerAt miners turn) =
      i + steps := by
  induction steps generalizing rest turn i with
  | zero =>
      obtain ⟨less, rfl⟩ : ∃ less, rest = less + 1 := ⟨rest - 1, by omega⟩
      rw [StdLibState.compareThenAdvance, Nat.add_zero, if_pos rfl, Nat.add_zero]
  | succ steps induction =>
      obtain ⟨less, rfl⟩ : ∃ less, rest = less + 1 := ⟨rest - 1, by omega⟩
      have different : minerAt miners turn ≠ minerAt miners (turn + (steps + 1)) := by
        intro same
        have equal := minerAt_inj nodup nonempty same
        have divides := (Nat.modEq_iff_dvd' (Nat.le_add_right turn (steps + 1))).mp equal
        rw [Nat.add_sub_cancel_left] at divides
        exact absurd (Nat.le_of_dvd (Nat.succ_pos steps) divides) (by omega)
      rw [StdLibState.compareThenAdvance, if_neg different, lists.next,
        show turn + (steps + 1) = turn + 1 + steps by omega,
        induction (turn + 1) (i + 1) (by omega) (by omega)]
      omega

theorem exists_steps {coinbase : Bytes} (member : coinbase ∈ miners) (turn : Nat) :
    ∃ steps < miners.length, minerAt miners (turn + steps) = coinbase := by
  obtain ⟨position, inside, found⟩ := exists_minerAt member
  have turnInside := Nat.mod_lt turn (by omega : 0 < miners.length)
  refine ⟨(position + miners.length - turn % miners.length) % miners.length,
    Nat.mod_lt _ (by omega), ?_⟩
  rw [← found, ← minerAt_mod, Nat.add_mod_mod, ← Nat.mod_add_mod,
    show turn % miners.length + (position + miners.length - turn % miners.length) =
      position + miners.length by omega, Nat.add_mod_right, minerAt_mod]

/-- Both positions, from the same turn: `Participate` is one behind, around the list. -/
theorem StdLibState.Lists.positions (lists : state.Lists miners) (nodup : miners.Nodup)
    {coinbase : Bytes} (member : coinbase ∈ miners) (parent : Header) :
    ∃ steps < miners.length, state.robinPosition coinbase parent = some steps ∧
      state.participateDistance coinbase parent =
        some ((steps + miners.length - 1) % miners.length) := by
  have nonempty := List.ne_nil_of_mem member
  have positive := List.length_pos_iff.mpr nonempty
  obtain ⟨turn, turnEq⟩ := lists.exists_nextCoinbase nonempty parent
  obtain ⟨steps, inside, rfl⟩ := exists_steps member turn
  refine ⟨steps, inside, ?_, ?_⟩
  · rw [robinPosition, turnEq, Option.map_some, lists.length,
      lists.compareThenAdvance_eq nodup nonempty turn 0 inside inside, Nat.zero_add]
  · rw [participateDistance, turnEq, Option.map_some, lists.length, advanceThenCompare_eq,
      lists.next]
    have behind := Nat.mod_lt (steps + miners.length - 1) positive
    have same : minerAt miners (turn + steps) =
        minerAt miners (turn + 1 + (steps + miners.length - 1) % miners.length) := by
      rw [← minerAt_mod, ← minerAt_mod (turn + 1 + _), Nat.add_mod_mod,
        show turn + 1 + (steps + miners.length - 1) = turn + steps + miners.length by omega,
        Nat.add_mod_right]
    rw [same, lists.compareThenAdvance_eq nodup nonempty (turn + 1) 0 behind behind, Nat.zero_add]

end Miners

/-- The two loops find the same position, and the miner on whose turn it is may mine, exactly
when there is only one miner. -/
theorem participate_matches_difficulty_iff (state : StdLibState) (miners : List Bytes)
    (nodup : miners.Nodup) (lists : state.Lists miners) (robin : state.consensus = "robin")
    (parent : Header) (coinbase : Bytes) (member : coinbase ∈ miners) (cur : Int) :
    (state.participateDistance coinbase parent = state.robinPosition coinbase parent ∧
      (state.robinPosition coinbase parent = some 0 →
        state.participate 0 coinbase parent cur = some true)) ↔ miners.length = 1 := by
  obtain ⟨steps, inside, position, distance⟩ := lists.positions nodup member parent
  rw [distance, position]
  constructor
  · rintro ⟨same, -⟩
    have equal := Option.some.inj same
    by_contra several
    rcases Nat.eq_zero_or_pos steps with rfl | positive
    · rw [Nat.mod_eq_of_lt (by omega)] at equal
      omega
    · rw [show steps + miners.length - 1 = steps - 1 + miners.length by omega, Nat.add_mod_right,
        Nat.mod_eq_of_lt (by omega)] at equal
      omega
  · intro alone
    have zero : (steps + miners.length - 1) % miners.length = 0 := by
      rw [alone, Nat.mod_one]
    constructor
    · rw [zero, show steps = 0 by omega]
    · intro _
      rw [StdLibState.participate, if_neg (by simp), if_neg (by simp [robin]), distance, zero]
      simp

/-- A list of miners as the library shows it. -/
def listState (miners : List Bytes) : StdLibState where
  consensus := "robin"
  blocktime := 10
  linkedListLength := miners.length
  linkedListHead := minerAt miners 0
  nextLinkedListElement := fun element => minerAt miners (miners.idxOf element + 1)

theorem lists_listState {miners : List Bytes} (nodup : miners.Nodup) (nonempty : miners ≠ []) :
    (listState miners).Lists miners where
  length := rfl
  head := rfl
  next := by
    intro position
    have inside := Nat.mod_lt position (List.length_pos_iff.mpr nonempty)
    have index : miners.idxOf (minerAt miners position) = position % miners.length := by
      rw [minerAt, List.getD_eq_getElem _ _ inside, nodup.idxOf_getElem]
    change minerAt miners (miners.idxOf (minerAt miners position) + 1) = _
    rw [index, ← minerAt_mod, Nat.mod_add_mod, minerAt_mod]

/-- The genesis block, as far as the turns depend on it. -/
def robinGenesis : Header :=
  ⟨zeroHash256, [], [], .str [], [], 2 ^ 20, 0, 0, 0, 0, 1000, [], []⟩

/-- A miner who is alone. -/
theorem participate_alone :
    ((listState [[1]]).participateDistance [1] robinGenesis =
        (listState [[1]]).robinPosition [1] robinGenesis ∧
      ((listState [[1]]).robinPosition [1] robinGenesis = some 0 →
        (listState [[1]]).participate 0 [1] robinGenesis 1000 = some true)) ∧
    (listState [[1]]).robinPosition [1] robinGenesis = some 0 :=
  ⟨(participate_matches_difficulty_iff (listState [[1]]) [[1]] (by decide)
    (lists_listState (by decide) (by decide)) rfl robinGenesis [1] (by decide) 1000).mpr rfl,
    by decide⟩

/-- Of three miners the first one is on turn, and may not mine. -/
theorem participate_refuses_turn :
    (listState [[1], [2], [3]]).Lists [[1], [2], [3]] ∧
    (listState [[1], [2], [3]]).nextCoinbase robinGenesis = some [1] ∧
    (listState [[1], [2], [3]]).robinPosition [1] robinGenesis = some 0 ∧
    (listState [[1], [2], [3]]).participateDistance [1] robinGenesis = some 2 ∧
    (listState [[1], [2], [3]]).participate 0 [1] robinGenesis 1000 = some false :=
  ⟨lists_listState (by decide) (by decide), by decide, by decide, by decide, by decide⟩

/-- While the list of miners stays the same, each of them is on turn exactly once in as many
consecutive blocks as there are miners. -/
theorem robin_turns_fair (state : StdLibState) (miners : List Bytes) (nodup : miners.Nodup)
    (lists : state.Lists miners) (parents : Nat → Header) (first : Nat)
    (numbers : ∀ k, (parents k).number = (first + k : Nat))
    (ordinary : ∀ k, (parents k).prevHash ≠ zeroHash256) (coinbase : Bytes)
    (member : coinbase ∈ miners) :
    ∃! k, k < miners.length ∧ state.robinPosition coinbase (parents k) = some 0 := by
  have nonempty := List.ne_nil_of_mem member
  have onTurn (k : Nat) : state.robinPosition coinbase (parents k) = some 0 ↔
      minerAt miners (first + k) = coinbase := by
    obtain ⟨steps, inside, rfl⟩ := exists_steps member (first + k)
    have turn : ((parents k).number % state.linkedListLength).toNat =
        (first + k) % miners.length := by
      rw [numbers, lists.length, ← Int.natCast_emod, Int.toNat_natCast]
    rw [StdLibState.robinPosition, StdLibState.nextCoinbase, if_pos (ordinary k), turn,
      lists.length, if_neg (by omega), lists.head]
    simp only [lists.iterate, Nat.zero_add, minerAt_mod, Option.map_some]
    rw [lists.compareThenAdvance_eq nodup nonempty _ 0 inside inside, Nat.zero_add,
      Option.some.injEq]
    constructor
    · rintro rfl
      rfl
    · intro same
      have equal : first + k + 0 ≡ first + k + steps [MOD miners.length] :=
        minerAt_inj nodup nonempty same
      exact ((equal.add_left_cancel' _).eq_of_lt_of_lt (by omega) inside).symm
  obtain ⟨k, inside, found⟩ := exists_steps member first
  refine ⟨k, ⟨inside, (onTurn k).mpr found⟩, fun other ⟨less, zero⟩ => ?_⟩
  have equal : first + other ≡ first + k [MOD miners.length] :=
    minerAt_inj nodup nonempty (((onTurn other).mp zero).trans found.symm)
  exact (equal.add_left_cancel' _).eq_of_lt_of_lt less inside

/-- The second of three miners, from the block with the number 5 on. -/
theorem robin_turns_three : ∃! k, k < 3 ∧ (listState [[1], [2], [3]]).robinPosition [2]
    { robinGenesis with prevHash := [], number := (5 + k : Nat) } = some 0 :=
  robin_turns_fair _ [[1], [2], [3]] (by decide) (lists_listState (by decide) (by decide))
    (fun k => { robinGenesis with prevHash := [], number := (5 + k : Nat) }) 5 (fun _ => rfl)
    (fun _ => by simp [zeroHash256]) [2] (by decide)

end Thelonious
