import Thelonious.Util.Plain
import Thelonious.Util.RlpBounds
import Thelonious.Vm.Copying

/-!
# Memory and its gas

The gas phase of `RunClosure` predicts how far an instruction extends the memory, and
`Memory.Set` makes room for what is written without asking.  The prediction covers
the write as long as a write of no bytes stays inside the memory, the RLP instructions
have the room they need, and the operands are no negative or huge numbers.
-/

namespace Thelonious

theorem Memory.length_set_of_le {store after value : Bytes} {offset size : Int}
    (written : Memory.set store offset size value = some after)
    (room : int64 (offset + size) ≤ store.length) : after.length = store.length := by
  obtain ⟨lengthEq, -, -⟩ := length_set written
  rw [lengthEq]
  omega

theorem Memory.length_set_within {store after value : Bytes} {offset size : Int}
    (written : Memory.set store offset size value = some after) (least : -2 ^ 63 ≤ size)
    (room : offset + size ≤ store.length) : after.length = store.length := by
  obtain ⟨-, nonneg, -⟩ := length_set written
  exact length_set_of_le written ((int64_le (by omega)).trans room)

/-- A region of the memory in the range of `int64`. -/
def Region (off size : Int) : Prop := 0 ≤ off ∧ 0 ≤ size ∧ off + size < 2 ^ 63

instance (off size : Int) : Decidable (Region off size) :=
  inferInstanceAs (Decidable (_ ∧ _ ∧ _))

namespace Locals

/-- The prediction of the gas phase covers what the instruction writes: its operands are a
region, a write of no bytes is inside the memory, and so is everything that the RLP
instructions may write. -/
def covers (l : Locals) (op : OpCode) : Bool :=
  match op, l.stack with
  | .mstore, off :: _ | .mload, off :: _ => decide (Region off 32)
  | .mstore8, off :: _ => decide (Region off 1)
  | .return, off :: size :: _ | .sha3, off :: size :: _ | .create, _ :: off :: size :: _ =>
      decide (Region off size)
  | .calldatacopy, mOff :: _ :: len :: _ | .codecopy, mOff :: _ :: len :: _
  | .extcodecopy, _ :: mOff :: _ :: len :: _ =>
      decide (Region mOff len ∧ (len = 0 → mOff ≤ l.mem.length))
  | .call, _ :: _ :: _ :: inOff :: inSize :: retOff :: retSize :: _
  | .callstateless, _ :: _ :: _ :: inOff :: inSize :: retOff :: retSize :: _ =>
      decide (Region inOff inSize ∧ Region retOff retSize ∧ (retSize = 0 → retOff ≤ l.mem.length))
  | .rlpdecode, _ :: size :: pos :: _ =>
      decide (0 ≤ size ∧ 0 ≤ pos ∧ pos + 32 * (3 * size + 1) ≤ l.mem.length)
  | .rlpencode, _ :: count :: pos :: _ =>
      decide (0 ≤ count ∧ 0 ≤ pos ∧ pos + (33 * count + 9) ≤ l.mem.length)
  | _, _ => true

variable {l : Locals} {gas newMemSize : Int}

theorem calcMemSize_nonneg {off size : Int} (region : Region off size) :
    0 ≤ calcMemSize off size := by
  obtain ⟨offNonneg, sizeNonneg, -⟩ := region
  unfold calcMemSize
  split <;> omega

/-! ### The operands of the gas phase -/

theorem stack_of_third {stack : List Int} {top third : Int} (first : stack[0]? = some top)
    (last : stack[2]? = some third) : ∃ second rest, stack = top :: second :: third :: rest := by
  rcases stack with _ | ⟨a, _ | ⟨b, _ | ⟨c, rest⟩⟩⟩
  · cases first
  · cases last
  · cases last
  · cases first
    cases last
    exact ⟨b, rest, rfl⟩

variable {op : OpCode} {items : List Value}

theorem cost_copy (isCopy : op = .calldatacopy ∨ op = .codecopy)
    (costs : l.cost op = some (gas, newMemSize)) :
    ∃ mOff cOff len rest, l.stack = mOff :: cOff :: len :: rest ∧
      newMemSize = calcMemSize mOff len := by
  rcases isCopy with rfl | rfl
  all_goals
    obtain ⟨mOff, first, costs⟩ := Option.bind_eq_some_iff.mp costs
    obtain ⟨len, last, costs⟩ := Option.bind_eq_some_iff.mp costs
    obtain ⟨cOff, rest, stack⟩ := stack_of_third first last
    cases costs
    exact ⟨mOff, cOff, len, rest, stack, rfl⟩

theorem cost_extcodecopy (costs : l.cost .extcodecopy = some (gas, newMemSize)) :
    ∃ addr mOff cOff len rest, l.stack = addr :: mOff :: cOff :: len :: rest ∧
      newMemSize = calcMemSize mOff len := by
  obtain ⟨mOff, first, costs⟩ := Option.bind_eq_some_iff.mp costs
  obtain ⟨len, last, costs⟩ := Option.bind_eq_some_iff.mp costs
  cases costs
  cases stackEq : l.stack with
  | nil => simp [stackEq] at first
  | cons addr below =>
      rw [stackEq] at first last
      obtain ⟨cOff, rest, rfl⟩ := stack_of_third first last
      exact ⟨addr, mOff, cOff, len, rest, rfl, rfl⟩

theorem cost_create (costs : l.cost .create = some (gas, newMemSize)) :
    ∃ value off size rest, l.stack = value :: off :: size :: rest ∧
      newMemSize = calcMemSize off size := by
  obtain ⟨off, first, costs⟩ := Option.bind_eq_some_iff.mp costs
  obtain ⟨size, last, costs⟩ := Option.bind_eq_some_iff.mp costs
  cases costs
  rcases stackEq : l.stack with _ | ⟨value, _ | ⟨a, _ | ⟨b, rest⟩⟩⟩
  · simp [stackEq] at first
  · simp [stackEq] at first
  · simp [stackEq] at last
  · rw [stackEq] at first last
    obtain rfl := Option.some.inj first
    obtain rfl := Option.some.inj last
    exact ⟨value, a, b, rest, rfl, rfl⟩

theorem cost_of_call (isCall : op = .call ∨ op = .callstateless)
    (costs : l.cost op = some (gas, newMemSize)) :
    ∃ offer addr value inOff inSize retOff retSize rest,
      l.stack = offer :: addr :: value :: inOff :: inSize :: retOff :: retSize :: rest ∧
      newMemSize = max (calcMemSize retOff retSize) (calcMemSize inOff inSize) := by
  rcases isCall with rfl | rfl
  all_goals
    obtain ⟨offer, first, costs⟩ := Option.bind_eq_some_iff.mp costs
    obtain ⟨inOff, second, costs⟩ := Option.bind_eq_some_iff.mp costs
    obtain ⟨inSize, third, costs⟩ := Option.bind_eq_some_iff.mp costs
    obtain ⟨retOff, fourth, costs⟩ := Option.bind_eq_some_iff.mp costs
    obtain ⟨retSize, last, costs⟩ := Option.bind_eq_some_iff.mp costs
    obtain ⟨-, rfl⟩ := Prod.mk.inj (Option.some.inj costs)
    rcases stackEq : l.stack with
      _ | ⟨a, _ | ⟨b, _ | ⟨c, _ | ⟨d, _ | ⟨e, _ | ⟨f, _ | ⟨g, rest⟩⟩⟩⟩⟩⟩⟩
    iterate 7 simp [stackEq] at last
    rw [stackEq] at first second third fourth last
    obtain rfl := Option.some.inj first
    obtain rfl := Option.some.inj second
    obtain rfl := Option.some.inj third
    obtain rfl := Option.some.inj fourth
    obtain rfl := Option.some.inj last
    exact ⟨a, b, c, d, e, f, g, rest, rfl, rfl⟩

/-- The items of a list are in the bytes that are decoded. -/
theorem length_rlpItems (decoded : l.rlpItems = some items) :
    ∃ offset size rest, l.stack = offset :: size :: rest ∧ (0 ≤ size → items.length ≤ size) := by
  obtain ⟨⟨size, offset, rest⟩, popped, decoded⟩ := Option.bind_eq_some_iff.mp decoded
  obtain ⟨rawrlp, got, decoded⟩ := Option.bind_eq_some_iff.mp decoded
  obtain ⟨⟨value, next⟩, read, decoded⟩ := Option.bind_eq_some_iff.mp decoded
  refine ⟨offset, size, rest, popn_eq_some popped, ?_⟩
  intro nonneg
  have short := Memory.length_get_le got nonneg
  dsimp only at decoded
  split at decoded
  · cases decoded
    have few := length_of_decode_list read
    omega
  · cases decoded

theorem cost_rlpdecode (costs : l.cost .rlpdecode = some (gas, newMemSize)) :
    ∃ items offset size pos rest, l.rlpItems = some items ∧
      l.stack = offset :: size :: pos :: rest ∧ (0 ≤ size → items.length ≤ size) ∧
      newMemSize = calcMemSize pos (32 * items.length) := by
  obtain ⟨items, decoded, costs⟩ := Option.bind_eq_some_iff.mp costs
  obtain ⟨pos, third, costs⟩ := Option.bind_eq_some_iff.mp costs
  cases costs
  obtain ⟨offset, size, rest, stack, few⟩ := length_rlpItems decoded
  rw [stack] at third
  cases rest with
  | nil => simp at third
  | cons other rest =>
      obtain rfl := Option.some.inj third
      exact ⟨items, offset, size, other, rest, decoded, stack, few, rfl⟩

theorem newMemSize_nonneg (covered : l.covers op = true)
    (costs : l.cost op = some (gas, newMemSize)) : 0 ≤ newMemSize := by
  cases op with
  | mstore | mstore8 | «return» | sha3 =>
      obtain ⟨⟨second, top, rest⟩, popped, costs⟩ := Option.bind_eq_some_iff.mp costs
      cases costs
      simp only [covers, popn_eq_some popped] at covered
      exact calcMemSize_nonneg (of_decide_eq_true covered)
  | mload =>
      obtain ⟨⟨top, rest⟩, popped, costs⟩ := Option.bind_eq_some_iff.mp costs
      cases costs
      simp only [covers, pop_eq_some popped] at covered
      exact calcMemSize_nonneg (of_decide_eq_true covered)
  | calldatacopy | codecopy =>
      obtain ⟨mOff, cOff, len, rest, stack, rfl⟩ := cost_copy (by simp) costs
      simp only [covers, stack] at covered
      exact calcMemSize_nonneg (of_decide_eq_true covered).1
  | extcodecopy =>
      obtain ⟨addr, mOff, cOff, len, rest, stack, rfl⟩ := cost_extcodecopy costs
      simp only [covers, stack] at covered
      exact calcMemSize_nonneg (of_decide_eq_true covered).1
  | create =>
      obtain ⟨value, off, size, rest, stack, rfl⟩ := cost_create costs
      simp only [covers, stack] at covered
      exact calcMemSize_nonneg (of_decide_eq_true covered)
  | call | callstateless =>
      obtain ⟨offer, addr, value, inOff, inSize, retOff, retSize, rest, stack, rfl⟩ :=
        cost_of_call (by simp) costs
      simp only [covers, stack] at covered
      exact le_max_of_le_left (calcMemSize_nonneg (of_decide_eq_true covered).2.1)
  | rlpdecode =>
      obtain ⟨items, offset, size, pos, rest, -, stack, -, rfl⟩ := cost_rlpdecode costs
      simp only [covers, stack] at covered
      obtain ⟨-, posNonneg, -⟩ := of_decide_eq_true covered
      unfold calcMemSize
      split <;> omega
  | rlpencode =>
      obtain ⟨pos, -, costs⟩ := Option.bind_eq_some_iff.mp costs
      cases costs
      exact le_rfl
  | _ =>
      cases costs
      exact le_rfl

/-! ### What is written -/

theorem length_writeItems {start chunkStart : Int} {i : Nat} {mem after : Bytes}
    (written : writeItems start chunkStart items i mem = some after) (startLeast : -2 ^ 63 ≤ start)
    (chunkLeast : -2 ^ 63 ≤ chunkStart)
    (heads : start + 32 * (2 * (i + items.length) + 1) ≤ mem.length)
    (chunks : chunkStart + 32 * (i + items.length) ≤ mem.length) : after.length = mem.length := by
  induction items generalizing i mem with
  | nil =>
      cases written
      rfl
  | cons item items hypothesis =>
      rw [List.length_cons] at heads chunks
      rw [writeItems] at written
      split at written
      · cases written
      · obtain ⟨first, firstEq, written⟩ := Option.bind_eq_some_iff.mp written
        obtain ⟨second, secondEq, written⟩ := Option.bind_eq_some_iff.mp written
        obtain ⟨third, thirdEq, written⟩ := Option.bind_eq_some_iff.mp written
        have firstPos := int64_le (show -2 ^ 63 ≤ start + 32 * (2 * i + 1) by omega)
        have secondPos := int64_le (show -2 ^ 63 ≤ start + 32 * (2 * i + 2) by omega)
        have thirdPos := int64_le (show -2 ^ 63 ≤ chunkStart + 32 * i by omega)
        have firstLength := Memory.length_set_within firstEq (by decide) (by omega)
        have secondLength := Memory.length_set_within secondEq (by decide) (by omega)
        have thirdLength := Memory.length_set_within thirdEq (by decide) (by omega)
        rw [hypothesis written (by push_cast; omega) (by push_cast; omega)]
        omega

/-- The items that `RLPENCODE` reads are words, or parts of words. -/
theorem length_readItems {mem : Bytes} {start : Int} {left i : Nat}
    (read : readItems mem start left i = some items) : (encodeItems items).length ≤ 33 * left := by
  induction left generalizing i items with
  | zero =>
      cases read
      simp [encodeItems]
  | succ left hypothesis =>
      obtain ⟨pointer, -, read⟩ := Option.bind_eq_some_iff.mp read
      obtain ⟨lentype, -, read⟩ := Option.bind_eq_some_iff.mp read
      dsimp only at read
      split at read
      · cases read
      · obtain ⟨b, bEq, read⟩ := Option.bind_eq_some_iff.mp read
        have word : (b.length : Int) ≤ 32 := Memory.length_get_le bEq (by decide)
        obtain ⟨item, others, short, othersEq, rfl⟩ : ∃ item others, item.length ≤ 32 ∧
            readItems mem start left (i + 1) = some others ∧ items = .bytes item :: others := by
          split at read
          · obtain ⟨item, itemEq, read⟩ := Option.bind_eq_some_iff.mp read
            cases itemEq
            obtain ⟨others, othersEq, read⟩ := Option.bind_eq_some_iff.mp read
            exact ⟨b, others, by omega, othersEq, (Option.some.inj read).symm⟩
          · split at read
            · obtain ⟨item, itemEq, read⟩ := Option.bind_eq_some_iff.mp read
              obtain rfl := Option.some.inj itemEq
              obtain ⟨others, othersEq, read⟩ := Option.bind_eq_some_iff.mp read
              refine ⟨_, others, ?_, othersEq, (Option.some.inj read).symm⟩
              rw [List.length_drop]
              omega
            · cases read
        have header : (encodeBytes item).length ≤ item.length + 1 := by
          unfold encodeBytes
          split
          · omega
          · rw [if_pos (by omega), List.length_cons]
        have few := hypothesis othersEq
        simp only [encodeItems, encode, List.length_append]
        omega

theorem int64_of_encoded {count pos : Int} {size : Nat} (nonneg : 0 ≤ pos)
    (few : (encodeItems items).length ≤ 33 * count) (room : pos + (33 * count + 9) ≤ size) :
    int64 (int64 pos + (encode (.list items)).length) ≤ size := by
  have least := le_int64 pos
  have most : int64 pos ≤ pos := int64_le (by omega)
  have stop := int64_lt (int64 pos + (encode (.list items)).length)
  by_cases fits : (encodeItems items).length < 2 ^ 64
  · have header := length_sliceHeader_le fits
    have total :=
      int64_le (show -2 ^ 63 ≤ int64 pos + ((encode (.list items)).length : Int) by omega)
    have lengthEq : (encode (.list items)).length =
        (sliceHeader (encodeItems items).length).length + (encodeItems items).length := by
      rw [encode, List.length_append]
    omega
  · omega

theorem Does.mem_eq {outcome : Outcome} {locals : Locals} (does : l.Does op outcome)
    (quiet : ¬ op.Writes) (goes : outcome.Goes locals) : locals.mem = l.mem := by
  cases does with
  | compute stack width =>
      obtain rfl := goes
      rfl
  | push width stack isPush =>
      obtain rfl := goes
      rfl
  | write stack mem writes width => exact absurd writes quiet
  | jump pos stack isJump =>
      obtain rfl := goes
      rfl
  | halt ret => exact goes.elim

section Writes

variable {outcome : Outcome} {locals : Locals} {rest : List Int}

theorem length_copyFrom {source : Bytes} {mOff cOff len : Int}
    (executed : l.copyFrom source = some outcome) (goes : outcome.Goes locals)
    (stack : l.stack = mOff :: cOff :: len :: rest) (region : Region mOff len)
    (room : mOff + len ≤ l.mem.length) : locals.mem.length = l.mem.length := by
  obtain ⟨mOff', cOff', len', rest', mem, stackEq, -, set, rfl⟩ := copyFrom_cases executed
  obtain ⟨rfl, rfl, rfl, rfl⟩ : mOff = mOff' ∧ cOff = cOff' ∧ len = len' ∧ rest = rest' := by
    simpa [stack] using stackEq
  obtain rfl := goes
  obtain ⟨offNonneg, lenNonneg, -⟩ := region
  have offLe : int64 mOff ≤ mOff := int64_le (by omega)
  have lenLe : int64 len ≤ len := int64_le (by omega)
  have lenLeast := le_int64 len
  have clipped : -2 ^ 63 ≤ (clip source.length cOff len).2 ∧
      (clip source.length cOff len).2 ≤ len := by
    unfold clip
    split
    · dsimp only
      omega
    · split
      · dsimp only
        omega
      · exact ⟨lenLeast, lenLe⟩
  exact Memory.length_set_within set clipped.1 (by omega)

theorem length_rlpDecode {offset size pos : Int} (executed : l.rlpDecode = some outcome)
    (goes : outcome.Goes locals) (stack : l.stack = offset :: size :: pos :: rest)
    (sizeNonneg : 0 ≤ size) (posNonneg : 0 ≤ pos)
    (room : pos + 32 * (3 * size + 1) ≤ l.mem.length) : locals.mem.length = l.mem.length := by
  obtain ⟨items, decoded, executed⟩ := Option.bind_eq_some_iff.mp executed
  obtain ⟨⟨size', offset', below⟩, popped, executed⟩ := Option.bind_eq_some_iff.mp executed
  obtain ⟨⟨pos', last⟩, third, executed⟩ := Option.bind_eq_some_iff.mp executed
  obtain ⟨headed, headedEq, executed⟩ := Option.bind_eq_some_iff.mp executed
  obtain ⟨mem, memEq, executed⟩ := Option.bind_eq_some_iff.mp executed
  cases executed
  obtain rfl := goes
  rw [stack] at popped
  obtain ⟨rfl, both⟩ := Prod.mk.inj (Option.some.inj popped)
  cases both
  cases third
  obtain ⟨offset', size', rest', stackEq, few⟩ := length_rlpItems decoded
  obtain ⟨rfl, rfl, rfl⟩ : offset = offset' ∧ size = size' ∧ pos :: rest = rest' := by
    simpa [stack] using stackEq
  have few := few sizeNonneg
  have startLe : int64 pos ≤ pos := int64_le (by omega)
  have startLeast := le_int64 pos
  have chunkLe := int64_le (show -2 ^ 63 ≤ int64 pos + 32 * (2 * (items.length : Int) + 1) by omega)
  have headLength := Memory.length_set_within headedEq (by decide) (by omega)
  have written := length_writeItems memEq startLeast (le_int64 _) (by push_cast; omega)
    (by push_cast; omega)
  exact written.trans headLength

theorem length_rlpEncode {offset count pos : Int} (executed : l.rlpEncode = some outcome)
    (goes : outcome.Goes locals) (stack : l.stack = offset :: count :: pos :: rest)
    (countNonneg : 0 ≤ count) (posNonneg : 0 ≤ pos)
    (room : pos + (33 * count + 9) ≤ l.mem.length) : locals.mem.length = l.mem.length := by
  obtain ⟨⟨count', offset', below⟩, popped, executed⟩ := Option.bind_eq_some_iff.mp executed
  obtain ⟨⟨pos', last⟩, third, executed⟩ := Option.bind_eq_some_iff.mp executed
  obtain ⟨items, read, executed⟩ := Option.bind_eq_some_iff.mp executed
  obtain ⟨mem, memEq, executed⟩ := Option.bind_eq_some_iff.mp executed
  cases executed
  obtain rfl := goes
  rw [stack] at popped
  obtain ⟨rfl, both⟩ := Prod.mk.inj (Option.some.inj popped)
  cases both
  cases third
  have few := length_readItems read
  have countLe : int64 count ≤ count := int64_le (by omega)
  exact Memory.length_set_of_le memEq (int64_of_encoded posNonneg (by omega) room)

end Writes

end Locals

/-! ### The instruction -/

/-- A caller has room for the value that is returned to it. -/
structure Waiting.Housed (caller : Waiting) : Prop where
  aligned : 32 ∣ caller.locals.mem.length
  room {retOffset retSize : Int} : caller.pending = .call retOffset retSize →
    int64 retOffset + int64 retSize ≤ caller.locals.mem.length

theorem Waiting.Housed.length_mem {caller : Waiting} (housed : caller.Housed) {result : Result}
    {top : Int} {mem : Bytes} (receives : caller.Receives result top mem) :
    mem.length = caller.locals.mem.length := by
  cases receives with
  | failed isFailed => rfl
  | created addr pending => rfl
  | called retOffset retSize mem pending set =>
      exact Memory.length_set_within set (le_int64 retSize) (housed.room pending)

namespace Machine

variable {env : Env} {db : Database} {m : Machine}

namespace Paid

variable (paid : Paid env db m)

/-- The gas that is taken for the memory. -/
def memoryGas : Int := (paid.l.memoryCost paid.newMemSize).1

theorem cost_eq {op : OpCode} (opEq : paid.op = op) (notStore : op ≠ .sstore) :
    paid.l.cost op = some (paid.cost, paid.newMemSize) := by
  subst opEq
  exact (World.cost_of_ne_sstore notStore paid.costs).1

theorem length_mem :
    paid.mem.length = max paid.l.mem.length (uint64 (paid.l.memoryCost paid.newMemSize).2) :=
  Memory.length_resize paid.resized

theorem newMemSize_nonneg (covered : paid.l.covers paid.op = true) : 0 ≤ paid.newMemSize := by
  rcases World.cost_cases paid.costs with ⟨-, -, zero, -⟩ | ⟨costs, -⟩
  · exact zero.ge
  · exact Locals.newMemSize_nonneg covered costs

/-- The memory stays a number of words, and what it grows by has been paid for. -/
theorem grows (covered : paid.l.covers paid.op = true) (aligned : 32 ∣ paid.l.mem.length) :
    32 ∣ paid.mem.length ∧ (paid.mem.length : Int) ≤ paid.l.mem.length + 32 * paid.memoryGas := by
  have nonneg := paid.newMemSize_nonneg covered
  rw [paid.length_mem, memoryGas]
  unfold Locals.memoryCost uint64
  split
  · dsimp only
    split <;> omega
  · dsimp only
    omega

theorem room {off size : Int} (region : Region off size)
    (predicted : calcMemSize off size ≤ paid.newMemSize) (below : paid.newMemSize < 2 ^ 63)
    (inside : size = 0 → off ≤ paid.l.mem.length) : off + size ≤ paid.mem.length := by
  obtain ⟨offNonneg, sizeNonneg, small⟩ := region
  rw [paid.length_mem]
  by_cases empty : size = 0
  · have := inside empty
    omega
  · rw [calcMemSize, if_neg empty] at predicted
    unfold Locals.memoryCost uint64
    rw [if_pos (by omega)]
    dsimp only
    omega

variable {paid} {outcome : Outcome} {locals : Locals}

theorem length_of_copy {rest : Locals} {source : Bytes} {mOff cOff len : Int} {below : List Int}
    (executed : rest.copyFrom source = some outcome) (goes : outcome.Goes locals)
    (stack : rest.stack = mOff :: cOff :: len :: below) (mem : rest.mem = paid.mem)
    (region : Region mOff len) (inside : len = 0 → mOff ≤ paid.l.mem.length)
    (predicted : paid.newMemSize = calcMemSize mOff len) : locals.mem.length = paid.mem.length := by
  have room := paid.room region predicted.ge (by
    obtain ⟨offNonneg, lenNonneg, small⟩ := region
    rw [predicted, calcMemSize]
    split <;> omega) inside
  rw [← mem] at room ⊢
  exact Locals.length_copyFrom executed goes stack region room

theorem length_of_access {w : World}
    (accessed : paid.world.access db paid.closure paid.locals paid.op = some (outcome, w))
    (covered : paid.l.covers paid.op = true) (goes : outcome.Goes locals) :
    locals.mem.length = paid.mem.length := by
  by_cases writes : paid.op.Writes
  · simp only [OpCode.Writes, List.mem_cons, List.not_mem_nil, or_false] at writes
    rcases writes with isOp | isOp | isOp | isOp | isOp | isOp | isOp
    case inr.inr.inl =>
      obtain ⟨addr, mOff, cOff, len, rest, stack, predicted⟩ :=
        Locals.cost_extcodecopy (paid.cost_eq isOp (by decide))
      rw [isOp] at covered accessed
      simp only [Locals.covers, stack] at covered
      obtain ⟨region, inside⟩ := of_decide_eq_true covered
      obtain ⟨⟨top, below⟩, popped, accessed⟩ := Option.bind_eq_some_iff.mp accessed
      obtain ⟨⟨code, loaded⟩, -, accessed⟩ := Option.bind_eq_some_iff.mp accessed
      obtain ⟨copied, executed, accessed⟩ := Option.bind_eq_some_iff.mp accessed
      cases accessed
      cases stack.symm.trans (Locals.pop_eq_some popped)
      exact length_of_copy executed goes rfl rfl region inside predicted
    all_goals
      rw [isOp] at accessed
      cases accessed
  · rw [(World.does_of_access accessed).mem_eq writes goes]
    rfl

theorem length_of_exec {self caller : Bytes} {callStack : List Bytes}
    (executed : paid.locals.exec env paid.closure self caller callStack paid.op = some outcome)
    (covered : paid.l.covers paid.op = true) (goes : outcome.Goes locals) :
    locals.mem.length = paid.mem.length := by
  have larger : paid.l.mem.length ≤ paid.mem.length := by
    rw [paid.length_mem]
    exact le_max_left _ _
  by_cases writes : paid.op.Writes
  · simp only [OpCode.Writes, List.mem_cons, List.not_mem_nil, or_false] at writes
    rcases writes with isOp | isOp | isOp | isOp | isOp | isOp | isOp
    all_goals
      have costs := paid.cost_eq isOp (by decide)
      rw [isOp] at covered executed
    case inl | inr.inl =>
      obtain ⟨mOff, cOff, len, rest, stack, predicted⟩ := Locals.cost_copy (by simp) costs
      simp only [Locals.covers, stack] at covered
      obtain ⟨region, inside⟩ := of_decide_eq_true covered
      exact length_of_copy executed goes stack rfl region inside predicted
    case inr.inr.inl => cases executed
    case inr.inr.inr.inl =>
      obtain ⟨⟨second, top, rest⟩, popped, costs⟩ := Option.bind_eq_some_iff.mp costs
      obtain ⟨-, predicted⟩ := Prod.mk.inj (Option.some.inj costs)
      have stack := Locals.popn_eq_some popped
      simp only [Locals.covers, stack] at covered
      have region : Region top 32 := of_decide_eq_true covered
      have room := paid.room region predicted.le (by
        rw [← predicted, calcMemSize, if_neg (by decide)]
        exact region.2.2) (by omega)
      obtain ⟨⟨val, mStart, below⟩, operands, executed⟩ := Option.bind_eq_some_iff.mp executed
      obtain ⟨mem, set, executed⟩ := Option.bind_eq_some_iff.mp executed
      cases executed
      obtain rfl := goes
      obtain ⟨rfl, -⟩ := List.cons.inj (stack.symm.trans (Locals.popn_eq_some operands))
      have offNonneg := region.1
      have offLe : int64 top ≤ top := int64_le (by omega)
      exact Memory.length_set_within set (by decide) ((Int.add_le_add_right offLe 32).trans room)
    case inr.inr.inr.inr.inl =>
      obtain ⟨⟨off, below⟩, -, executed⟩ := Option.bind_eq_some_iff.mp executed
      obtain ⟨⟨val, rest⟩, -, executed⟩ := Option.bind_eq_some_iff.mp executed
      dsimp only at executed
      split at executed
      · cases executed
        obtain rfl := goes
        exact List.length_set
      · cases executed
    case inr.inr.inr.inr.inr.inl =>
      obtain ⟨items, offset, size, pos, rest, -, stack, -, -⟩ := Locals.cost_rlpdecode costs
      simp only [Locals.covers, stack] at covered
      obtain ⟨sizeNonneg, posNonneg, room⟩ := of_decide_eq_true covered
      exact Locals.length_rlpDecode executed goes stack sizeNonneg posNonneg
        (room.trans (Int.ofNat_le.mpr larger))
    case inr.inr.inr.inr.inr.inr =>
      obtain ⟨⟨count, offset, below⟩, popped, -⟩ := Option.bind_eq_some_iff.mp executed
      obtain ⟨third, thirdEq, -⟩ := Option.bind_eq_some_iff.mp costs
      have stack := Locals.popn_eq_some popped
      change paid.l.stack = offset :: count :: below at stack
      rw [stack] at thirdEq
      cases below with
      | nil => cases thirdEq
      | cons pos below =>
          simp only [Locals.covers, stack] at covered
          obtain ⟨countNonneg, posNonneg, room⟩ := of_decide_eq_true covered
          exact Locals.length_rlpEncode executed goes stack countNonneg posNonneg
            (room.trans (Int.ofNat_le.mpr larger))
  · rw [(Locals.does_of_exec executed).mem_eq writes goes]
    rfl

/-- Every write of the instruction is inside the memory that has been paid for. -/
theorem Performs.length_mem (performs : paid.Performs outcome)
    (covered : paid.l.covers paid.op = true) (goes : outcome.Goes locals) :
    locals.mem.length = paid.mem.length := by
  cases performs with
  | exec self caller callStack executed => exact length_of_exec executed covered goes
  | access w accessed => exact length_of_access accessed covered goes
  | post msg rest isPost operands outcomeEq =>
      subst outcomeEq
      obtain rfl := goes
      obtain ⟨_, _, _, _, -, rfl⟩ := messageOperands_cases operands
      rfl

end Paid

/-- The prediction covers the instruction, if its gas is paid. -/
def Covered (env : Env) (db : Database) (m : Machine) : Prop :=
  ∀ paid : Paid env db m, paid.l.covers paid.op = true

variable {closure : Closure} {frame : Closure × Locals}

/-! ### The frames -/

theorem Paid.Sends.housed {paid : Paid env db m} {msg : Message} {caller : Waiting}
    (sends : paid.Sends msg caller) (covered : paid.l.covers paid.op = true)
    (aligned : 32 ∣ paid.l.mem.length) : caller.Housed := by
  obtain ⟨stack, localsEq⟩ := sends.shortens
  have memEq : caller.locals.mem = paid.mem := by
    rw [localsEq]
    rfl
  constructor
  case aligned =>
    rw [memEq]
    exact (paid.grows covered aligned).1
  case room =>
    intro retOffset retSize pending
    rw [memEq]
    cases sends with
    | create isCreate addr input value operands message pendingEq closure =>
        rw [pendingEq] at pending
        cases pending
    | call isCall retOffset' retSize' operands pendingEq closure =>
        rw [pendingEq] at pending
        obtain ⟨rfl, rfl⟩ := Pending.call.inj pending
        obtain ⟨addr, inOff, inSize, below, stack, -⟩ := callOperands_cases operands
        obtain ⟨o, a, v, i, z, r, t, rest, stackEq, predicted⟩ :=
          Locals.cost_of_call isCall (paid.cost_of_isCall isCall)
        cases stack.symm.trans stackEq
        have regions : Region inOff inSize ∧ Region retOffset' retSize' ∧
            (retSize' = 0 → retOffset' ≤ paid.l.mem.length) := by
          rcases isCall with isCall | isCall
          · simp only [Locals.covers, isCall, stackEq] at covered
            exact of_decide_eq_true covered
          · simp only [Locals.covers, isCall, stackEq] at covered
            exact of_decide_eq_true covered
        obtain ⟨⟨inNonneg, inSizeNonneg, inSmall⟩, region, inside⟩ := regions
        have room := paid.room region (predicted ▸ le_max_left _ _) (by
          obtain ⟨retNonneg, retSizeNonneg, retSmall⟩ := region
          rw [predicted, calcMemSize, calcMemSize]
          split <;> split <;> omega) inside
        obtain ⟨retNonneg, retSizeNonneg, retSmall⟩ := region
        have offsetLe : int64 retOffset' ≤ retOffset' := int64_le (by omega)
        have sizeLe : int64 retSize' ≤ retSize' := int64_le (by omega)
        omega

/-- The memories are made of words, and every caller has room for its return value. -/
structure Housed (m : Machine) : Prop where
  running {closure : Closure} {l : Locals} : m.control = .running closure l → 32 ∣ l.mem.length
  waiting {caller : Waiting} : caller ∈ m.waiting → caller.Housed

theorem Housed.move {after : Machine} (housed : m.Housed) (covered : m.Covered env db)
    (move : Move env db m after) : after.Housed := by
  cases move with
  | stop ends waiting =>
      constructor
      case running => exact fun running => absurd running (ends.ne_running _ _)
      case waiting => exact waiting ▸ housed.waiting
  | go paid outcome locals performs goes control waiting =>
      constructor
      case running =>
        intro closure l running
        rw [control] at running
        obtain ⟨-, rfl⟩ := Control.running.inj running
        rw [performs.length_mem (covered paid) goes]
        exact (paid.grows (covered paid) (housed.running paid.running)).1
      case waiting => exact waiting ▸ housed.waiting
  | send paid msg caller control waiting sends =>
      constructor
      case running =>
        intro closure l running
        cases control.symm.trans running
      case waiting =>
        intro other member
        rw [waiting] at member
        rcases List.mem_cons.mp member with rfl | member
        · exact sends.housed (covered paid) (housed.running paid.running)
        · exact housed.waiting member
  | enter msg caller closure executing control waiting =>
      constructor
      case running =>
        intro closure l running
        rw [control] at running
        obtain ⟨-, rfl⟩ := Control.running.inj running
        exact dvd_zero 32
      case waiting => exact waiting ▸ housed.waiting
  | drop sender ends waiting =>
      constructor
      case running => exact fun running => absurd running (ends.ne_running _ _)
      case waiting => exact fun member => housed.waiting (waiting ▸ List.mem_cons_of_mem _ member)
  | resume result caller top mem returning receives control waiting =>
      have callerHoused : caller.Housed := housed.waiting (waiting ▸ List.mem_cons_self)
      constructor
      case running =>
        intro closure l running
        rw [control] at running
        obtain ⟨-, rfl⟩ := Control.running.inj running
        rw [callerHoused.length_mem receives]
        exact callerHoused.aligned
      case waiting => exact fun member => housed.waiting (waiting ▸ List.mem_cons_of_mem _ member)

theorem Housed.after {last : Nat} (housed : m.Housed)
    (covered : ∀ n < last, (m.after env db n).Covered env db) {n : Nat} (le : n ≤ last) :
    (m.after env db n).Housed := by
  induction n with
  | zero => exact housed
  | succ n hypothesis =>
      rw [after_succ]
      exact (hypothesis (by omega)).move (covered n (by omega)) (move_step env db _)

theorem Housed.aligned (housed : m.Housed) {depth : Nat} (found : m.activation depth = some frame) :
    32 ∣ frame.2.mem.length := by
  by_cases below : depth < m.waiting.length
  · rw [activation_of_lt below] at found
    obtain ⟨caller, member, rfl⟩ :=
      List.mem_map.mp (List.mem_reverse.mp (List.mem_of_getElem? found))
    exact (housed.waiting member).aligned
  · exact housed.running (running_of_activation found (not_lt.mp below)).2

/-! ### What a frame pays -/

section Stride

variable {after : Machine} {depth : Nat} {frame now : Closure × Locals}

/-- A memory that has another size afterwards is the one that has been paid for. -/
theorem Stride.length_mem (stride : Stride env db m after depth frame now) (housed : m.Housed)
    (covered : m.Covered env db) :
    now.2.mem.length = frame.2.mem.length ∨ ∃ paid : Paid env db m,
      frame = (paid.caller, paid.l) ∧ now.2.mem.length = paid.mem.length := by
  cases stride with
  | inside before later => exact .inl rfl
  | go paid outcome locals before waiting control performs goes =>
      exact .inr ⟨paid, rfl, performs.length_mem (covered paid) goes⟩
  | send paid msg caller before waiting control sends =>
      obtain ⟨stack, localsEq⟩ := sends.shortens
      refine .inr ⟨paid, rfl, ?_⟩
      rw [localsEq]
      rfl
  | resume result caller top mem returning waiting later receives =>
      refine .inl ((housed.waiting ?_).length_mem receives)
      exact waiting ▸ List.mem_cons_self

/-- What is sent has been paid for, next to the memory. -/
theorem Paid.Sends.pays {paid : Paid env db m} {msg : Message} {caller : Waiting}
    (sends : paid.Sends msg caller) :
    max 0 msg.gas + max 0 caller.closure.gas + paid.memoryGas ≤ max 0 paid.caller.gas := by
  have covered := paid.covered
  have costNonneg := World.cost_nonneg paid.costs
  have memoryNonneg : 0 ≤ paid.memoryGas := paid.l.memoryCost_nonneg paid.newMemSize
  have gasEq : paid.closure.gas = paid.caller.gas - (paid.cost + paid.memoryGas) := rfl
  change paid.cost + paid.memoryGas ≤ paid.caller.gas at covered
  cases sends with
  | create isCreate addr input value operands message pending closure =>
      rw [message, closure]
      dsimp only
      omega
  | call isCall retOffset retSize operands pending closure =>
      obtain ⟨-, costEq⟩ := paid.cost_call isCall operands
      rw [closure]
      omega

/-- The memory of a frame grows at the expense of the gas that the frames have. -/
theorem Stride.pays (stride : Stride env db m after depth frame now) (housed : m.Housed)
    (covered : m.Covered env db) (turn : Turn m after) (aligned : 32 ∣ frame.2.mem.length) :
    (now.2.mem.length : Int) + 32 * after.funds ≤ frame.2.mem.length + 32 * m.funds := by
  have fundsLe := turn.funds_le
  cases stride with
  | inside before later => omega
  | go paid outcome locals before waiting control performs goes =>
      have grows := (paid.grows (covered paid) aligned).2
      have costNonneg := World.cost_nonneg paid.costs
      have memoryNonneg : 0 ≤ paid.memoryGas := paid.l.memoryCost_nonneg paid.newMemSize
      have gasEq : paid.closure.gas = paid.caller.gas - (paid.cost + paid.memoryGas) := rfl
      have covers : paid.cost + paid.memoryGas ≤ paid.caller.gas := paid.covered
      rw [performs.length_mem (covered paid) goes, funds_eq, funds_eq, control, waiting,
        paid.running]
      simp only [Control.gas]
      omega
  | send paid msg caller before waiting control sends =>
      have grows := (paid.grows (covered paid) aligned).2
      have pays := sends.pays
      obtain ⟨stack, localsEq⟩ := sends.shortens
      have memEq : caller.locals.mem.length = paid.mem.length := by
        rw [localsEq]
        rfl
      rw [memEq, funds_eq, funds_eq, control, waiting, paid.running]
      simp only [Control.gas, List.map_cons, List.sum_cons]
      omega
  | resume result caller top mem returning waiting later receives =>
      have same := (housed.waiting (waiting ▸ List.mem_cons_self)).length_mem receives
      dsimp only
      omega

end Stride

theorem Move.suffix {after : Machine} {below : List Waiting} (move : Move env db m after)
    (suffix : below <:+ m.waiting) (alive : (after.activation below.length).isSome) :
    below <:+ after.waiting := by
  cases move with
  | stop _ waiting | go _ _ _ _ _ _ waiting | enter _ _ _ _ _ waiting => rwa [waiting]
  | send paid msg caller control waiting sends =>
      rw [waiting]
      exact suffix.trans (List.suffix_cons caller m.waiting)
  | drop sender _ waiting | resume _ sender _ _ _ _ _ waiting =>
      rw [waiting] at suffix
      rcases List.suffix_cons_iff.mp suffix with whole | suffix
      · obtain ⟨frame, found⟩ := Option.isSome_iff_exists.mp alive
        have lengthEq : below.length = after.waiting.length + 1 := by rw [whole, List.length_cons]
        have top := (running_of_activation found (by omega)).1
        omega
      · exact suffix

/-- The memory of a frame and the gas above its callers come from the gas of the frame. -/
theorem spends_of_alive (housed : m.Housed) (running : m.control = .running closure ⟨0, [], []⟩)
    {steps : Nat} (covered : ∀ n < steps, (m.after env db n).Covered env db)
    (alive : ∀ n ≤ steps, ((m.after env db n).activation m.waiting.length).isSome)
    (found : (m.after env db steps).activation m.waiting.length = some frame) :
    m.waiting <:+ (m.after env db steps).waiting ∧
      (frame.2.mem.length : Int) + 32 * (m.after env db steps).funds ≤ 32 * m.funds := by
  induction steps generalizing frame with
  | zero =>
      have start : m.activation m.waiting.length = some (closure, ⟨0, [], []⟩) :=
        activation_of_running running
      cases start.symm.trans found
      refine ⟨List.suffix_rfl, ?_⟩
      rw [List.length_nil]
      exact (zero_add _).le
  | succ steps hypothesis =>
      obtain ⟨before, beforeEq⟩ := Option.isSome_iff_exists.mp (alive steps (by omega))
      obtain ⟨suffix, spent⟩ := hypothesis (fun n lt => covered n (by omega))
        (fun n le => alive n (by omega)) beforeEq
      have keeps := housed.after covered (Nat.le_succ steps)
      have move := move_step env db (m.after env db steps)
      have living := alive (steps + 1) le_rfl
      rw [after_succ] at found living ⊢
      refine ⟨move.suffix suffix living, ?_⟩
      have pays := (move.stride beforeEq found).pays keeps (covered steps (by omega))
        (turn_step env db _) (keeps.aligned beforeEq)
      omega

theorem length_mem_le_of_alive (housed : m.Housed)
    (running : m.control = .running closure ⟨0, [], []⟩) {steps : Nat}
    (covered : ∀ n < steps, (m.after env db n).Covered env db)
    (alive : ∀ n ≤ steps, ((m.after env db n).activation m.waiting.length).isSome)
    (found : (m.after env db steps).activation m.waiting.length = some frame) :
    (frame.2.mem.length : Int) ≤ 32 * max 0 closure.gas := by
  obtain ⟨⟨above, waitingEq⟩, spent⟩ := spends_of_alive housed running covered alive found
  have aboveNonneg : 0 ≤ (above.map fun caller => max 0 caller.closure.gas).sum := by
    apply List.sum_nonneg
    simp
  rw [funds_eq, funds_eq, ← waitingEq, running, List.map_append, List.sum_append] at spent
  simp only [Control.gas] at spent
  omega

/-! ### Growth -/

/-- Nothing runs yet, or a closure starts. -/
def Fresh (m : Machine) : Prop :=
  m.waiting = [] ∧ ∀ closure l, m.control = .running closure l → l.mem = []

/-- While the prediction covers the instructions, every memory is made of words, it only grows by
what is paid for, and it is never larger than the gas of its closure allows. -/
theorem memory_growth_paid (env : Env) (db : Database) (m : Machine) (fresh : m.Fresh) (last : Nat)
    (covered : ∀ n < last, (m.after env db n).Covered env db) :
    (∀ n ≤ last, ∀ depth frame, (m.after env db n).activation depth = some frame →
      32 ∣ frame.2.mem.length) ∧
    (∀ n < last,
      (∀ paid : Paid env db (m.after env db n), 32 ∣ paid.mem.length ∧
        (paid.mem.length : Int) - paid.l.mem.length ≤ 32 * paid.memoryGas ∧
        paid.memoryGas ≤ paid.gas) ∧
      ∀ depth frame now, (m.after env db n).activation depth = some frame →
        (m.after env db (n + 1)).activation depth = some now →
        now.2.mem.length = frame.2.mem.length ∨ ∃ paid : Paid env db (m.after env db n),
          frame = (paid.caller, paid.l) ∧ now.2.mem.length = paid.mem.length) ∧
    ∀ birth steps, birth + steps ≤ last → ∀ closure,
      (m.after env db birth).control = .running closure ⟨0, [], []⟩ →
      (∀ n ≤ steps, ((m.after env db (birth + n)).activation
        (m.after env db birth).waiting.length).isSome) →
      ∀ frame, (m.after env db (birth + steps)).activation (m.after env db birth).waiting.length =
          some frame →
        (frame.2.mem.length : Int) ≤ 32 * max 0 closure.gas := by
  have start : m.Housed := by
    constructor
    case running =>
      intro closure l running
      rw [fresh.2 closure l running]
      exact dvd_zero 32
    case waiting =>
      intro caller member
      rw [fresh.1] at member
      cases member
  refine ⟨?_, ?_, ?_⟩
  · intro n le depth frame found
    exact (start.after covered le).aligned found
  · intro n lt
    have housed := start.after covered lt.le
    constructor
    · intro paid
      obtain ⟨aligned, grows⟩ := paid.grows (covered n lt paid) (housed.running paid.running)
      have costNonneg := World.cost_nonneg paid.costs
      have gasEq : paid.gas = paid.cost + paid.memoryGas := rfl
      exact ⟨aligned, by omega, by omega⟩
    · intro depth frame now found kept
      rw [after_succ] at kept
      exact ((move_step env db _).stride found kept).length_mem housed (covered n lt)
  · intro birth steps le closure running alive frame found
    have shifts : ∀ n, m.after env db (birth + n) = (m.after env db birth).after env db n := by
      intro n
      rw [Nat.add_comm]
      exact Function.iterate_add_apply _ n birth m
    simp only [shifts] at alive found
    apply length_mem_le_of_alive (start.after covered (by omega)) running _ alive found
    intro n lt
    rw [← shifts]
    exact covered (birth + n) (by omega)

/-- The prediction covers the next instruction, paid or not. -/
def coversNext (m : Machine) : Bool :=
  match m.control with
  | .running closure l => (opAt closure.code l.pc).all l.covers
  | _ => true

theorem covered_of_coversNext (covers : m.coversNext) : m.Covered env db := by
  intro paid
  simpa [coversNext, paid.running, paid.found] using covers

/-- `MSTORE` of seven in the first word. -/
theorem memory_growth_paid_word :
    ((wordMachine [0x60, 7, 0x60, 0, 0x54, 0x5b]).after callingEnv ∅ 3).mem?.map List.length =
        some 32 ∧
      ∀ frame, ((wordMachine [0x60, 7, 0x60, 0, 0x54, 0x5b]).after callingEnv ∅ 3).activation 0 =
        some frame → 32 ∣ frame.2.mem.length ∧ (frame.2.mem.length : Int) ≤ 32 * 100 := by
  have covered : ∀ n < 3,
      ((wordMachine [0x60, 7, 0x60, 0, 0x54, 0x5b]).after callingEnv ∅ n).Covered callingEnv ∅ := by
    intro n lt
    apply covered_of_coversNext
    interval_cases n <;> decide +kernel
  have fresh : (wordMachine [0x60, 7, 0x60, 0, 0x54, 0x5b]).Fresh := by
    refine ⟨rfl, ?_⟩
    intro closure l running
    obtain ⟨-, rfl⟩ := Control.running.inj running
    rfl
  obtain ⟨aligned, -, bounded⟩ := memory_growth_paid callingEnv ∅ _ fresh 3 covered
  refine ⟨by decide +kernel, ?_⟩
  intro frame found
  refine ⟨aligned 3 le_rfl 0 frame found, ?_⟩
  exact bounded 0 3 le_rfl (wordClosure [0x60, 7, 0x60, 0, 0x54, 0x5b]) rfl
    (by decide +kernel) frame found

/-- `CALLDATACOPY` of no bytes to 4097, and `RLPENCODE` of no items to 33: the gas is that of any
other instruction, the memory is no number of words, and the first is larger than the gas of
the closure allows. -/
theorem memory_growth_unpaid :
    (((wordMachine [0x60, 0, 0x60, 0, 0x61, 0x10, 1, 0x37, 0x5b]).after callingEnv ∅ 3).mem? =
        some [] ∧
      ((wordMachine [0x60, 0, 0x60, 0, 0x61, 0x10, 1, 0x37, 0x5b]).after callingEnv ∅ 3).gases =
        [97] ∧
      ((wordMachine [0x60, 0, 0x60, 0, 0x61, 0x10, 1, 0x37, 0x5b]).after callingEnv ∅ 4).mem?.map
        List.length = some 4097 ∧
      ((wordMachine [0x60, 0, 0x60, 0, 0x61, 0x10, 1, 0x37, 0x5b]).after callingEnv ∅ 4).gases =
        [96] ∧
      (wordMachine [0x60, 0, 0x60, 0, 0x61, 0x10, 1, 0x37, 0x5b]).gases = [100]) ∧
    (((wordMachine [0x60, 33, 0x60, 0, 0x60, 0, 0x22, 0x5b]).after callingEnv ∅ 3).mem? = some [] ∧
      ((wordMachine [0x60, 33, 0x60, 0, 0x60, 0, 0x22, 0x5b]).after callingEnv ∅ 3).gases = [97] ∧
      ((wordMachine [0x60, 33, 0x60, 0, 0x60, 0, 0x22, 0x5b]).after callingEnv ∅ 4).mem?.map
        List.length = some 34 ∧
      ((wordMachine [0x60, 33, 0x60, 0, 0x60, 0, 0x22, 0x5b]).after callingEnv ∅ 4).gases =
        [96]) := by
  decide +kernel

end Machine

end Thelonious
