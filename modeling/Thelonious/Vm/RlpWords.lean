import Thelonious.Util.Plain
import Thelonious.Vm.Copying

/-!
# Lists in the memory

`RLPDECODE` lays out a list in words: the number of its items, a pointer and a length for
each of them, and the items.  `RLPENCODE` reads the pointers and the lengths back.  Only
the lowest byte of the number of items is written.
-/

namespace Thelonious

/-! ### Parts of the memory -/

/-- The bytes from a position on; past the end they are zero. -/
def cells (mem : Bytes) (pos size : Nat) : Bytes :=
  (List.range size).map fun i => byteOrZero mem (pos + i)

@[simp] theorem length_cells (mem : Bytes) (pos size : Nat) :
    (cells mem pos size).length = size := by
  simp [cells]

variable {size width pos : Nat} {mem data : Bytes}

theorem cells_congr {other : Bytes}
    (same : ∀ i < size, byteOrZero mem (pos + i) = byteOrZero other (pos + i)) :
    cells mem pos size = cells other pos size := by
  apply List.map_congr_left
  intro i member
  exact same i (List.mem_range.mp member)

theorem getElem?_cells {i : Nat} (inside : i < size) :
    (cells mem pos size)[i]? = some (byteOrZero mem (pos + i)) := by
  rw [cells, List.getElem?_map, List.getElem?_range inside]
  rfl

theorem take_drop_eq_cells (fits : pos + size ≤ mem.length) :
    (mem.drop pos).take size = cells mem pos size := by
  apply List.ext_getElem?
  intro i
  by_cases inside : i < size
  · rw [List.getElem?_take, if_pos inside, List.getElem?_drop, getElem?_cells inside, byteOrZero,
      List.getElem?_eq_getElem (by omega), Option.getD_some]
  · rw [List.getElem?_eq_none, List.getElem?_eq_none]
    · rw [length_cells]
      omega
    · rw [List.length_take]
      omega

namespace Memory

theorem get_eq_cells {mem : Bytes} {pos size : Nat} (fits : pos + size ≤ mem.length)
    (small : pos + size < 2 ^ 63) : get mem pos size = some (cells mem pos size) := by
  have stop : int64 ((pos : Int) + size) = (pos + size : Nat) := int64_natCast small
  unfold get
  split
  · dsimp only
    have stopNat : (min (mem.length : Int) (pos + size : Nat)).toNat = pos + size := by omega
    rw [stop, if_pos (by omega), stopNat, Int.toNat_natCast, List.drop_take,
      Nat.add_sub_cancel_left,
      take_drop_eq_cells fits]
  · obtain rfl : size = 0 := by omega
    rfl

/-- What is written is read back, and everything else stays as it is. -/
theorem exists_set_cells {pos size : Nat} {value : Bytes} (lengthEq : value.length = size)
    (small : pos + size ≤ 2 ^ 48) (mem : Bytes) :
    ∃ after, set mem pos size value = some after ∧ after.length = max mem.length (pos + size) ∧
      cells after pos size = value ∧
      ∀ other count, other + count ≤ pos ∨ pos + size ≤ other →
        cells after other count = cells mem other count := by
  obtain ⟨after, written, afterLength, bytes⟩ := exists_set small mem value
  refine ⟨after, written, afterLength, ?_, ?_⟩
  · apply List.ext_getElem?
    intro i
    by_cases inside : i < size
    · rw [getElem?_cells inside, bytes, if_pos (by omega), Nat.add_sub_cancel_left, byteOrZero,
        List.getElem?_eq_getElem (by omega), Option.getD_some]
    · rw [List.getElem?_eq_none (by rw [length_cells]; omega), List.getElem?_eq_none (by omega)]
  · intro other count apart
    apply cells_congr
    intro i below
    rw [bytes, if_neg (by omega)]

end Memory

/-! ### Words -/

/-- A word of the memory, counted from `start` on. -/
def word (mem : Bytes) (start index : Nat) : Bytes := cells mem (start + 32 * index) 32

theorem Memory.exists_set_word {start index : Nat} {value : Bytes} (lengthEq : value.length = 32)
    (small : start + 32 * (index + 1) ≤ 2 ^ 48) (mem : Bytes) :
    ∃ after, set mem ((start + 32 * index : Nat) : Int) 32 value = some after ∧
      after.length = max mem.length (start + 32 * (index + 1)) ∧ word after start index = value ∧
      ∀ other, other ≠ index → word after start other = word mem start other := by
  obtain ⟨after, written, afterLength, same, apart⟩ :=
    exists_set_cells lengthEq (show start + 32 * index + 32 ≤ 2 ^ 48 by omega) mem
  refine ⟨after, written, ?_, same, ?_⟩
  · rw [afterLength]
    congr 1
  · intro other distinct
    apply apart
    omega

theorem length_leftPadBytes (short : data.length ≤ width) :
    (leftPadBytes data width).length = width := by
  rw [leftPadBytes, if_neg (by omega), List.length_append, List.length_replicate]
  omega

theorem bigD_leftPadBytes (short : data.length ≤ width) :
    bigD (leftPadBytes data width) = bigD data := by
  rw [leftPadBytes, if_neg (by omega), bigD, BigEndian.value_replicate_zero_append, bigD]

theorem drop_leftPadBytes (short : data.length ≤ width) :
    (leftPadBytes data width).drop (width - data.length) = data := by
  rw [leftPadBytes, if_neg (by omega)]
  exact List.drop_left' List.length_replicate

/-- The length of an item with the byte of its type, which is zero. -/
def lengthBytes (size : Nat) : Bytes :=
  if (bigBytes size ++ [0]).length = 1 then bigBytes size ++ [0] ++ [0] else bigBytes size ++ [0]

theorem length_bigBytes_natCast_le {number : Nat} (small : number < 256 ^ width) :
    (bigBytes number).length ≤ width :=
  BigEndian.length_digits_le_iff.mpr small

theorem length_lengthBytes (small : size ≤ 32) : (lengthBytes size).length ≤ 32 := by
  have short : (bigBytes size).length ≤ 1 := length_bigBytes_natCast_le (by omega)
  unfold lengthBytes
  split
  · simp only [List.length_append, List.length_singleton]
    omega
  · simp only [List.length_append, List.length_singleton]
    omega

theorem exists_lengthBytes (size : Nat) :
    ∃ body, lengthBytes size = body ++ [0] ∧ bigD body = size := by
  have value : bigD (bigBytes size) = size := by
    rw [bigD, value_bigBytes, Int.natAbs_natCast]
  unfold lengthBytes
  split
  · rename_i single
    have none : bigBytes (size : Int) = [] := by
      apply List.length_eq_zero_iff.mp
      simpa using single
    refine ⟨[0], ?_, ?_⟩
    · rw [none]
      rfl
    · rw [← value, none]
      rfl
  · exact ⟨bigBytes size, rfl, value⟩

theorem bigD_dropLast_lengthBytes (small : size ≤ 32) :
    bigD (leftPadBytes (lengthBytes size) 32).dropLast = size := by
  have short := length_lengthBytes small
  obtain ⟨body, bytesEq, value⟩ := exists_lengthBytes size
  rw [leftPadBytes, if_neg (by omega), bytesEq, ← List.append_assoc, List.dropLast_concat, bigD,
    BigEndian.value_replicate_zero_append]
  exact value

/-! ### The layout of a list -/

/-- The list is laid out from `start` on. -/
structure Unpacked (mem : Bytes) (start : Nat) (items : List Bytes) : Prop where
  room : start + 32 * (3 * items.length + 1) ≤ mem.length
  count : word mem start 0 = leftPadBytes [UInt8.ofNat items.length] 32
  pointer {k : Nat} : k < items.length → word mem start (2 * k + 1) =
    leftPadBytes (bigBytes ((start + 32 * (2 * items.length + 1 + k) : Nat) : Int)) 32
  lentype {k : Nat} {item : Bytes} : items[k]? = some item →
    word mem start (2 * k + 2) = leftPadBytes (lengthBytes item.length) 32
  chunk {k : Nat} {item : Bytes} : items[k]? = some item →
    word mem start (2 * items.length + 1 + k) = leftPadBytes item 32

namespace Locals

/-- The items from the `i`th on, of `count`, are written to words of their own. -/
theorem exists_writeItems {count : Nat} {items : List Value} {i : Nat} (mem : Bytes)
    (fits : i + items.length = count) (small : start + 32 * (3 * count + 1) ≤ 2 ^ 47)
    (flat : ∀ item ∈ items, item.isList = false)
    (short : ∀ item ∈ items, item.asBytes.length ≤ 32) :
    ∃ after, writeItems start ((start + 32 * (2 * count + 1) : Nat) : Int) items i mem =
      some after ∧
      mem.length ≤ after.length ∧
      (items ≠ [] → start + 32 * (3 * count + 1) ≤ after.length) ∧
      (∀ k item, items[k]? = some item →
        word after start (2 * (i + k) + 1) =
          leftPadBytes (bigBytes ((start + 32 * (2 * count + 1 + (i + k)) : Nat) : Int)) 32 ∧
        word after start (2 * (i + k) + 2) = leftPadBytes (lengthBytes item.asBytes.length) 32 ∧
        word after start (2 * count + 1 + (i + k)) = leftPadBytes item.asBytes 32) ∧
      ∀ index, (∀ k < items.length, index ≠ 2 * (i + k) + 1 ∧ index ≠ 2 * (i + k) + 2 ∧
        index ≠ 2 * count + 1 + (i + k)) → word after start index = word mem start index := by
  induction items generalizing i mem with
  | nil => exact ⟨mem, rfl, le_rfl, by simp, by simp, fun _ _ => rfl⟩
  | cons item items hypothesis =>
      rw [List.length_cons] at fits
      have isFlat := flat item List.mem_cons_self
      have isShort := short item List.mem_cons_self
      have pointerEq : int64 (((start + 32 * (2 * count + 1) : Nat) : Int) + 32 * i) =
          ((start + 32 * (2 * count + 1 + i) : Nat) : Int) := by
        rw [← int64_natCast (show start + 32 * (2 * count + 1 + i) < 2 ^ 63 by omega)]
        congr 1
        push_cast
        ring
      have headEq :
          int64 ((start : Int) + 32 * (2 * i + 1)) = ((start + 32 * (2 * i + 1) : Nat) : Int) := by
        rw [← int64_natCast (show start + 32 * (2 * i + 1) < 2 ^ 63 by omega)]
        congr 1
      have lengthEq :
          int64 ((start : Int) + 32 * (2 * i + 2)) = ((start + 32 * (2 * i + 2) : Nat) : Int) := by
        rw [← int64_natCast (show start + 32 * (2 * i + 2) < 2 ^ 63 by omega)]
        congr 1
      have pointerShort : (bigBytes ((start + 32 * (2 * count + 1 + i) : Nat) : Int)).length ≤ 32 :=
        length_bigBytes_natCast_le (by omega)
      obtain ⟨first, firstEq, firstLength, firstWord, firstApart⟩ := Memory.exists_set_word
        (length_leftPadBytes pointerShort) (show start + 32 * (2 * i + 1 + 1) ≤ 2 ^ 48 by omega) mem
      obtain ⟨second, secondEq, secondLength, secondWord, secondApart⟩ := Memory.exists_set_word
        (length_leftPadBytes (length_lengthBytes isShort))
        (show start + 32 * (2 * i + 2 + 1) ≤ 2 ^ 48 by omega) first
      obtain ⟨third, thirdEq, thirdLength, thirdWord, thirdApart⟩ := Memory.exists_set_word
        (length_leftPadBytes isShort)
        (show start + 32 * (2 * count + 1 + i + 1) ≤ 2 ^ 48 by omega) second
      obtain ⟨after, afterEq, afterLength, room, written, apart⟩ := hypothesis (i := i + 1) third
        (by omega) (fun other member => flat other (List.mem_cons_of_mem _ member))
        (fun other member => short other (List.mem_cons_of_mem _ member))
      refine ⟨after, ?_, by omega, ?_, ?_, ?_⟩
      · rw [writeItems, if_neg (by simp [isFlat]), pointerEq, headEq, lengthEq]
        change (Memory.set _ _ _ _).bind _ = _
        rw [firstEq, Option.bind_some]
        change (Memory.set _ _ _ (leftPadBytes (lengthBytes item.asBytes.length) 32)).bind _ = _
        rw [secondEq, Option.bind_some]
        change (Memory.set _ _ _ _).bind _ = _
        rw [thirdEq, Option.bind_some]
        exact afterEq
      · intro _
        cases items with
        | nil =>
            rw [List.length_nil] at fits
            omega
        | cons other items => exact room (by simp)
      · intro k other found
        cases k with
        | zero =>
            cases found
            have keeps : ∀ index, index = 2 * i + 1 ∨ index = 2 * i + 2 ∨
                index = 2 * count + 1 + i →
                word after start index = word third start index := by
              intro index listed
              apply apart
              intro k below
              omega
            simp only [Nat.add_zero]
            rw [keeps _ (.inl rfl), keeps _ (.inr (.inl rfl)), keeps _ (.inr (.inr rfl))]
            refine ⟨?_, ?_, thirdWord⟩
            · rw [thirdApart _ (by omega), secondApart _ (by omega), firstWord]
            · rw [thirdApart _ (by omega), secondWord]
        | succ k =>
            rw [show i + (k + 1) = i + 1 + k by omega]
            exact written k other found
      · intro index elsewhere
        have here := elsewhere 0 (by simp)
        rw [apart index fun k below => ?_, thirdApart _ (by omega), secondApart _ (by omega),
          firstApart _ (by omega)]
        have there := elsewhere (k + 1) (by simpa using below)
        omega

theorem decodedAll_contents (items : List Bytes) :
    Item.decodedAll (Value.contents (items.map .bytes)) = items.map decodedBytes := by
  induction items with
  | nil => rfl
  | cons item items hypothesis =>
      simp only [List.map_cons, Value.contents, Value.content, Item.decodedAll, Item.decoded,
        hypothesis]

theorem asBytes_decodedBytes (data : Bytes) : (decodedBytes data).asBytes = data := by
  unfold decodedBytes
  split
  · rename_i single
    obtain ⟨byte, rfl⟩ := List.length_eq_one_iff.mp single.1
    rfl
  · rfl

theorem isList_decodedBytes (data : Bytes) : (decodedBytes data).isList = false := by
  unfold decodedBytes
  split
  · rfl
  · rfl

variable {l : Locals} {items : List Bytes} {offset start : Nat} {rest : List Int}

theorem rlpItems_of_decode {size : Int} {rawrlp : Bytes} {values : List Value} {next : Nat}
    (popped : Stack.popn l.stack = some (size, (offset : Int), rest))
    (got : Memory.get l.mem (int64 offset) (int64 size) = some rawrlp)
    (read : decode rawrlp 0 = some (.list values, next)) : l.rlpItems = some values := by
  refine Option.bind_eq_some_iff.mpr ⟨_, popped, ?_⟩
  refine Option.bind_eq_some_iff.mpr ⟨_, got, ?_⟩
  exact Option.bind_eq_some_iff.mpr ⟨_, read, rfl⟩

theorem rlpItems_eq
    (stack : l.stack = (offset : Int) :: (encode (.list (items.map .bytes))).length :: rest)
    (fits : offset + (encode (.list (items.map .bytes))).length ≤ l.mem.length)
    (small : l.mem.length < 2 ^ 63)
    (located : cells l.mem offset (encode (.list (items.map .bytes))).length =
      encode (.list (items.map .bytes))) :
    l.rlpItems = some (items.map decodedBytes) := by
  have read := decode_encode (.list (items.map .bytes))
    (Value.fits_of_length_encode _ (by omega)) []
  rw [List.append_nil, Value.content, Item.decoded, decodedAll_contents] at read
  apply rlpItems_of_decode
  case popped =>
    rw [stack]
    rfl
  case got =>
    rw [int64_natCast (by omega), int64_natCast (by omega), Memory.get_eq_cells fits (by omega),
      located]
  case read => exact read

/-- `RLPDECODE` lays out the list that it has decoded. -/
theorem exists_rlpDecode {size : Int} (decoded : l.rlpItems = some (items.map decodedBytes))
    (stack : l.stack = (offset : Int) :: size :: (start : Int) :: rest)
    (short : ∀ item ∈ items, item.length ≤ 32)
    (small : start + 32 * (3 * items.length + 1) ≤ 2 ^ 47) :
    ∃ mem, l.rlpDecode = some (.next { l with stack := items.length :: rest, mem := mem }) ∧
      Unpacked mem start items := by
  have startEq : int64 (start : Int) = start := int64_natCast (by omega)
  have chunkEq : int64 ((start : Int) + 32 * (2 * items.length + 1)) =
      ((start + 32 * (2 * items.length + 1) : Nat) : Int) :=
    int64_natCast (show start + 32 * (2 * items.length + 1) < 2 ^ 63 by omega)
  obtain ⟨headed, headedEq, headedLength, headedWord, -⟩ := @Memory.exists_set_word start 0
    (leftPadBytes [UInt8.ofNat items.length] 32) (length_leftPadBytes (by simp)) (by omega) l.mem
  obtain ⟨mem, memEq, longer, room, written, apart⟩ := @exists_writeItems start items.length
    (items.map decodedBytes) 0 headed (by simp) small (by simp [isList_decodedBytes])
    (by simpa [asBytes_decodedBytes] using short)
  have each : ∀ {k : Nat} {item : Bytes}, items[k]? = some item →
      (items.map decodedBytes)[k]? = some (decodedBytes item) := by
    intro k item found
    rw [List.getElem?_map, found]
    rfl
  refine ⟨mem, ?_, ?_⟩
  · rw [Nat.mul_zero, Nat.add_zero] at headedEq
    have popped : Stack.popn l.stack = some (size, (offset : Int), (start : Int) :: rest) := by
      rw [stack]
      rfl
    refine Option.bind_eq_some_iff.mpr ⟨_, decoded, ?_⟩
    refine Option.bind_eq_some_iff.mpr ⟨_, popped, ?_⟩
    refine Option.bind_eq_some_iff.mpr ⟨((start : Int), rest), rfl, ?_⟩
    dsimp only
    rw [List.length_map, startEq]
    refine Option.bind_eq_some_iff.mpr ⟨_, headedEq, ?_⟩
    rw [chunkEq]
    exact Option.bind_eq_some_iff.mpr ⟨_, memEq, rfl⟩
  · constructor
    case room =>
      cases items with
      | nil =>
          simp only [List.length_nil] at headedLength ⊢
          omega
      | cons item items => exact room (by simp)
    case count =>
      rw [apart 0, headedWord]
      intro k below
      omega
    case pointer =>
      intro k below
      have found := each (List.getElem?_eq_getElem below)
      have pointer := (written k _ found).1
      rwa [Nat.zero_add] at pointer
    case lentype =>
      intro k item found
      have lentype := (written k _ (each found)).2.1
      rwa [Nat.zero_add, asBytes_decodedBytes] at lentype
    case chunk =>
      intro k item found
      have chunk := (written k _ (each found)).2.2
      rwa [Nat.zero_add, asBytes_decodedBytes] at chunk

end Locals

namespace Unpacked

variable {mem : Bytes} {items : List Bytes} {start : Nat}

/-- A word of the layout is inside the memory. -/
theorem get_word (unpacked : Unpacked mem start items)
    (small : start + 32 * (3 * items.length + 1) ≤ 2 ^ 47) {index : Nat}
    (inside : index < 3 * items.length + 1) {pos : Int}
    (posEq : pos = ((start + 32 * index : Nat) : Int)) :
    Memory.get mem (int64 pos) 32 = some (word mem start index) := by
  have room := unpacked.room
  rw [posEq, int64_natCast (by omega)]
  exact @Memory.get_eq_cells mem (start + 32 * index) 32 (by omega) (by omega)

/-- The items from the `i`th on are read back. -/
theorem readItems_eq (unpacked : Unpacked mem start items)
    (small : start + 32 * (3 * items.length + 1) ≤ 2 ^ 47)
    (short : ∀ item ∈ items, item.length ≤ 32) {left i : Nat} (le : i + left ≤ items.length) :
    Locals.readItems mem ((start + 32 : Nat) : Int) left i =
      some (((items.drop i).take left).map .bytes) := by
  induction left generalizing i with
  | zero => rfl
  | succ left hypothesis =>
      have below : i < items.length := by omega
      have found := List.getElem?_eq_getElem below
      have isShort := short _ (List.getElem_mem below)
      have pointerEq := unpacked.pointer below
      have pointerShort :
          (bigBytes ((start + 32 * (2 * items.length + 1 + i) : Nat) : Int)).length ≤ 32 :=
        length_bigBytes_natCast_le (by omega)
      have pointerValue : bigD (word mem start (2 * i + 1)) =
          ((start + 32 * (2 * items.length + 1 + i) : Nat) : Int) := by
        rw [pointerEq, bigD_leftPadBytes pointerShort, bigD, value_bigBytes, Int.natAbs_natCast]
      have lengthValue :
          int64 (bigD (word mem start (2 * i + 2)).dropLast) = (items[i].length : Int) := by
        rw [unpacked.lentype found, bigD_dropLast_lengthBytes isShort, int64_natCast (by omega)]
      have chunkEq := unpacked.chunk found
      have chunkLength : (word mem start (2 * items.length + 1 + i)).length = 32 :=
        length_cells _ _ _
      have fromEq :
          int64 (((word mem start (2 * items.length + 1 + i)).length : Int) - items[i].length) =
          ((32 - items[i].length : Nat) : Int) := by
        have gap : ((32 : Nat) : Int) - items[i].length =
            ((32 - items[i].length : Nat) : Int) := by omega
        rw [chunkLength, gap, int64_natCast (by omega)]
      have firstPos :
          ((start + 32 : Nat) : Int) + 64 * i = ((start + 32 * (2 * i + 1) : Nat) : Int) := by
        push_cast
        ring
      have secondPos : ((start + 32 : Nat) : Int) + 32 * (2 * i + 1) =
          ((start + 32 * (2 * i + 2) : Nat) : Int) := by
        push_cast
        ring
      have first :=
        unpacked.get_word small (show 2 * i + 1 < 3 * items.length + 1 by omega) firstPos
      have second :=
        unpacked.get_word small (show 2 * i + 2 < 3 * items.length + 1 by omega) secondPos
      have third := unpacked.get_word small
        (show 2 * items.length + 1 + i < 3 * items.length + 1 by omega) pointerValue
      have split : (items.drop i).take (left + 1) = items[i] :: (items.drop (i + 1)).take left := by
        rw [List.drop_eq_getElem_cons below, List.take_succ_cons]
      rw [Locals.readItems]
      refine Option.bind_eq_some_iff.mpr ⟨_, first, ?_⟩
      refine Option.bind_eq_some_iff.mpr ⟨_, second, ?_⟩
      dsimp only
      rw [if_neg (by rw [word, length_cells]; decide), lengthValue]
      refine Option.bind_eq_some_iff.mpr ⟨_, third, ?_⟩
      rw [if_neg (by rw [chunkLength]; decide), fromEq, if_pos (by rw [chunkLength]; omega)]
      refine Option.bind_eq_some_iff.mpr ⟨_, rfl, ?_⟩
      refine Option.bind_eq_some_iff.mpr ⟨_, hypothesis (by omega), ?_⟩
      rw [split, List.map_cons, Int.toNat_natCast, chunkEq, drop_leftPadBytes isShort]
      rfl

/-- `RLPENCODE` writes the list of the first items. -/
theorem exists_rlpEncode {l : Locals} {rest : List Int} {count dest : Nat}
    (unpacked : Unpacked l.mem start items)
    (small : start + 32 * (3 * items.length + 1) ≤ 2 ^ 47)
    (short : ∀ item ∈ items, item.length ≤ 32) (le : count ≤ items.length)
    (stack : l.stack = ((start + 32 : Nat) : Int) :: (count : Int) :: (dest : Int) :: rest)
    (room : dest + (encode (.list ((items.take count).map .bytes))).length ≤ 2 ^ 48) :
    ∃ mem, l.rlpEncode = some (.next { l with
        stack := (encode (.list ((items.take count).map .bytes))).length :: rest, mem := mem }) ∧
      dest + (encode (.list ((items.take count).map .bytes))).length ≤ mem.length ∧
      cells mem dest (encode (.list ((items.take count).map .bytes))).length =
        encode (.list ((items.take count).map .bytes)) := by
  have read := unpacked.readItems_eq small short (show 0 + count ≤ items.length by omega)
  rw [List.drop_zero] at read
  obtain ⟨mem, memEq, memLength, written, -⟩ := Memory.exists_set_cells rfl room l.mem
  refine ⟨mem, ?_, by omega, written⟩
  have popped : Stack.popn l.stack =
      some ((count : Int), ((start + 32 : Nat) : Int), (dest : Int) :: rest) := by
    rw [stack]
    rfl
  refine Option.bind_eq_some_iff.mpr ⟨_, popped, ?_⟩
  refine Option.bind_eq_some_iff.mpr ⟨((dest : Int), rest), rfl, ?_⟩
  dsimp only
  rw [int64_natCast (by omega), int64_natCast (by omega), int64_natCast (by omega),
    Int.toNat_natCast]
  refine Option.bind_eq_some_iff.mpr ⟨_, read, ?_⟩
  exact Option.bind_eq_some_iff.mpr ⟨_, memEq, rfl⟩

theorem congr {other : Bytes} (unpacked : Unpacked mem start items)
    (same : (other.drop start).take (32 * (3 * items.length + 1)) =
      (mem.drop start).take (32 * (3 * items.length + 1))) : Unpacked other start items := by
  have room := unpacked.room
  have lengths := congrArg List.length same
  rw [List.length_take, List.length_take, List.length_drop, List.length_drop] at lengths
  rw [take_drop_eq_cells (by omega), take_drop_eq_cells room] at same
  have words : ∀ {index}, index < 3 * items.length + 1 →
      word other start index = word mem start index := by
    intro index inside
    apply cells_congr
    intro i below
    have position : 32 * index + i < 32 * (3 * items.length + 1) := by omega
    have bytes := congrArg (·[32 * index + i]?) same
    rw [getElem?_cells position, getElem?_cells position] at bytes
    rw [Nat.add_assoc]
    exact Option.some.inj bytes
  constructor
  case room => omega
  case count => exact (words (by omega)).trans unpacked.count
  case pointer =>
    intro k below
    exact (words (by omega)).trans (unpacked.pointer below)
  case lentype =>
    intro k item found
    obtain ⟨below, -⟩ := List.getElem?_eq_some_iff.mp found
    exact (words (by omega)).trans (unpacked.lentype found)
  case chunk =>
    intro k item found
    obtain ⟨below, -⟩ := List.getElem?_eq_some_iff.mp found
    exact (words (by omega)).trans (unpacked.chunk found)

end Unpacked

/-- The number in a word of the memory. -/
def wordAt (mem : Bytes) (pos : Nat) : Int := bigD ((mem.drop pos).take 32)

theorem Unpacked.wordAt_eq {items : List Bytes} {start : Nat}
    (unpacked : Unpacked mem start items) :
    wordAt mem start = (items.length % 256 : Nat) := by
  have room := unpacked.room
  have count : cells mem start 32 = leftPadBytes [UInt8.ofNat items.length] 32 := unpacked.count
  rw [wordAt, take_drop_eq_cells (by omega), count, bigD_leftPadBytes (by simp)]
  simp [bigD, BigEndian.value]

namespace Machine

variable {env : Env} {db : Database} {m : Machine} {closure : Closure} {l : Locals}

/-- The step of an RLP instruction that succeeds. -/
theorem step_rlp {op : OpCode} {newMemSize : Int} {mem : Bytes} {after : Locals}
    (isRlp : op = .rlpdecode ∨ op = .rlpencode) (running : m.control = .running closure l)
    (found : opAt closure.code l.pc = some op) (costs : l.cost op = some (1, newMemSize))
    (gas : 1 + (l.memoryCost newMemSize).1 ≤ closure.gas)
    (resized : Memory.resize l.mem (uint64 (l.memoryCost newMemSize).2) = some mem)
    (executes : ∀ closure self caller callStack,
      ({ l with mem := mem } : Locals).exec env closure self caller callStack op =
      some (.next after)) :
    m.step env db = { m with
      control := .running { closure with gas := closure.gas - (1 + (l.memoryCost newMemSize).1) }
        { after with pc := after.pc + 1 } } := by
  have priced : m.world.cost env db closure l op = some (1, newMemSize, m.world) := by
    rcases isRlp with rfl | rfl
    · simp only [World.cost, costs, Option.bind_eq_bind, Option.bind_some]
      rfl
    · simp only [World.cost, costs, Option.bind_eq_bind, Option.bind_some]
      rfl
  have performs : ∀ (base : Machine) (closure : Closure) (locals : Locals),
      locals.exec env closure (base.world.heap closure.object).address
          (base.world.heap closure.caller).address base.callStack op = some (.next after) →
        base.perform env db closure locals op = base.settle closure (.next after) := by
    intro base closure locals executed
    rcases isRlp with rfl | rfl
    · simp only [perform, executed]
    · simp only [perform, executed]
  rw [step_paid ⟨closure, l, op, 1, newMemSize, m.world, mem, running, found, priced, gas, resized⟩]
  exact performs _ _ _ (executes _ _ _ _)

/-- The machine goes on with another memory and another stack. -/
def goesOn (m : Machine) (closure : Closure) (l : Locals) (gas : Int) (stack : List Int)
    (mem : Bytes) :
    Machine :=
  { m with control := .running { closure with gas := closure.gas - gas } ⟨l.pc + 1, stack, mem⟩ }

section Decode

variable {items : List Bytes} {offset start : Nat} {rest : List Int}

theorem step_rlpdecode (running : m.control = .running closure l)
    (found : opAt closure.code l.pc = some .rlpdecode)
    (stack : l.stack =
      (offset : Int) :: (encode (.list (items.map .bytes))).length :: (start : Int) :: rest)
    (short : ∀ item ∈ items, item.length ≤ 32) (limit : l.mem.length < 2 ^ 63)
    (located : (l.mem.drop offset).take (encode (.list (items.map .bytes))).length =
      encode (.list (items.map .bytes)))
    (space : start + 32 * (3 * items.length + 1) ≤ 2 ^ 47)
    (gas : copyGas l start (32 * items.length) ≤ closure.gas) :
    ∃ mem, m.step env db = m.goesOn closure l (copyGas l start (32 * items.length))
        (items.length :: rest) mem ∧
      Unpacked mem start items := by
  have positive := length_encode_pos (.list (items.map .bytes))
  have fits : offset + (encode (.list (items.map .bytes))).length ≤ l.mem.length := by
    have lengths := congrArg List.length located
    rw [List.length_take, List.length_drop] at lengths
    omega
  rw [take_drop_eq_cells fits] at located
  have bounds : 0 ≤ calcMemSize start (32 * items.length) ∧
      calcMemSize start (32 * items.length) ≤ 2 ^ 47 := by
    unfold calcMemSize
    split <;> omega
  have costs : l.cost .rlpdecode = some (1, calcMemSize start (32 * items.length)) := by
    simp only [Locals.cost, Locals.rlpItems_eq stack fits limit located, stack, Option.bind_eq_bind,
      Option.bind_some, List.getElem?_cons_succ, List.getElem?_cons_zero, List.length_map]
    rfl
  obtain ⟨mem, resized, same⟩ := exists_resize l bounds.1 bounds.2
  have size : uint64 (l.memoryCost (calcMemSize start (32 * items.length))).2 ≤ 2 ^ 48 := by
    unfold Locals.memoryCost uint64
    split <;> dsimp only <;> omega
  have lengthEq := Memory.length_resize resized
  have decoded : ({ l with mem := mem } : Locals).rlpItems = some (items.map decodedBytes) := by
    apply Locals.rlpItems_eq (l := { l with mem := mem }) stack
    case fits =>
      dsimp only
      omega
    case small =>
      dsimp only
      omega
    case located =>
      refine Eq.trans ?_ located
      exact cells_congr fun i _ => same (offset + i)
  obtain ⟨after, executed, unpacked⟩ :=
    Locals.exists_rlpDecode (l := { l with mem := mem }) decoded stack short space
  refine ⟨after, ?_, unpacked⟩
  exact step_rlp (.inl rfl) running found costs gas resized fun _ _ _ _ => executed

end Decode

theorem step_rlpencode {items : List Bytes} {start count dest : Nat} {rest : List Int}
    (running : m.control = .running closure l) (found : opAt closure.code l.pc = some .rlpencode)
    (unpacked : Unpacked l.mem start items) (space : start + 32 * (3 * items.length + 1) ≤ 2 ^ 47)
    (short : ∀ item ∈ items, item.length ≤ 32) (le : count ≤ items.length)
    (stack : l.stack = ((start + 32 : Nat) : Int) :: (count : Int) :: (dest : Int) :: rest)
    (room : dest + (encode (.list ((items.take count).map .bytes))).length ≤ 2 ^ 48)
    (gas : 1 ≤ closure.gas) :
    ∃ mem, m.step env db = m.goesOn closure l 1
        ((encode (.list ((items.take count).map .bytes))).length :: rest) mem ∧
      (mem.drop dest).take (encode (.list ((items.take count).map .bytes))).length =
        encode (.list ((items.take count).map .bytes)) := by
  obtain ⟨mem, executed, fits, written⟩ := unpacked.exists_rlpEncode space short le stack room
  have kept : Memory.resize l.mem (uint64 (l.memoryCost 0).2) = some l.mem := by
    simp [Locals.memoryCost, Memory.resize, uint64]
  have costs : l.cost .rlpencode = some (1, 0) := by
    simp only [Locals.cost, stack, Option.bind_eq_bind, List.getElem?_cons_succ,
      List.getElem?_cons_zero, Option.bind_some]
    rfl
  refine ⟨mem, ?_, (take_drop_eq_cells fits).trans written⟩
  exact step_rlp (.inr rfl) running found costs gas kept fun _ _ _ _ => executed

/-- `RLPDECODE` lays out a list whose number of items is read back, and which `RLPENCODE` then
encodes as it was, exactly when it has fewer than 256 items.  The items are slices of the memory,
so that the list and its layout have to be apart. -/
theorem rlpencode_undoes_rlpdecode (env : Env) (db : Database) (m : Machine) (closure : Closure)
    (l : Locals) (items : List Bytes) (offset start : Nat) (rest : List Int)
    (running : m.control = .running closure l) (found : opAt closure.code l.pc = some .rlpdecode)
    (stack : l.stack =
      (offset : Int) :: (encode (.list (items.map .bytes))).length :: (start : Int) :: rest)
    (short : ∀ item ∈ items, item.length ≤ 32)
    (_encoded : (encode (.list (items.map .bytes))).length < 2 ^ 31) (limit : l.mem.length < 2 ^ 63)
    (located : (l.mem.drop offset).take (encode (.list (items.map .bytes))).length =
      encode (.list (items.map .bytes)))
    (_apart : offset + (encode (.list (items.map .bytes))).length ≤ start ∨
      start + 32 * (3 * items.length + 1) ≤ offset)
    (space : start + 32 * (3 * items.length + 1) ≤ 2 ^ 47)
    (gas : copyGas l start (32 * items.length) ≤ closure.gas) :
    ∃ mem, m.step env db = m.goesOn closure l (copyGas l start (32 * items.length))
        (items.length :: rest) mem ∧
      ((wordAt mem start = items.length ∧
        ∀ (m' : Machine) (closure' : Closure) (l' : Locals) (dest : Nat) (rest' : List Int),
          m'.control = .running closure' l' → opAt closure'.code l'.pc = some .rlpencode →
          (l'.mem.drop start).take (32 * (3 * items.length + 1)) =
            (mem.drop start).take (32 * (3 * items.length + 1)) →
          l'.stack = ((start + 32 : Nat) : Int) :: wordAt l'.mem start :: (dest : Int) :: rest' →
          dest + (encode (.list (items.map .bytes))).length ≤ 2 ^ 48 → 1 ≤ closure'.gas →
          ∃ mem', m'.step env db = m'.goesOn closure' l' 1
              ((encode (.list (items.map .bytes))).length :: rest') mem' ∧
            (mem'.drop dest).take (encode (.list (items.map .bytes))).length =
              encode (.list (items.map .bytes))) ↔
        items.length < 256) := by
  obtain ⟨mem, stepped, unpacked⟩ :=
    step_rlpdecode running found stack short limit located space gas
  refine ⟨mem, stepped, ?_⟩
  have counted := unpacked.wordAt_eq
  constructor
  · rintro ⟨number, -⟩
    omega
  · intro few
    have whole : items.length % 256 = items.length := Nat.mod_eq_of_lt few
    rw [whole] at counted
    refine ⟨counted, ?_⟩
    intro m' closure' l' dest rest' running' found' same stack' room gas'
    have unpacked' := unpacked.congr same
    rw [unpacked'.wordAt_eq, whole] at stack'
    have encodes :=
      @step_rlpencode env db m' closure' l' items start items.length dest rest' running'
      found' unpacked' space short le_rfl stack'
    rw [List.take_length] at encodes
    exact encodes room gas'

/-- A closure with call data. -/
def dataClosure (code args : Bytes) : Closure := ⟨1, 0, code, args, 1000, 1⟩

/-- The machine that runs it. -/
abbrev dataMachine (code args : Bytes) : Machine :=
  runClosure (wordWorld code) [] [] (dataClosure code args)

/-- The call data of two items is copied to the memory and decoded behind it. -/
def decodeCode : Bytes := [0x60, 5, 0x60, 0, 0x60, 0, 0x37, 0x60, 32, 0x60, 5, 0x60, 0, 0x21, 0]

theorem rlpencode_undoes_rlpdecode_two :
    ∃ mem, ((dataMachine decodeCode [0xc4, 1, 0x82, 2, 3]).after callingEnv ∅ 7).step callingEnv ∅ =
        ((dataMachine decodeCode [0xc4, 1, 0x82, 2, 3]).after callingEnv ∅ 7).goesOn
          { dataClosure decodeCode [0xc4, 1, 0x82, 2, 3] with gas := 992 }
          ⟨13, [0, 5, 32], [0xc4, 1, 0x82, 2, 3] ++ List.replicate 27 0⟩ 3 [2] mem ∧
      wordAt mem 32 = 2 := by
  obtain ⟨mem, stepped, undoes⟩ := rlpencode_undoes_rlpdecode callingEnv ∅
    ((dataMachine decodeCode [0xc4, 1, 0x82, 2, 3]).after callingEnv ∅ 7)
    { dataClosure decodeCode [0xc4, 1, 0x82, 2, 3] with gas := 992 }
    ⟨13, [0, 5, 32], [0xc4, 1, 0x82, 2, 3] ++ List.replicate 27 0⟩ [[1], [2, 3]] 0 32 []
    rfl (by decide) rfl (by decide) (by decide) (by decide) (by decide) (by decide) (by decide)
    (by decide)
  exact ⟨mem, stepped, (undoes.mpr (by decide)).1⟩

/-- A list of 256 items, of one byte each. -/
def manyItems : List Bytes := List.replicate 256 [1]

/-- The list is copied to the memory, and decoded to the position 512. -/
def manyCode : Bytes :=
  [0x61, 1, 3, 0x60, 0, 0x60, 0, 0x37, 0x61, 2, 0, 0x61, 1, 3, 0x60, 0, 0x21, 0]

/-- `RLPDECODE` of 256 items pushes 256 and writes zero. -/
theorem rlpdecode_of_256_items :
    (encode (.list (manyItems.map .bytes))).length = 259 ∧
      ((dataMachine manyCode (encode (.list (manyItems.map .bytes)))).after callingEnv ∅ 7).stack? =
        some [0, 259, 512] ∧
      ∃ mem,
        ((dataMachine manyCode (encode (.list (manyItems.map .bytes)))).after callingEnv ∅ 8).mem? =
          some mem ∧
        ((dataMachine manyCode (encode (.list (manyItems.map .bytes)))).after callingEnv ∅
          8).stack? =
          some [256] ∧
        wordAt mem 512 = 0 := by
  have size : (encode (.list (manyItems.map .bytes))).length = 259 := by decide +kernel
  generalize machineEq :
    (dataMachine manyCode (encode (.list (manyItems.map .bytes)))).after callingEnv ∅ 7 = m
  have stack : m.stack? = some [0, 259, 512] := by
    subst machineEq
    decide +kernel
  have held : ∀ mem ∈ m.mem?, mem.length = 288 ∧
      mem.take 259 = encode (.list (manyItems.map .bytes)) := by
    subst machineEq
    decide +kernel
  have next : m.instruction = some .rlpdecode ∧ m.control.gas = 984 := by
    subst machineEq
    decide +kernel
  refine ⟨size, stack, ?_⟩
  rw [after_succ, machineEq]
  obtain ⟨closure, l, running⟩ : ∃ closure l, m.control = .running closure l := by
    unfold stack? at stack
    split at stack
    · exact ⟨_, _, ‹_›⟩
    · cases stack
  simp only [stack?, running, Option.some.injEq] at stack
  simp only [mem?, running, Option.mem_some_iff, forall_eq'] at held
  simp only [instruction, running, Control.gas] at next
  obtain ⟨memLength, located⟩ := held
  obtain ⟨found, gasEq⟩ := next
  have count : manyItems.length = 256 := List.length_replicate
  have gas : copyGas l (512 : Nat) (32 * manyItems.length) ≤ closure.gas := by
    simp only [copyGas, Locals.memoryCost, calcMemSize, count, memLength, gasEq]
    decide
  obtain ⟨mem, stepped, unpacked⟩ :=
    @step_rlpdecode callingEnv ∅ m closure l manyItems 0 512 [] running
    found (by rw [stack, size]; rfl) (by decide +kernel) (by omega)
    (by rw [List.drop_zero, size]; exact located) (by rw [count]; decide) gas
  rw [count] at stepped
  refine ⟨mem, ?_, ?_, ?_⟩
  · rw [stepped]
    rfl
  · rw [stepped]
    rfl
  · rw [unpacked.wordAt_eq, count]
    rfl

end Machine

end Thelonious
