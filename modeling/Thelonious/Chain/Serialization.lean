import Thelonious.Chain.Block
import Thelonious.Util.Plain
import Thelonious.Util.Sha3

/-!
# Blocks as byte strings

`RlpEncode` and `NewBlockFromBytes`.  The records are written field by field into
an untyped value and read back with the accessors of `value.go`; a reader that
asks for the right accessor cannot tell in which type the decoder returned a
field.
-/

namespace Thelonious

/-- `Value.Byte` -/
def Value.asByte : Value → UInt8
  | .byte single => single
  | _ => 0

namespace Transaction

/-- `Hash` -/
def hash (sha3Bin : Bytes → Bytes) (tx : Transaction) : Bytes :=
  sha3Bin (encode (.list [.uint64 tx.nonce, .bigInt tx.gasPrice, .bigInt tx.gas,
    .bytes tx.recipient, .bigInt tx.value, .bytes tx.data]))

/-- `RlpData`; the signature loses its leading zeros. -/
def rlpData (tx : Transaction) : Value :=
  .list [.uint64 tx.nonce, .bigInt tx.gasPrice, .bigInt tx.gas, .bytes tx.recipient,
    .bigInt tx.value, .bytes tx.data, .byte tx.v, .bytes (bigBytes (bigD tx.r)),
    .bytes (bigBytes (bigD tx.s))]

/-- `RlpValueDecode` on a new transaction -/
def rlpValueDecode (decoder : Value) : Transaction where
  nonce := (decoder.get 0).asUint
  gasPrice := (decoder.get 1).asBigInt
  gas := (decoder.get 2).asBigInt
  recipient := (decoder.get 3).asBytes
  value := (decoder.get 4).asBigInt
  data := (decoder.get 5).asBytes
  v := (decoder.get 6).asUint.toUInt8
  r := (decoder.get 7).asBytes
  s := (decoder.get 8).asBytes
  contractCreation := (decoder.get 3).asBytes.length = 0

end Transaction

namespace Receipt

/-- `RlpData` -/
def rlpData (receipt : Receipt) : Value :=
  .list [receipt.tx.rlpData, .bytes receipt.postState, .bigInt receipt.cumulativeGasUsed]

/-- `RlpValueDecode` -/
def rlpValueDecode (decoder : Value) : Receipt where
  tx := .rlpValueDecode (decoder.get 0)
  postState := (decoder.get 1).asBytes
  cumulativeGasUsed := (decoder.get 2).asBigInt

end Receipt

/-- The fields `RlpValueDecode` and `NewUncleBlockFromValue` read from a header. -/
def Header.rlpValueDecode (header : Value) : Header where
  prevHash := (header.get 0).asBytes
  uncleSha := (header.get 1).asBytes
  coinbase := (header.get 2).asBytes
  root := header.get 3
  txSha := (header.get 4).asBytes
  difficulty := (header.get 5).asBigInt
  number := (header.get 6).asBigInt
  minGasPrice := (header.get 7).asBigInt
  gasLimit := (header.get 8).asBigInt
  gasUsed := (header.get 9).asBigInt
  time := int64 (uint64 (header.get 10).asBigInt)
  extra := (header.get 11).asStr
  nonce := (header.get 12).asBytes

namespace Block

/-- `Value` -/
def value (block : Block) : Value :=
  .list [block.header.value, .list (block.receipts.map Receipt.rlpData),
    .list (block.uncles.map Header.value), .list [.byte block.v, .bytes block.r, .bytes block.s]]

/-- `RlpEncode` -/
def rlpEncode (block : Block) : Bytes := encode block.value

/-- `for i := 0; i < list.Len(); i++ { read(list.Get(i)) }`, unless the list is nil. -/
def readAll {α : Type} (read : Value → α) (list : Value) : List α :=
  if list.isNil then [] else (List.range list.len).map fun i => read (list.get i)

/-- `RlpValueDecode` on a new block -/
def rlpValueDecode (decoder : Value) : Block :=
  let receipts := readAll Receipt.rlpValueDecode (decoder.get 1)
  let sig := decoder.get 3
  { header := .rlpValueDecode (decoder.get 0)
    transactions := receipts.map Receipt.tx
    receipts := receipts
    uncles := readAll Header.rlpValueDecode (decoder.get 2)
    v := (sig.get 0).asByte
    r := if sig.isNil then [] else (sig.get 1).asBytes
    s := if sig.isNil then [] else (sig.get 2).asBytes }

/-- `NewBlockFromBytes`, which panics on malformed data. -/
def newBlockFromBytes (raw : Bytes) : Option Block :=
  (newValueFromBytes raw).map rlpValueDecode

end Block

/-! ### Reading a decoded field -/

theorem decodedAll_contents_eq_map (items : List Value) :
    Item.decodedAll (Value.contents items) = items.map fun item => item.content.decoded := by
  induction items with
  | nil => rfl
  | cons item items induction => simp [Value.contents, Item.decodedAll, induction]

theorem decodedBytes_cases (data : Bytes) :
    (∃ single : UInt8, data = [single] ∧ single.toNat < 0x80 ∧ decodedBytes data = .byte single) ∨
      decodedBytes data = .bytes data := by
  unfold decodedBytes
  split
  · rename_i short
    obtain ⟨single, rfl⟩ := List.length_eq_one_iff.mp short.1
    have small : single ≤ 0x7f := short.2
    rw [UInt8.le_iff_toNat_le] at small
    exact .inl ⟨single, rfl, Nat.lt_succ_of_le small, rfl⟩
  · exact .inr rfl

theorem value_amount {amount : Int} (nonneg : 0 ≤ amount) :
    (BigEndian.value (bigBytes amount) : Int) = amount := by
  rw [value_bigBytes, Int.natAbs_of_nonneg nonneg]

@[simp] theorem asBytes_decodedBytes (data : Bytes) : (decodedBytes data).asBytes = data := by
  rcases decodedBytes_cases data with ⟨single, rfl, -, decodedEq⟩ | decodedEq <;>
    rw [decodedEq] <;> rfl

@[simp] theorem asStr_decodedBytes (data : Bytes) : (decodedBytes data).asStr = data := by
  rcases decodedBytes_cases data with ⟨single, rfl, small, decodedEq⟩ | decodedEq
  · rw [decodedEq]
    exact stringOfByte_small small
  · rw [decodedEq]
    rfl

@[simp] theorem asBigInt_decodedBytes (data : Bytes) :
    (decodedBytes data).asBigInt = BigEndian.value data := by
  rcases decodedBytes_cases data with ⟨single, rfl, small, decodedEq⟩ | decodedEq
  · have singleEq : (decodedBytes [single]).asBigInt = (single.toNat : Int).bmod (2 ^ 64) := by
      rw [decodedEq]
      rfl
    rw [singleEq, Int.bmod_eq_of_le (by omega) (by omega)]
    simp [BigEndian.value]
  · rw [decodedEq]
    rfl

@[simp] theorem asUint_decodedBytes (data : Bytes) :
    (decodedBytes data).asUint = UInt64.ofNat (BigEndian.value data) := by
  rcases decodedBytes_cases data with ⟨single, rfl, small, decodedEq⟩ | decodedEq
  · rw [decodedEq]
    apply UInt64.toNat_inj.mp
    simp [Value.asUint, BigEndian.value]
  · rw [decodedEq]
    rfl

theorem decodedBytes_of_length {data : Bytes} (notSingle : data.length ≠ 1) :
    decodedBytes data = .bytes data := by
  rw [decodedBytes, if_neg fun short => notSingle short.1]

theorem asByte_decodedBytes {v : UInt8} (small : v.toNat < 0x80) :
    (decodedBytes (bigBytes v.toNat)).asByte = v := by
  by_cases zero : v.toNat = 0
  · have isZero : v = 0 := UInt8.toNat_inj.mp zero
    rw [isZero]
    rfl
  · have positive : 0 < v.toNat := Nat.pos_of_ne_zero zero
    have digitsEq : Nat.digits 256 v.toNat = [v.toNat] :=
      Nat.digits_of_lt 256 _ (by omega) (by omega)
    have single : bigBytes v.toNat = [v] := by
      simp [bigBytes, BigEndian.digits, digitsEq]
    have le : v ≤ 0x7f := by
      rw [UInt8.le_iff_toNat_le]
      exact Nat.le_of_lt_succ small
    rw [single, decodedBytes, if_pos ⟨rfl, le⟩]
    rfl

theorem toInt_toInt64 {number : UInt64} (small : number.toNat < 2 ^ 63) :
    number.toInt64.toInt = number.toNat := by
  apply BitVec.toInt_eq_toNat_of_lt
  change 2 * number.toNat < 2 ^ 64
  omega

theorem int64_uint64 {time : Int} (nonneg : 0 ≤ time) (small : time < 2 ^ 63) :
    int64 (uint64 time) = time := by
  have natAbs : time.natAbs % 2 ^ 64 = time.natAbs := Nat.mod_eq_of_lt (by omega)
  rw [int64, uint64, natAbs, Int.bmod_eq_of_le (by omega) (by omega)]
  omega

theorem leftPadBytes_bigBytes {data : Bytes} (short : data.length ≤ 32) :
    leftPadBytes (bigBytes (bigD data)) 32 = leftPadBytes data 32 := by
  have digits : (bigBytes (bigD data)).length ≤ 32 := by
    apply BigEndian.length_digits_le_iff.mpr
    calc (bigD data).natAbs = BigEndian.value data := rfl
      _ < 256 ^ data.length := BigEndian.value_lt data
      _ ≤ 256 ^ 32 := Nat.pow_le_pow_right (by decide) short
  apply BigEndian.eq_of_value_eq
  · rw [leftPadBytes, leftPadBytes, if_neg (by omega), if_neg (by omega)]
    simp only [List.length_append, List.length_replicate]
    omega
  · rw [leftPadBytes, leftPadBytes, if_neg (by omega), if_neg (by omega),
      BigEndian.value_replicate_zero_append, BigEndian.value_replicate_zero_append, value_bigBytes]
    rfl

/-! ### Records -/

namespace Transaction

/-- A transaction as the node signs it: its numbers are not negative, and it creates a
contract exactly when it has no recipient. -/
structure Regular (tx : Transaction) : Prop where
  nonce : tx.nonce.toNat < 2 ^ 63
  gasPrice : 0 ≤ tx.gasPrice
  gas : 0 ≤ tx.gas
  value : 0 ≤ tx.value
  r : tx.r.length ≤ 32
  s : tx.s.length ≤ 32
  contractCreation : tx.contractCreation = true ↔ tx.recipient = []

/-- All fields agree, those of the signature when they are padded. -/
structure Agrees (sha3Bin : Bytes → Bytes) (tx other : Transaction) : Prop where
  nonce : other.nonce = tx.nonce
  gasPrice : other.gasPrice = tx.gasPrice
  gas : other.gas = tx.gas
  recipient : other.recipient = tx.recipient
  value : other.value = tx.value
  data : other.data = tx.data
  v : other.v = tx.v
  r : leftPadBytes other.r 32 = leftPadBytes tx.r 32
  s : leftPadBytes other.s 32 = leftPadBytes tx.s 32
  contractCreation : other.contractCreation = tx.contractCreation
  hash : other.hash sha3Bin = tx.hash sha3Bin

/-- The transaction without the leading zeros of its signature. -/
def trimmed (tx : Transaction) : Transaction :=
  { tx with r := bigBytes (bigD tx.r), s := bigBytes (bigD tx.s) }

theorem rlpValueDecode_decoded {tx : Transaction} (regular : tx.Regular) :
    rlpValueDecode tx.rlpData.content.decoded = tx.trimmed := by
  have nonceEq : UInt64.ofNat (BigEndian.value (bigBytes tx.nonce.toInt64.toInt)) = tx.nonce := by
    rw [value_bigBytes, toInt_toInt64 regular.nonce, Int.natAbs_natCast, UInt64.ofNat_toNat]
  have vEq : (UInt64.ofNat (BigEndian.value (bigBytes tx.v.toNat))).toUInt8 = tx.v := by
    rw [value_bigBytes, Int.natAbs_natCast]
    apply UInt8.toNat_inj.mp
    simp
  have creates : decide (tx.recipient.length = 0) = tx.contractCreation := by
    rw [Bool.eq_iff_iff, decide_eq_true_iff, regular.contractCreation, List.length_eq_zero_iff]
  simp only [rlpValueDecode, rlpData, Value.content, Value.contents, Item.decoded,
    Item.decodedAll, Value.get, List.getD_cons_zero, List.getD_cons_succ, asUint_decodedBytes,
    asBigInt_decodedBytes, asBytes_decodedBytes, nonceEq, vEq, creates,
    value_amount regular.gasPrice, value_amount regular.gas, value_amount regular.value, trimmed]

theorem Regular.agrees_trimmed {tx : Transaction} (regular : tx.Regular)
    (sha3Bin : Bytes → Bytes) : tx.Agrees sha3Bin tx.trimmed where
  nonce := rfl
  gasPrice := rfl
  gas := rfl
  recipient := rfl
  value := rfl
  data := rfl
  v := rfl
  r := leftPadBytes_bigBytes regular.r
  s := leftPadBytes_bigBytes regular.s
  contractCreation := rfl
  hash := rfl

end Transaction

namespace Receipt

structure Regular (receipt : Receipt) : Prop where
  tx : receipt.tx.Regular
  cumulativeGasUsed : 0 ≤ receipt.cumulativeGasUsed

structure Agrees (sha3Bin : Bytes → Bytes) (receipt other : Receipt) : Prop where
  tx : receipt.tx.Agrees sha3Bin other.tx
  postState : other.postState = receipt.postState
  cumulativeGasUsed : other.cumulativeGasUsed = receipt.cumulativeGasUsed

def trimmed (receipt : Receipt) : Receipt := { receipt with tx := receipt.tx.trimmed }

theorem Regular.agrees_trimmed {receipt : Receipt} (regular : receipt.Regular)
    (sha3Bin : Bytes → Bytes) : receipt.Agrees sha3Bin receipt.trimmed where
  tx := regular.tx.agrees_trimmed sha3Bin
  postState := rfl
  cumulativeGasUsed := rfl

theorem rlpValueDecode_decoded {receipt : Receipt} (regular : receipt.Regular) :
    rlpValueDecode receipt.rlpData.content.decoded = receipt.trimmed := by
  simp only [rlpValueDecode, rlpData, Value.content, Value.contents, Item.decoded,
    Item.decodedAll, Value.get, List.getD_cons_zero, List.getD_cons_succ, asBigInt_decodedBytes,
    asBytes_decodedBytes, value_amount regular.cumulativeGasUsed,
    Transaction.rlpValueDecode_decoded regular.tx, trimmed]

end Receipt

namespace Header

/-- A header as the node writes it.  The root is empty, or the hash of a node. -/
structure Regular (header : Header) : Prop where
  root : ∃ data : Bytes, (header.root = .str data ∨ header.root = .bytes data) ∧
    (data = [] ∨ data.length = 32)
  difficulty : 0 ≤ header.difficulty
  number : 0 ≤ header.number
  minGasPrice : 0 ≤ header.minGasPrice
  gasLimit : 0 ≤ header.gasLimit
  gasUsed : 0 ≤ header.gasUsed
  time : 0 ≤ header.time
  /-- the range of `int64` -/
  timeRange : header.time < 2 ^ 63

/-- The header with its root as the byte slice the decoder returns. -/
def reread (header : Header) : Header := { header with root := .bytes header.root.asBytes }

theorem Regular.content_root {header : Header} (regular : header.Regular) :
    header.root.content = .str header.root.asBytes ∧ header.root.asBytes.length ≠ 1 := by
  obtain ⟨data, isData, length⟩ := regular.root
  have notSingle : data.length ≠ 1 := by
    rcases length with rfl | length
    · decide
    · omega
  rcases isData with isStr | isBytes
  · rw [isStr]
    exact ⟨rfl, notSingle⟩
  · rw [isBytes]
    exact ⟨rfl, notSingle⟩

theorem rlpValueDecode_decoded {header : Header} (regular : header.Regular) :
    rlpValueDecode header.value.content.decoded = header.reread := by
  obtain ⟨rootEq, notSingle⟩ := regular.content_root
  simp only [rlpValueDecode, value, Value.content, Value.contents, Item.decoded,
    Item.decodedAll, Value.get, List.getD_cons_zero, List.getD_cons_succ, asBigInt_decodedBytes,
    asBytes_decodedBytes, asStr_decodedBytes, rootEq, decodedBytes_of_length notSingle,
    value_amount regular.difficulty, value_amount regular.number, value_amount regular.minGasPrice,
    value_amount regular.gasLimit, value_amount regular.gasUsed, value_amount regular.time,
    int64_uint64 regular.time regular.timeRange, reread]

theorem Regular.encode_reread {header : Header} (regular : header.Regular) :
    encode header.reread.value = encode header.value := by
  apply encode_congr
  simp only [value, reread, Value.content, Value.contents, regular.content_root.1]

end Header

namespace Block

structure Regular (block : Block) : Prop where
  header : block.header.Regular
  receipts : ∀ receipt ∈ block.receipts, receipt.Regular
  uncles : ∀ uncle ∈ block.uncles, uncle.Regular
  v : block.v.toNat < 0x80

/-- A list that was written item by item is read item by item. -/
theorem readAll_decoded {α β : Type} {read : Value → α} {write : β → Value} {back : β → α}
    {items : List β} (reads : ∀ item ∈ items, read (write item).content.decoded = back item) :
    readAll read (.list (Item.decodedAll (Value.contents (items.map write)))) =
      items.map back := by
  rw [decodedAll_contents_eq_map]
  apply List.ext_getElem
  · simp [readAll]
  · intro i inside inRange
    simp only [List.length_map] at inRange
    simpa [readAll, Value.get, inRange] using reads _ (List.getElem_mem inRange)

/-- What is read back from an encoding. -/
theorem newBlockFromBytes_rlpEncode {block : Block} (regular : block.Regular)
    (fits : block.rlpEncode.length < 2 ^ 64) :
    newBlockFromBytes block.rlpEncode = some
      { header := block.header.reread
        transactions := (block.receipts.map Receipt.trimmed).map Receipt.tx
        receipts := block.receipts.map Receipt.trimmed
        uncles := block.uncles.map Header.reread
        v := block.v
        r := block.r
        s := block.s } := by
  have receiptsEq := readAll_decoded fun receipt member =>
    Receipt.rlpValueDecode_decoded (regular.receipts receipt member)
  have unclesEq := readAll_decoded fun uncle member =>
    Header.rlpValueDecode_decoded (regular.uncles uncle member)
  rw [newBlockFromBytes, rlpEncode,
    newValueFromBytes_encode _ (Value.fits_of_length_encode _ fits), Option.map_some]
  simp only [rlpValueDecode, value, Value.content, Value.contents, Item.decoded,
    Item.decodedAll, Value.get, List.getD_cons_zero, List.getD_cons_succ, receiptsEq, unclesEq,
    asBytes_decodedBytes, asByte_decodedBytes regular.v,
    Header.rlpValueDecode_decoded regular.header, Value.isNil_list, Bool.false_eq_true, if_false]

/-- The blocks have the same hash, uncles, receipts and signature.  The headers of the
uncles agree in every field, and in what they are hashed as. -/
structure Agrees (sha3Bin : Bytes → Bytes) (block other : Block) : Prop where
  hash : other.hash sha3Bin = block.hash sha3Bin
  uncles : other.uncles = block.uncles.map Header.reread
  headers : other.uncles.map (fun uncle => encode uncle.value) =
    block.uncles.map fun uncle => encode uncle.value
  receipts : List.Forall₂ (Receipt.Agrees sha3Bin) block.receipts other.receipts
  v : other.v = block.v
  r : other.r = block.r
  s : other.s = block.s

/-- A block is read back from its encoding. -/
theorem newBlockFromBytes_agrees (sha3Bin : Bytes → Bytes) (block : Block)
    (regular : block.Regular) (fits : block.rlpEncode.length < 2 ^ 64) :
    ∃ other, newBlockFromBytes block.rlpEncode = some other ∧ block.Agrees sha3Bin other := by
  refine ⟨_, newBlockFromBytes_rlpEncode regular fits, ?_⟩
  constructor
  case hash => exact congrArg sha3Bin regular.header.encode_reread
  case uncles => rfl
  case headers =>
    rw [List.map_map]
    apply List.map_congr_left
    intro uncle member
    exact (regular.uncles uncle member).encode_reread
  case receipts =>
    apply List.forall₂_map_right_iff.mpr
    apply List.forall₂_same.mpr
    intro receipt member
    exact (regular.receipts receipt member).agrees_trimmed sha3Bin
  case v => rfl
  case r => rfl
  case s => rfl

/-- A block with one receipt and itself as an uncle; the signature of the transaction
starts with a zero. -/
def signedBlock : Block :=
  let header : Header :=
    ⟨[1, 2], [], [3], .str [], [4], 1, 1, 0, 1000000, 0, 1400000000, [0x61], [9]⟩
  let tx : Transaction := ⟨1, [], 0, 500, 10, [0x60], 27, [0, 5], [7], true⟩
  ⟨header, [tx], [⟨tx, [0, 6], 500⟩], [header], 28, [8], [0]⟩

/-- Keccak-256 of the header and of the transaction. -/
def signedBlockHash : Bytes → Bytes :=
  sampled
    [([0xd6, 0x82, 0x01, 0x02, 0x80, 0x03, 0x80, 0x04, 0x01, 0x01, 0x80, 0x83, 0x0f, 0x42,
      0x40, 0x80, 0x84, 0x53, 0x72, 0x4e, 0x00, 0x61, 0x09],
        digest 0xbcddc6abb3d9c586b6569aab010eb24dfbbb6c1503ff181d09bdb3c4ae12116e),
      ([0xc8, 0x01, 0x0a, 0x82, 0x01, 0xf4, 0x80, 0x80, 0x60],
        digest 0xb856bdd9dfbe9bfe10804ff740b45ec466ce45f5c5a29f4b452705c5ab669f4d)]
    fun _ => digest 0

theorem newBlockFromBytes_signedBlock :
    signedBlock.Regular ∧ ∃ other, newBlockFromBytes signedBlock.rlpEncode = some other ∧
      signedBlock.Agrees signedBlockHash other := by
  have regularTx : (⟨1, [], 0, 500, 10, [0x60], 27, [0, 5], [7], true⟩ : Transaction).Regular :=
    ⟨by decide, by decide, by decide, by decide, by decide, by decide, by decide⟩
  have regularHeader : signedBlock.header.Regular :=
    ⟨⟨[], .inl rfl, .inl rfl⟩, by decide, by decide, by decide, by decide, by decide, by decide,
      by decide⟩
  have regular : signedBlock.Regular := by
    constructor
    case header => exact regularHeader
    case receipts =>
      intro receipt member
      obtain rfl := List.mem_singleton.mp member
      exact ⟨regularTx, by decide⟩
    case uncles =>
      intro uncle member
      obtain rfl := List.mem_singleton.mp member
      exact regularHeader
    case v => decide
  exact ⟨regular, newBlockFromBytes_agrees signedBlockHash signedBlock regular (by decide +kernel)⟩

end Block

end Thelonious
