import Thelonious.Chain.Serialization
import Thelonious.State.World

/-!
# Integers in encodings

A `uint64` is converted to an `int64` before it is written, and only the absolute value of the
result is: a number above `2 ^ 63` is written as what it lacks of `2 ^ 64`.  A big integer that
is not negative is read back as it was.
-/

namespace Thelonious

/-- What is written for a `uint64`. -/
theorem natAbs_toInt_toInt64 (number : UInt64) :
    number.toInt64.toInt.natAbs =
      if number.toNat ≤ 2 ^ 63 then number.toNat else 2 ^ 64 - number.toNat := by
  have bound := number.toNat_lt
  have signed : number.toInt64.toInt = (number.toNat : Int).bmod (2 ^ 64) :=
    BitVec.toInt_eq_toNat_bmod number.toBitVec
  rw [signed, Int.bmod_def]
  split <;> split <;> omega

theorem length_bigBytes_uint64 (number : UInt64) :
    (bigBytes number.toInt64.toInt).length ≤ 8 := by
  have bound := number.toNat_lt
  apply BigEndian.length_digits_le_iff.mpr
  rw [natAbs_toInt_toInt64]
  split <;> omega

theorem fits_uint64 (number : UInt64) : (Value.uint64 number).Fits :=
  Nat.lt_of_le_of_lt (length_bigBytes_uint64 number) (by decide)

theorem asUint_decoded (number : UInt64) :
    (Value.uint64 number).content.decoded.asUint = number ↔ number.toNat ≤ 2 ^ 63 := by
  have bound := number.toNat_lt
  have read : (Value.uint64 number).content.decoded.asUint =
      UInt64.ofNat number.toInt64.toInt.natAbs := by
    rw [← value_bigBytes]
    exact asUint_decodedBytes _
  rw [read, natAbs_toInt_toInt64, ← UInt64.toNat_inj]
  split
  · rename_i small
    rw [UInt64.ofNat_toNat]
    exact iff_of_true rfl small
  · rename_i large
    apply iff_of_false _ large
    rw [UInt64.toNat_ofNat']
    omega

theorem content_uint64_eq_iff (left right : UInt64) :
    (Value.uint64 left).content = (Value.uint64 right).content ↔
      left = right ∨ left.toNat + right.toNat = 2 ^ 64 := by
  have leftBound := left.toNat_lt
  have rightBound := right.toNat_lt
  have contents : (Value.uint64 left).content = (Value.uint64 right).content ↔
      left.toInt64.toInt.natAbs = right.toInt64.toInt.natAbs := by
    constructor
    · intro same
      rw [← value_bigBytes, ← value_bigBytes, Item.str.inj same]
    · intro same
      simp only [Value.content, bigBytes, same]
  rw [contents, natAbs_toInt_toInt64, natAbs_toInt_toInt64, ← UInt64.toNat_inj]
  split <;> split <;> omega

namespace Transaction

/-- What `Hash` hashes. -/
def signingData (tx : Transaction) : Value :=
  .list [.uint64 tx.nonce, .bigInt tx.gasPrice, .bigInt tx.gas, .bytes tx.recipient,
    .bigInt tx.value, .bytes tx.data]

theorem content_nonce_eq {tx other : Transaction}
    (short : (encode other.signingData).length < 2 ^ 64)
    (same : encode tx.signingData = encode other.signingData) :
    (Value.uint64 tx.nonce).content = (Value.uint64 other.nonce).content := by
  have contents := content_eq_of_encode_eq
    (Value.fits_of_length_encode _ (same ▸ short)) (Value.fits_of_length_encode _ short) same
  exact (List.cons.inj (Item.list.inj contents)).1

theorem encode_signingData_nonce (tx : Transaction) {nonce : UInt64}
    (opposite : nonce.toNat + tx.nonce.toNat = 2 ^ 64) :
    encode { tx with nonce := nonce }.signingData = encode tx.signingData := by
  apply encode_congr
  have nonces := (content_uint64_eq_iff nonce tx.nonce).mpr (.inr opposite)
  simp only [signingData, Value.content, Value.contents] at nonces ⊢
  rw [nonces]

/-- A transaction that has nothing but a nonce. -/
def ofNonce (nonce : UInt64) : Transaction := ⟨nonce, [], 0, 0, 0, [], 0, [], [], false⟩

theorem length_encode_ofNonce (nonce : UInt64) :
    (encode (ofNonce nonce).signingData).length < 2 ^ 64 := by
  have written := length_encodeBytes_le (fits_uint64 nonce)
  have digits := length_bigBytes_uint64 nonce
  have items : (encodeItems [.uint64 nonce, .bigInt 0, .bigInt 0, .bytes [], .bigInt 0,
      .bytes []]).length = (encodeBytes (bigBytes nonce.toInt64.toInt)).length + 5 :=
    List.length_append
  change (encode (.list [.uint64 nonce, .bigInt 0, .bigInt 0, .bytes [], .bigInt 0,
    .bytes []])).length < 2 ^ 64
  rw [encode, List.length_append, items]
  have header := length_sliceHeader_le
    (by omega : (encodeBytes (bigBytes nonce.toInt64.toInt)).length + 5 < 2 ^ 64)
  omega

end Transaction

/-- The nonce of an account that has been written and read. -/
theorem nonce_fromBytes (sha3Bin : Bytes → Bytes) (db : Database) (object : StateObject)
    (short : (object.rlpEncode sha3Bin).length < 2 ^ 64) :
    (StateObject.fromBytes db object.address (object.rlpEncode sha3Bin)).map StateObject.nonce =
      some (Value.uint64 object.nonce).content.decoded.asUint := by
  have read := newValueFromBytes_encode _ (Value.fits_of_length_encode _ short)
  rw [StateObject.fromBytes, StateObject.rlpEncode, read]
  rfl

/-- A `uint64`, and the nonce of an account, is read back exactly when it is at most `2 ^ 63`.
A big integer that is not negative always is.  Two nonces can give the same input of the
signing hash exactly when their sum is `2 ^ 64`. -/
theorem integers_survive_iff (n : UInt64) :
    ((newValueFromBytes (encode (.uint64 n))).map Value.asUint = some n ↔ n.toNat ≤ 2 ^ 63) ∧
    (∀ b : Int, 0 ≤ b → (bigBytes b).length < 2 ^ 64 →
      (newValueFromBytes (encode (.bigInt b))).map Value.asBigInt = some b) ∧
    (∀ m : UInt64, n ≠ m →
      ((∀ tx other : Transaction, tx.nonce = n → other.nonce = m →
        (encode other.signingData).length < 2 ^ 64 →
          encode tx.signingData ≠ encode other.signingData) ↔ n.toNat + m.toNat ≠ 2 ^ 64)) ∧
    ∀ (sha3Bin : Bytes → Bytes) (db : Database) (object : StateObject),
      (object.rlpEncode sha3Bin).length < 2 ^ 64 →
      ((StateObject.fromBytes db object.address (object.rlpEncode sha3Bin)).map StateObject.nonce =
        some object.nonce ↔ object.nonce.toNat ≤ 2 ^ 63) := by
  refine ⟨?_, ?_, ?_, ?_⟩
  · rw [newValueFromBytes_encode _ (fits_uint64 n), Option.map_some, Option.some_inj]
    exact asUint_decoded n
  · intro b nonneg short
    rw [newValueFromBytes_encode (.bigInt b) short, Option.map_some, Option.some_inj]
    change (decodedBytes (bigBytes b)).asBigInt = b
    rw [asBigInt_decodedBytes, value_bigBytes]
    exact Int.natAbs_of_nonneg nonneg
  · intro m different
    constructor
    · intro never opposite
      exact never (.ofNonce n) (.ofNonce m) rfl rfl (Transaction.length_encode_ofNonce m)
        (Transaction.encode_signingData_nonce (.ofNonce m) opposite)
    · rintro apart tx other rfl rfl short same
      rcases (content_uint64_eq_iff _ _).mp (Transaction.content_nonce_eq short same) with
        equal | opposite
      · exact different equal
      · exact apart opposite
  · intro sha3Bin db object short
    rw [nonce_fromBytes sha3Bin db object short, Option.some_inj]
    exact asUint_decoded object.nonce

/-- The largest number that is read back, a big integer of nine bytes, and two nonces on
the same side of `2 ^ 63`. -/
theorem integers_survive_at :
    (newValueFromBytes (encode (.uint64 0x8000000000000000))).map Value.asUint =
      some 0x8000000000000000 ∧
    (newValueFromBytes (encode (.bigInt (2 ^ 64)))).map Value.asBigInt = some (2 ^ 64) ∧
    encode (Transaction.ofNonce 7).signingData ≠ encode (Transaction.ofNonce 8).signingData := by
  obtain ⟨uint, big, -, -⟩ := integers_survive_iff 0x8000000000000000
  obtain ⟨-, -, apart, -⟩ := integers_survive_iff 7
  refine ⟨uint.mpr (by decide), big _ (by decide) (by decide +kernel), ?_⟩
  exact (apart 8 (by decide)).mpr (by decide) _ _ rfl rfl (Transaction.length_encode_ofNonce 8)

/-- One more is read back as one less, and signed alike. -/
theorem uint64_above_half_is_lost :
    (newValueFromBytes (encode (.uint64 0x8000000000000001))).map Value.asUint =
      some 0x7fffffffffffffff ∧
    encode (Transaction.ofNonce 0x8000000000000001).signingData =
      encode (Transaction.ofNonce 0x7fffffffffffffff).signingData := by
  constructor
  · decide +kernel
  · decide +kernel

end Thelonious
