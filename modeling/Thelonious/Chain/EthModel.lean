import Thelonious.Chain.Serialization

/-!
# The rules of `EthModel`

What `EthModel.ValidateBlock` asks of a block and the block its `PrevHash` names:
the signature, the difficulty, the times and the proof of work.  The recovery of
the signer's key is a parameter.  `none` is a panic.
-/

namespace Thelonious

/-- The errors that `ProcessWithParent` and the loop of `TestChain` return, with the values
their messages print. -/
inductive BlockErr
  | brokenChain (prevHash : Bytes)
  | receiptFailed
  | gasLimitErr
  | txShaErr (received got : Bytes)
  | invalidSigErr (signer coinbase : Bytes)
  | invalidDifficultyErr (observed expected : Int) (coinbase : Bytes)
  | timestampErr (diff time prevTime : Int)
  | nonceErr (nonce : Bytes)
  | uncleErr (message : String)
  | merkleRootErr (received got : Value)

namespace Header

/-- `Hash` of a block that has this header. -/
def hash (sha3Bin : Bytes → Bytes) (header : Header) : Bytes := sha3Bin (encode header.value)

/-- `HashNoNonce` -/
def hashNoNonce (sha3Bin : Bytes → Bytes) (header : Header) : Bytes :=
  sha3Bin (encode (.list [.bytes header.prevHash, .bytes header.uncleSha, .bytes header.coinbase,
    header.root, .bytes header.txSha, .bigInt header.difficulty, .bigInt header.number,
    .bigInt header.minGasPrice, .bigInt header.gasLimit, .bigInt header.gasUsed,
    .int header.time, .str header.extra]))

theorem prevHash_eq_of_encode {left right : Header} (short : (encode right.value).length < 2 ^ 64)
    (same : encode left.value = encode right.value) : left.prevHash = right.prevHash := by
  have rightFits : right.value.Fits := Value.fits_of_length_encode _ short
  have leftFits : left.value.Fits := by
    apply Value.fits_of_length_encode
    rw [same]
    exact short
  have contents := content_eq_of_encode_eq leftFits rightFits same
  simp only [value, Value.content, Value.contents, Item.list.injEq, List.cons.injEq,
    Item.str.injEq] at contents
  exact contents.1

end Header

/-- `adjustDifficulty`; the sum of the times is an `int64`. -/
def adjustDifficulty (oldDiff oldTime newTime target : Int) : Int :=
  let adjust := oldDiff >>> 8
  if int64 (oldTime + target) ≤ newTime then oldDiff - adjust else oldDiff + adjust

/-- `EthDifficulty` -/
def ethDifficulty (timeTarget : Int) (block parent : Header) : Int :=
  adjustDifficulty parent.difficulty parent.time block.time timeTarget

/-- `EasyPow.Verify`, which divides by the difficulty. -/
def easyPowVerify (sha3Bin : Bytes → Bytes) (hash : Bytes) (diff : Int) (nonce : Bytes) :
    Option Bool :=
  if diff = 0 then none
  else some (decide (bigD (sha3Bin (hash ++ nonce)) < 2 ^ 256 / diff))

/-- The nonce of the header proves the work of its difficulty. -/
def Header.Proven (sha3Bin : Bytes → Bytes) (header : Header) : Prop :=
  easyPowVerify sha3Bin (header.hashNoNonce sha3Bin) header.difficulty header.nonce = some true

instance (sha3Bin : Bytes → Bytes) (header : Header) : Decidable (header.Proven sha3Bin) :=
  inferInstanceAs (Decidable (_ = _))

/-- The difference that `CheckBlockTimes` takes, which is an `int64`. -/
def timeSince (prevBlock block : Header) : Int := int64 (block.time - prevBlock.time)

/-- `Signer`; it looks at the first byte of the recovered key. -/
def Block.signer (sha3Bin : Bytes → Bytes) (recoverPubkey : Bytes → Bytes → Bytes)
    (block : Block) : Option Bytes :=
  if block.r.length = 0 ∨ block.s.length = 0 then some [0]
  else
    let sig := leftPadBytes block.r 32 ++ leftPadBytes block.s 32 ++ [block.v - 27]
    match recoverPubkey (block.hash sha3Bin) sig with
    | [] => none
    | tag :: key => some (if tag ≠ 4 then [] else (sha3Bin key).drop 12)

/-- The rules, with what they take from outside; `blockTime` is the one of the genesis
configuration. -/
structure EthModel where
  sha3Bin : Bytes → Bytes
  recoverPubkey : Bytes → Bytes → Bytes
  blockTime : Int

namespace EthModel

variable (model : EthModel)

/-- `Difficulty` -/
def difficulty (block parent : Header) : Int := ethDifficulty model.blockTime block parent

/-- `ValidateBlock`; `prevBlock` is what the chain manager has under `PrevHash`. -/
def validateBlock (prevBlock : Option Header) (block : Block) : Option (Except BlockErr Unit) := do
  let header := block.header
  let signer ← block.signer model.sha3Bin model.recoverPubkey
  if signer ≠ header.coinbase then return .error (.invalidSigErr signer header.coinbase)
  let prevBlock ← prevBlock
  let newdiff := model.difficulty header prevBlock
  if header.difficulty ≠ newdiff then
    return .error (.invalidDifficultyErr header.difficulty newdiff header.coinbase)
  let diff := timeSince prevBlock header
  if diff < 0 then return .error (.timestampErr diff header.time prevBlock.time)
  let verified ← easyPowVerify model.sha3Bin (header.hashNoNonce model.sha3Bin) header.difficulty
    header.nonce
  return if verified then .ok () else .error (.nonceErr header.nonce)

/-- What a block that passes satisfies together with its parent. -/
structure Validates (prevBlock : Header) (block : Block) : Prop where
  signer : block.signer model.sha3Bin model.recoverPubkey = some block.header.coinbase
  difficulty : block.header.difficulty = model.difficulty block.header prevBlock
  times : 0 ≤ timeSince prevBlock block.header
  proven : block.header.Proven model.sha3Bin

variable {model}

theorem validateBlock_ok_iff {prevBlock : Option Header} {block : Block} :
    model.validateBlock prevBlock block = some (.ok ()) ↔
      ∃ parent, prevBlock = some parent ∧ model.Validates parent block := by
  constructor
  · intro validated
    obtain ⟨signer, signerEq, validated⟩ := Option.bind_eq_some_iff.mp validated
    by_cases signed : signer = block.header.coinbase
    case neg =>
      rw [if_pos signed] at validated
      cases validated
    rw [if_neg (not_not.mpr signed)] at validated
    obtain ⟨parent, known, validated⟩ := Option.bind_eq_some_iff.mp validated
    dsimp only at validated
    by_cases adjusted : block.header.difficulty = model.difficulty block.header parent
    case neg =>
      rw [if_pos adjusted] at validated
      cases validated
    rw [if_neg (not_not.mpr adjusted)] at validated
    by_cases late : timeSince parent block.header < 0
    case pos =>
      rw [if_pos late] at validated
      cases validated
    rw [if_neg late] at validated
    obtain ⟨verified, verifiedEq, validated⟩ := Option.bind_eq_some_iff.mp validated
    cases verified with
    | false => cases validated
    | true => exact ⟨parent, known, signed ▸ signerEq, adjusted, not_lt.mp late, verifiedEq⟩
  · rintro ⟨parent, rfl, validates⟩
    have proven := validates.proven
    unfold Header.Proven at proven
    simp only [validateBlock, validates.signer, ← validates.difficulty, not_lt.mpr validates.times,
      proven, ne_eq, not_true_eq_false, if_false, if_true, bind, Option.bind, pure]

end EthModel

/-- The times of blocks that came with less than `2 ^ 63` seconds are not mixed up. -/
theorem time_le_of_timeSince {prevBlock block : Header} (nonneg : 0 ≤ block.time)
    (prevNonneg : 0 ≤ prevBlock.time) (prevSmall : prevBlock.time < 2 ^ 63)
    (small : block.time < 2 ^ 63) :
    0 ≤ timeSince prevBlock block ↔ prevBlock.time ≤ block.time := by
  have exact : timeSince prevBlock block = block.time - prevBlock.time := by
    apply Int.bmod_eq_of_le
    · omega
    · omega
  rw [exact]
  omega

/-- A time from `2 ^ 63` on is read as a negative one; it is not found to be before 10. -/
example : int64 ((5 - 2 ^ 63) - 10) = 2 ^ 63 - 5 := by
  decide

end Thelonious
