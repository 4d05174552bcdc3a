import Thelonious.Util.Big

/-!
# Transactions and blocks
-/

namespace Thelonious

structure Transaction where
  nonce : UInt64
  recipient : Bytes
  value : Int
  gas : Int
  gasPrice : Int
  data : Bytes
  v : UInt8
  r : Bytes
  s : Bytes
  contractCreation : Bool

/-- `GasValue` -/
def Transaction.gasValue (tx : Transaction) : Int := tx.gas * tx.gasPrice

structure Receipt where
  tx : Transaction
  postState : Bytes
  cumulativeGasUsed : Int

/-- The fields of `Block` that `header()` returns; `root` is `state.Trie.Root`. -/
structure Header where
  prevHash : Bytes
  uncleSha : Bytes
  coinbase : Bytes
  root : Value
  txSha : Bytes
  difficulty : Int
  number : Int
  minGasPrice : Int
  gasLimit : Int
  gasUsed : Int
  time : Int
  extra : Bytes
  nonce : Bytes

/-- `header()` -/
def Header.value (header : Header) : Value :=
  .list [.bytes header.prevHash, .bytes header.uncleSha, .bytes header.coinbase, header.root,
    .bytes header.txSha, .bigInt header.difficulty, .bigInt header.number,
    .bigInt header.minGasPrice, .bigInt header.gasLimit, .bigInt header.gasUsed,
    .int header.time, .str header.extra, .bytes header.nonce]

/-- `Block`.  Of an uncle only the header is set. -/
structure Block where
  header : Header
  transactions : List Transaction
  receipts : List Receipt
  uncles : List Header
  v : UInt8
  r : Bytes
  s : Bytes

/-- `Hash` -/
def Block.hash (sha3Bin : Bytes → Bytes) (block : Block) : Bytes :=
  sha3Bin (encode block.header.value)

end Thelonious
