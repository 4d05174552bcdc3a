import Thelonious.Trie.Iterator

/-!
# State objects and the state

A `StateObject` keeps the storage entries written since the last `Sync` in a Go
map; `Sync` moves them to its trie.  `State.Update` does so for every object and
writes the account to the trie of the state.

Go visits the entries of a map in an arbitrary order.  The functions take the
order they follow as an argument.
-/

namespace Thelonious

/-- The map `storage` of an object. -/
abbrev Storage := AssocMap Bytes Value

/-- An order of the entries of a storage map. -/
abbrev StorageOrder := List (Sigma fun _ : Bytes => Value)

structure StateObject where
  address : Bytes
  nonce : UInt64
  balance : Int
  code : Bytes
  initCode : Bytes
  trie : Trie
  storage : Storage
  gasPool : Int
  remove : Bool

namespace StateObject

section Hashing

variable (sha3Bin : Bytes → Bytes)

/-- The body of the loop of `Sync`: `Trie.Delete`, or `SetAddr`. -/
def syncEntry (db : Database) (trie : Trie) (entry : Sigma fun _ : Bytes => Value) :
    Option Trie :=
  if entry.2.len = 0 then trie.delete sha3Bin db entry.1
  else trie.update sha3Bin db entry.1 (encode entry.2)

/-- `Sync` -/
def sync (db : Database) (depth : Nat) (order : StorageOrder) (object : StateObject) :
    Option StateObject := do
  let trie ← order.foldlM (syncEntry sha3Bin db) object.trie
  let trie ← trie.paranoid sha3Bin db depth
  return { object with trie := trie }

/-- `CodeHash` -/
def codeHash (object : StateObject) : Bytes :=
  if 0 < object.code.length then sha3Bin object.code else []

/-- `RlpEncode` -/
def rlpEncode (object : StateObject) : Bytes :=
  encode (.list [.uint64 object.nonce, .bigInt object.balance, object.trie.root,
    .bytes (object.codeHash sha3Bin)])

end Hashing

end StateObject

/-- A state; `α` is what its map has for an object: the object, or a pointer to it. -/
structure State (α : Type) where
  trie : Trie
  stateObjects : AssocMap Bytes α

namespace State

variable (sha3Bin : Bytes → Bytes)

/-- `UpdateStateObject`, which also writes the code to the database. -/
def updateStateObject (db : Database) (state : State StateObject) (stateObject : StateObject) :
    Option (Database × State StateObject) := do
  let codeHash := stateObject.codeHash sha3Bin
  let db := if 0 < codeHash.length then db.put codeHash stateObject.code else db
  let trie ← state.trie.update sha3Bin db stateObject.address (stateObject.rlpEncode sha3Bin)
  return (db, { state with trie := trie })

/-- `DeleteStateObject` -/
def deleteStateObject (db : Database) (state : State StateObject) (stateObject : StateObject) :
    Option (State StateObject) := do
  let trie ← state.trie.delete sha3Bin db stateObject.address
  return ⟨trie, AList.erase stateObject.address state.stateObjects⟩

/-- The body of the loop of `Update`, for the object at an address whose storage is
traversed in the given order. -/
def updateEntry (depth : Nat) (slots : Bytes → StorageOrder)
    (current : Database × State StateObject)
    (address : Bytes) : Option (Database × State StateObject) :=
  let (db, state) := current
  match AList.lookup address state.stateObjects with
  | none => some current
  | some stateObject =>
      if stateObject.remove then do
        let state ← deleteStateObject sha3Bin db state stateObject
        return (db, state)
      else do
        let stateObject ← stateObject.sync sha3Bin db depth (slots address)
        updateStateObject sha3Bin db
          { state with stateObjects := AList.insert address stateObject state.stateObjects }
          stateObject

/-- `Update`, visiting the objects in the order of `addresses`. -/
def update (db : Database) (depth : Nat) (addresses : List Bytes)
    (slots : Bytes → StorageOrder) (state : State StateObject) :
    Option (Database × State StateObject) := do
  let (db, state) ← addresses.foldlM (updateEntry sha3Bin depth slots) (db, state)
  let trie ← state.trie.paranoid sha3Bin db depth
  return (db, { state with trie := trie })

end State

end Thelonious
