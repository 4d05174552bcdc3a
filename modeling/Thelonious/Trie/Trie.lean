import Thelonious.Trie.Cache
import Thelonious.Trie.Encoding

/-!
# The trie of `trie.go`

A node reference is a dynamic value: an inline list, the hash of a node, or a
stored value.  The recursive functions take `fuel`, the number of nodes they may
still visit; every node of a trie uses up a part of the key, so one more than
the length of the key suffices.  `none` is a panic.

`Cache.Get` stores what it reads, so every function returns the cache along with
its result.
-/

namespace Thelonious

structure Trie where
  prevRoot : Value
  root : Value
  cache : Cache

namespace Trie

/-- `New` -/
def new (root : Value) : Trie := ⟨root, root, .new⟩

/-- `getNode` -/
def getNode (db : Database) (cache : Cache) (node : Value) : Option (Value × Cache) :=
  if ¬ (node.get 0).isNil then some (node, cache)
  else if node.asStr.length = 0 then some (node, cache)
  else if node.asStr.length < 32 then do
    let value ← newValueFromBytes node.asStr
    return (value, cache)
  else cache.get db node.asBytes

/-- `getState` -/
def getState (db : Database) : Nat → Cache → Value → List Nibble → Option (Value × Cache)
  | 0, _, _, _ => none
  | _ + 1, cache, node, [] => some (node, cache)
  | fuel + 1, cache, node, nibble :: rest =>
      if node.isNil ∨ node.len = 0 then some (node, cache)
      else do
        let (currentNode, cache) ← getNode db cache node
        if currentNode.len = 0 then return (.str [], cache)
        else if currentNode.len = 2 then
          let k ← compactDecode (currentNode.get 0).asStr
          let v := currentNode.get 1
          if k <+: nibble :: rest then
            getState db fuel cache v ((nibble :: rest).drop k.length)
          else return (.str [], cache)
        else if currentNode.len = 17 then
          getState db fuel cache (currentNode.get nibble) rest
        else none

/-- A branch node copied into a fresh slice of 17 empty strings. -/
def copySlots (currentNode : Value) : List Value :=
  (List.finRange 17).map fun i =>
    let cpy := currentNode.get i.val
    if cpy.isNil then .str [] else cpy

/-- The slice of 17 empty strings with two slots filled. -/
def scaledSlice (oldSlot : Nibble) (oldNode : Value) (newSlot : Nibble) (newNode : Value) :
    List Value :=
  ((List.replicate 17 (.str [])).set oldSlot oldNode).set newSlot newNode

section Hashing

variable (sha3Bin : Bytes → Bytes)

/-- `Put` -/
def put (cache : Cache) (node : Value) : Value × Cache :=
  cache.putValue sha3Bin node false

/-- `[]interface{}{CompactEncode(path), child}`, put into the cache. -/
def putShort (cache : Cache) (path : List Nibble) (child : Value) : Option (Value × Cache) := do
  let encoded ← compactEncode path
  return put sha3Bin cache (.list [.str encoded, child])

/-- `InsertState` -/
def insertState (db : Database) :
    Nat → Cache → Value → List Nibble → Value → Option (Value × Cache)
  | 0, _, _, _, _ => none
  | _ + 1, cache, _, [], value => some (value, cache)
  | fuel + 1, cache, node, nibble :: rest, value =>
      let key := nibble :: rest
      if node.isNil ∨ node.len = 0 then putShort sha3Bin cache key value
      else do
        let (currentNode, cache) ← getNode db cache node
        if currentNode.len = 2 then
          let k ← compactDecode (currentNode.get 0).asStr
          let v := currentNode.get 1
          if k = key then putShort sha3Bin cache key value
          else
            let matchingLength := matchingNibbleLength key k
            let (newHash, cache) ←
              if matchingLength = k.length then
                insertState db fuel cache v (key.drop matchingLength) value
              else
                match k.drop matchingLength, key.drop matchingLength with
                | oldSlot :: oldRest, newSlot :: newRest => do
                    let (oldNode, cache) ← insertState db fuel cache (.str []) oldRest v
                    let (newNode, cache) ← insertState db fuel cache (.str []) newRest value
                    pure (put sha3Bin cache
                      (.list (scaledSlice oldSlot oldNode newSlot newNode)))
                | _, _ => none
            if matchingLength = 0 then return (newHash, cache)
            else putShort sha3Bin cache (key.take matchingLength) newHash
        else
          let newNode := copySlots currentNode
          let (child, cache) ← insertState db fuel cache (currentNode.get nibble) rest value
          return put sha3Bin cache (.list (newNode.set nibble child))

/-- The test `n[i] != ""`, which only the empty `string` fails. -/
def notEmptyString : Value → Bool
  | .str [] => false
  | _ => true

/-- The loop that looks for the only slot in use: its index, `-1` when there is
none, `-2` when there are several. -/
def amountOf (slots : List Value) : Int :=
  (List.finRange 17).foldl
    (fun amount i =>
      if notEmptyString (slots.getD i.val .nil) then
        if amount = -1 then (i.val : Int) else -2
      else amount) (-1)

/-- The end of the branch case of `deleteState`: a branch left with one child is
replaced by a short node.  A child that is a short node is taken over with
`child.Get(1).Str()`, which is empty for an inline list.  When the child is
neither a branch nor a short node the new node stays the nil slice. -/
def collapseSlots (db : Database) (cache : Cache) (slots : List Value) :
    Option (Value × Cache) :=
  let amount := amountOf slots
  if amount = 16 then putShort sha3Bin cache [16] (slots.getD 16 .nil)
  else if 0 ≤ amount then do
    let only := slots.getD amount.toNat .nil
    let (child, cache) ← getNode db cache only
    let slot : Nibble := Fin.ofNat 17 amount.toNat
    if child.len = 17 then putShort sha3Bin cache [slot] only
    else if child.len = 2 then
      let k ← compactDecode (child.get 0).asStr
      putShort sha3Bin cache (slot :: k) (.str (child.get 1).asStr)
    else return put sha3Bin cache (.list [])
  else return put sha3Bin cache (.list slots)

/-- `deleteState`, for a key slice with `spare` places between its length and its
capacity.  `key[:len(k)]` reads the zeros in these places, and panics past them. -/
def deleteState (db : Database) (spare : Nat) :
    Nat → Cache → Value → List Nibble → Option (Value × Cache)
  | 0, _, _, _ => none
  | _ + 1, cache, _, [] => some (.str [], cache)
  | fuel + 1, cache, node, nibble :: rest =>
      let key := nibble :: rest
      if node.isNil ∨ node.len = 0 then some (.str [], cache)
      else do
        let (currentNode, cache) ← getNode db cache node
        if currentNode.len = 2 then
          let k ← compactDecode (currentNode.get 0).asStr
          let v := currentNode.get 1
          if k = key then return (.str [], cache)
          else if key.length + spare < k.length then none
          else if (key ++ List.replicate spare 0).take k.length = k then
            -- `key[len(k):]` panics as soon as `k` is longer than the key itself
            if key.length < k.length then none
            else do
              let (hash, cache) ← deleteState db spare fuel cache v (key.drop k.length)
              let (child, cache) ← getNode db cache hash
              if child.len = 2 then
                let childKey ← compactDecode (child.get 0).asStr
                putShort sha3Bin cache (k ++ childKey) (child.get 1)
              else return put sha3Bin cache (.list [.str (currentNode.get 0).asStr, hash])
          else return (node, cache)
        else
          let slots := copySlots currentNode
          let (child, cache) ← deleteState db spare fuel cache (slots.getD nibble .nil) rest
          collapseSlots sha3Bin db cache (slots.set nibble child)

/-- The switch on the type of the new root in `Update` and `Delete`. -/
def setRoot (trie : Trie) (root : Value) (cache : Cache) : Trie :=
  match root with
  | .str _ | .bytes _ => { trie with root := root, cache := cache }
  | _ =>
      let (root, cache) := cache.putValue sha3Bin root true
      { trie with root := root, cache := cache }

/-- `Update` -/
def update (db : Database) (trie : Trie) (key value : Bytes) : Option Trie := do
  let k := compactHexDecode key
  let (root, cache) ← insertState sha3Bin db (k.length + 1) trie.cache trie.root k (.str value)
  return trie.setRoot sha3Bin root cache

/-- `Delete`.  How many places `CompactHexDecode` leaves unused behind the key is up to
the growth of slices in `append`. -/
def deleteWithin (db : Database) (spare : Nat) (trie : Trie) (key : Bytes) : Option Trie := do
  let k := compactHexDecode key
  let (root, cache) ← deleteState sha3Bin db spare (k.length + 1) trie.cache trie.root k
  return trie.setRoot sha3Bin root cache

/-- `Delete` without unused places, which make no difference when all keys have the same
length. -/
def delete (db : Database) (trie : Trie) (key : Bytes) : Option Trie :=
  trie.deleteWithin sha3Bin db 0 key

end Hashing

/-- `Get` -/
def get (db : Database) (trie : Trie) (key : Bytes) : Option (Bytes × Trie) := do
  let k := compactHexDecode key
  let (value, cache) ← getState db (k.length + 1) trie.cache trie.root k
  return (value.asStr, { trie with cache := cache })

/-- `Sync` -/
def sync (db : Database) (trie : Trie) : Database × Trie :=
  let (db, cache) := trie.cache.commit db
  (db, ⟨trie.root, trie.root, cache⟩)

/-- `Copy`.  The nodes stay marked dirty, but the cache of the copy is not. -/
def copy (trie : Trie) : Trie :=
  ⟨trie.root, trie.root, ⟨trie.cache.nodes, false⟩⟩

/-- `Undo` -/
def undo (trie : Trie) : Trie :=
  ⟨trie.prevRoot, trie.prevRoot, trie.cache.undo⟩

end Trie

end Thelonious
