import Thelonious.State.StateObject
import Thelonious.Trie.Durability
import Thelonious.Trie.LongValues

/-!
# Independence of the traversal order

The root of the storage trie after `StateObject.Sync`, and the root of the state
after `State.Update`, do not depend on the order in which the maps are traversed,
as long as the code gets every deletion right in both orders.  What it takes depends
on the nodes: those that were read back from the database are not collapsed.  The
trie of the accounts needs no condition in memory: its values are long.
-/

namespace Thelonious

open Radix Radix.Patricia

/-- What is known of a trie: the scope of the calls made on it, whether its nodes may have
been read back from the database, and the tree it stands for. -/
structure Standing where
  scope : Scope
  reread : Bool
  tree : PathTree

/-- Where the nodes of a trie are found. -/
def viewOf (reread : Bool) (db : Database) : View :=
  if reread then Cache.source db else Cache.memory

instance reliable_viewOf (sha3Bin : Bytes → Bytes) (db : Database) (reread : Bool) :
    Reliable sha3Bin db (viewOf reread db) := by
  cases reread
  · exact reliable_memory
  · exact reliable_source

/-- The deletions that the code gets right. -/
def RightDelete (sha3Bin : Bytes → Bytes) : Bool → PathTree → List Nibble → Prop
  | false => SafeDelete sha3Bin
  | true => Spreads

section Assumptions

variable (sha3Bin : Bytes → Bytes) (codes : Set Bytes)

def Standing.Holds (standing : Standing) (db : Database) (trie : Trie) : Prop :=
  Stands sha3Bin standing.reread standing.scope (viewOf standing.reread db) trie standing.tree

/-- What the calls and a `ParanoiaCheck` come to is in the scope, on which the hash does not
collide, nor on the codes of contracts. -/
structure Standing.Covers (standing : Standing) (size : Nat) (ops : List TrieOp) : Prop where
  ok : standing.scope.Ok
  noZero : standing.reread = true → standing.scope.NoZero
  spec : Sha3Spec sha3Bin (nodeEncodings sha3Bin standing.scope ∪ codes)
  lengths : ∀ pair ∈ standing.scope.pairs, pair.1.length = 2 * size + 1
  texts : ∀ pair ∈ standing.scope.pairs, ∃ text, pair.1 = compactHexDecode text
  sizes : ∀ op ∈ ops, op.key.length = size
  members : pairsOf (TrieOp.updates ops) ⊆ standing.scope.pairs
  reached : ∀ next ∈ TrieOp.reached standing.tree ops, next ∈ standing.scope.trees
  copies : ∀ next ∈ rebuilds (ops.foldl TrieOp.applyToTree standing.tree),
    next ∈ standing.scope.trees

/-- The database after contract code has been put under its hash. -/
def Grown : Database → Database → Prop :=
  Relation.ReflTransGen fun db next => ∃ code ∈ codes, next = db.put (sha3Bin code) code

end Assumptions

/-! ### Contract code -/

section Codes

variable {sha3Bin : Bytes → Bytes} {scope : Scope} {codes : Set Bytes}

theorem Grown.get_nil {hashed : Set Bytes} (spec : Sha3Spec sha3Bin hashed) {db now : Database}
    (grown : Grown sha3Bin codes db now) : now.get [] = db.get [] := by
  induction grown with
  | refl => rfl
  | tail _ step induction =>
      obtain ⟨code, -, rfl⟩ := step
      rw [Database.get_put_of_ne _ _ (spec.ne_nil code).symm]
      exact induction

variable (spec : Sha3Spec sha3Bin (nodeEncodings sha3Bin scope ∪ codes)) (ok : scope.Ok)
include spec ok

/-- Code put under its hash hides no node: only the encoding of the node itself has the
same hash. -/
theorem Keeps.put (noZero : scope.NoZero) {db : Database} {cache : Cache} {tree : PathTree}
    (known : Known scope tree) (keeps : Keeps sha3Bin true (cache.source db) tree)
    {code : Bytes} (member : code ∈ codes) :
    Keeps sha3Bin true (cache.source (db.put (sha3Bin code) code)) tree := by
  have nodes := spec.mono Set.subset_union_left
  obtain ⟨value, found, represents⟩ := keeps
  cases lookupEq : cache.nodes.lookup (sha3Bin (nodeItem sha3Bin tree).encode) with
  | some node =>
      refine ⟨value, ?_, represents⟩
      simpa [Cache.source, lookupEq] using found
  | none =>
      by_cases same : sha3Bin (nodeItem sha3Bin tree).encode = sha3Bin code
      · have isNode : (nodeItem sha3Bin tree).encode = code :=
          spec.injOn (.inl ⟨tree, known, rfl⟩) (.inr member) same
        obtain ⟨decoded, decodedEq, decodedRepresents⟩ :=
          Item.newValueFromBytes_encode (clean_nodeItem nodes noZero known)
            (length_encode_nodeItem_lt nodes ok known)
        refine ⟨decoded, ?_, decodedRepresents⟩
        rw [isNode] at decodedEq lookupEq ⊢
        simpa [Cache.source, lookupEq] using decodedEq
      · refine ⟨value, ?_, represents⟩
        rw [Cache.source, lookupEq] at found ⊢
        simpa [Database.get_put_of_ne _ _ same] using found

theorem Stands.put {reread : Bool} (noZero : reread = true → scope.NoZero) {db : Database}
    {trie : Trie} {tree : PathTree}
    (stands : Stands sha3Bin reread scope (viewOf reread db) trie tree) {code : Bytes}
    (member : code ∈ codes) :
    Stands sha3Bin reread scope (viewOf reread (db.put (sha3Bin code) code)) trie tree := by
  cases reread with
  | false => exact stands
  | true =>
      exact stands.transfer rfl fun _ known keeps => keeps.put spec ok (noZero rfl) known member

/-- What is put into the database does not affect a trie. -/
theorem Grown.stands {reread : Bool} (noZero : reread = true → scope.NoZero) {db now : Database}
    (grown : Grown sha3Bin codes db now) {trie : Trie} {tree : PathTree}
    (stands : Stands sha3Bin reread scope (viewOf reread db) trie tree) :
    Stands sha3Bin reread scope (viewOf reread now) trie tree := by
  induction grown with
  | refl => exact stands
  | tail _ step induction =>
      obtain ⟨code, member, rfl⟩ := step
      exact induction.put spec ok noZero member

end Codes

/-! ### Calls in any order -/

theorem collapsible_rightDelete {sha3Bin : Bytes → Bytes} {scope : Scope}
    (spec : Sha3Spec sha3Bin (nodeEncodings sha3Bin scope)) (ok : scope.Ok) (reread : Bool)
    (db : Database) :
    Collapsible sha3Bin reread scope db (viewOf reread db) (RightDelete sha3Bin reread) := by
  cases reread with
  | false => exact collapsible_safeDelete spec ok
  | true => exact collapsible_spreads spec ok

section Checking

variable {sha3Bin : Bytes → Bytes} {codes : Set Bytes} {db : Database} {standing : Standing}
  {size : Nat} {ops : List TrieOp}

theorem Standing.Covers.nodes (covers : standing.Covers sha3Bin codes size ops) :
    Sha3Spec sha3Bin (nodeEncodings sha3Bin standing.scope) :=
  covers.spec.mono Set.subset_union_left

/-- A trie finds nothing under the empty key. -/
theorem source_nil {cache : Cache} (nothing : db.get [] = [])
    (unread : ∀ node, cache.nodes.lookup [] = some node → node.value = .nil) :
    cache.source db [] = some .nil := by
  unfold Cache.source
  split
  · rename_i node found
    rw [unread node found]
  · rw [nothing]
    rfl

/-- `ParanoiaCheck` keeps the trie that the calls have led to. -/
theorem Standing.Covers.paranoid (covers : standing.Covers sha3Bin codes size ops) {trie : Trie}
    (stands : Stands sha3Bin standing.reread standing.scope (viewOf standing.reread db) trie
      (ops.foldl TrieOp.applyToTree standing.tree))
    (nothing : db.get [] = [])
    (unread : ∀ node, trie.cache.nodes.lookup [] = some node → node.value = .nil) {depth : Nat}
    (enough : 2 * size < depth) :
    ∃ cache, trie.paranoid sha3Bin db depth = some { trie with cache := cache } ∧
      Stands sha3Bin standing.reread standing.scope (viewOf standing.reread db)
        { trie with cache := cache } (ops.foldl TrieOp.applyToTree standing.tree) := by
  obtain ⟨cache, checked, lastStands, _⟩ := stands.paranoid db covers.nodes covers.ok (by omega)
    (source_nil nothing unread) (fun pair member => (covers.lengths pair member).trans_le enough)
    covers.texts covers.copies
  exact ⟨cache, checked, lastStands⟩

theorem TrieOp.applyTo_comm {left right : TrieOp} (different : left.key ≠ right.key)
    (map : Bytes → Option Bytes) :
    right.applyTo (left.applyTo map) = left.applyTo (right.applyTo map) := by
  cases left <;> cases right <;> exact Function.update_comm different _ _ _

/-- The map that calls on different keys lead to does not depend on their order. -/
theorem foldl_applyTo_perm {others : List TrieOp} (perm : ops.Perm others)
    (distinct : (ops.map TrieOp.key).Nodup) (map : Bytes → Option Bytes) :
    ops.foldl TrieOp.applyTo map = others.foldl TrieOp.applyTo map := by
  refine perm.foldl_eq' (fun left leftMember right rightMember map => ?_) map
  by_cases same : left.key = right.key
  · rw [List.inj_on_of_nodup_map distinct leftMember rightMember same]
  · exact TrieOp.applyTo_comm same map

/-- The keys of calls that are made for the items of a list. -/
theorem sublist_keys {α : Type} {call : α → Option TrieOp} {key : α → Bytes}
    (keyEq : ∀ item op, call item = some op → op.key = key item) (items : List α) :
    ((items.filterMap call).map TrieOp.key).Sublist (items.map key) := by
  induction items with
  | nil => exact .slnil
  | cons item items induction =>
      rw [List.filterMap_cons]
      split
      · exact induction.cons _
      · rename_i op isOp
        rw [List.map_cons, List.map_cons, keyEq item op isOp]
        exact induction.cons_cons _

/-- Nor does the tree. -/
theorem Standing.Covers.tree_eq (covers : standing.Covers sha3Bin codes size ops)
    {others : List TrieOp} (perm : ops.Perm others) (distinct : (ops.map TrieOp.key).Nodup)
    {trie other : Trie} {view otherView : View}
    (stands : Stands sha3Bin standing.reread standing.scope view trie
      (ops.foldl TrieOp.applyToTree standing.tree))
    (otherStands : Stands sha3Bin standing.reread standing.scope otherView other
      (others.foldl TrieOp.applyToTree standing.tree))
    (rooted : Rooted 16 standing.tree) :
    ops.foldl TrieOp.applyToTree standing.tree =
      others.foldl TrieOp.applyToTree standing.tree := by
  refine stands.eq_of_get_eq otherStands covers.texts fun text => ?_
  have content : ∀ ops : List TrieOp,
      (ops.foldl TrieOp.applyToTree standing.tree).get (compactHexDecode text) =
        ops.foldl TrieOp.applyTo (fun text => standing.tree.get (compactHexDecode text)) text :=
    fun ops => get_foldl_applyToTree ops rooted rfl
  rw [content, content, foldl_applyTo_perm perm distinct]

end Checking

/-! ### `Sync` -/

/-- The call of the trie that `Sync` makes for an entry of the storage. -/
def storageOp (entry : Sigma fun _ : Bytes => Value) : Option TrieOp :=
  if fits : entry.1.length < 2 ^ 48 ∧ (encode entry.2).length < 2 ^ 48 then
    some (if entry.2.len = 0 then .delete ⟨entry.1, fits.1⟩
      else .update ⟨⟨entry.1, fits.1⟩, ⟨encode entry.2, fits.2⟩,
        List.length_pos_iff.mp (length_encode_pos entry.2)⟩)
  else none

def storageOps (order : StorageOrder) : List TrieOp :=
  order.filterMap storageOp

/-- An object whose storage trie stands for a tree, and an order of its pending storage in
which the code gets every deletion right. -/
structure Syncs (sha3Bin : Bytes → Bytes) (codes : Set Bytes) (db : Database)
    (object : StateObject) (standing : Standing) (order : StorageOrder) : Prop where
  holds : standing.Holds sha3Bin db object.trie
  unread : ∀ node, object.trie.cache.nodes.lookup [] = some node → node.value = .nil
  traverses : order.Perm object.storage.entries
  keyLength : ∀ entry ∈ object.storage.entries, entry.1.length = 32
  valueLength : ∀ entry ∈ object.storage.entries, (encode entry.2).length < 2 ^ 48
  covers : standing.Covers sha3Bin codes 32 (storageOps order)
  right : TrieOp.Allowed (RightDelete sha3Bin standing.reread) standing.tree (storageOps order)

/-- The tree of the storage trie after `Sync`. -/
noncomputable def syncedTree (tree : PathTree) (order : StorageOrder) : PathTree :=
  (storageOps order).foldl TrieOp.applyToTree tree

theorem storageOp_key {entry : Sigma fun _ : Bytes => Value} {op : TrieOp}
    (isOp : storageOp entry = some op) : op.key = entry.1 := by
  unfold storageOp at isOp
  split at isOp
  · rw [← Option.some.inj isOp]
    split <;> rfl
  · cases isOp

/-- An entry that fits is synced by the operation it stands for. -/
theorem syncEntry_eq_perform (sha3Bin : Bytes → Bytes) (db : Database)
    {entry : Sigma fun _ : Bytes => Value} (keyFits : entry.1.length < 2 ^ 48)
    (valueFits : (encode entry.2).length < 2 ^ 48) :
    ∃ op, storageOp entry = some op ∧
      ∀ trie, StateObject.syncEntry sha3Bin db trie entry = trie.perform sha3Bin db op := by
  refine ⟨_, dif_pos ⟨keyFits, valueFits⟩, fun trie => ?_⟩
  unfold StateObject.syncEntry
  split <;> rfl

section Sync

variable {sha3Bin : Bytes → Bytes} {codes : Set Bytes} {db : Database} {object : StateObject}
  {standing : Standing} {order other : StorageOrder}

theorem foldlM_syncEntry (keyFits : ∀ entry ∈ order, entry.1.length = 32)
    (valueFits : ∀ entry ∈ order, (encode entry.2).length < 2 ^ 48) (trie : Trie) :
    order.foldlM (StateObject.syncEntry sha3Bin db) trie =
      trie.run sha3Bin db (storageOps order) := by
  induction order generalizing trie with
  | nil => rfl
  | cons entry order induction =>
      have size := keyFits entry List.mem_cons_self
      obtain ⟨op, isOp, performs⟩ := syncEntry_eq_perform sha3Bin db
        (show entry.1.length < 2 ^ 48 by omega) (valueFits entry List.mem_cons_self)
      have rest := induction (fun other member => keyFits other (List.mem_cons_of_mem _ member))
        (fun other member => valueFits other (List.mem_cons_of_mem _ member))
      rw [List.foldlM_cons, performs, storageOps, List.filterMap_cons_some isOp]
      simp only [rest]
      rfl

theorem nodup_storageOps {storage : Storage} (traverses : order.Perm storage.entries) :
    ((storageOps order).map TrieOp.key).Nodup :=
  (sublist_keys (fun _ _ => storageOp_key) order).nodup
    ((traverses.map Sigma.fst).symm.nodup storage.nodupKeys)

/-- `Sync` succeeds after contract code has been put into the database, and leaves a trie
that stands for the synced tree. -/
theorem Syncs.sync (syncs : Syncs sha3Bin codes db object standing order) {depth : Nat}
    (enough : 65 ≤ depth) {now : Database} (grown : Grown sha3Bin codes db now)
    (nothing : db.get [] = []) :
    ∃ trie, object.sync sha3Bin now depth order = some { object with trie := trie } ∧
      Stands sha3Bin standing.reread standing.scope (viewOf standing.reread now) trie
        (syncedTree standing.tree order) := by
  have covers := syncs.covers
  obtain ⟨synced, run, syncedStands, evolves⟩ :=
    (grown.stands covers.spec covers.ok covers.noZero syncs.holds).run now covers.nodes covers.ok
      (collapsible_rightDelete covers.nodes covers.ok _ now) covers.members covers.lengths
      covers.sizes syncs.right covers.reached
  obtain ⟨cache, checked, lastStands⟩ := covers.paranoid syncedStands
    ((grown.get_nil covers.spec).trans nothing) (fun node found => by
      rw [evolves.lookup_of_length covers.nodes (by simp)] at found
      exact syncs.unread node found) enough
  refine ⟨{ synced with cache := cache }, ?_, lastStands⟩
  rw [StateObject.sync, foldlM_syncEntry
    (fun entry member => syncs.keyLength entry (syncs.traverses.subset member))
    (fun entry member => syncs.valueLength entry (syncs.traverses.subset member)), run]
  simp [checked]

theorem Syncs.syncedTree_eq (syncs : Syncs sha3Bin codes db object standing order)
    (otherSyncs : Syncs sha3Bin codes db object standing other) (nothing : db.get [] = []) :
    syncedTree standing.tree order = syncedTree standing.tree other := by
  obtain ⟨_, _, stands⟩ := syncs.sync (Nat.le_refl 65) .refl nothing
  obtain ⟨_, _, otherStands⟩ := otherSyncs.sync (Nat.le_refl 65) .refl nothing
  exact syncs.covers.tree_eq ((syncs.traverses.trans otherSyncs.traverses.symm).filterMap _)
    (nodup_storageOps syncs.traverses) stands otherStands syncs.holds.rooted

end Sync

/-! ### `Update` -/

section Update

variable (sha3Bin : Bytes → Bytes)

/-- The account of an object whose storage trie stands for the tree. -/
def accountOf (object : StateObject) (tree : PathTree) : Bytes :=
  (Item.list [(Value.uint64 object.nonce).content, (Value.bigInt object.balance).content,
    rootItem sha3Bin tree, .str (object.codeHash sha3Bin)]).encode

/-- What the trie of the accounts holds for an address after `Update`. -/
noncomputable def accountAfter (state : State StateObject) (storages : Bytes → Standing)
    (slots : Bytes → StorageOrder) (address : Bytes) : Option Bytes :=
  match AList.lookup address state.stateObjects with
  | none => none
  | some object =>
      if object.remove then none
      else some (accountOf sha3Bin object (syncedTree (storages address).tree (slots address)))

/-- The call that `Update` makes on the trie of the accounts for an address. -/
noncomputable def accountOp (state : State StateObject) (storages : Bytes → Standing)
    (slots : Bytes → StorageOrder) (address : Bytes) : Option TrieOp :=
  if fits : address.length < 2 ^ 48 then
    match accountAfter sha3Bin state storages slots address with
    | none => some (.delete ⟨address, fits⟩)
    | some account =>
        if storable : account.length < 2 ^ 48 ∧ account ≠ [] then
          some (.update ⟨⟨address, fits⟩, ⟨account, storable.1⟩, storable.2⟩)
        else none
  else none

theorem accountOp_key (state : State StateObject) (storages : Bytes → Standing)
    (slots : Bytes → StorageOrder) (address : Bytes) (op : TrieOp)
    (isOp : accountOp sha3Bin state storages slots address = some op) : op.key = address := by
  unfold accountOp at isOp
  split at isOp
  · split at isOp
    · cases isOp
      rfl
    · split at isOp
      · cases isOp
        rfl
      · cases isOp
  · cases isOp

noncomputable def accountOps (state : State StateObject) (storages : Bytes → Standing)
    (slots : Bytes → StorageOrder) (addresses : List Bytes) : List TrieOp :=
  addresses.filterMap (accountOp sha3Bin state storages slots)

variable (codes : Set Bytes)

/-- A state whose tries stand for trees, and an order of its maps in which the code gets
every deletion right. -/
structure Updates (db : Database) (state : State StateObject) (accounts : Standing)
    (storages : Bytes → Standing) (addresses : List Bytes) (slots : Bytes → StorageOrder) :
    Prop where
  holds : accounts.Holds sha3Bin db state.trie
  unread : ∀ node, state.trie.cache.nodes.lookup [] = some node → node.value = .nil
  traverses : addresses.Perm state.stateObjects.keys
  addressed : ∀ address object, AList.lookup address state.stateObjects = some object →
    object.address = address ∧ address.length = 20
  coded : ∀ address object, AList.lookup address state.stateObjects = some object →
    object.code ≠ [] → object.code ∈ codes
  syncs : ∀ address object, AList.lookup address state.stateObjects = some object →
    object.remove = false →
      Syncs sha3Bin codes db object (storages address) (slots address)
  accountLength : ∀ address account,
    accountAfter sha3Bin state storages slots address = some account → account.length < 2 ^ 48
  covers : accounts.Covers sha3Bin codes 20 (accountOps sha3Bin state storages slots addresses)
  written : ∀ pair ∈ accounts.scope.pairs,
    ∃ object : StateObject, pair.2 = object.rlpEncode sha3Bin
  spreads : accounts.reread = true →
    TrieOp.Allowed Spreads accounts.tree (accountOps sha3Bin state storages slots addresses)

variable {sha3Bin codes} {db : Database} {state : State StateObject} {accounts : Standing}
  {storages : Bytes → Standing} {addresses : List Bytes} {slots : Bytes → StorageOrder}

theorem five_le_length_list (first second third fourth : Item) :
    5 ≤ (Item.list [first, second, third, fourth]).encode.length := by
  have bound := length_encode_list_ge [first, second, third, fourth]
  have firstSize := first.one_le_length_encode
  have secondSize := second.one_le_length_encode
  have thirdSize := third.one_le_length_encode
  have fourthSize := fourth.one_le_length_encode
  simp only [List.map_cons, List.map_nil, List.sum_cons, List.sum_nil] at bound
  omega

theorem five_le_length_rlpEncode (sha3Bin : Bytes → Bytes) (object : StateObject) :
    5 ≤ (object.rlpEncode sha3Bin).length := by
  rw [StateObject.rlpEncode, encode_eq_encode_content]
  simp only [Value.content, Value.contents]
  exact five_le_length_list _ _ _ _

variable {tree : PathTree} {address : Bytes} {visited : List Bytes}
  {current : Database × State StateObject} {object : StateObject} {depth : Nat}

theorem rlpEncode_eq {reread : Bool} {scope : Scope} {view : View}
    (stands : Stands sha3Bin reread scope view object.trie tree) :
    object.rlpEncode sha3Bin = accountOf sha3Bin object tree := by
  rw [StateObject.rlpEncode, encode_eq_encode_content, accountOf, ← stands.root.2]
  simp only [Value.content, Value.contents]

section Loop

variable (updates : Updates sha3Bin codes db state accounts storages addresses slots)
include updates

/-- The trie of the accounts needs no condition in memory. -/
theorem Updates.right :
    TrieOp.Allowed (RightDelete sha3Bin accounts.reread) accounts.tree
      (accountOps sha3Bin state storages slots addresses) := by
  have long : accounts.scope.Long 41 := ⟨updates.covers.lengths, fun pair member => by
    obtain ⟨object, valueEq⟩ := updates.written pair member
    rw [valueEq]
    exact five_le_length_rlpEncode sha3Bin object⟩
  have spreads := updates.spreads
  cases reread : accounts.reread with
  | true => exact spreads reread
  | false =>
      exact safeRun_of_long updates.covers.spec long updates.holds.rooted updates.holds.holds
        updates.covers.members updates.covers.reached

/-- The call for an object that is marked for deletion. -/
theorem Updates.accountOp_of_removed
    (found : AList.lookup address state.stateObjects = some object)
    (removed : object.remove = true) :
    ∃ key : GoString, key.val = address ∧
      accountOp sha3Bin state storages slots address = some (.delete key) := by
  have length := (updates.addressed address object found).2
  have fits : address.length < 2 ^ 48 := by omega
  refine ⟨⟨address, fits⟩, rfl, ?_⟩
  have after : accountAfter sha3Bin state storages slots address = none := by
    simp [accountAfter, found, removed]
  rw [accountOp, dif_pos fits, after]

/-- The call for an object that stays. -/
theorem Updates.accountOp_of_stays
    (found : AList.lookup address state.stateObjects = some object)
    (stays : object.remove = false) :
    ∃ call : Update, call.key.val = address ∧
      call.value.val =
        accountOf sha3Bin object (syncedTree (storages address).tree (slots address)) ∧
      accountOp sha3Bin state storages slots address = some (.update call) := by
  have length := (updates.addressed address object found).2
  have fits : address.length < 2 ^ 48 := by omega
  obtain ⟨account, accountEq⟩ : ∃ account, account =
      accountOf sha3Bin object (syncedTree (storages address).tree (slots address)) := ⟨_, rfl⟩
  have after : accountAfter sha3Bin state storages slots address = some account := by
    simp [accountAfter, found, stays, accountEq]
  have positive : 5 ≤ account.length := accountEq ▸ five_le_length_list _ _ _ _
  have storable : account.length < 2 ^ 48 ∧ account ≠ [] :=
    ⟨updates.accountLength address _ after, List.ne_nil_of_length_pos (by omega)⟩
  refine ⟨⟨⟨address, fits⟩, ⟨account, storable.1⟩, storable.2⟩, rfl, accountEq, ?_⟩
  rw [accountOp, dif_pos fits, after]
  exact dif_pos storable

variable (sha3Bin codes db state accounts) in
/-- The loop of `Update` has visited some addresses, and the trie of the accounts stands for
the tree. -/
structure Reached (visited : List Bytes) (current : Database × State StateObject)
    (tree : PathTree) : Prop where
  stands : Stands sha3Bin accounts.reread accounts.scope (viewOf accounts.reread current.1)
    current.2.trie tree
  unread : ∀ node, current.2.trie.cache.nodes.lookup [] = some node → node.value = .nil
  waiting : ∀ address, address ∉ visited →
    AList.lookup address current.2.stateObjects = AList.lookup address state.stateObjects
  grown : Grown sha3Bin codes db current.1

omit updates in
/-- The code of an object is put into the database. -/
theorem Reached.store {ops : List TrieOp} (covers : accounts.Covers sha3Bin codes 20 ops)
    (reached : Reached sha3Bin codes db state accounts visited current tree)
    (inCodes : object.code ≠ [] → object.code ∈ codes) :
    ∃ written, written = (if 0 < (object.codeHash sha3Bin).length then
        current.1.put (object.codeHash sha3Bin) object.code else current.1) ∧
      Grown sha3Bin codes db written ∧
      Stands sha3Bin accounts.reread accounts.scope (viewOf accounts.reread written)
        current.2.trie tree := by
  refine ⟨_, rfl, ?_⟩
  unfold StateObject.codeHash
  by_cases hasCode : 0 < object.code.length
  · have positive : 0 < (sha3Bin object.code).length := by
      rw [covers.spec.length_eq]
      decide
    have member := inCodes (List.ne_nil_of_length_pos hasCode)
    rw [if_pos hasCode, if_pos positive]
    exact ⟨reached.grown.tail ⟨_, member, rfl⟩,
      reached.stands.put covers.spec covers.ok covers.noZero member⟩
  · rw [if_neg hasCode, if_neg (by simp)]
    exact ⟨reached.grown, reached.stands⟩

/-- Visiting an object: its call is made on the trie of the accounts. -/
theorem Updates.visit (nothing : db.get [] = [])
    (reached : Reached sha3Bin codes db state accounts visited current tree)
    (fresh : address ∉ visited) (found : AList.lookup address state.stateObjects = some object)
    (enough : 65 ≤ depth) :
    ∃ op, accountOp sha3Bin state storages slots address = some op ∧
      ((∀ update, op = .update update → update.entry ∈ accounts.scope.pairs) →
        (∀ key, op = .delete key →
          RightDelete sha3Bin accounts.reread tree (compactHexDecode key)) →
        op.applyToTree tree ∈ accounts.scope.trees →
        (∀ left ∈ op.steps tree, left ∈ accounts.scope.trees) →
        ∃ next, State.updateEntry sha3Bin depth slots current address = some next ∧
          Reached sha3Bin codes db state accounts (address :: visited) next
            (op.applyToTree tree)) := by
  have covers := updates.covers
  obtain ⟨isAddress, length⟩ := updates.addressed address object found
  have lookupEq := (reached.waiting address fresh).trans found
  have lengths : ∀ pair ∈ accounts.scope.pairs,
      pair.1.length = (compactHexDecode address).length := by
    intro pair member
    rw [covers.lengths pair member, length_compactHexDecode, length]
  have unread : ∀ {now : Database} {trie : Trie},
      Evolves sha3Bin accounts.reread accounts.scope now current.2.trie.cache trie.cache →
      ∀ node, trie.cache.nodes.lookup [] = some node → node.value = .nil := by
    intro now trie evolves node inside
    rw [evolves.lookup_of_length covers.nodes (by simp)] at inside
    exact reached.unread node inside
  cases marked : object.remove with
  | true =>
      obtain ⟨key, rfl, isOp⟩ := updates.accountOp_of_removed found marked
      refine ⟨_, isOp, fun member right occurs steps => ?_⟩
      obtain ⟨trie, deleted, stands, evolves⟩ := reached.stands.perform current.1 covers.nodes
        covers.ok (collapsible_rightDelete covers.nodes covers.ok _ current.1) (.delete key) member
        lengths right occurs steps
      refine ⟨(current.1, ⟨trie, AList.erase key.val current.2.stateObjects⟩), ?_, stands,
        unread evolves, fun other notVisited => ?_, reached.grown⟩
      · have performed : current.2.trie.delete sha3Bin current.1 key.val = some trie := deleted
        simp [State.updateEntry, lookupEq, marked, State.deleteStateObject, isAddress, performed]
      · rw [List.mem_cons, not_or] at notVisited
        rw [AList.lookup_erase_ne notVisited.1]
        exact reached.waiting other notVisited.2
  | false =>
      obtain ⟨call, keyEq, valueEq, isOp⟩ := updates.accountOp_of_stays found marked
      refine ⟨_, isOp, fun member right occurs steps => ?_⟩
      have syncs := updates.syncs address object found marked
      obtain ⟨storageTrie, syncedEq, storageStands⟩ := syncs.sync enough reached.grown nothing
      obtain ⟨synced, syncedObject⟩ : ∃ synced : StateObject,
          synced = { object with trie := storageTrie } := ⟨_, rfl⟩
      have encoded : synced.rlpEncode sha3Bin = call.value.val := by
        rw [valueEq, syncedObject]
        exact rlpEncode_eq storageStands
      have syncedAddress : synced.address = address := by rw [syncedObject, isAddress]
      have inCodes : synced.code ≠ [] → synced.code ∈ codes := by
        rw [syncedObject]
        exact updates.coded address object found
      obtain ⟨written, writtenEq, grown, standsNow⟩ := reached.store covers inCodes
      obtain ⟨trie, updated, stands, evolves⟩ := standsNow.perform written covers.nodes covers.ok
        (collapsible_rightDelete covers.nodes covers.ok _ written) (.update call) member
        (by rwa [show (TrieOp.update call).key = address from keyEq]) right occurs steps
      refine ⟨(written, ⟨trie, AList.insert address synced current.2.stateObjects⟩), ?_, stands,
        unread evolves, fun other notVisited => ?_, grown⟩
      · have notMarked : ¬ object.remove = true := by simp [marked]
        have performed : current.2.trie.update sha3Bin written address call.value.val = some trie :=
          keyEq ▸ updated
        simp only [State.updateEntry, lookupEq, if_neg notMarked, syncedEq, ← syncedObject,
          Option.bind_eq_bind, Option.bind_some, State.updateStateObject, ← writtenEq, encoded,
          syncedAddress, performed]
        rfl
      · rw [List.mem_cons, not_or] at notVisited
        rw [AList.lookup_insert_ne notVisited.1]
        exact reached.waiting other notVisited.2

/-- The loop of `Update`, from any point on. -/
theorem Updates.loop (nothing : db.get [] = []) (enough : 65 ≤ depth) {rest : List Bytes}
    (reached : Reached sha3Bin codes db state accounts visited current tree)
    (distinct : rest.Nodup) (fresh : ∀ address ∈ rest, address ∉ visited)
    (present : ∀ address ∈ rest, address ∈ state.stateObjects.keys)
    (members : pairsOf (TrieOp.updates (accountOps sha3Bin state storages slots rest)) ⊆
      accounts.scope.pairs)
    (right : TrieOp.Allowed (RightDelete sha3Bin accounts.reread) tree
      (accountOps sha3Bin state storages slots rest))
    (onTheWay : ∀ next ∈ TrieOp.reached tree (accountOps sha3Bin state storages slots rest),
      next ∈ accounts.scope.trees) :
    ∃ next, rest.foldlM (State.updateEntry sha3Bin depth slots) current = some next ∧
      Reached sha3Bin codes db state accounts (rest.reverse ++ visited) next
        ((accountOps sha3Bin state storages slots rest).foldl TrieOp.applyToTree tree) := by
  induction rest generalizing visited current tree with
  | nil => exact ⟨current, rfl, reached⟩
  | cons address rest induction =>
      obtain ⟨notIn, distinct⟩ := List.nodup_cons.mp distinct
      obtain ⟨object, found⟩ : ∃ object, AList.lookup address state.stateObjects = some object :=
        Option.isSome_iff_exists.mp
          (AList.lookup_isSome.mpr (AList.mem_keys.mp (present address List.mem_cons_self)))
      obtain ⟨op, isOp, visits⟩ := updates.visit nothing reached
        (fresh address List.mem_cons_self) found enough
      rw [accountOps, List.filterMap_cons_some isOp] at members right onTheWay ⊢
      obtain ⟨next, visitedEq, nextReached⟩ := visits
        (by
          rintro update rfl
          exact members ⟨update, by simp [TrieOp.updates], rfl⟩)
        right.head
        (onTheWay _
          (List.mem_cons_of_mem _ (List.mem_append_right _ (TrieOp.mem_reached_self _ _))))
        (fun left member => onTheWay left
          (List.mem_cons_of_mem _ (List.mem_append_left _ member)))
      obtain ⟨last, run, lastReached⟩ := induction nextReached distinct
        (by
          intro other member
          rw [List.mem_cons, not_or]
          exact ⟨fun same => notIn (same ▸ member), fresh other (List.mem_cons_of_mem _ member)⟩)
        (fun other member => present other (List.mem_cons_of_mem _ member))
        (Set.Subset.trans (pairsOf_mono (TrieOp.updates_tail_subset op _)) members) right.tail
        (fun next member => onTheWay next (List.mem_cons_of_mem _ (List.mem_append_right _ member)))
      refine ⟨last, by simpa [visitedEq] using run, ?_⟩
      rw [List.foldl_cons]
      simpa [accountOps] using lastReached

/-- `Update` succeeds, and leaves a trie that stands for the accounts of all objects. -/
theorem Updates.update (nothing : db.get [] = []) (enough : 65 ≤ depth) :
    ∃ next, state.update sha3Bin db depth addresses slots = some next ∧
      Stands sha3Bin accounts.reread accounts.scope (viewOf accounts.reread next.1) next.2.trie
        ((accountOps sha3Bin state storages slots addresses).foldl TrieOp.applyToTree
          accounts.tree) := by
  have start : Reached sha3Bin codes db state accounts [] (db, state) accounts.tree :=
    ⟨updates.holds, updates.unread, fun _ _ => rfl, .refl⟩
  obtain ⟨last, visited, reached⟩ := updates.loop nothing enough start
    (updates.traverses.symm.nodup state.stateObjects.keys_nodup) (by simp)
    (fun address member => updates.traverses.subset member) updates.covers.members updates.right
    updates.covers.reached
  obtain ⟨cache, checked, stands⟩ := updates.covers.paranoid reached.stands
    ((reached.grown.get_nil updates.covers.spec).trans nothing) reached.unread
    (show 2 * 20 < depth by omega)
  exact ⟨(last.1, { last.2 with trie := { last.2.trie with cache := cache } }),
    by simp [State.update, visited, checked], stands⟩

variable {otherAddresses : List Bytes} {otherSlots : Bytes → StorageOrder}

/-- The calls of two orders are the same but for their order. -/
theorem Updates.perm
    (others : Updates sha3Bin codes db state accounts storages otherAddresses otherSlots)
    (nothing : db.get [] = []) :
    (accountOps sha3Bin state storages slots addresses).Perm
      (accountOps sha3Bin state storages otherSlots otherAddresses) := by
  have afterEq : accountAfter sha3Bin state storages slots =
      accountAfter sha3Bin state storages otherSlots := by
    funext address
    unfold accountAfter
    cases found : AList.lookup address state.stateObjects with
    | none => rfl
    | some object =>
        cases marked : object.remove with
        | true => simp only [marked, if_true]
        | false =>
            have treeEq := (updates.syncs address object found marked).syncedTree_eq
              (others.syncs address object found marked) nothing
            simp only [marked, treeEq]
  have opEq : accountOp sha3Bin state storages slots =
      accountOp sha3Bin state storages otherSlots := by
    funext address
    simp only [accountOp, afterEq]
  rw [accountOps, accountOps, opEq]
  exact (updates.traverses.trans others.traverses.symm).filterMap _

theorem Updates.nodup_accountOps :
    ((accountOps sha3Bin state storages slots addresses).map TrieOp.key).Nodup := by
  have keys := sublist_keys (accountOp_key sha3Bin state storages slots) addresses
  rw [List.map_id'] at keys
  exact keys.nodup (updates.traverses.symm.nodup state.stateObjects.keys_nodup)

end Loop

end Update

/-- The roots do not depend on the order of a traversal in which the code gets every
deletion right. -/
theorem roots_independent_of_order (sha3Bin : Bytes → Bytes) (codes : Set Bytes) (db : Database)
    (nothing : db.get [] = []) (depth : Nat) (enough : 65 ≤ depth) :
    (∀ object standing order other, Syncs sha3Bin codes db object standing order →
      Syncs sha3Bin codes db object standing other →
      ∃ synced otherSynced, object.sync sha3Bin db depth order = some synced ∧
        object.sync sha3Bin db depth other = some otherSynced ∧
        synced.trie.root.asBytes = otherSynced.trie.root.asBytes) ∧
    (∀ state accounts storages addresses otherAddresses slots otherSlots,
      Updates sha3Bin codes db state accounts storages addresses slots →
      Updates sha3Bin codes db state accounts storages otherAddresses otherSlots →
      ∃ next otherNext, state.update sha3Bin db depth addresses slots = some next ∧
        state.update sha3Bin db depth otherAddresses otherSlots = some otherNext ∧
        next.2.trie.root.asBytes = otherNext.2.trie.root.asBytes) := by
  constructor
  · intro object standing order other syncs otherSyncs
    obtain ⟨trie, synced, stands⟩ := syncs.sync enough .refl nothing
    obtain ⟨otherTrie, otherSynced, otherStands⟩ := otherSyncs.sync enough .refl nothing
    rw [← syncs.syncedTree_eq otherSyncs nothing] at otherStands
    exact ⟨_, _, synced, otherSynced, stands.root_asBytes_eq otherStands⟩
  · intro state accounts storages addresses otherAddresses slots otherSlots updates others
    obtain ⟨next, updated, stands⟩ := updates.update nothing enough
    obtain ⟨otherNext, otherUpdated, otherStands⟩ := others.update nothing enough
    rw [← updates.covers.tree_eq (updates.perm others nothing) updates.nodup_accountOps stands
      otherStands updates.holds.rooted] at otherStands
    exact ⟨next, otherNext, updated, otherUpdated, stands.root_asBytes_eq otherStands⟩

/-! ### A storage trie opened at a root -/

def contractCode : Bytes := [0x60]

theorem folded_spec {scope : Scope} (trees : List PathTree)
    (covered : ∀ tree ∈ scope.trees, tree ∈ trees)
    (distinct : ((contractCode :: encodings folded trees).map folded).Nodup) :
    Sha3Spec folded (nodeEncodings folded scope ∪ {contractCode}) := by
  refine sha3Spec_listed length_folded _ (fun data member => ?_) distinct
  rcases member with member | rfl
  · exact List.mem_cons_of_mem _ (mem_encodings covered member)
  · exact List.mem_cons_self

def firstAddress : Bytes := List.replicate 20 0

def secondAddress : Bytes := List.replicate 20 1

/-- A pending deletion. -/
def pendingClear : Sigma fun _ : Bytes => Value := ⟨storageSlot 0x10 0, .bigInt 0⟩

/-- A pending write, of the number `0x64`. -/
def pendingWrite : Sigma fun _ : Bytes => Value := ⟨storageSlot 0x20 0, .bigInt 0x64⟩

def clearAndWrite : Storage :=
  ⟨[pendingClear, pendingWrite], (by decide : [pendingClear.1, pendingWrite.1].Nodup)⟩

@[simp] theorem storageOps_clear_write :
    storageOps [pendingClear, pendingWrite] =
      [.delete (storageSlot 0x10 0), .update (letterUpdate (storageSlot 0x20 0) 0x64)] :=
  rfl

@[simp] theorem storageOps_write_clear :
    storageOps [pendingWrite, pendingClear] =
      [.update (letterUpdate (storageSlot 0x20 0) 0x64), .delete (storageSlot 0x10 0)] :=
  rfl

/-- What follows the first nibble of a slot. -/
def slotPath : List Nibble := List.replicate 63 0 ++ [16]

def slotLeaf (letter : UInt8) : PathTree := .short slotPath (.value [letter])

/-- The branching above three slots, of which the first one holds `"a"`. -/
def slotEdges (second third : PathTree) (symbol : Nibble) : PathTree :=
  if symbol = 0 then slotLeaf 0x61 else if symbol = 1 then second
  else if symbol = 2 then third else .empty

def slotTree (second third : PathTree) : PathTree := .full (slotEdges second third)

@[simp] theorem slot_zero : compactHexDecode (storageSlot 0 0) = 0 :: slotPath := by decide +kernel

@[simp] theorem slot_one : compactHexDecode (storageSlot 0x10 0) = 1 :: slotPath := by
  decide +kernel

@[simp] theorem slot_two : compactHexDecode (storageSlot 0x20 0) = 2 :: slotPath := by
  decide +kernel

@[simp] theorem insert_first (letter : UInt8) :
    (Patricia.empty : PathTree).insert (0 :: slotPath) [letter] =
      .short (0 :: slotPath) (.value [letter]) :=
  rfl

@[simp] theorem insert_apart {symbol : Nibble} (different : symbol ≠ 0) (letter : UInt8) :
    (Patricia.short (0 :: slotPath) (.value [0x61]) : PathTree).insert (symbol :: slotPath)
      [letter] = fork 0 symbol (slotLeaf 0x61) (slotLeaf letter) := by
  rw [Patricia.insert, splitCommon, if_neg different.symm]
  rfl

@[simp] theorem fork_one (letter : UInt8) :
    fork 0 1 (slotLeaf 0x61) (slotLeaf letter) = slotTree (slotLeaf letter) .empty := by
  refine congrArg Patricia.full (funext fun symbol => ?_)
  fin_cases symbol <;> rfl

@[simp] theorem fork_two (letter : UInt8) :
    fork 0 2 (slotLeaf 0x61) (slotLeaf letter) = slotTree .empty (slotLeaf letter) := by
  refine congrArg Patricia.full (funext fun symbol => ?_)
  fin_cases symbol <;> rfl

theorem insert_two (second third : PathTree) (letter : UInt8)
    (inserted : third.insert slotPath [letter] = slotLeaf letter) :
    (slotTree second third).insert (2 :: slotPath) [letter] =
      slotTree second (slotLeaf letter) := by
  rw [slotTree, Patricia.insert]
  refine congrArg Patricia.full (funext fun symbol => ?_)
  fin_cases symbol <;> first | rfl | exact inserted

@[simp] theorem overwrite_two (second : PathTree) (letter : UInt8) :
    (slotTree second (slotLeaf 0x63)).insert (2 :: slotPath) [letter] =
      slotTree second (slotLeaf letter) :=
  insert_two _ _ _ rfl

theorem slotLeaf_ne_empty (letter : UInt8) : slotLeaf letter ≠ .empty := by
  intro isEmpty
  cases isEmpty

@[simp] theorem delete_one (letter : UInt8) :
    (slotTree (slotLeaf 0x62) (slotLeaf letter)).delete (1 :: slotPath) =
      slotTree .empty (slotLeaf letter) := by
  have cleared : Function.update (slotEdges (slotLeaf 0x62) (slotLeaf letter)) 1 .empty =
      slotEdges .empty (slotLeaf letter) := by
    funext symbol
    fin_cases symbol <;> rfl
  have emptied : (slotEdges (slotLeaf 0x62) (slotLeaf letter) 1).delete slotPath = .empty :=
    if_pos rfl
  rw [slotTree, Patricia.delete, emptied, cleared, slotTree]
  exact collapse_eq_full (show (0 : Nibble) ≠ 2 by decide) (slotLeaf_ne_empty _)
    (slotLeaf_ne_empty _)

theorem spreads_one (letter : UInt8) :
    Spreads (slotTree (slotLeaf 0x62) (slotLeaf letter)) (1 :: slotPath) :=
  ⟨fun different => (different rfl).elim, 0, 2, by decide, slotLeaf_ne_empty _,
    slotLeaf_ne_empty _⟩

@[simp] theorem deletions_one (letter : UInt8) :
    deletions (slotTree (slotLeaf 0x62) (slotLeaf letter)) (1 :: slotPath) =
      [slotTree .empty (slotLeaf letter), .empty] := by
  have way : deletions (slotLeaf 0x62) slotPath = [.empty] := by
    rw [slotLeaf, deletions, if_pos (by simp), Patricia.delete, if_pos rfl]
    rfl
  exact congrArg₂ List.cons (delete_one letter) way

/-- The trees that the runs below come to. -/
def slotTrees : List PathTree :=
  [.empty, .short (0 :: slotPath) (.value [0x61]), slotTree (slotLeaf 0x62) .empty,
    slotTree (slotLeaf 0x62) (slotLeaf 0x63), slotTree .empty (slotLeaf 0x63),
    slotTree (slotLeaf 0x62) (slotLeaf 0x64), slotTree .empty (slotLeaf 0x64)]

def slotUpdates : List Update :=
  [letterUpdate (storageSlot 0 0) 0x61, letterUpdate (storageSlot 0x10 0) 0x62,
    letterUpdate (storageSlot 0x20 0) 0x63, letterUpdate (storageSlot 0x20 0) 0x64]

def slotScope : Scope := ⟨pairsOf slotUpdates, {tree | tree ∈ slotTrees}⟩

theorem slotScope_spec : Sha3Spec folded (nodeEncodings folded slotScope ∪ {contractCode}) :=
  folded_spec slotTrees (fun _ => id) (by decide +kernel)

theorem slotScope_noZero : slotScope.NoZero := by
  rintro pair ⟨update, member, rfl⟩
  fin_cases member <;> decide

def slotWrites : List StoreOp :=
  [.update (letterUpdate (storageSlot 0 0) 0x61) (by decide),
    .update (letterUpdate (storageSlot 0x10 0) 0x62) (by decide),
    .update (letterUpdate (storageSlot 0x20 0) 0x63) (by decide), .sync]

/-- The database that a trie with three slots has been synced to. -/
def slotStore : Store :=
  ((⟨∅, .new (.str [])⟩ : Store).run folded slotWrites).getD ⟨∅, .new (.str [])⟩

theorem slotStore_opened :
    Stands folded true slotScope (Cache.source slotStore.db) (.new slotStore.trie.prevRoot)
      (slotTree (slotLeaf 0x62) (slotLeaf 0x63)) := by
  have filled : (slotTree (slotLeaf 0x62) .empty).insert (2 :: slotPath) [0x63] =
      slotTree (slotLeaf 0x62) (slotLeaf 0x63) := insert_two _ _ _ rfl
  have trees : slotWrites.foldl StoreOp.applyTo (.empty, .empty) =
      (slotTree (slotLeaf 0x62) (slotLeaf 0x63), slotTree (slotLeaf 0x62) (slotLeaf 0x63)) := by
    simp [slotWrites, StoreOp.applyTo, letterUpdate, filled]
  have members : pairsOf (StoreOp.updates slotWrites) ⊆ slotScope.pairs :=
    pairsOf_mono (by simp [slotWrites, StoreOp.updates, slotUpdates])
  have reached : ∀ next ∈ StoreOp.reached (.empty, .empty) slotWrites, next ∈ slotScope.trees := by
    intro next member
    simp [slotWrites, StoreOp.reached, StoreOp.applyTo, letterUpdate, filled] at member
    change next ∈ slotTrees
    simp only [slotTrees, List.mem_cons]
    tauto
  obtain ⟨store, run, coherent⟩ := (stands_new ..).coherent_new.run
    (slotScope_spec.mono Set.subset_union_left) (ok_of_subset (Set.Subset.refl _))
    slotScope_noZero members reached
  have isStore : slotStore = store := by
    rw [slotStore, run, Option.getD_some]
  rw [trees] at coherent
  rw [isStore]
  exact coherent.saved

/-- Both orders of the pending storage. -/
def IsOrder (order : StorageOrder) : Prop :=
  order = [pendingClear, pendingWrite] ∨ order = [pendingWrite, pendingClear]

def slotStanding : Standing := ⟨slotScope, true, slotTree (slotLeaf 0x62) (slotLeaf 0x63)⟩

def storingObject : StateObject :=
  ⟨firstAddress, 0, 10, contractCode, [], .new slotStore.trie.prevRoot, clearAndWrite, 0, false⟩

theorem syncedTree_slotTree {order : StorageOrder} (isOrder : IsOrder order) :
    syncedTree slotStanding.tree order = slotTree .empty (slotLeaf 0x64) := by
  rcases isOrder with rfl | rfl
  · simp [syncedTree, TrieOp.applyToTree, slotStanding, letterUpdate]
  · simp [syncedTree, TrieOp.applyToTree, slotStanding, letterUpdate]

theorem reached_slotTree {order : StorageOrder} (isOrder : IsOrder order) :
    TrieOp.reached slotStanding.tree (storageOps order) ⊆ slotTrees := by
  rcases isOrder with rfl | rfl
  · simp [TrieOp.reached, TrieOp.steps, TrieOp.applyToTree, slotStanding, letterUpdate, slotTrees]
  · simp [TrieOp.reached, TrieOp.steps, TrieOp.applyToTree, slotStanding, letterUpdate, slotTrees]

theorem rebuilds_slotTree :
    rebuilds (slotTree .empty (slotLeaf 0x64)) = [.empty, .short (0 :: slotPath) (.value [0x61]),
      slotTree .empty (slotLeaf 0x64)] := by
  have entries : (slotTree .empty (slotLeaf 0x64)).entries (List.finRange 17) =
      [(0 :: slotPath, [0x61]), (2 :: slotPath, [0x64])] := by
    decide +kernel
  rw [rebuilds, entries]
  simp [insertions]

theorem syncs_storingObject {order : StorageOrder} (isOrder : IsOrder order) :
    Syncs folded {contractCode} slotStore.db storingObject slotStanding order where
  holds := slotStore_opened
  unread := nofun
  traverses := by
    rcases isOrder with rfl | rfl
    · exact .refl _
    · exact .swap _ _ _
  keyLength := by decide
  valueLength := by decide +kernel
  right := by
    rcases isOrder with rfl | rfl
    · simpa [TrieOp.Allowed, RightDelete, slotStanding] using spreads_one 0x63
    · simpa [TrieOp.Allowed, RightDelete, TrieOp.applyToTree, letterUpdate, slotStanding] using
        spreads_one 0x64
  covers := {
    ok := ok_of_subset (Set.Subset.refl _)
    noZero := fun _ => slotScope_noZero
    spec := slotScope_spec
    lengths := by
      rintro pair ⟨update, member, rfl⟩
      fin_cases member <;> decide +kernel
    texts := by
      rintro pair ⟨update, -, rfl⟩
      exact ⟨_, rfl⟩
    sizes := by
      rcases isOrder with rfl | rfl <;> decide +kernel
    members := by
      refine pairsOf_mono ?_
      rcases isOrder with rfl | rfl <;>
        simp [TrieOp.updates, slotUpdates]
    reached := reached_slotTree isOrder
    copies := by
      intro next member
      rw [← syncedTree, syncedTree_slotTree isOrder, rebuilds_slotTree] at member
      change next ∈ slotTrees
      simp only [List.mem_cons, List.not_mem_nil] at member
      simp only [slotTrees, List.mem_cons]
      tauto }

def removedObject : StateObject :=
  ⟨secondAddress, 0, 0, [], [], .new (.str []), ∅, 0, true⟩

def twoObjects : State StateObject :=
  ⟨.new (.str []), ⟨[⟨firstAddress, storingObject⟩, ⟨secondAddress, removedObject⟩],
    (by decide : [firstAddress, secondAddress].Nodup)⟩⟩

/-- The object after `Sync`. -/
def storedObject : StateObject :=
  { storingObject with
    trie := .new (.bytes (folded (nodeItem folded (slotTree .empty (slotLeaf 0x64))).encode)) }

/-- The update of the account of the first object. -/
def storingUpdate : Update :=
  ⟨⟨firstAddress, by decide⟩, ⟨storedObject.rlpEncode folded, by decide +kernel⟩,
    by decide +kernel⟩

def accountLeaf : PathTree :=
  .short (compactHexDecode firstAddress) (.value (storedObject.rlpEncode folded))

theorem insert_account :
    (Patricia.empty : PathTree).insert (compactHexDecode storingUpdate.key)
      storingUpdate.value.val = accountLeaf := by
  rw [Patricia.insert, joinShort, if_neg (terminated_compactHexDecode _).ne_nil]
  rfl

theorem delete_accountLeaf : accountLeaf.delete (compactHexDecode secondAddress) = accountLeaf := by
  rw [accountLeaf, Patricia.delete, if_neg (by decide +kernel), if_neg (by decide +kernel)]

theorem deletions_accountLeaf :
    deletions accountLeaf (compactHexDecode secondAddress) = [accountLeaf] := by
  rw [accountLeaf, deletions, if_neg (by decide +kernel), ← accountLeaf, delete_accountLeaf]

theorem rebuilds_accountLeaf : rebuilds accountLeaf = [.empty, accountLeaf] := by
  have entries : accountLeaf.entries (List.finRange 17) = [storingUpdate.entry] := by
    decide +kernel
  rw [rebuilds, entries, insertions, insertions]
  exact congrArg _ (congrArg (fun tree => [tree]) insert_account)

def accountStanding : Standing :=
  ⟨⟨pairsOf [storingUpdate], {tree | tree ∈ [.empty, accountLeaf]}⟩, false, .empty⟩

theorem lookup_twoObjects {address : Bytes} {object : StateObject}
    (found : AList.lookup address twoObjects.stateObjects = some object) :
    (address = firstAddress ∧ object = storingObject) ∨
      (address = secondAddress ∧ object = removedObject) := by
  have member : (⟨address, object⟩ : Sigma fun _ : Bytes => StateObject) ∈
      [⟨firstAddress, storingObject⟩, ⟨secondAddress, removedObject⟩] :=
    List.of_mem_dlookup found
  simpa using member

section TwoObjects

variable {slots : Bytes → StorageOrder} (isOrder : ∀ address, IsOrder (slots address))
include isOrder

theorem accountAfter_first :
    accountAfter folded twoObjects (fun _ => slotStanding) slots firstAddress =
      some (storedObject.rlpEncode folded) := by
  have encoded : accountOf folded storingObject (slotTree .empty (slotLeaf 0x64)) =
      storedObject.rlpEncode folded := by
    decide +kernel
  rw [← encoded, ← syncedTree_slotTree (isOrder firstAddress)]
  rfl

theorem accountOp_first :
    accountOp folded twoObjects (fun _ => slotStanding) slots firstAddress =
      some (.update storingUpdate) := by
  rw [accountOp, dif_pos (by decide), accountAfter_first isOrder]
  exact dif_pos ⟨storingUpdate.value.2, storingUpdate.nonempty⟩

omit isOrder in
theorem accountOp_second :
    accountOp folded twoObjects (fun _ => slotStanding) slots secondAddress =
      some (.delete ⟨secondAddress, by decide⟩) :=
  rfl

variable {addresses : List Bytes} (visits : addresses = [firstAddress, secondAddress] ∨
  addresses = [secondAddress, firstAddress])
include visits

theorem mem_accountOps {op : TrieOp}
    (member : op ∈ accountOps folded twoObjects (fun _ => slotStanding) slots addresses) :
    op = .update storingUpdate ∨ op = .delete ⟨secondAddress, by decide⟩ := by
  rcases visits with rfl | rfl <;>
    simpa [accountOps, accountOp_first isOrder, accountOp_second, or_comm] using member

theorem foldl_accountOps :
    (accountOps folded twoObjects (fun _ => slotStanding) slots addresses).foldl
      TrieOp.applyToTree .empty = accountLeaf := by
  rcases visits with rfl | rfl
  · simp [accountOps, accountOp_first isOrder, accountOp_second, TrieOp.applyToTree,
      insert_account, delete_accountLeaf]
  · simp [accountOps, accountOp_first isOrder, accountOp_second, TrieOp.applyToTree,
      insert_account, Patricia.delete]

theorem reached_accountOps :
    TrieOp.reached .empty (accountOps folded twoObjects (fun _ => slotStanding) slots addresses) ⊆
      [.empty, accountLeaf] := by
  rcases visits with rfl | rfl
  · simp [accountOps, accountOp_first isOrder, accountOp_second, TrieOp.reached, TrieOp.steps,
      TrieOp.applyToTree, insert_account, delete_accountLeaf, deletions_accountLeaf]
  · simp [accountOps, accountOp_first isOrder, accountOp_second, TrieOp.reached, TrieOp.steps,
      TrieOp.applyToTree, insert_account, deletions, Patricia.delete]

theorem covers_accountOps :
    accountStanding.Covers folded {contractCode} 20
      (accountOps folded twoObjects (fun _ => slotStanding) slots addresses) where
  ok := ok_of_subset (Set.Subset.refl _)
  noZero := nofun
  spec := folded_spec [.empty, accountLeaf] (fun _ => id) (by decide +kernel)
  lengths := by
    rintro pair ⟨update, member, rfl⟩
    rw [List.mem_singleton.mp member]
    decide +kernel
  texts := by
    rintro pair ⟨update, -, rfl⟩
    exact ⟨_, rfl⟩
  sizes := by
    intro op member
    rcases mem_accountOps isOrder visits member with rfl | rfl <;> rfl
  members := by
    refine pairsOf_mono fun update member => ?_
    obtain ⟨op, inside, isUpdate⟩ := List.mem_filterMap.mp member
    rcases mem_accountOps isOrder visits inside with rfl | rfl
    · exact List.mem_singleton.mpr (Option.some.inj isUpdate).symm
    · cases isUpdate
  reached := reached_accountOps isOrder visits
  copies := by
    rw [show accountStanding.tree = .empty from rfl, foldl_accountOps isOrder visits,
      rebuilds_accountLeaf]
    exact fun _ => id

theorem updates_twoObjects :
    Updates folded {contractCode} slotStore.db twoObjects accountStanding
      (fun _ => slotStanding) addresses slots where
  holds := stands_new ..
  unread := nofun
  traverses := by
    rcases visits with rfl | rfl
    · exact .refl _
    · exact .swap _ _ _
  addressed := by
    intro address object found
    rcases lookup_twoObjects found with ⟨rfl, rfl⟩ | ⟨rfl, rfl⟩
    · exact ⟨rfl, by decide⟩
    · exact ⟨rfl, by decide⟩
  coded := by
    intro address object found hasCode
    rcases lookup_twoObjects found with ⟨rfl, rfl⟩ | ⟨rfl, rfl⟩
    · rfl
    · exact (hasCode rfl).elim
  syncs := by
    intro address object found stays
    rcases lookup_twoObjects found with ⟨rfl, rfl⟩ | ⟨rfl, rfl⟩
    · exact syncs_storingObject (isOrder firstAddress)
    · cases stays
  accountLength := by
    intro address account after
    cases found : AList.lookup address twoObjects.stateObjects with
    | none => simp [accountAfter, found] at after
    | some object =>
        rcases lookup_twoObjects found with ⟨rfl, rfl⟩ | ⟨rfl, rfl⟩
        · rw [accountAfter_first isOrder] at after
          rw [← Option.some.inj after]
          exact storingUpdate.value.2
        · cases after
  covers := covers_accountOps isOrder visits
  written := by
    rintro pair ⟨update, member, rfl⟩
    rw [List.mem_singleton.mp member]
    exact ⟨storedObject, rfl⟩
  spreads := nofun

end TwoObjects

/-- Of a trie opened at a root a slot is deleted and another one overwritten; one object is
stored and another one removed. -/
theorem roots_eq_pending :
    (∃ synced otherSynced,
      storingObject.sync folded slotStore.db 65 [pendingClear, pendingWrite] = some synced ∧
      storingObject.sync folded slotStore.db 65 [pendingWrite, pendingClear] = some otherSynced ∧
      synced.trie.root.asBytes = otherSynced.trie.root.asBytes) ∧
    (∃ next otherNext,
      twoObjects.update folded slotStore.db 65 [firstAddress, secondAddress]
        (fun _ => [pendingClear, pendingWrite]) = some next ∧
      twoObjects.update folded slotStore.db 65 [secondAddress, firstAddress]
        (fun _ => [pendingWrite, pendingClear]) = some otherNext ∧
      next.2.trie.root.asBytes = otherNext.2.trie.root.asBytes) := by
  have independent := roots_independent_of_order folded {contractCode} slotStore.db
    (by decide +kernel) 65 (Nat.le_refl 65)
  exact ⟨independent.1 _ _ _ _ (syncs_storingObject (.inl rfl)) (syncs_storingObject (.inr rfl)),
    independent.2 _ _ _ _ _ _ _ (updates_twoObjects (fun _ => .inl rfl) (.inl rfl))
      (updates_twoObjects (fun _ => .inr rfl) (.inr rfl))⟩

/-! ### A deletion whose place matters -/

/-- A branching with three slots in use or less. -/
def slotBranch (first second third : Value) : Value :=
  .list ([first, second, third] ++ List.replicate 14 (.str []))

/-- Keccak-256 of the nodes hashed by the two calls of `Sync` below. -/
def orderSamples : List (Bytes × Bytes) :=
  slotSamples ++
  [(encode (.list [.str (0x30 :: List.replicate 31 0), .str [0x64]]),
      digest 0x4800815d85b8e66c6598674489238a033255dda4e5b5d2defc85289b02eeac31),
    (encode (.list [.str (0x00 :: List.replicate 31 0), .str []]),
      digest 0xf319ecc530bf679aa82751dc616fe1518d70c3d3a4d10c89005f29db05979b31),
    (encode (.list [.str (0x20 :: 0x20 :: List.replicate 31 0), .str [0x64]]),
      digest 0x85643bc29cd2abb1ec3b4afd33007cf11e1a0e8766a06786f277b8e22e434d53),
    (encode (slotBranch
        (.bytes (digest 0xf319ecc530bf679aa82751dc616fe1518d70c3d3a4d10c89005f29db05979b31))
        (.str [])
        (.bytes (digest 0x4800815d85b8e66c6598674489238a033255dda4e5b5d2defc85289b02eeac31))),
      digest 0xb5a10ee7a8267d4823dd5c6218476bc5ef65a52461f9de580ad9a7032f6e2631),
    (encode (slotBranch
        (.bytes (digest 0x4e9fed9559626588362a18b8d7a0280b08683414139ecd910d117304eedc554a))
        (.str [])
        (.bytes (digest 0x4800815d85b8e66c6598674489238a033255dda4e5b5d2defc85289b02eeac31))),
      digest 0x45bf21b2bff80282a1f2560a0c7835ad451ff4b7bb9a7baa6cf18fdcf7b235ef),
    (encode (slotBranch
        (.bytes (digest 0x4e9fed9559626588362a18b8d7a0280b08683414139ecd910d117304eedc554a))
        (.bytes (digest 0xb7dd5aca93ac6c4f8d579754a0ee228726053827770d00714ba46560f8375e9b))
        (.bytes (digest 0x4800815d85b8e66c6598674489238a033255dda4e5b5d2defc85289b02eeac31))),
      digest 0xc7d4760173e76e17e26da8c85e0f440002dcdf2fd8a21d8e72bedf7e1d7e7b42)]

def orderHash : Bytes → Bytes :=
  sampled orderSamples fun data => data ++ List.replicate 33 0

/-- The slots of a storage trie: two that differ in their last nibble, and one that
shares no nibble with them. -/
def threeSlots : List TrieOp :=
  [.update (letterUpdate (storageSlot 0 0) 0x61), .update (letterUpdate (storageSlot 0 1) 0x62),
    .update (letterUpdate (storageSlot 0x10 0) 0x63)]

/-- The root after `Sync` of an object with the three slots. -/
def rootAfter (order : StorageOrder) : Option Bytes := do
  let trie ← (Trie.new (.str [])).run orderHash ∅ threeSlots
  let object : StateObject := ⟨firstAddress, 0, 0, [], [], trie, clearAndWrite, 0, false⟩
  let synced ← object.sync orderHash ∅ 65 order
  return synced.trie.root.asBytes

/-- When the deletion comes first, the two slots that were not touched are lost. -/
theorem rootAfter_ne_swapped :
    Function.Injective orderHash ∧ (∀ op ∈ threeSlots, op.key.length = 32) ∧
      [pendingClear, pendingWrite].Perm clearAndWrite.entries ∧
      [pendingWrite, pendingClear].Perm clearAndWrite.entries ∧
      rootAfter [pendingClear, pendingWrite] =
        some (digest 0x85643bc29cd2abb1ec3b4afd33007cf11e1a0e8766a06786f277b8e22e434d53) ∧
      rootAfter [pendingWrite, pendingClear] =
        some (digest 0x45bf21b2bff80282a1f2560a0c7835ad451ff4b7bb9a7baa6cf18fdcf7b235ef) ∧
      rootAfter [pendingClear, pendingWrite] ≠ rootAfter [pendingWrite, pendingClear] :=
  ⟨sampled_injective (by decide +kernel) (by decide +kernel), by decide, .refl _, .swap _ _ _,
    by decide +kernel, by decide +kernel, by decide +kernel⟩

end Thelonious
