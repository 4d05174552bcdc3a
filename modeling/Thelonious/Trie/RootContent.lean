import Thelonious.Trie.Operations

/-!
# The root of a trie and the map it holds

Two tries filled by `Update` have the same root exactly when they hold the same
map, whatever the order of the updates.
-/

namespace Thelonious

open Radix Radix.Patricia

/-- The arguments of a call of `Update` with a non-empty value. -/
structure Update where
  key : GoString
  value : GoString
  nonempty : value.val ≠ []

/-- The pair that is written. -/
def Update.entry (update : Update) : List Nibble × Bytes :=
  (compactHexDecode update.key, update.value.val)

/-- The pairs written by the updates. -/
def pairsOf (updates : List Update) : Set (List Nibble × Bytes) :=
  {pair | ∃ update ∈ updates, pair = update.entry}

/-- The map from keys to the values last written. -/
def lastValues (updates : List Update) : Bytes → Option Bytes :=
  updates.foldl (fun map update => Function.update map update.key.val update.value.val)
    (fun _ => none)

namespace Trie

/-- The updates, one after the other. -/
def updateAll (sha3Bin : Bytes → Bytes) (db : Database) (trie : Trie)
    (updates : List Update) : Option Trie :=
  updates.foldlM (fun trie update => trie.update sha3Bin db update.key update.value) trie

end Trie

theorem ok_of_subset {scope : Scope} {updates : List Update}
    (subset : scope.pairs ⊆ pairsOf updates) : scope.Ok where
  keyLength := by
    intro key value member
    obtain ⟨update, _, pairEq⟩ := subset member
    cases pairEq
    have bound := update.key.property
    rw [length_compactHexDecode]
    omega
  valueLength := by
    intro key value member
    obtain ⟨update, _, pairEq⟩ := subset member
    cases pairEq
    exact update.value.property
  nonempty := by
    intro key value member
    obtain ⟨update, _, pairEq⟩ := subset member
    cases pairEq
    exact update.nonempty

theorem pairsOf_mono {updates more : List Update} (subset : updates ⊆ more) :
    pairsOf updates ⊆ pairsOf more := by
  rintro pair ⟨update, member, pairEq⟩
  exact ⟨update, subset member, pairEq⟩

theorem text_of_mem_pairsOf (updates : List Update) :
    ∀ pair ∈ pairsOf updates, ∃ text, pair.1 = compactHexDecode text := by
  rintro pair ⟨update, _, rfl⟩
  exact ⟨update.key, rfl⟩

/-! ### The type of the root -/

section Shape

variable {sha3Bin : Bytes → Bytes} {db : Database} {cache next : Cache} {reference : Value}

private theorem put_ne_str {items : List Value}
    (putEq : Trie.put sha3Bin cache (.list items) = (reference, next)) (text : Bytes) :
    reference ≠ .str text := by
  have referenceEq : (Trie.put sha3Bin cache (.list items)).1 = reference := by rw [putEq]
  rw [← referenceEq]
  unfold Trie.put Cache.putValue
  dsimp only
  split <;> simp

private theorem putShort_ne_str {path : List Nibble} {child : Value}
    (putEq : Trie.putShort sha3Bin cache path child = some (reference, next)) (text : Bytes) :
    reference ≠ .str text := by
  obtain ⟨encoded, _, putEq⟩ := Option.bind_eq_some_iff.mp putEq
  exact put_ne_str (Option.some.inj putEq) text

/-- `InsertState` returns a node, or the hash of one, but never a string. -/
theorem insertState_ne_str {fuel : Nat} {node value : Value} {key : List Nibble}
    (nonempty : key ≠ [])
    (inserted : Trie.insertState sha3Bin db fuel cache node key value = some (reference, next))
    (text : Bytes) : reference ≠ .str text := by
  induction fuel generalizing cache node key value reference next with
  | zero => simp [Trie.insertState] at inserted
  | succ fuel induction =>
      obtain ⟨nibble, rest, rfl⟩ := List.exists_cons_of_ne_nil nonempty
      rw [Trie.insertState] at inserted
      split at inserted
      · exact putShort_ne_str inserted text
      · obtain ⟨⟨currentNode, second⟩, _, inserted⟩ := Option.bind_eq_some_iff.mp inserted
        dsimp only at inserted
        split at inserted
        · obtain ⟨k, _, inserted⟩ := Option.bind_eq_some_iff.mp inserted
          split at inserted
          · exact putShort_ne_str inserted text
          · -- the new child is returned as it is when nothing matches
            split at inserted
            · obtain ⟨⟨hash, third⟩, lower, inserted⟩ := Option.bind_eq_some_iff.mp inserted
              dsimp only at inserted
              split at inserted
              · rename_i nothing
                cases inserted
                exact induction (by simp [nothing]) lower
              · exact putShort_ne_str inserted text
            · split at inserted
              · obtain ⟨⟨oldNode, third⟩, _, inserted⟩ :=
                  Option.bind_eq_some_iff.mp inserted
                obtain ⟨⟨newNode, fourth⟩, _, inserted⟩ :=
                  Option.bind_eq_some_iff.mp inserted
                dsimp only [pure, bind, Option.bind] at inserted
                split at inserted
                · exact put_ne_str (Option.some.inj inserted) text
                · exact putShort_ne_str inserted text
              · cases inserted
        · obtain ⟨⟨child, third⟩, _, inserted⟩ := Option.bind_eq_some_iff.mp inserted
          exact put_ne_str (Option.some.inj inserted) text

private theorem setRoot_root_ne_str {trie : Trie} (notStr : ∀ text, reference ≠ .str text)
    (text : Bytes) : (trie.setRoot sha3Bin reference cache).root ≠ .str text := by
  cases reference with
  | str other => exact (notStr other rfl).elim
  | _ => simp [Trie.setRoot, Cache.putValue]

theorem update_root_ne_str {trie next : Trie} {key value : Bytes}
    (updated : trie.update sha3Bin db key value = some next) (text : Bytes) :
    next.root ≠ .str text := by
  obtain ⟨⟨reference, cache⟩, inserted, nextEq⟩ := Option.bind_eq_some_iff.mp updated
  rw [← Option.some.inj nextEq]
  exact setRoot_root_ne_str
    (insertState_ne_str (terminated_compactHexDecode key).ne_nil inserted) text

end Shape

/-! ### Runs of updates -/

/-- The tree after the updates. -/
def insertAll (tree : PathTree) (updates : List Update) : PathTree :=
  updates.foldl (fun tree update => tree.insert (compactHexDecode update.key) update.value.val)
    tree

/-- The trees on the way when entries are inserted. -/
def insertions (tree : PathTree) : List (List Nibble × Bytes) → List PathTree
  | [] => [tree]
  | entry :: entries => tree :: insertions (tree.insert entry.1 entry.2) entries

theorem mem_insertions_self (tree : PathTree) (entries : List (List Nibble × Bytes)) :
    tree ∈ insertions tree entries := by
  cases entries <;> exact List.mem_cons_self

/-- The trees on the way when a new trie is filled. -/
def fillings (updates : List Update) : List PathTree :=
  insertions .empty (updates.map Update.entry)

/-- What filling a new trie comes to. -/
def scopeOf (updates : List Update) : Scope :=
  ⟨pairsOf updates, {tree | tree ∈ fillings updates}⟩

section Runs

variable {sha3Bin : Bytes → Bytes} {reread : Bool} {scope : Scope} {db : Database}
variable {view : View} [Reliable sha3Bin db view]

variable (sha3Bin) in
/-- The root of a trie filled by `Update`. -/
def rootValue : PathTree → Value
  | .empty => .str []
  | tree => .bytes (sha3Bin (nodeItem sha3Bin tree).encode)

theorem content_rootValue (tree : PathTree) :
    (rootValue sha3Bin tree).content = rootItem sha3Bin tree := by
  cases tree <;> rfl

/-- A root is a string exactly when the trie is empty, so its content determines it. -/
theorem rootValue_eq_of_content_eq (nonempty : ∀ data, sha3Bin data ≠ [])
    {tree other : PathTree}
    (same : (rootValue sha3Bin tree).content = (rootValue sha3Bin other).content) :
    rootValue sha3Bin tree = rootValue sha3Bin other := by
  cases tree with
  | empty =>
      cases other with
      | empty => rfl
      | _ => exact (nonempty _ (Item.str.inj same).symm).elim
  | _ =>
      cases other with
      | empty => exact (nonempty _ (Item.str.inj same)).elim
      | _ => exact congrArg Value.bytes (Item.str.inj same)

theorem rootValue_canonical {tree : PathTree} (canonical : Canonical 16 tree) :
    rootValue sha3Bin tree = .bytes (sha3Bin (nodeItem sha3Bin tree).encode) := by
  cases tree with
  | empty => exact canonical.elim
  | _ => rfl

variable (spec : Sha3Spec sha3Bin (nodeEncodings sha3Bin scope)) (ok : scope.Ok)
include spec ok

variable (db) in
theorem Stands.update_root {trie : Trie} {tree : PathTree}
    (stands : Stands sha3Bin reread scope view trie tree) {key value : Bytes}
    (member : (compactHexDecode key, value) ∈ scope.pairs)
    (occurs : tree.insert (compactHexDecode key) value ∈ scope.trees) :
    ∃ next, trie.update sha3Bin db key value = some next ∧
      Stands sha3Bin reread scope view next (tree.insert (compactHexDecode key) value) ∧
      next.root = rootValue sha3Bin (tree.insert (compactHexDecode key) value) := by
  obtain ⟨next, updated, nextStands, _, _⟩ := stands.update db spec ok member occurs
  refine ⟨next, updated, nextStands, ?_⟩
  have canonical :=
    canonical_insert stands.rooted (terminated_compactHexDecode key) value
  have represents := nextStands.root
  rw [rootItem_canonical canonical] at represents
  rw [rootValue_canonical canonical]
  rcases represents.str_cases with isStr | isBytes | ⟨single, _, dataEq, _⟩
  · exact (update_root_ne_str updated _ isStr).elim
  · exact isBytes
  · have length := spec.length_eq
      (nodeItem sha3Bin (tree.insert (compactHexDecode key) value)).encode
    rw [dataEq] at length
    cases length

variable (db) in
theorem Stands.updateAll {trie : Trie} {tree : PathTree} {updates : List Update}
    (stands : Stands sha3Bin reread scope view trie tree)
    (rootEq : trie.root = rootValue sha3Bin tree) (members : pairsOf updates ⊆ scope.pairs)
    (reached : ∀ next ∈ insertions tree (updates.map Update.entry), next ∈ scope.trees) :
    ∃ next, trie.updateAll sha3Bin db updates = some next ∧
      Stands sha3Bin reread scope view next (insertAll tree updates) ∧
      next.root = rootValue sha3Bin (insertAll tree updates) := by
  induction updates generalizing trie tree with
  | nil => exact ⟨trie, rfl, stands, rootEq⟩
  | cons update updates induction =>
      obtain ⟨next, updated, nextStands, nextRoot⟩ := stands.update_root db spec ok
        (members ⟨update, List.mem_cons_self, rfl⟩)
        (reached _ (List.mem_cons_of_mem _ (mem_insertions_self _ _)))
      obtain ⟨last, run, lastStands, lastRoot⟩ := induction nextStands nextRoot
        (Set.Subset.trans (pairsOf_mono (List.subset_cons_self update updates)) members)
        fun tree member => reached tree (List.mem_cons_of_mem _ member)
      exact ⟨last, by simpa [Trie.updateAll, updated] using run, lastStands, lastRoot⟩

end Runs

/-- A tree filled by updates holds the values last written. -/
theorem get_insertAll (updates : List Update) (key : Bytes) {tree : PathTree}
    (rooted : Rooted 16 tree) {map : Bytes → Option Bytes}
    (same : tree.get (compactHexDecode key) = map key) :
    (insertAll tree updates).get (compactHexDecode key) =
      updates.foldl (fun map update => Function.update map update.key.val update.value.val)
        map key := by
  induction updates generalizing tree map with
  | nil => exact same
  | cons update updates induction =>
      have terminated := terminated_compactHexDecode update.key.val
      refine induction (canonical_insert rooted terminated _).rooted ?_
      rw [get_insert rooted terminated (terminated_compactHexDecode key)]
      simp only [Function.update_apply, compactHexDecode_injective.eq_iff, same]

theorem get_insertAll_empty (updates : List Update) (key : Bytes) :
    (insertAll .empty updates).get (compactHexDecode key) = lastValues updates key :=
  get_insertAll updates key .empty rfl

section Filled

variable {sha3Bin : Bytes → Bytes} {scope : Scope} {all : List Update}
variable (spec : Sha3Spec sha3Bin (nodeEncodings sha3Bin scope))
  (written : scope.pairs ⊆ pairsOf all)
include spec written

/-- A new trie is filled by updates that the scope covers. -/
theorem exists_filled (db : Database) {updates : List Update} (covered : scopeOf updates ⊆ scope) :
    ∃ trie, (Trie.new (.str [])).updateAll sha3Bin db updates = some trie ∧
      Stands sha3Bin false scope Cache.memory trie (insertAll .empty updates) ∧
      trie.root = rootValue sha3Bin (insertAll .empty updates) :=
  (stands_new sha3Bin false _ Cache.memory).updateAll db spec (ok_of_subset written) rfl covered.1
    covered.2

/-- The item of the root stands for the map. -/
theorem rootItem_eq_iff_lastValues_eq {updates others : List Update}
    (covered : scopeOf updates ⊆ scope) (otherCovered : scopeOf others ⊆ scope) :
    rootItem sha3Bin (insertAll .empty updates) = rootItem sha3Bin (insertAll .empty others) ↔
      lastValues updates = lastValues others := by
  obtain ⟨trie, -, stands, -⟩ := exists_filled spec written ∅ covered
  obtain ⟨other, -, otherStands, -⟩ := exists_filled spec written ∅ otherCovered
  constructor
  · intro itemEq
    have treeEq := eq_of_rootItem_eq spec (ok_of_subset written) stands.empty_or_known
      otherStands.empty_or_known itemEq
    funext key
    rw [← get_insertAll_empty, ← get_insertAll_empty, treeEq]
  · intro same
    have texts := fun pair member => text_of_mem_pairsOf all pair (written member)
    have treeEq := stands.eq_of_get_eq otherStands texts fun text => by
      rw [get_insertAll_empty, get_insertAll_empty, same]
    rw [treeEq]

end Filled

theorem pairs_union_subset (updates others : List Update) :
    (scopeOf updates ∪ scopeOf others).pairs ⊆ pairsOf (updates ++ others) :=
  Set.union_subset (pairsOf_mono (List.subset_append_left _ _))
    (pairsOf_mono (List.subset_append_right _ _))

/-- The root of a trie determines the map it holds, and is determined by it. -/
theorem root_eq_iff_lastValues_eq (sha3Bin : Bytes → Bytes) (db otherDb : Database)
    (updates others : List Update)
    (spec : Sha3Spec sha3Bin (nodeEncodings sha3Bin (scopeOf updates ∪ scopeOf others))) :
    ∃ trie other,
      (Trie.new (.str [])).updateAll sha3Bin db updates = some trie ∧
      (Trie.new (.str [])).updateAll sha3Bin otherDb others = some other ∧
      (trie.root = other.root ↔ lastValues updates = lastValues others) := by
  have written := pairs_union_subset updates others
  have covered := Scope.subset_union_left (scopeOf updates) (scopeOf others)
  have otherCovered := Scope.subset_union_right (scopeOf updates) (scopeOf others)
  obtain ⟨trie, run, -, rootEq⟩ := exists_filled spec written db covered
  obtain ⟨other, otherRun, -, otherRootEq⟩ := exists_filled spec written otherDb otherCovered
  refine ⟨trie, other, run, otherRun, ?_⟩
  rw [rootEq, otherRootEq, ← rootItem_eq_iff_lastValues_eq spec written covered otherCovered,
    ← content_rootValue, ← content_rootValue]
  constructor
  · exact congrArg Value.content
  · exact rootValue_eq_of_content_eq spec.ne_nil

/-- Keccak-256 of the roots of tries with the keys `"a"` and `"b"` and the values `"v"`
and `"w"`. -/
def letterSamples : List (Bytes × Bytes) :=
  [([0xc4, 0x82, 0x20, 0x61, 0x76],
      digest 0x208df2ed7e22b968080ffd80ea52119cf99ad5a7e6bbb969fb314a308d67e09e),
    ([0xc4, 0x82, 0x20, 0x61, 0x77],
      digest 0x3352ab68296d2cab9d1b16ba61ac168cfebb1490b731df9d008e9fdc78769263),
    ([0xc4, 0x82, 0x20, 0x62, 0x77],
      digest 0x71f1a69c2dd541d6834443fbc6542209a44e25160c8ec318f0e3cd974e4314bd),
    ([0xd7, 0x16, 0xd5, 0x80, 0xc2, 0x20, 0x76, 0xc2, 0x20, 0x77] ++ List.replicate 14 0x80,
      digest 0xf28350c983d08af1c6adab5429d13c57b2bceb9f4b471d2a6cf37bc6b3022cbd),
    ([0xd7, 0x16, 0xd5, 0x80, 0xc2, 0x20, 0x77, 0xc2, 0x20, 0x77] ++ List.replicate 14 0x80,
      digest 0x8eb56e1874d4c270952223001abfa7d89ff7850bc8a8a786cf8e98ef1e886535)]

def letterHash : Bytes → Bytes := sampled letterSamples shortened

theorem letterHash_spec {scope : Scope} (trees : List PathTree)
    (covered : ∀ tree ∈ scope.trees, tree ∈ trees)
    (distinct : ((encodings letterHash trees).map letterHash).Nodup) :
    Sha3Spec letterHash (nodeEncodings letterHash scope) :=
  sha3Spec_trees (length_sampled (by decide +kernel)) trees covered distinct

/-- The update of a key to a one-letter value. -/
def letterUpdate (key : GoString) (letter : UInt8) : Update :=
  ⟨key, ⟨[letter], by simp⟩, by simp⟩

/-- The update of `"a"` to the given letter. -/
def updateA : UInt8 → Update := letterUpdate ⟨[0x61], by decide⟩

/-- The update of `"b"` to the given letter. -/
def updateB : UInt8 → Update := letterUpdate ⟨[0x62], by decide⟩

/-- Neither the order nor an overwritten value leaves a trace in the root. -/
theorem root_eq_iff_overwritten :
    ∃ trie other,
      (Trie.new (.str [])).updateAll letterHash ∅ [updateA 0x76, updateB 0x77] = some trie ∧
      (Trie.new (.str [])).updateAll letterHash ∅ [updateB 0x77, updateA 0x77, updateA 0x76] =
        some other ∧
      (trie.root = other.root ↔ lastValues [updateA 0x76, updateB 0x77] =
        lastValues [updateB 0x77, updateA 0x77, updateA 0x76]) :=
  root_eq_iff_lastValues_eq letterHash ∅ ∅ [updateA 0x76, updateB 0x77]
    [updateB 0x77, updateA 0x77, updateA 0x76]
    (letterHash_spec (fillings [updateA 0x76, updateB 0x77] ++
      fillings [updateB 0x77, updateA 0x77, updateA 0x76])
      (fun _ => List.mem_append.mpr) (by decide +kernel))

end Thelonious
