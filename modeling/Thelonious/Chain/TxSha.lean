import Thelonious.Chain.Serialization
import Thelonious.Trie.RootContent

/-!
# The hash of the receipts

`CreateTxSha` writes the receipts into a new trie, each under the encoding of its
index, and returns the root.
-/

namespace Thelonious

/-- `CreateTxSha`; a root that is neither a string nor a byte slice panics. -/
def createTxSha (sha3Bin : Bytes → Bytes) (db : Database) (receipts : List Receipt) :
    Option Bytes := do
  let trie ← receipts.zipIdx.foldlM
    (fun trie (receipt, i) =>
      trie.update sha3Bin db (encode (.int i)) (encode receipt.rlpData)) (Trie.new (.str []))
  match trie.root with
  | .str text => some text
  | .bytes data => some data
  | _ => none

/-- A Go slice of receipts: its indices are `int`s, and the encodings fit the address
space. -/
abbrev GoReceipts :=
  {receipts : List Receipt // receipts.length < 2 ^ 63 ∧
    ∀ receipt ∈ receipts, (encode receipt.rlpData).length < 2 ^ 48}

/-! ### Updates of distinct keys -/

private theorem foldl_update_of_not_mem {updates : List Update} {key : Bytes}
    {map : Bytes → Option Bytes} (absent : key ∉ updates.map fun update => update.key.val) :
    updates.foldl (fun map update => Function.update map update.key.val update.value.val) map key =
      map key := by
  induction updates generalizing map with
  | nil => rfl
  | cons update updates induction =>
      rw [List.map_cons, List.mem_cons, not_or] at absent
      rw [List.foldl_cons, induction absent.2, Function.update_of_ne absent.1]

theorem lastValues_of_not_mem {updates : List Update} {key : Bytes}
    (absent : key ∉ updates.map fun update => update.key.val) : lastValues updates key = none :=
  foldl_update_of_not_mem absent

theorem lastValues_of_mem {updates : List Update} {update : Update}
    (distinct : (updates.map fun update => update.key.val).Nodup) (member : update ∈ updates) :
    lastValues updates update.key = some update.value.val := by
  obtain ⟨before, after, rfl⟩ := List.append_of_mem member
  rw [List.map_append, List.map_cons] at distinct
  have absent := (List.nodup_cons.mp distinct.of_append_right).1
  rw [lastValues, List.foldl_append, List.foldl_cons, foldl_update_of_not_mem absent,
    Function.update_self]

/-! ### Indices as keys -/

theorem length_bigBytes_le {i : Nat} (small : i < 2 ^ 63) : (bigBytes i).length ≤ 8 := by
  apply BigEndian.length_digits_le_iff.mpr
  exact small.trans (by decide)

theorem length_encode_index {i : Nat} (small : i < 2 ^ 63) : (encode (.int i)).length < 2 ^ 48 := by
  have digits := length_bigBytes_le small
  have header : (encodeBytes (bigBytes i)).length ≤ (bigBytes i).length + 9 :=
    length_encodeBytes_le (digits.trans_lt (by decide))
  have encodeEq : encode (.int i) = encodeBytes (bigBytes i) := rfl
  rw [encodeEq]
  omega

theorem eq_of_encode_index_eq {i j : Nat} (small : i < 2 ^ 63) (otherSmall : j < 2 ^ 63)
    (same : encode (.int i) = encode (.int j)) : i = j := by
  have fits : ∀ {n : Nat}, n < 2 ^ 63 → (Value.int n).Fits := fun below =>
    (length_bigBytes_le below).trans_lt (by decide)
  have contentEq := content_eq_of_encode_eq (fits small) (fits otherSmall) same
  exact BigEndian.digits_injective (Item.str.inj contentEq)

namespace GoReceipts

/-- The calls of `Update`. -/
def updates (receipts : GoReceipts) : List Update :=
  List.ofFn fun i : Fin receipts.val.length =>
    { key := ⟨encode (.int i.val), length_encode_index (i.isLt.trans receipts.property.1)⟩
      value := ⟨encode receipts.val[i].rlpData, receipts.property.2 _ (List.getElem_mem i.isLt)⟩
      nonempty := List.ne_nil_of_length_pos (length_encode_pos _) }

theorem foldlM_updates (sha3Bin : Bytes → Bytes) (db : Database) (receipts : GoReceipts)
    (trie : Trie) :
    receipts.val.zipIdx.foldlM (fun trie (receipt, i) =>
        trie.update sha3Bin db (encode (.int i)) (encode receipt.rlpData)) trie =
      trie.updateAll sha3Bin db receipts.updates := by
  have callsEq : receipts.val.zipIdx.map
      (fun entry => (encode (.int entry.2), encode entry.1.rlpData)) =
        receipts.updates.map fun update => (update.key.val, update.value.val) := by
    apply List.ext_getElem
    · simp [updates]
    · intro i inside inUpdates
      simp [updates]
  have runs := congrArg (fun calls : List (Bytes × Bytes) => calls.foldlM
    (fun trie call => trie.update sha3Bin db call.1 call.2) trie) callsEq
  simp only [List.foldlM_map] at runs
  exact runs

theorem nodup_keys (receipts : GoReceipts) :
    (receipts.updates.map fun update => update.key.val).Nodup := by
  rw [updates, List.map_ofFn, List.nodup_ofFn]
  intro i j same
  apply Fin.ext
  exact eq_of_encode_index_eq (i.isLt.trans receipts.property.1)
    (j.isLt.trans receipts.property.1) same

theorem lastValues_index (receipts : GoReceipts) {i : Nat} (small : i < 2 ^ 63) :
    lastValues receipts.updates (encode (.int i)) =
      (receipts.val.map fun receipt => encode receipt.rlpData)[i]? := by
  by_cases inside : i < receipts.val.length
  · have written := lastValues_of_mem receipts.nodup_keys
      ((List.mem_ofFn' _ _).mpr ⟨⟨i, inside⟩, rfl⟩)
    simpa [inside] using written
  · rw [lastValues_of_not_mem, List.getElem?_eq_none (by simpa using inside)]
    intro member
    obtain ⟨update, updateMember, keyEq⟩ := List.mem_map.mp member
    obtain ⟨j, rfl⟩ := (List.mem_ofFn' _ _).mp updateMember
    have same := eq_of_encode_index_eq (j.isLt.trans receipts.property.1) small keyEq
    exact inside (same ▸ j.isLt)

theorem lastValues_of_not_index (receipts : GoReceipts) {key : Bytes}
    (notIndex : ¬ ∃ i : Nat, i < 2 ^ 63 ∧ key = encode (.int i)) :
    lastValues receipts.updates key = none := by
  apply lastValues_of_not_mem
  intro member
  obtain ⟨update, updateMember, keyEq⟩ := List.mem_map.mp member
  obtain ⟨j, rfl⟩ := (List.mem_ofFn' _ _).mp updateMember
  exact notIndex ⟨j, j.isLt.trans receipts.property.1, keyEq.symm⟩

theorem lastValues_eq_iff (receipts others : GoReceipts) :
    lastValues receipts.updates = lastValues others.updates ↔
      receipts.val.map (fun receipt => encode receipt.rlpData) =
        others.val.map fun receipt => encode receipt.rlpData := by
  constructor
  · intro same
    apply List.ext_getElem?
    intro i
    by_cases small : i < 2 ^ 63
    · rw [← receipts.lastValues_index small, ← others.lastValues_index small, same]
    · have length := receipts.property.1
      have otherLength := others.property.1
      rw [List.getElem?_eq_none (by simp; omega), List.getElem?_eq_none (by simp; omega)]
  · intro same
    funext key
    by_cases isIndex : ∃ i : Nat, i < 2 ^ 63 ∧ key = encode (.int i)
    · obtain ⟨i, small, rfl⟩ := isIndex
      rw [receipts.lastValues_index small, others.lastValues_index small, same]
    · rw [receipts.lastValues_of_not_index isIndex, others.lastValues_of_not_index isIndex]

end GoReceipts

section Root

variable {sha3Bin : Bytes → Bytes} {scope : Scope} {all : List Update}
variable (spec : Sha3Spec sha3Bin (nodeEncodings sha3Bin scope))
  (written : scope.pairs ⊆ pairsOf all)
include spec written

theorem createTxSha_eq (db : Database) {receipts : GoReceipts}
    (covered : scopeOf receipts.updates ⊆ scope) :
    ∃ sha, createTxSha sha3Bin db receipts.val = some sha ∧
      rootItem sha3Bin (insertAll .empty receipts.updates) = .str sha := by
  obtain ⟨trie, run, stands, rootEq⟩ := exists_filled spec written db covered
  rw [← receipts.foldlM_updates] at run
  have content : (rootValue sha3Bin (insertAll .empty receipts.updates)).content =
      rootItem sha3Bin (insertAll .empty receipts.updates) := content_rootValue _
  rw [← rootEq] at content
  rcases stands.root_cases spec with ⟨text, isStr⟩ | ⟨data, isBytes⟩
  · refine ⟨text, by simp [createTxSha, run, isStr], ?_⟩
    rw [← content, isStr]
    rfl
  · refine ⟨data, by simp [createTxSha, run, isBytes], ?_⟩
    rw [← content, isBytes]
    rfl

end Root

/-- Two lists of receipts have one hash if and only if their encodings agree one by one. -/
theorem createTxSha_eq_iff (sha3Bin : Bytes → Bytes) (db otherDb : Database)
    (receipts others : GoReceipts)
    (spec : Sha3Spec sha3Bin
      (nodeEncodings sha3Bin (scopeOf receipts.updates ∪ scopeOf others.updates))) :
    ∃ sha otherSha, createTxSha sha3Bin db receipts.val = some sha ∧
      createTxSha sha3Bin otherDb others.val = some otherSha ∧
      (sha = otherSha ↔ receipts.val.map (fun receipt => encode receipt.rlpData) =
        others.val.map fun receipt => encode receipt.rlpData) := by
  have written := pairs_union_subset receipts.updates others.updates
  have covered := Scope.subset_union_left (scopeOf receipts.updates) (scopeOf others.updates)
  have otherCovered := Scope.subset_union_right (scopeOf receipts.updates) (scopeOf others.updates)
  obtain ⟨sha, created, itemEq⟩ := createTxSha_eq spec written db covered
  obtain ⟨otherSha, otherCreated, otherItemEq⟩ := createTxSha_eq spec written otherDb otherCovered
  refine ⟨sha, otherSha, created, otherCreated, ?_⟩
  rw [← GoReceipts.lastValues_eq_iff,
    ← rootItem_eq_iff_lastValues_eq spec written covered otherCovered, itemEq, otherItemEq,
    Item.str.injEq]

/-- The receipt of a contract creation. -/
def creationReceipt (postState : UInt8) : Receipt :=
  ⟨⟨1, [], 0, 500, 10, [0x60], 27, [0, 5], [7], true⟩, [0, postState], 500⟩

def creationReceipts (first second : UInt8)
    (known : first ∈ ([6, 7] : List UInt8) ∧ second ∈ ([6, 7] : List UInt8)) : GoReceipts :=
  ⟨[creationReceipt first, creationReceipt second], by simp, by
    have short : ∀ postState ∈ ([6, 7] : List UInt8),
        (encode (creationReceipt postState).rlpData).length < 2 ^ 48 := by decide +kernel
    intro receipt member
    rcases List.mem_pair.mp member with rfl | rfl
    · exact short first known.1
    · exact short second known.2⟩

/-- The order of the receipts matters. -/
theorem createTxSha_creationReceipts :
    ∃ sha otherSha, createTxSha folded ∅ [creationReceipt 6, creationReceipt 7] = some sha ∧
      createTxSha folded ∅ [creationReceipt 7, creationReceipt 6] = some otherSha ∧
      (sha = otherSha ↔
        [creationReceipt 6, creationReceipt 7].map (fun receipt => encode receipt.rlpData) =
          [creationReceipt 7, creationReceipt 6].map fun receipt => encode receipt.rlpData) := by
  refine createTxSha_eq_iff folded ∅ ∅ (creationReceipts 6 7 (by decide))
    (creationReceipts 7 6 (by decide)) ?_
  exact sha3Spec_trees length_folded
    (fillings (creationReceipts 6 7 (by decide)).updates ++
      fillings (creationReceipts 7 6 (by decide)).updates)
    (fun _ => List.mem_append.mpr) (by decide +kernel)

end Thelonious
