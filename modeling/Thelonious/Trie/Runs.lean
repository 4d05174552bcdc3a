import Thelonious.Trie.Deletion
import Thelonious.Trie.RootContent

/-!
# Runs of updates and deletions

A trie created empty is a finite map under `Update` and `Delete`, as long as no
deletion meets the situation excluded by `SafeDelete`.
-/

namespace Thelonious

open Radix Radix.Patricia

inductive TrieOp where
  | update (call : Update)
  | delete (key : GoString)

namespace TrieOp

def key : TrieOp → Bytes
  | .update call => call.key
  | .delete key => key

/-- The updates among the operations. -/
def updates (ops : List TrieOp) : List Update :=
  ops.filterMap fun
    | .update call => some call
    | .delete _ => none

/-- The finite map after one more operation. -/
def applyTo (map : Bytes → Option Bytes) : TrieOp → Bytes → Option Bytes
  | .update call => Function.update map call.key.val call.value.val
  | .delete key => Function.update map key.val none

/-- The finite map a run of operations describes. -/
def content (ops : List TrieOp) : Bytes → Option Bytes :=
  ops.foldl applyTo fun _ => none

/-- The tree after one more operation. -/
noncomputable def applyToTree (tree : PathTree) : TrieOp → PathTree
  | .update call => tree.insert (compactHexDecode call.key) call.value.val
  | .delete key => tree.delete (compactHexDecode key)

/-- The trees that the operation comes to on its way. -/
noncomputable def steps (tree : PathTree) : TrieOp → List PathTree
  | .update _ => []
  | .delete key => deletions tree (compactHexDecode key)

/-- The trees that a run comes to. -/
noncomputable def reached (tree : PathTree) : List TrieOp → List PathTree
  | [] => [tree]
  | op :: ops => tree :: (op.steps tree ++ reached (op.applyToTree tree) ops)

/-- What a run on a new trie comes to. -/
def scope (ops : List TrieOp) : Scope :=
  ⟨pairsOf (updates ops), {tree | tree ∈ reached .empty ops}⟩

/-- Every deletion of the run meets the condition on the tree it finds. -/
def Allowed (safe : PathTree → List Nibble → Prop) : PathTree → List TrieOp → Prop
  | _, [] => True
  | tree, .update call :: ops => Allowed safe (applyToTree tree (.update call)) ops
  | tree, .delete key :: ops =>
      safe tree (compactHexDecode key) ∧ Allowed safe (applyToTree tree (.delete key)) ops

/-- Every deletion of the run is safe on the tree it finds. -/
def SafeRun (sha3Bin : Bytes → Bytes) : PathTree → List TrieOp → Prop :=
  Allowed (SafeDelete sha3Bin)

theorem Allowed.tail {safe : PathTree → List Nibble → Prop} {tree : PathTree} {op : TrieOp}
    {ops : List TrieOp} (allowed : Allowed safe tree (op :: ops)) :
    Allowed safe (op.applyToTree tree) ops := by
  cases op with
  | update call => exact allowed
  | delete key => exact allowed.2

theorem Allowed.head {safe : PathTree → List Nibble → Prop} {tree : PathTree} {op : TrieOp}
    {ops : List TrieOp} (allowed : Allowed safe tree (op :: ops)) :
    ∀ key, op = .delete key → safe tree (compactHexDecode key) := by
  rintro key rfl
  exact allowed.1

theorem updates_tail_subset (op : TrieOp) (ops : List TrieOp) : updates ops ⊆ updates (op :: ops) :=
  ((List.sublist_cons_self op ops).filterMap _).subset

theorem mem_reached_self (tree : PathTree) (ops : List TrieOp) : tree ∈ reached tree ops := by
  cases ops <;> exact List.mem_cons_self

end TrieOp

namespace Trie

def perform (sha3Bin : Bytes → Bytes) (db : Database) (trie : Trie) : TrieOp → Option Trie
  | .update update => trie.update sha3Bin db update.key update.value
  | .delete key => trie.delete sha3Bin db key

def run (sha3Bin : Bytes → Bytes) (db : Database) (trie : Trie) (ops : List TrieOp) :
    Option Trie :=
  ops.foldlM (perform sha3Bin db) trie

end Trie

section Runs

variable {sha3Bin : Bytes → Bytes} {reread : Bool} {scope : Scope} {db : Database}
variable {view : View} [Reliable sha3Bin db view]
variable (spec : Sha3Spec sha3Bin (nodeEncodings sha3Bin scope)) (ok : scope.Ok)
  {safe : PathTree → List Nibble → Prop}
  (collapsible : Collapsible sha3Bin reread scope db view safe)
include spec ok collapsible

variable (db) in
/-- One operation takes a trie that stands for a tree to one that stands for the
tree after it. -/
theorem Stands.perform {trie : Trie} {tree : PathTree}
    (stands : Stands sha3Bin reread scope view trie tree) (op : TrieOp)
    (member : ∀ update, op = .update update → update.entry ∈ scope.pairs)
    (lengths : ∀ pair ∈ scope.pairs, pair.1.length = (compactHexDecode op.key).length)
    (allowed : ∀ key, op = .delete key → safe tree (compactHexDecode key))
    (occurs : op.applyToTree tree ∈ scope.trees)
    (steps : ∀ left ∈ op.steps tree, left ∈ scope.trees) :
    ∃ next, trie.perform sha3Bin db op = some next ∧
      Stands sha3Bin reread scope view next (op.applyToTree tree) ∧
      Evolves sha3Bin reread scope db trie.cache next.cache := by
  cases op with
  | update update =>
      obtain ⟨next, updated, nextStands, evolves, _⟩ :=
        stands.update db spec ok (member update rfl) occurs
      exact ⟨next, updated, nextStands, evolves⟩
  | delete key =>
      obtain ⟨next, deleted, nextStands, evolves, _⟩ :=
        stands.delete_of_collapsible db 0 spec ok collapsible
          (fun other value terminated found => lengths _
            (stands.holds other value terminated found))
          (allowed key rfl) steps
      exact ⟨next, deleted, nextStands, evolves⟩

variable (db) in
theorem Stands.run {trie : Trie} {tree : PathTree} {ops : List TrieOp} {size : Nat}
    (stands : Stands sha3Bin reread scope view trie tree)
    (members : pairsOf (TrieOp.updates ops) ⊆ scope.pairs)
    (lengths : ∀ pair ∈ scope.pairs, pair.1.length = 2 * size + 1)
    (sizes : ∀ op ∈ ops, op.key.length = size) (allowed : TrieOp.Allowed safe tree ops)
    (reached : ∀ next ∈ TrieOp.reached tree ops, next ∈ scope.trees) :
    ∃ next, trie.run sha3Bin db ops = some next ∧
      Stands sha3Bin reread scope view next (ops.foldl TrieOp.applyToTree tree) ∧
      Evolves sha3Bin reread scope db trie.cache next.cache := by
  induction ops generalizing trie tree with
  | nil => exact ⟨trie, rfl, stands, .refl⟩
  | cons op ops induction =>
      have opLengths : ∀ pair ∈ scope.pairs,
          pair.1.length = (compactHexDecode op.key).length := by
        intro pair member
        rw [lengths pair member, length_compactHexDecode, sizes op List.mem_cons_self]
      obtain ⟨next, performed, nextStands, evolves⟩ := stands.perform db spec ok collapsible op
        (by
          rintro update rfl
          exact members ⟨update, by simp [TrieOp.updates], rfl⟩)
        opLengths allowed.head
        (reached _ (List.mem_cons_of_mem _ (List.mem_append_right _ (TrieOp.mem_reached_self _ _))))
        (fun left member => reached left
          (List.mem_cons_of_mem _ (List.mem_append_left _ member)))
      obtain ⟨last, run, lastStands, further⟩ := induction nextStands
        (Set.Subset.trans (pairsOf_mono (TrieOp.updates_tail_subset op ops)) members)
        (fun op member => sizes op (List.mem_cons_of_mem _ member)) allowed.tail
        fun next member => reached next (List.mem_cons_of_mem _ (List.mem_append_right _ member))
      exact ⟨last, by simpa [Trie.run, performed] using run, lastStands,
        evolves.trans further⟩

end Runs

theorem rooted_applyToTree {tree : PathTree} (rooted : Rooted 16 tree) (op : TrieOp) :
    Rooted 16 (op.applyToTree tree) := by
  cases op with
  | update update =>
      exact (canonical_insert rooted (terminated_compactHexDecode _) _).rooted
  | delete key => exact (rooted_delete rooted (terminated_compactHexDecode _)).1

theorem get_applyToTree {tree : PathTree} (rooted : Rooted 16 tree) (op : TrieOp)
    {map : Bytes → Option Bytes} {key : Bytes}
    (same : tree.get (compactHexDecode key) = map key) :
    (op.applyToTree tree).get (compactHexDecode key) = op.applyTo map key := by
  have terminated := terminated_compactHexDecode key
  cases op with
  | update update =>
      simp only [TrieOp.applyToTree, TrieOp.applyTo, Function.update_apply,
        get_insert rooted (terminated_compactHexDecode _) terminated,
        compactHexDecode_injective.eq_iff, same]
  | delete other =>
      simp only [TrieOp.applyToTree, TrieOp.applyTo, Function.update_apply,
        get_delete rooted (terminated_compactHexDecode _) terminated,
        compactHexDecode_injective.eq_iff, same]

theorem get_foldl_applyToTree (ops : List TrieOp) {tree : PathTree}
    (rooted : Rooted 16 tree) {map : Bytes → Option Bytes} {key : Bytes}
    (same : tree.get (compactHexDecode key) = map key) :
    (ops.foldl TrieOp.applyToTree tree).get (compactHexDecode key) =
      ops.foldl TrieOp.applyTo map key := by
  induction ops generalizing tree map with
  | nil => exact same
  | cons op ops induction =>
      exact induction (rooted_applyToTree rooted op) (get_applyToTree rooted op same)

theorem length_of_mem_pairsOf {ops : List TrieOp} {size : Nat}
    (sizes : ∀ op ∈ ops, op.key.length = size) :
    ∀ pair ∈ pairsOf (TrieOp.updates ops), pair.1.length = 2 * size + 1 := by
  rintro pair ⟨call, member, rfl⟩
  obtain ⟨op, opMember, opEq⟩ := List.mem_filterMap.mp member
  cases op with
  | update other =>
      obtain rfl := Option.some.inj opEq
      rw [Update.entry, length_compactHexDecode, ← sizes _ opMember]
      rfl
  | delete key => cases opEq

/-- After a run whose deletions are all safe, `Get` answers like the finite map
that the run describes. -/
theorem get_run_eq_content (sha3Bin : Bytes → Bytes) (db : Database) (ops : List TrieOp)
    (size : Nat) (sizes : ∀ op ∈ ops, op.key.length = size)
    (spec : Sha3Spec sha3Bin (nodeEncodings sha3Bin (TrieOp.scope ops)))
    (safe : TrieOp.SafeRun sha3Bin .empty ops) :
    ∃ trie, (Trie.new (.str [])).run sha3Bin db ops = some trie ∧
      ∀ key, ∃ next, trie.get db key = some ((TrieOp.content ops key).getD [], next) := by
  have ok := ok_of_subset (Set.Subset.refl (TrieOp.scope ops).pairs)
  have lengths := length_of_mem_pairsOf sizes
  obtain ⟨trie, run, stands, _⟩ := (stands_new sha3Bin false _ Cache.memory).run db spec ok
    (collapsible_safeDelete spec ok) (Set.Subset.refl _) lengths sizes safe fun _ => id
  refine ⟨trie, run, fun key => ?_⟩
  obtain ⟨cache, got, _⟩ := stands.get db spec ok key
  have contentEq : (ops.foldl TrieOp.applyToTree .empty).get (compactHexDecode key) =
      TrieOp.content ops key := get_foldl_applyToTree ops .empty rfl
  rw [contentEq] at got
  exact ⟨_, got⟩

/-! ### A branching that comes and goes -/

/-- Two values are written; one of them is deleted and the other one written again. -/
def letterRun : List TrieOp :=
  [.update (updateA 0x76), .update (updateB 0x77), .delete (updateB 0x77).key,
    .update (updateA 0x77)]

/-- The branching above the two values. -/
def letterSlots : Nibble → PathTree :=
  Function.update (Function.update (fun _ => .empty) 1 (.short [16] (.value [0x76])))
    2 (.short [16] (.value [0x77]))

theorem delete_letterSlots :
    (full letterSlots).delete [2, 16] = .short [1, 16] (.value [0x76]) := by
  have emptied : (letterSlots 2).delete [16] = .empty := if_pos rfl
  have sole : ∀ other, Function.update letterSlots 2 .empty other ≠ .empty ↔ other = 1 := by
    intro other
    fin_cases other <;> simp [letterSlots, Function.update]
  rw [Patricia.delete, emptied, collapse_eq_merge sole]
  rfl

theorem delete_letters :
    (short [6] (full letterSlots)).delete [6, 2, 16] = .short [6, 1, 16] (.value [0x76]) := by
  rw [Patricia.delete, if_neg (by decide), if_pos (by decide)]
  exact congrArg (merge [6]) delete_letterSlots

/-- The trees that the run comes to. -/
def letterTrees : List PathTree :=
  .short [1, 16] (.value [0x76]) :: fillings [updateA 0x76, updateB 0x77] ++
    fillings [updateA 0x76, updateA 0x77]

theorem reached_letterRun : TrieOp.reached .empty letterRun ⊆ letterTrees := by
  have whole : TrieOp.reached .empty letterRun =
      fillings [updateA 0x76, updateB 0x77] ++
        (deletions (short [6] (full letterSlots)) [6, 2, 16] ++
          insertions ((short [6] (full letterSlots)).delete [6, 2, 16])
            [(updateA 0x77).entry]) := rfl
  have way : deletions (short [6] (full letterSlots)) [6, 2, 16] =
      [.short [6, 1, 16] (.value [0x76]), .short [1, 16] (.value [0x76]), .empty] := by
    rw [deletions, if_pos (by decide), delete_letters]
    change _ :: (full letterSlots).delete [2, 16] :: deletions (letterSlots 2) [16] = _
    rw [delete_letterSlots]
    rfl
  rw [whole, way, delete_letters]
  refine List.append_subset.mpr ⟨fun tree member => ?_, List.append_subset.mpr
    ⟨fun tree member => ?_, fun tree member => ?_⟩⟩
  · exact List.mem_append_left _ (List.mem_cons_of_mem _ member)
  · rcases List.mem_cons.mp member with rfl | member
    · exact List.mem_append_right _ (List.mem_cons_of_mem _ List.mem_cons_self)
    · rcases List.mem_pair.mp member with rfl | rfl
      · exact List.mem_cons_self
      · exact List.mem_append_right _ List.mem_cons_self
  · exact List.mem_append_right _ (List.mem_cons_of_mem _ member)

theorem safeRun_letterRun : TrieOp.SafeRun letterHash .empty letterRun := by
  refine ⟨fun _ _ => ⟨fun _ _ => trivial, ?_⟩, trivial⟩
  intro other path below _ _ isEdge
  fin_cases other <;> cases isEdge

theorem letterRun_spec {trees : Set PathTree} (inside : ∀ tree ∈ trees, tree ∈ letterTrees) :
    Sha3Spec letterHash (nodeEncodings letterHash ⟨pairsOf (TrieOp.updates letterRun), trees⟩) :=
  letterHash_spec letterTrees inside (by decide +kernel)

theorem get_run_rewritten :
    ∃ trie, (Trie.new (.str [])).run letterHash ∅ letterRun = some trie ∧
      ∀ key, ∃ next, trie.get ∅ key = some ((TrieOp.content letterRun key).getD [], next) :=
  get_run_eq_content letterHash ∅ letterRun 1 (by decide) (letterRun_spec reached_letterRun)
    safeRun_letterRun

/-! ### A deletion that loses other keys -/

/-- A storage slot, all zero but for its first and last byte. -/
def storageSlot (first last : UInt8) : GoString :=
  ⟨first :: (List.replicate 30 0 ++ [last]), by simp⟩

/-- The branching above the slots that end with `0` and `1`, written inline. -/
def inlineBranch : Value :=
  .list ([.list [.str [0x20], .str [0x61]], .list [.str [0x20], .str [0x62]]] ++
    List.replicate 15 (.str []))

/-- Keccak-256 of the nodes hashed in the run below. -/
def slotSamples : List (Bytes × Bytes) :=
  [(encode (.list [.str (0x20 :: List.replicate 32 0), .str [0x61]]),
      digest 0xf34025fbc56fa835e4ea8c948e70b3ccb358befcc94464dae1bd5598843d0a29),
    (encode (.list [.str (0x10 :: List.replicate 31 0), inlineBranch]),
      digest 0x351d0b2a480c4fcf674fdeb3857661fdd504edcbaf96aac43875a77ba2347b36),
    (encode (.list [.str (0x00 :: List.replicate 31 0), inlineBranch]),
      digest 0x4e9fed9559626588362a18b8d7a0280b08683414139ecd910d117304eedc554a),
    (encode (.list [.str (0x30 :: List.replicate 31 0), .str [0x63]]),
      digest 0xb7dd5aca93ac6c4f8d579754a0ee228726053827770d00714ba46560f8375e9b),
    (encode (.list ([.bytes
        (digest 0x4e9fed9559626588362a18b8d7a0280b08683414139ecd910d117304eedc554a), .bytes
        (digest 0xb7dd5aca93ac6c4f8d579754a0ee228726053827770d00714ba46560f8375e9b)] ++
          List.replicate 15 (.str []))),
      digest 0x843853fcdf56d7f1f0474b5e100fe8a1de883e222a6306b0ca91d6697313865d),
    (encode (.list [.str (0x10 :: List.replicate 31 0), .str []]),
      digest 0x27da66ceec8d4fa6157a70e0be92f9952dcbbbf2d8feea30ee52af950627dd74)]

def slotHash : Bytes → Bytes :=
  sampled slotSamples fun data => data ++ List.replicate 33 0

/-- Three slots are written; then the one that shares no nibble with the others is
deleted. -/
def lossyRun : List TrieOp :=
  [.update (letterUpdate (storageSlot 0 0) 0x61), .update (letterUpdate (storageSlot 0 1) 0x62),
    .update (letterUpdate (storageSlot 0x10 0) 0x63), .delete (storageSlot 0x10 0)]

/-- The deletion empties a slot that was not deleted. -/
theorem get_lossyRun_ne_content :
    Function.Injective slotHash ∧ (∀ op ∈ lossyRun, op.key.length = 32) ∧
      TrieOp.content lossyRun (storageSlot 0 0) = some [0x61] ∧
      ((Trie.new (.str [])).run slotHash ∅ lossyRun).bind
        (fun trie => (trie.get ∅ (storageSlot 0 0)).map Prod.fst) = some [] :=
  ⟨sampled_injective (by decide +kernel) (by decide +kernel), by decide, by decide,
    by decide +kernel⟩

end Thelonious
