import Thelonious.Trie.Runs

/-!
# Tries with long values

When every value has at least five bytes and all keys have the same length, two
leaves already fill a node: no branching is written inline.  Deletions from such
a trie are therefore always safe.  The accounts of a state are stored like this.
-/

namespace Thelonious

open Radix Radix.Patricia

/-- Values of at least five bytes under keys of one length. -/
structure Scope.Long (scope : Scope) (length : Nat) : Prop where
  keyLength : ∀ pair ∈ scope.pairs, pair.1.length = length
  valueLength : ∀ pair ∈ scope.pairs, 5 ≤ pair.2.length

theorem length_encodeBytes_ge (data : Bytes) : 1 ≤ (encodeBytes data).length ∧
    (data.length ≠ 1 → data.length + 1 ≤ (encodeBytes data).length) := by
  unfold encodeBytes
  split
  · simp_all
  · split
    · simp
    · simp only [List.length_cons, List.length_append]
      omega

theorem Item.one_le_length_encode (item : Item) : 1 ≤ item.encode.length := by
  cases item with
  | str data =>
      rw [Item.encode]
      exact (length_encodeBytes_ge data).1
  | list items =>
      rw [Item.encode, List.length_append]
      have header : 1 ≤ (sliceHeader (Item.encodeAll items).length).length := by
        unfold sliceHeader
        split <;> simp
      omega

theorem length_encodeAll_eq (items : List Item) :
    (Item.encodeAll items).length = (items.map fun item => item.encode.length).sum := by
  induction items with
  | nil => rfl
  | cons item items induction =>
      rw [Item.encodeAll, List.length_append, induction, List.map_cons, List.sum_cons]

theorem length_encode_list_ge (items : List Item) :
    (items.map fun item => item.encode.length).sum + 1 ≤ (Item.list items).encode.length := by
  have header : 1 ≤ (sliceHeader (Item.encodeAll items).length).length := by
    unfold sliceHeader
    split <;> simp
  rw [Item.encode, List.length_append, ← length_encodeAll_eq]
  omega

theorem sum_slots_ge (sizes : Nibble → Nat) (positive : ∀ i, 1 ≤ sizes i) {left right : Nibble}
    (different : left ≠ right) : sizes left + sizes right + 15 ≤ ∑ i, sizes i := by
  have others : ((Finset.univ.erase left).erase right).card • 1 ≤
      ∑ i ∈ (Finset.univ.erase left).erase right, sizes i :=
    Finset.card_nsmul_le_sum _ _ _ fun i _ => positive i
  have rightIn : right ∈ Finset.univ.erase left :=
    Finset.mem_erase.mpr ⟨different.symm, Finset.mem_univ right⟩
  rw [Finset.card_erase_of_mem rightIn, Finset.card_erase_of_mem (Finset.mem_univ left),
    Finset.card_univ, Fintype.card_fin] at others
  rw [← Finset.add_sum_erase _ _ (Finset.mem_univ left), ← Finset.add_sum_erase _ _ rightIn]
  simp only [smul_eq_mul, mul_one] at others
  omega

/-- Two slots of a branching, beside the header and the other slots. -/
theorem length_encode_full_ge (sha3Bin : Bytes → Bytes) (children : Nibble → PathTree)
    {left right : Nibble} (different : left ≠ right) :
    (commit sha3Bin (children left)).encode.length +
      (commit sha3Bin (children right)).encode.length + 16 ≤
        (nodeItem sha3Bin (.full children)).encode.length := by
  have bound := length_encode_list_ge (List.ofFn fun i => commit sha3Bin (children i))
  rw [List.map_ofFn, List.sum_ofFn] at bound
  have slots := sum_slots_ge (fun i => (commit sha3Bin (children i)).encode.length)
    (fun i => Item.one_le_length_encode _) different
  exact (Nat.add_le_add_right slots 1).trans bound

section Trees

variable {sha3Bin : Bytes → Bytes} {scope : Scope} {length : Nat} {hashed : Set Bytes}
variable (spec : Sha3Spec sha3Bin hashed) (long : scope.Long length)
include spec long

omit spec in
theorem length_encode_value {key : List Nibble} {content : Bytes}
    (member : (key, content) ∈ scope.pairs) :
    6 ≤ (commit sha3Bin (.value content)).encode.length := by
  have bound := long.valueLength _ member
  have encoded := (length_encodeBytes_ge content).2 (by dsimp only at bound; omega)
  rw [commit, Item.encode]
  dsimp only at bound
  omega

omit long in
theorem length_encode_ref {item : Item} (bound : 8 ≤ item.encode.length) :
    8 ≤ (Item.ref sha3Bin item).encode.length := by
  unfold Item.ref
  split
  · have size := spec.length_eq item.encode
    have encoded := (length_encodeBytes_ge (sha3Bin item.encode)).2 (by omega)
    rw [Item.encode]
    omega
  · exact bound

variable {tree : PathTree}

omit spec in
theorem length_encode_slot (isChild : Child scope tree) (used : tree ≠ .empty)
    (known : Known scope tree → 8 ≤ (commit sha3Bin tree).encode.length) :
    6 ≤ (commit sha3Bin tree).encode.length := by
  rcases isChild with isEmpty | isKnown | ⟨key, content, rfl, member⟩
  · exact (used isEmpty).elim
  · exact (by decide : 6 ≤ 8).trans (known isKnown)
  · exact length_encode_value long member

theorem length_encode_commit (known : Known scope tree) :
    8 ≤ (commit sha3Bin tree).encode.length := by
  induction tree with
  | empty => exact known.canonical.elim
  | value content => exact known.canonical.elim
  | short path child induction =>
      refine length_encode_ref spec ?_
      have bound := length_encode_list_ge [.str (compactPath path), commit sha3Bin child]
      have pathBound := Item.one_le_length_encode (.str (compactPath path))
      have used : child ≠ .empty := by
        rintro rfl
        rcases known.short_cases with ⟨_, _, _, isValue, _⟩ | ⟨_, _, _, childKnown⟩
        · cases isValue
        · exact childKnown.canonical.elim
      have childBound := length_encode_slot long known.child used induction
      simp only [List.map_cons, List.map_nil, List.sum_cons, List.sum_nil] at bound
      omega
  | full children induction =>
      refine length_encode_ref spec ?_
      obtain ⟨left, right, different, _⟩ := known.canonical.2.2
      have bound := length_encode_full_ge sha3Bin children different
      rw [nodeItem] at bound
      omega

omit spec in
theorem Known.last_slot_empty {children : Nibble → PathTree}
    (known : Known scope (.full children)) : children 16 = .empty := by
  rcases known.slot_cases 16 with isEmpty | ⟨notEnd, _⟩ | ⟨_, _, content, isValue, _⟩
  · exact isEmpty
  · exact (notEnd rfl).elim
  · obtain ⟨before, holds⟩ := known.within
    obtain ⟨other, different, used⟩ := known.canonical.exists_other 16 (.empty : PathTree)
    rw [Function.update_of_ne different] at used
    rcases known.slot_cases other with isEmpty | ⟨_, otherKnown⟩ | ⟨isEnd, _⟩
    · exact (used isEmpty).elim
    · obtain ⟨rest, value, terminated, found⟩ := otherKnown.canonical.exists_key
      have first := long.keyLength _ (holds [16] content (terminated_singleton 16)
        (by rw [Patricia.get, isValue]; rfl))
      have second := long.keyLength _ (holds (other :: rest) value (.inr ⟨different, terminated⟩)
        found)
      have positive := List.length_pos_iff.mpr terminated.ne_nil
      simp only [List.length_append, List.length_cons, List.length_nil] at first second
      omega
    · exact (different isEnd).elim

theorem Known.full_large {children : Nibble → PathTree}
    (known : Known scope (.full children)) :
    32 ≤ (nodeItem sha3Bin (.full children)).encode.length := by
  have lastEmpty := known.last_slot_empty long
  have slotBound : ∀ i, children i ≠ .empty →
      8 ≤ (commit sha3Bin (children i)).encode.length := by
    intro i used
    rcases known.slot_cases i with isEmpty | ⟨_, slotKnown⟩ | ⟨rfl, _⟩
    · exact (used isEmpty).elim
    · exact length_encode_commit spec long slotKnown
    · exact (used lastEmpty).elim
  obtain ⟨left, right, different, leftUsed, rightUsed⟩ := known.canonical.2.2
  have bound := length_encode_full_ge sha3Bin children different
  have leftBound := slotBound left leftUsed
  have rightBound := slotBound right rightUsed
  omega

theorem safeDelete_of_long (isChild : Child scope tree) (key : List Nibble) :
    SafeDelete sha3Bin tree key := by
  induction tree generalizing key with
  | empty => trivial
  | value content => trivial
  | short path child induction =>
      have known : Known scope (.short path child) := by
        simpa [Child] using isChild
      exact fun _ _ => induction known.child _
  | full children induction =>
      have known : Known scope (.full children) := by
        simpa [Child] using isChild
      cases key with
      | nil => trivial
      | cons symbol rest =>
          refine ⟨induction symbol (known.slot symbol) rest, ?_⟩
          intro other path below _ _ isEdge
          have edge := known.slot other
          rw [isEdge] at edge
          have edgeKnown : Known scope (.short path (.full below)) := by
            simpa [Child] using edge
          have belowKnown : Known scope (.full below) := by
            simpa [Child] using edgeKnown.child
          exact belowKnown.full_large spec long

omit spec long in
/-- An operation adds at most its own pair. -/
theorem holds_applyToTree (rooted : Rooted 16 tree)
    (holds : ∀ key value, Terminated 16 key → tree.get key = some value →
      (key, value) ∈ scope.pairs)
    (op : TrieOp)
    (member : ∀ call, op = .update call → call.entry ∈ scope.pairs) :
    ∀ key value, Terminated 16 key → (op.applyToTree tree).get key = some value →
      (key, value) ∈ scope.pairs := by
  intro key value terminated found
  cases op with
  | update call =>
      rw [TrieOp.applyToTree, get_insert rooted (terminated_compactHexDecode _) terminated]
        at found
      split at found
      · rename_i same
        rw [same, ← Option.some.inj found]
        exact member call rfl
      · exact holds key value terminated found
  | delete other =>
      rw [TrieOp.applyToTree, get_delete rooted (terminated_compactHexDecode _) terminated]
        at found
      split at found
      · cases found
      · exact holds key value terminated found

theorem safeRun_of_long {ops : List TrieOp} (rooted : Rooted 16 tree)
    (holds : ∀ key value, Terminated 16 key → tree.get key = some value →
      (key, value) ∈ scope.pairs)
    (members : pairsOf (TrieOp.updates ops) ⊆ scope.pairs)
    (reached : ∀ next ∈ TrieOp.reached tree ops, next ∈ scope.trees) :
    TrieOp.SafeRun sha3Bin tree ops := by
  induction ops generalizing tree with
  | nil => trivial
  | cons op ops induction =>
      have opMember : ∀ call, op = .update call → call.entry ∈ scope.pairs := by
        rintro call rfl
        exact members ⟨call, by simp [TrieOp.updates], rfl⟩
      have rest := induction (rooted_applyToTree rooted op)
        (holds_applyToTree rooted holds op opMember)
        (Set.Subset.trans (pairsOf_mono (TrieOp.updates_tail_subset op ops)) members)
        fun next member => reached next (List.mem_cons_of_mem _ (List.mem_append_right _ member))
      cases op with
      | update call => exact rest
      | delete key =>
          refine ⟨safeDelete_of_long spec long ?_ _, rest⟩
          rcases rooted with isEmpty | canonical
          · exact .inl isEmpty
          · exact .inr (.inl ⟨canonical, ⟨[], holds⟩,
              Scope.occurs_of_mem (reached tree List.mem_cons_self)⟩)

end Trees

end Thelonious
