import Thelonious.Trie.Deletion
import Thelonious.Trie.RootContent

/-!
# Deleting a key that is not there

On the way down `deleteState` takes as many nibbles of the key as the node has.
Where the key is shorter this reads the unused places of the slice, in which the
terminator is never followed by the rest of a path, or it panics.  When it never
panics, the nodes on the way are put again as they were.
-/

namespace Thelonious

open Radix Radix.Patricia

/-- No edge on the way of the key is longer than what is left of the key together with
the unused places behind it. -/
def Spans (spare : Nat) : PathTree → List Nibble → Prop
  | .empty, _ => True
  | .value _, _ => True
  | .short path child, key =>
      path.length ≤ key.length + spare ∧
        (path <+: key → Spans spare child (key.drop path.length))
  | .full _, [] => True
  | .full children, symbol :: rest => Spans spare (children symbol) rest

instance Spans.decidable (spare : Nat) :
    (tree : PathTree) → (key : List Nibble) → Decidable (Spans spare tree key)
  | .empty, _ => .isTrue trivial
  | .value _, _ => .isTrue trivial
  | .short path child, key =>
      have := Spans.decidable spare child (key.drop path.length)
      inferInstanceAs (Decidable (path.length ≤ key.length + spare ∧
        (path <+: key → Spans spare child (key.drop path.length))))
  | .full _, [] => .isTrue trivial
  | .full children, symbol :: rest => Spans.decidable spare (children symbol) rest

section Absent

variable {sha3Bin : Bytes → Bytes} {scope : Scope} {db : Database}
variable {view : View} [Reliable sha3Bin db view]

variable (sha3Bin scope db) in
/-- The outcome of an operation that leaves the tree as it was: the reference it was
given, or the node put once more. -/
def Retains (cache : Cache) (reference : Value) (result : Option (Value × Cache))
    (tree : PathTree) : Prop :=
  (∃ next, result = some (reference, next) ∧ Evolves sha3Bin false scope db cache next) ∨
    ∃ middle node, result = some (Trie.put sha3Bin middle node) ∧
      Evolves sha3Bin false scope db cache middle ∧ Known scope tree ∧
      node.Represents false (nodeItem sha3Bin tree)

variable {spare : Nat} {key : List Nibble} {tree : PathTree}

/-- The unused places of the slice do not complete a key to a longer path. -/
theorem take_spare_ne {path : List Nibble} {child : PathTree}
    (known : Known scope (.short path child)) (terminated : Terminated 16 key)
    (shorter : key.length < path.length) :
    (key ++ List.replicate spare 0).take path.length ≠ path := by
  intro takeEq
  have pathStarts : path <+: key ++ List.replicate spare 0 := by
    rw [← takeEq]
    exact List.take_prefix _ _
  have starts : key <+: path :=
    List.prefix_of_prefix_length_le (List.prefix_append key _) pathStarts shorter.le
  rcases known.short_cases with ⟨pathTerminated, _⟩ | ⟨_, interior, _⟩
  · have same := terminated.eq_of_starts pathTerminated starts
    rw [same] at shorter
    exact Nat.lt_irrefl _ shorter
  · exact interior (starts.subset terminated.mem)

variable (spec : Sha3Spec sha3Bin (nodeEncodings sha3Bin scope)) (ok : scope.Ok)
include spec ok

theorem Retains.yields {cache : Cache} {reference : Value} {result : Option (Value × Cache)}
    (known : Known scope tree) (held : Held sha3Bin false (view cache) reference tree)
    (retains : Retains sha3Bin scope db cache reference result tree) :
    Yields sha3Bin false scope db view cache result tree := by
  have isChild : Child scope tree := .inr (.inl known)
  rcases retains with ⟨next, resultEq, evolves⟩ |
    ⟨middle, node, resultEq, evolves, _, represents⟩
  · exact ⟨reference, next, resultEq, evolves, evolves.held spec ok isChild held⟩
  · obtain ⟨after, next, putEq, further, afterRepresents, _⟩ :=
      put_of_known db view spec middle known represents
    have whole : Evolves sha3Bin false scope db cache next := evolves.trans further
    exact ⟨after, next, resultEq.trans (congrArg some putEq), whole, afterRepresents,
      whole.stored spec ok isChild held.stored⟩

variable (db) in
omit [Reliable sha3Bin db view] in
/-- A branching whose slots are as they were has several of them in use, and is put as it
was. -/
theorem collapseSlots_retains (cache : Cache) {slots : List Value}
    {children : Nibble → PathTree} (known : Known scope (.full children))
    (length : slots.length = 17)
    (represent : ∀ i : Nibble,
      (slots.getD i .nil).Represents false (commit sha3Bin (children i))) :
    Trie.collapseSlots sha3Bin db cache slots =
        some (Trie.put sha3Bin cache (.list slots)) ∧
      (Value.list slots).Represents false (nodeItem sha3Bin (.full children)) := by
  obtain ⟨left, right, different, leftUsed, rightUsed⟩ := known.canonical.2.2
  have used : ∀ i : Nibble, children i ≠ .empty → Trie.notEmptyString (slots.getD i .nil) :=
    fun i nonempty => (notEmptyString_iff spec ok (known.slot i) (represent i)).mpr nonempty
  have amount := amountOf_several different (used left leftUsed) (used right rightUsed)
  constructor
  · simp [Trie.collapseSlots, amount]
  · exact represents_ofFn_iff.mpr ⟨slots, rfl, length, represent⟩

omit spec ok in
/-- The way of an absent key does not end at an edge. -/
theorem path_ne_of_absent {path : List Nibble} {child : PathTree}
    (known : Known scope (.short path child)) (terminated : Terminated 16 key)
    (absent : (short path child).get key = none) : path ≠ key := by
  rintro rfl
  rcases known.short_cases with ⟨_, _, content, rfl, _⟩ | ⟨_, interior, _⟩
  · simp [Patricia.get] at absent
  · exact interior terminated.mem

variable (db) in
theorem deleteState_absent {spare : Nat} {tree : PathTree} {key : List Nibble} {fuel : Nat}
    {cache : Cache} {reference : Value} (enough : key.length < fuel)
    (terminated : Terminated 16 key)
    (points : Points sha3Bin false scope (view cache) reference tree)
    (absent : tree.get key = none) (spans : Spans spare tree key) :
    Retains sha3Bin scope db cache reference
      (Trie.deleteState sha3Bin db spare fuel cache reference key) tree := by
  induction tree generalizing key fuel cache reference with
  | empty =>
      obtain ⟨nibble, rest, less, rfl, rfl, -⟩ := terminated.exists_step enough
      rw [eq_str_of_represents_empty points.empty]
      exact .inl ⟨cache, rfl, .refl⟩
  | value content => exact points.not_value.elim
  | short path child induction =>
      obtain ⟨node, next, edge⟩ := open_short db spec ok points
      obtain ⟨-, -, less, -, rfl, -⟩ := terminated.exists_step enough
      have different := path_ne_of_absent edge.known terminated absent
      have notBeyond : ¬ key.length + spare < path.length := Nat.not_lt.mpr spans.1
      rw [edge.deleteState_eq terminated.ne_nil, if_neg different, if_neg notBeyond]
      by_cases shorter : key.length < path.length
      · rw [if_neg (take_spare_ne edge.known terminated shorter)]
        exact .inl ⟨next, rfl, edge.evolves⟩
      · rw [List.take_append_of_le_length (Nat.le_of_not_lt shorter), if_neg shorter]
        by_cases starts : path <+: key
        · have lowerSpans := spans.2 starts
          obtain ⟨below, rfl⟩ := starts
          rw [get_short_append] at absent
          rw [List.drop_left] at lowerSpans
          rcases edge.known.short_cases with ⟨pathTerminated, _⟩ | ⟨_, interior, isFull, childKnown⟩
          · exact (different
              (pathTerminated.eq_of_starts terminated ( List.prefix_append path below))).elim
          · have lower := induction (edge.fewer enough)
              ((terminated_append_iff interior).mp terminated)
              (edge.held.points childKnown) absent lowerSpans
            obtain ⟨hash, third, deleted, further, hashHeld⟩ :=
              lower.yields spec ok childKnown edge.held
            cases child with
            | full children =>
                obtain ⟨lowerNode, last, branching⟩ :=
                  open_full db spec ok (hashHeld.points childKnown)
                apply Or.inr
                refine ⟨last, .list [.str (node.get 0).asStr, hash], ?_,
                  (edge.evolves.trans further).trans branching.evolves, edge.known, ?_⟩
                · simp [deleted, branching.got, branching.length]
                · rw [edge.textEq]
                  exact represents_list_iff.mpr
                    ⟨_, rfl, .cons (.of_str _) (.cons hashHeld.represents .nil)⟩
            | _ => exact isFull.elim
        · have takeNe : key.take path.length ≠ path := fun takeEq =>
            starts (takeEq ▸ List.take_prefix _ _)
          rw [if_neg takeNe]
          exact .inl ⟨next, rfl, edge.evolves⟩
  | full children induction =>
      obtain ⟨node, next, branching⟩ := open_full db spec ok points
      obtain ⟨nibble, rest, less, rfl, rfl, fewer⟩ := terminated.exists_step enough
      have lower : Yields sha3Bin false scope db view next
          (Trie.deleteState sha3Bin db spare less next (node.get nibble) rest)
          (children nibble) := by
        rcases branching.known.slot_cases nibble with isEmpty | ⟨notEnd, childKnown⟩ |
          ⟨rfl, _, content, isValue, _⟩
        · have slotHeld := branching.held nibble
          obtain ⟨less, rfl⟩ := Nat.exists_eq_add_one.mpr (Nat.zero_lt_of_lt fewer)
          rw [isEmpty] at slotHeld ⊢
          rw [eq_str_of_represents_empty slotHeld.represents]
          refine ⟨.str [], next, ?_, .refl, .of_str [], trivial⟩
          cases rest <;> rfl
        · have restTerminated := (terminated.resolve_left fun isEnd => notEnd isEnd.1).2
          exact (induction nibble fewer restTerminated ((branching.held nibble).points childKnown)
            absent spans).yields spec ok childKnown (branching.held nibble)
        · rcases terminated with ⟨_, rfl⟩ | ⟨notEnd, _⟩
          · simp [Patricia.get, isValue] at absent
          · exact (notEnd rfl).elim
      obtain ⟨child, last, deleted, further, childHeld⟩ := lower
      have represent : ∀ i : Nibble,
          (((Trie.copySlots node).set nibble child).getD i .nil).Represents false
            (commit sha3Bin (children i)) := by
        intro i
        have slotHeld := branching.held_set spec ok further childHeld nibble i
        rw [Function.update_eq_self] at slotHeld
        exact slotHeld.represents
      obtain ⟨collapsed, represents⟩ := collapseSlots_retains db spec ok last branching.known
        (by simpa using branching.copied) represent
      apply Or.inr
      refine ⟨last, .list ((Trie.copySlots node).set nibble child), ?_,
        branching.evolves.trans further, branching.known, represents⟩
      rw [branching.deleteState_eq, deleted]
      exact collapsed

variable (db) in
/-- An edge that is too long for the key makes the deletion panic. -/
theorem deleteState_beyond (fuel : Nat) {cache : Cache} {reference : Value}
    (terminated : Terminated 16 key)
    (points : Points sha3Bin false scope (view cache) reference tree) (absent : tree.get key = none)
    (beyond : ¬ Spans spare tree key) :
    Trie.deleteState sha3Bin db spare fuel cache reference key = none := by
  induction tree generalizing key fuel cache reference with
  | empty => exact (beyond trivial).elim
  | value content => exact (beyond trivial).elim
  | short path child induction =>
      cases fuel with
      | zero => rfl
      | succ fuel =>
          obtain ⟨node, next, edge⟩ := open_short db spec ok points
          rw [edge.deleteState_eq terminated.ne_nil,
            if_neg (path_ne_of_absent edge.known terminated absent)]
          by_cases tooLong : key.length + spare < path.length
          · rw [if_pos tooLong]
          · have lowerBeyond : path <+: key ∧ ¬ Spans spare child (key.drop path.length) := by
              by_contra reached
              rw [not_and, not_not] at reached
              exact beyond ⟨Nat.not_lt.mp tooLong, reached⟩
            obtain ⟨⟨below, rfl⟩, lowerBeyond⟩ := lowerBeyond
            rw [get_short_append] at absent
            rw [List.drop_left] at lowerBeyond
            have notShorter : ¬ (path ++ below).length < path.length := by simp
            rcases edge.known.short_cases with ⟨_, _, content, rfl, _⟩ |
              ⟨_, interior, _, childKnown⟩
            · exact (lowerBeyond trivial).elim
            · have none : Trie.deleteState sha3Bin db spare fuel next (node.get 1) below = none :=
                induction fuel ((terminated_append_iff interior).mp terminated)
                  (edge.held.points childKnown) absent lowerBeyond
              rw [if_neg tooLong, List.append_assoc, List.take_left, if_pos rfl,
                if_neg notShorter, List.drop_left, none]
              rfl
  | full children induction =>
      cases fuel with
      | zero => rfl
      | succ fuel =>
          obtain ⟨node, next, branching⟩ := open_full db spec ok points
          obtain ⟨nibble, rest, rfl⟩ := List.exists_cons_of_ne_nil terminated.ne_nil
          rcases branching.known.slot_cases nibble with isEmpty | ⟨notEnd, childKnown⟩ |
            ⟨_, _, content, isValue, _⟩
          · rw [Spans, isEmpty] at beyond
            exact (beyond trivial).elim
          · have restTerminated := (terminated.resolve_left fun isEnd => notEnd isEnd.1).2
            have none : Trie.deleteState sha3Bin db spare fuel next (node.get nibble) rest =
                none :=
              induction nibble fuel restTerminated ((branching.held nibble).points childKnown)
                absent
                beyond
            rw [branching.deleteState_eq, none]
            rfl
          · rw [Spans, isValue] at beyond
            exact (beyond trivial).elim

omit spec ok in
/-- A node that becomes the root is referred to by its hash, however short it is. -/
theorem root_setRoot_put (trie : Trie) (middle cache : Cache) (values : List Value) :
    (trie.setRoot sha3Bin (Trie.put sha3Bin middle (.list values)).1 cache).root =
      .bytes (sha3Bin (encode (.list values))) := by
  by_cases large : 32 ≤ (encode (.list values)).length
  · simp [Trie.put, Cache.putValue, large, Trie.setRoot]
  · simp [Trie.put, Cache.putValue, large, Trie.setRoot]

variable (db) in
/-- `Delete` of an absent key keeps the root, as long as the key spans the edges it
meets. -/
theorem Stands.delete_absent {trie : Trie} (stands : Stands sha3Bin false scope view trie tree)
    (rootEq : trie.root = rootValue sha3Bin tree) {key : Bytes}
    (absent : tree.get (compactHexDecode key) = none)
    (spans : Spans spare tree (compactHexDecode key)) :
    ∃ next, trie.deleteWithin sha3Bin db spare key = some next ∧ next.root = trie.root := by
  have terminated := terminated_compactHexDecode key
  rcases deleteState_absent db spec ok (Nat.lt_succ_self _) terminated stands.points absent
    spans with ⟨cache, deleted, _⟩ |
      ⟨middle, node, deleted, _, known, represents⟩
  · refine ⟨trie.setRoot sha3Bin trie.root cache, by simp [Trie.deleteWithin, deleted], ?_⟩
    rcases stands.root_cases spec with ⟨text, isStr⟩ | ⟨data, isBytes⟩
    · rw [isStr]
      rfl
    · rw [isBytes]
      rfl
  · obtain ⟨items, isList⟩ := nodeItem_isList sha3Bin known.canonical
    obtain ⟨values, rfl, _⟩ := represents_list_iff.mp (isList ▸ represents)
    refine ⟨trie.setRoot sha3Bin (Trie.put sha3Bin middle (.list values)).1
      (Trie.put sha3Bin middle (.list values)).2, by simp [Trie.deleteWithin, deleted], ?_⟩
    rw [root_setRoot_put, rootEq, rootValue_canonical known.canonical, represents.encode_eq]

end Absent

/-- In a trie filled by `Update`, with keys of any lengths, `Delete` of an absent key
returns with the root as it was exactly when no edge on the way of the key is longer
than what is left of the key and the unused places behind it. -/
theorem delete_absent_iff (sha3Bin : Bytes → Bytes) (db : Database) (updates : List Update)
    (spec : Sha3Spec sha3Bin (nodeEncodings sha3Bin (scopeOf updates))) (spare : Nat)
    (key : Bytes) :
    ∃ trie, (Trie.new (.str [])).updateAll sha3Bin db updates = some trie ∧
      ((trie.get db key).map Prod.fst = some [] →
        ((∃ next, trie.deleteWithin sha3Bin db spare key = some next ∧
            next.root = trie.root) ↔
          Spans spare (insertAll .empty updates) (compactHexDecode key))) := by
  have written := Set.Subset.refl (pairsOf updates)
  have ok : (scopeOf updates).Ok := ok_of_subset written
  have terminated := terminated_compactHexDecode key
  obtain ⟨trie, run, stands, rootEq⟩ := exists_filled spec written db ⟨written, fun _ => id⟩
  refine ⟨trie, run, fun got => ?_⟩
  have absent : (insertAll .empty updates).get (compactHexDecode key) = none := by
    obtain ⟨cache, read, _⟩ := stands.get db spec ok key
    rw [read] at got
    cases found : (insertAll .empty updates).get (compactHexDecode key) with
    | none => rfl
    | some value =>
        have nonempty := ok.nonempty (stands.holds _ value terminated found)
        rw [found] at got
        exact (nonempty (Option.some.inj got)).elim
  constructor
  · rintro ⟨next, deleted, _⟩
    by_contra beyond
    have none := deleteState_beyond db spec ok ((compactHexDecode key).length + 1) terminated
      stands.points absent beyond
    rw [Trie.deleteWithin, none] at deleted
    cases deleted
  · exact stands.delete_absent db spec ok rootEq absent

/-- `Delete("b")` on a trie with the key `"a"`. -/
theorem delete_absent_letter :
    ∃ trie, (Trie.new (.str [])).updateAll letterHash ∅ [updateA 0x76] = some trie ∧
      (trie.get ∅ [0x62]).map Prod.fst = some [] ∧
      ∃ next, trie.deleteWithin letterHash ∅ 1 [0x62] = some next ∧ next.root = trie.root := by
  obtain ⟨trie, run, iff⟩ := delete_absent_iff letterHash ∅ [updateA 0x76]
    (letterHash_spec (fillings [updateA 0x76]) (fun _ => id) (by decide +kernel)) 1 [0x62]
  have absent : (trie.get ∅ [0x62]).map Prod.fst = some [] := by
    have computed : ((Trie.new (.str [])).updateAll letterHash ∅ [updateA 0x76]).bind
        (fun trie => (trie.get ∅ [0x62]).map Prod.fst) = some [] := by decide +kernel
    rw [run] at computed
    exact computed
  exact ⟨trie, run, absent, (iff absent).mpr (by decide)⟩

/-- `Delete("")` panics on a trie with the key `"a"`: the slice that holds the terminator
alone has the capacity 1, and the leaf has three nibbles. -/
theorem delete_empty_key_panics :
    Sha3Spec letterHash (nodeEncodings letterHash (scopeOf [updateA 0x76])) ∧
    ((Trie.new (.str [])).updateAll letterHash ∅ [updateA 0x76]).bind
      (fun trie => (trie.get ∅ []).map Prod.fst) = some [] ∧
    (compactHexDecode []).length = 1 ∧
    ((Trie.new (.str [])).updateAll letterHash ∅ [updateA 0x76]).isSome ∧
    ((Trie.new (.str [])).updateAll letterHash ∅ [updateA 0x76]).bind
      (fun trie => (trie.deleteWithin letterHash ∅ 0 []).map Trie.root) = none :=
  ⟨letterHash_spec (fillings [updateA 0x76]) (fun _ => id) (by decide +kernel),
    by decide +kernel, by decide, by decide +kernel, by decide +kernel⟩

end Thelonious
