import Thelonious.Trie.Operations

/-!
# Deleting

`deleteState` does to a stored tree what `Patricia.delete` does to the tree, with one
exception.  When a branching is left with a single child and that child is an
edge above another branching, the edge is rebuilt with `child.Get(1).Str()`.
This is empty when the lower branching is written inline, and everything below
it is lost.  `SafeDelete` excludes that situation.

The emptiness of a slot is decided by a comparison with `""`, which takes every slot
of a node read back from the database for one in use.  Such a branching is never
collapsed, so deletions below it are right only when `Spreads` holds: every branching
on the way keeps two edges.
-/

namespace Thelonious

open Radix Radix.Patricia

/-- Deleting the key never takes over an edge above an inline branching. -/
def SafeDelete (sha3Bin : Bytes → Bytes) : PathTree → List Nibble → Prop
  | .empty, _ => True
  | .value _, _ => True
  | .short path child, key =>
      path ≠ key → path <+: key → SafeDelete sha3Bin child (key.drop path.length)
  | .full _, [] => True
  | .full children, symbol :: rest =>
      SafeDelete sha3Bin (children symbol) rest ∧
        ∀ other path below, (children symbol).delete rest = .empty →
          (∀ third, third ≠ symbol → children third ≠ .empty → third = other) →
          children other = .short path (.full below) →
            32 ≤ (nodeItem sha3Bin (.full below)).encode.length

/-- Deleting the key leaves every branching on the way with two edges. -/
def Spreads : PathTree → List Nibble → Prop
  | .empty, _ => True
  | .value _, _ => True
  | .short path child, key =>
      path ≠ key → path <+: key → Spreads child (key.drop path.length)
  | .full _, [] => True
  | .full children, symbol :: rest =>
      Spreads (children symbol) rest ∧
        ∃ left right, left ≠ right ∧
          Function.update children symbol ((children symbol).delete rest) left ≠ .empty ∧
          Function.update children symbol ((children symbol).delete rest) right ≠ .empty

/-! ### The slots in use -/

section Slots

/-- The slots in use. -/
private def usedSlots (slots : List Value) : List Nibble :=
  (List.finRange 17).filter fun i => Trie.notEmptyString (slots.getD i.val .nil)

private theorem amountOf_eq_foldl (slots : List Value) :
    Trie.amountOf slots = (usedSlots slots).foldl
      (fun amount i => if amount = -1 then (i.val : Int) else -2) (-1) :=
  List.foldl_filter.symm

private theorem foldl_several (slots : List Nibble) :
    slots.foldl (fun amount i => if amount = -1 then (i.val : Int) else -2) (-2) = -2 := by
  induction slots with
  | nil => rfl
  | cons i slots induction => exact induction

private theorem filter_eq_singleton (i : Nibble) :
    (List.finRange 17).filter (fun j => decide (j = i)) = [i] := by
  decide +revert

variable {slots : List Value} {i j : Nibble}

private theorem mem_usedSlots (used : Trie.notEmptyString (slots.getD i .nil)) :
    i ∈ usedSlots slots :=
  List.mem_filter.mpr ⟨List.mem_finRange i, used⟩

theorem amountOf_sole (sole : ∀ j : Nibble, Trie.notEmptyString (slots.getD j .nil) ↔ j = i) :
    Trie.amountOf slots = i.val := by
  have found : usedSlots slots = [i] := by
    rw [← filter_eq_singleton i]
    apply List.filter_congr
    intro j _
    exact Bool.eq_iff_iff.mpr ((sole j).trans decide_eq_true_iff.symm)
  rw [amountOf_eq_foldl, found]
  rfl

theorem amountOf_several (different : i ≠ j) (iUsed : Trie.notEmptyString (slots.getD i .nil))
    (jUsed : Trie.notEmptyString (slots.getD j .nil)) : Trie.amountOf slots = -2 := by
  have iFound := mem_usedSlots iUsed
  have jFound := mem_usedSlots jUsed
  rw [amountOf_eq_foldl]
  generalize usedSlots slots = found at iFound jFound ⊢
  rcases found with _ | ⟨first, _ | ⟨second, rest⟩⟩
  · cases iFound
  · rw [List.mem_singleton] at iFound jFound
    exact (different (iFound.trans jFound.symm)).elim
  · have notFirst : (first.val : Int) ≠ -1 := by omega
    simp only [List.foldl_cons, if_true, if_neg notFirst]
    exact foldl_several rest

end Slots

/-- The trees that deleting the key comes to: the one that is left, and those left of the
nodes on the way. -/
noncomputable def deletions : PathTree → List Nibble → List PathTree
  | .empty, _ => []
  | .value _, _ => []
  | .short path child, key =>
      (short path child).delete key ::
        if path <+: key then deletions child (key.drop path.length) else []
  | .full _, [] => []
  | .full children, symbol :: rest =>
      (full children).delete (symbol :: rest) :: deletions (children symbol) rest

/-- The run comes to the trees. -/
def Scope.Deletes (scope : Scope) (tree : PathTree) (key : List Nibble) : Prop :=
  ∀ left ∈ deletions tree key, left ∈ scope.trees

theorem Scope.Deletes.child {scope : Scope} {path below : List Nibble} {child : PathTree}
    (deletes : scope.Deletes (.short path child) (path ++ below)) : scope.Deletes child below := by
  intro left member
  apply deletes
  rw [deletions, if_pos ( List.prefix_append path below), List.drop_left]
  exact List.mem_cons_of_mem _ member

theorem Scope.Deletes.slot {scope : Scope} {children : Nibble → PathTree} {symbol : Nibble}
    {rest : List Nibble} (deletes : scope.Deletes (.full children) (symbol :: rest)) :
    scope.Deletes (children symbol) rest :=
  fun left member => deletes left (List.mem_cons_of_mem _ member)

section Deleting

variable {sha3Bin : Bytes → Bytes} {reread : Bool} {scope : Scope} {db : Database} {spare : Nat}
variable {view : View} [Reliable sha3Bin db view] {tree : PathTree} {cache next : Cache}
  {value reference node : Value} {path : List Nibble} {fuel : Nat} {child : PathTree}
  {children : Nibble → PathTree}

theorem eq_str_of_represents_empty (represents : value.Represents false (.str [])) :
    value = .str [] := by
  rcases represents.str_cases with isStr | rfl | ⟨single, _, isEmpty, _⟩
  · exact isStr
  · simp [Value.Represents, Value.Plain] at represents
  · cases isEmpty

variable (spec : Sha3Spec sha3Bin (nodeEncodings sha3Bin scope)) (ok : scope.Ok)
include spec ok

theorem notEmptyString_of_ne_empty (isChild : Child scope tree)
    (represents : value.Represents reread (commit sha3Bin tree)) (nonempty : tree ≠ .empty) :
    Trie.notEmptyString value := by
  have different : value ≠ .str [] := by
    rintro rfl
    rcases isChild with isEmpty | known | ⟨key, content, rfl, member⟩
    · exact nonempty isEmpty
    · exact commit_ne_empty spec known.canonical represents.2.symm
    · exact ok.nonempty member (Item.str.inj represents.2).symm
  unfold Trie.notEmptyString
  split
  · exact (different rfl).elim
  · rfl

theorem notEmptyString_iff (isChild : Child scope tree)
    (represents : value.Represents false (commit sha3Bin tree)) :
    Trie.notEmptyString value ↔ tree ≠ .empty := by
  constructor
  · rintro used rfl
    simp [eq_str_of_represents_empty represents, Trie.notEmptyString] at used
  · exact notEmptyString_of_ne_empty spec ok isChild represents

omit spec ok in
/-- Taking over the child of an edge as a string keeps it, unless it is inline. -/
private theorem held_asStr {source : Bytes → Option Value} {child : PathTree}
    (known : Known scope (.short path child)) (held : Held sha3Bin false source value child)
    (large : ∀ below, child = .full below → 32 ≤ (nodeItem sha3Bin (.full below)).encode.length) :
    Held sha3Bin false source (.str value.asStr) child := by
  rcases known.short_cases with ⟨_, _, content, rfl, _⟩ | ⟨_, _, isFull, childKnown⟩
  · have text : value.asStr = content := held.represents.asStr_eq
    rw [text]
    exact held_value source content
  · cases child with
    | full below =>
        have represents := held.represents
        rw [commit_canonical childKnown.canonical, Item.ref,
          if_pos (large below rfl)] at represents
        refine ⟨?_, held.stored⟩
        rw [commit_canonical childKnown.canonical, Item.ref, if_pos (large below rfl),
          represents.asStr_eq]
        exact .of_str _
    | _ => exact isFull.elim

/-- The end of the branch case: the slots are collapsed like the branching. -/
theorem collapseSlots_eq_collapse {slots : List Value} {children : Nibble → PathTree}
    {used : Nibble} (length : slots.length = 17) (fit : SlotsFit 16 children)
    (isChild : ∀ i, Child scope (children i)) (nonempty : children used ≠ .empty)
    (result : Known scope (collapse children))
    (held : ∀ i : Nibble, Held sha3Bin false (view cache) (slots.getD i .nil) (children i))
    (large : ∀ other path below, (∀ third, children third ≠ .empty → third = other) →
      children other = .short path (.full below) →
        32 ≤ (nodeItem sha3Bin (.full below)).encode.length) :
    Yields sha3Bin false scope db view cache
      (Trie.collapseSlots sha3Bin db cache slots) (collapse children) := by
  have usedIff : ∀ i : Nibble, Trie.notEmptyString (slots.getD i .nil) ↔
      children i ≠ .empty := fun i =>
    notEmptyString_iff spec ok (isChild i) (held i).represents
  rcases collapse_cases nonempty with ⟨other, different, otherNonempty, keeps⟩ |
    ⟨sole, becomes⟩
  · have amount := amountOf_several different ((usedIff other).mpr otherNonempty)
      ((usedIff used).mpr nonempty)
    rw [keeps] at result ⊢
    have unfolded : Trie.collapseSlots sha3Bin db cache slots =
        some (Trie.put sha3Bin cache (.list slots)) := by
      simp [Trie.collapseSlots, amount]
    rw [unfolded]
    exact putFull_of_known spec ok result length held
  · have amount := amountOf_sole fun j => (usedIff j).trans (sole j)
    rw [becomes] at result ⊢
    rcases fit used nonempty with ⟨notEnd, canonical⟩ | ⟨rfl, content, isValue⟩
    · have small : used.val < 16 := lt_of_ne_sixteen notEnd
      have known : Known scope (children used) := by
        rcases isChild used with isEmpty | known | ⟨_, content, isValue, _⟩
        · exact (nonempty isEmpty).elim
        · exact known
        · rw [isValue] at canonical
          exact canonical.elim
      have points := (held used).points known
      cases childEq : children used with
      | empty => exact (nonempty childEq).elim
      | value content =>
          rw [childEq] at canonical
          exact canonical.elim
      | short lower child =>
          rw [childEq] at points result
          obtain ⟨node, next, edge⟩ := open_short db spec ok points
          have taken := held_asStr edge.known edge.held fun below isFull =>
            large used lower below (fun third used => (sole third).mp used)
              (by rw [childEq, isFull])
          have unfolded : Trie.collapseSlots sha3Bin db cache slots =
              Trie.putShort sha3Bin next (used :: lower) (.str (node.get 1).asStr) := by
            unfold Trie.collapseSlots
            rw [amount]
            simp only [Int.toNat_natCast]
            rw [edge.got]
            simp [edge.length, edge.pathEq]
            omega
          rw [unfolded]
          exact (putShort_of_known spec ok result taken).after edge.evolves
      | full below =>
          rw [childEq] at points result
          obtain ⟨node, next, branching⟩ := open_full db spec ok points
          have unfolded : Trie.collapseSlots sha3Bin db cache slots =
              Trie.putShort sha3Bin next [used] (slots.getD used .nil) := by
            unfold Trie.collapseSlots
            rw [amount]
            simp only [Int.toNat_natCast]
            rw [branching.got]
            simp [branching.length]
            omega
          have slotHeld := held used
          rw [childEq] at slotHeld
          rw [unfolded]
          exact (putShort_of_known spec ok result (branching.evolves.held spec ok
            (.inr (.inl branching.known)) slotHeld)).after branching.evolves
    · rw [isValue] at result ⊢
      have unfolded : Trie.collapseSlots sha3Bin db cache slots =
          Trie.putShort sha3Bin cache [16] (slots.getD (16 : Nibble) .nil) := by
        simp [Trie.collapseSlots, amount]
      have slotHeld := held 16
      rw [isValue] at slotHeld
      rw [unfolded]
      exact putShort_of_known spec ok result slotHeld

omit spec ok in
theorem Known.delete {tree : PathTree} (known : Known scope tree) {key : List Nibble}
    (terminated : Terminated 16 key) (deletes : scope.Deletes tree key) :
    tree.delete key = .empty ∨ Known scope (tree.delete key) := by
  rcases (rooted_delete known.canonical.rooted terminated).1 with isEmpty | canonical
  · exact .inl isEmpty
  · have occurs : scope.Occurs (tree.delete key) := by
      apply Scope.occurs_of_mem
      apply deletes
      obtain ⟨symbol, rest, rfl⟩ := List.exists_cons_of_ne_nil terminated.ne_nil
      cases tree with
      | empty => exact known.canonical.elim
      | value content => exact known.canonical.elim
      | short path child => exact List.mem_cons_self
      | full children => exact List.mem_cons_self
    obtain ⟨before, holds⟩ := known.within
    refine .inr ⟨canonical, ⟨before, fun rest value restTerminated found => ?_⟩, occurs⟩
    rw [get_delete known.canonical.rooted terminated restTerminated] at found
    split at found
    · cases found
    · exact holds rest value restTerminated found

omit spec ok [Reliable sha3Bin db view] in
/-- What the deletion below an edge or a slot delivers to the node above. -/
private theorem yields_of_outcome {result : Option (Value × Cache)} {after : PathTree}
    (held : ∀ next, Evolves sha3Bin reread scope db cache next →
      Held sha3Bin reread (view next) reference tree)
    (outcome : (∃ next, result = some (reference, next) ∧
        Evolves sha3Bin reread scope db cache next ∧ after = tree) ∨
      Yields sha3Bin reread scope db view cache result after) :
    Yields sha3Bin reread scope db view cache result after := by
  rcases outcome with ⟨next, resultEq, evolves, rfl⟩ | yields
  · exact ⟨reference, next, resultEq, evolves, held next evolves⟩
  · exact yields

omit spec ok [Reliable sha3Bin db view] in
/-- The step of `deleteState` at an edge. -/
theorem OpenShort.deleteState_eq {key : List Nibble}
    (edge : OpenShort sha3Bin reread scope db view cache reference node next path child)
    (keyNonempty : key ≠ []) :
    Trie.deleteState sha3Bin db spare (fuel + 1) cache reference key =
      if path = key then some (.str [], next)
      else if key.length + spare < path.length then none
      else if (key ++ List.replicate spare 0).take path.length = path then
        if key.length < path.length then none
        else
          (Trie.deleteState sha3Bin db spare fuel next (node.get 1)
            (key.drop path.length)).bind fun lower =>
              (Trie.getNode db lower.2 lower.1).bind fun opened =>
                if opened.1.len = 2 then
                  (compactDecode (opened.1.get 0).asStr).bind fun childKey =>
                    Trie.putShort sha3Bin opened.2 (path ++ childKey) (opened.1.get 1)
                else some (Trie.put sha3Bin opened.2
                  (.list [.str (node.get 0).asStr, lower.1]))
      else some (reference, next) := by
  obtain ⟨nibble, rest, rfl⟩ := List.exists_cons_of_ne_nil keyNonempty
  rw [Trie.deleteState, if_neg edge.nonempty]
  simp only [edge.got, edge.length, edge.pathEq, Option.bind_eq_bind, Option.bind_some, if_true]
  rfl

omit spec ok [Reliable sha3Bin db view] in
/-- The step of `deleteState` at a branching. -/
theorem OpenFull.deleteState_eq {nibble : Nibble} {rest : List Nibble}
    (branching : OpenFull sha3Bin reread scope db view cache reference node next children) :
    Trie.deleteState sha3Bin db spare (fuel + 1) cache reference (nibble :: rest) =
      (Trie.deleteState sha3Bin db spare fuel next (node.get nibble) rest).bind fun lower =>
        Trie.collapseSlots sha3Bin db lower.2 ((Trie.copySlots node).set nibble lower.1) := by
  rw [Trie.deleteState, if_neg branching.nonempty]
  simp only [branching.got, branching.length, Option.bind_eq_bind, Option.bind_some]
  rw [if_neg (by decide), branching.same]

/-- The step of `deleteState` at an edge whose child has been dealt with. -/
private theorem deleteState_below {below : List Nibble}
    (edge : OpenShort sha3Bin reread scope db view cache reference node next path child)
    (belowNonempty : below ≠ []) (treeKnown : Known scope tree)
    (result : Known scope (merge path tree))
    (lower : Yields sha3Bin reread scope db view next
      (Trie.deleteState sha3Bin db spare fuel next (node.get 1) below) tree) :
    Yields sha3Bin reread scope db view cache
      (Trie.deleteState sha3Bin db spare (fuel + 1) cache reference (path ++ below))
      (merge path tree) := by
  obtain ⟨hash, third, deleted, further, hashHeld⟩ := lower
  have pathNonempty := edge.known.canonical.path_ne_nil
  have opened : Trie.deleteState sha3Bin db spare (fuel + 1) cache reference (path ++ below) =
      (Trie.getNode db third hash).bind fun opened =>
        if opened.1.len = 2 then
          (compactDecode (opened.1.get 0).asStr).bind fun childKey =>
            Trie.putShort sha3Bin opened.2 (path ++ childKey) (opened.1.get 1)
        else Trie.putShort sha3Bin opened.2 path hash := by
    rw [edge.deleteState_eq (List.append_ne_nil_of_left_ne_nil pathNonempty below)]
    have notShorter : ¬ (path ++ below).length < path.length := by simp
    have notBeyond : ¬ (path ++ below).length + spare < path.length := by
      rw [List.length_append]
      omega
    rw [if_neg (by simpa using belowNonempty), if_neg notBeyond, if_neg notShorter]
    simp [deleted, edge.textEq, Trie.putShort, compactEncode_eq pathNonempty]
  have points := hashHeld.points treeKnown
  rw [opened]
  cases tree with
  | empty => exact treeKnown.canonical.elim
  | value content => exact treeKnown.canonical.elim
  | short lowerPath child =>
      obtain ⟨lowerNode, last, lower⟩ := open_short db spec ok points
      simp only [lower.got, Option.bind_some, lower.length, if_true, lower.pathEq]
      exact (putShort_of_known spec ok result lower.held).after
        ((edge.evolves.trans further).trans lower.evolves)
  | full children =>
      obtain ⟨lowerNode, last, lower⟩ := open_full db spec ok points
      simp only [lower.got, Option.bind_some, lower.length]
      exact (putShort_of_known spec ok result
        (lower.evolves.held spec ok (.inr (.inl treeKnown)) hashHeld)).after
          ((edge.evolves.trans further).trans lower.evolves)

omit spec ok in
private theorem delete_last {children : Nibble → PathTree}
    (known : Known scope (.full children)) : (children 16).delete [] = .empty := by
  rcases known.slot_cases 16 with isEmpty | ⟨notEnd, _⟩ | ⟨_, _, content, isValue, _⟩
  · rw [isEmpty]
    rfl
  · exact (notEnd rfl).elim
  · rw [isValue]
    simp [Patricia.delete]

omit spec ok [Reliable sha3Bin db view] in
variable (sha3Bin reread scope db view) in
/-- A condition on the deletion of a key that goes down the way of the key, and under
which the code collapses a branching as it should. -/
structure Collapsible (safe : PathTree → List Nibble → Prop) : Prop where
  child : ∀ {path child key}, safe (.short path child) key → path ≠ key → path <+: key →
    safe child (key.drop path.length)
  slot : ∀ {children symbol rest}, safe (.full children) (symbol :: rest) →
    safe (children symbol) rest
  collapses : ∀ {cache slots children symbol rest},
    safe (.full children) (symbol :: rest) → Known scope (.full children) →
    SlotsFit 16 (Function.update children symbol ((children symbol).delete rest)) →
    (∀ i, Child scope (Function.update children symbol ((children symbol).delete rest) i)) →
    Known scope (collapse (Function.update children symbol ((children symbol).delete rest))) →
    slots.length = 17 →
    (∀ i : Nibble, Held sha3Bin reread (view cache) (slots.getD i .nil)
      (Function.update children symbol ((children symbol).delete rest) i)) →
    Yields sha3Bin reread scope db view cache (Trie.collapseSlots sha3Bin db cache slots)
      (collapse (Function.update children symbol ((children symbol).delete rest)))

/-- In memory the one situation to be excluded is an inline branching below an edge that
is taken over. -/
theorem collapsible_safeDelete :
    Collapsible sha3Bin false scope db view (SafeDelete sha3Bin) where
  child safe different starts := safe different starts
  slot safe := safe.1
  collapses {cache slots children symbol rest} safe known fit isChild result length held := by
    obtain ⟨other, different, otherUsed⟩ :=
      known.canonical.exists_other symbol ((children symbol).delete rest)
    refine collapseSlots_eq_collapse spec ok length fit isChild otherUsed result held ?_
    intro sole path below onlyUsed isEdge
    have soleIsOther : other = sole := onlyUsed other otherUsed
    have emptied : (children symbol).delete rest = .empty := by
      by_contra used
      have symbolIsSole := onlyUsed symbol (by rwa [Function.update_self])
      exact different (soleIsOther.trans symbolIsSole.symm)
    rw [← soleIsOther, Function.update_of_ne different] at isEdge
    refine safe.2 other path below emptied (fun third thirdNe used => ?_) isEdge
    rw [soleIsOther]
    exact onlyUsed third (by rwa [Function.update_of_ne thirdNe])

/-- A branching that keeps two edges is not collapsed, read back or not. -/
theorem collapsible_spreads : Collapsible sha3Bin reread scope db view Spreads where
  child spreads different starts := spreads different starts
  slot spreads := spreads.1
  collapses {cache slots children symbol rest} spreads _ _ isChild result length held := by
    obtain ⟨left, right, different, leftUsed, rightUsed⟩ := spreads.2
    have amount := amountOf_several different
      (notEmptyString_of_ne_empty spec ok (isChild left) (held left).represents leftUsed)
      (notEmptyString_of_ne_empty spec ok (isChild right) (held right).represents rightUsed)
    have unfolded : Trie.collapseSlots sha3Bin db cache slots =
        some (Trie.put sha3Bin cache (.list slots)) := by
      simp [Trie.collapseSlots, amount]
    rw [collapse_eq_full different leftUsed rightUsed] at result ⊢
    rw [unfolded]
    exact putFull_of_known spec ok result length held

variable (db spare) in
theorem deleteState_eq_delete {safe : PathTree → List Nibble → Prop}
    (collapsible : Collapsible sha3Bin reread scope db view safe) {tree : PathTree}
    {key : List Nibble} {fuel : Nat}
    {cache : Cache} {reference : Value} (enough : key.length < fuel)
    (terminated : Terminated 16 key)
    (points : Points sha3Bin reread scope (view cache) reference tree)
    (lengths : ∀ other value, Terminated 16 other → tree.get other = some value →
      other.length = key.length)
    (allowed : safe tree key) (deletes : scope.Deletes tree key) :
    (∃ next, Trie.deleteState sha3Bin db spare fuel cache reference key = some (reference, next) ∧
      Evolves sha3Bin reread scope db cache next ∧ tree.delete key = tree) ∨
    Yields sha3Bin reread scope db view cache
      (Trie.deleteState sha3Bin db spare fuel cache reference key) (tree.delete key) := by
  induction tree generalizing key fuel cache reference with
  | empty =>
      obtain ⟨nibble, rest, less, rfl, rfl, -⟩ := terminated.exists_step enough
      refine .inr ⟨.str [], cache, ?_, .refl, .of_str [], trivial⟩
      simp [Trie.deleteState, points.empty.len_eq]
  | value content => exact points.not_value.elim
  | short path child induction =>
      obtain ⟨node, next, edge⟩ := open_short db spec ok points
      obtain ⟨-, -, less, -, rfl, -⟩ := terminated.exists_step enough
      have known := edge.known
      by_cases same : path = key
      · subst same
        refine .inr ⟨.str [], next, ?_, edge.evolves, ?_⟩
        · rw [edge.deleteState_eq terminated.ne_nil, if_pos rfl]
        · simp only [Patricia.delete, if_true]
          exact ⟨.of_str [], trivial⟩
      · have notShorter : ¬ key.length < path.length := by
          obtain ⟨other, value, otherTerminated, found⟩ := known.canonical.exists_key
          have sameLength := lengths other value otherTerminated found
          obtain ⟨below, rfl⟩ := prefix_of_get_short found
          rw [List.length_append] at sameLength
          omega
        by_cases starts : path <+: key
        · have lowerAllowed := collapsible.child allowed same starts
          obtain ⟨below, rfl⟩ := starts
          rw [List.drop_left] at lowerAllowed
          rcases known.short_cases with ⟨pathTerminated, _⟩ |
            ⟨pathNonempty, interior, isFull, childKnown⟩
          · exact (same (pathTerminated.eq_of_starts terminated ( List.prefix_append _ _))).elim
          · have belowTerminated := (terminated_append_iff interior).mp terminated
            have deleteEq : (short path child).delete (path ++ below) =
                merge path (child.delete below) := by
              simp [Patricia.delete, belowTerminated.ne_nil]
            have childCanonical := (rooted_delete childKnown.canonical.rooted
              belowTerminated).2 isFull
            have treeKnown := (childKnown.delete belowTerminated deletes.child).resolve_left
              childCanonical.ne_empty
            have result := (known.delete terminated deletes).resolve_left (by
              rw [deleteEq]
              exact (childCanonical.merge interior pathNonempty).ne_empty)
            rw [deleteEq] at result ⊢
            refine .inr (deleteState_below spec ok edge belowTerminated.ne_nil treeKnown result ?_)
            refine yields_of_outcome
              (fun last further => further.held spec ok (.inr (.inl childKnown)) edge.held)
              (induction (edge.fewer enough) belowTerminated (edge.held.points childKnown) ?_
                lowerAllowed deletes.child)
            intro other value otherTerminated found
            have whole := lengths (path ++ other) value (.append interior otherTerminated)
              (by rwa [get_short_append])
            rw [List.length_append, List.length_append] at whole
            omega
        · refine .inl ⟨next, ?_, edge.evolves, ?_⟩
          · have takeNe : key.take path.length ≠ path := fun takeEq =>
              starts (takeEq ▸ List.take_prefix _ _)
            have notBeyond : ¬ key.length + spare < path.length := by omega
            rw [edge.deleteState_eq terminated.ne_nil, if_neg same, if_neg notBeyond,
              List.take_append_of_le_length (Nat.le_of_not_lt notShorter), if_neg takeNe]
          · simp [Patricia.delete, same, starts]
  | full children induction =>
      obtain ⟨node, next, branching⟩ := open_full db spec ok points
      obtain ⟨nibble, rest, less, rfl, rfl, fewer⟩ := terminated.exists_step enough
      have known := branching.known
      have slotChild : Child scope ((children nibble).delete rest) ∧
          ((children nibble).delete rest ≠ .empty →
            Fits 16 nibble ((children nibble).delete rest)) := by
        rcases terminated with ⟨rfl, rfl⟩ | ⟨notEnd, terminated⟩
        · rw [delete_last known]
          exact ⟨.inl rfl, fun used => (used rfl).elim⟩
        · rcases known.slot_cases nibble with isEmpty | ⟨_, childKnown⟩ | ⟨isEnd, _⟩
          · rw [isEmpty]
            exact ⟨.inl rfl, fun used => (used rfl).elim⟩
          · rcases childKnown.delete terminated deletes.slot with isEmpty | after
            · exact ⟨.inl isEmpty, fun used => (used isEmpty).elim⟩
            · exact ⟨.inr (.inl after), fun _ => .inl ⟨notEnd, after.canonical⟩⟩
          · exact (notEnd isEnd).elim
      have lower : Yields sha3Bin reread scope db view next
          (Trie.deleteState sha3Bin db spare less next (node.get nibble) rest)
          ((children nibble).delete rest) := by
        rcases terminated with ⟨rfl, rfl⟩ | ⟨notEnd, terminated⟩
        · obtain ⟨less, rfl⟩ := Nat.exists_eq_add_one.mpr fewer
          rw [delete_last known]
          exact ⟨.str [], next, rfl, .refl, .of_str [], trivial⟩
        · refine yields_of_outcome
            (fun last further => further.held spec ok (known.slot nibble) (branching.held nibble))
            (induction nibble fewer terminated ((branching.held nibble).points_slot notEnd known) ?_
              (collapsible.slot allowed) deletes.slot)
          intro other value otherTerminated found
          have whole := lengths (nibble :: other) value (.inr ⟨notEnd, otherTerminated⟩) found
          simpa using whole
      obtain ⟨child, last, deleted, further, childHeld⟩ := lower
      obtain ⟨other, different, otherUsed⟩ :=
        known.canonical.exists_other nibble ((children nibble).delete rest)
      have fit := known.canonical.slotsFit.update slotChild.2
      have result := (known.delete terminated deletes).resolve_left
        (fit.canonical_collapse otherUsed).ne_empty
      rw [branching.deleteState_eq, deleted]
      refine .inr ((collapsible.collapses allowed known fit ?_ result
        (by simpa using branching.copied)
        (branching.held_set spec ok further childHeld nibble)).after
          (branching.evolves.trans further))
      intro i
      by_cases isSlot : i = nibble
      · subst isSlot
        simpa using slotChild.1
      · rw [Function.update_of_ne isSlot]
        exact known.slot i

variable (db spare) in
/-- `Delete` deletes from the tree. -/
theorem Stands.delete_of_collapsible {safe : PathTree → List Nibble → Prop}
    (collapsible : Collapsible sha3Bin reread scope db view safe) {trie : Trie}
    (stands : Stands sha3Bin reread scope view trie tree) {key : Bytes}
    (lengths : ∀ other value, Terminated 16 other → tree.get other = some value →
      other.length = (compactHexDecode key).length) (allowed : safe tree (compactHexDecode key))
    (deletes : scope.Deletes tree (compactHexDecode key)) :
    ∃ next, trie.deleteWithin sha3Bin db spare key = some next ∧
      Stands sha3Bin reread scope view next (tree.delete (compactHexDecode key)) ∧
      Evolves sha3Bin reread scope db trie.cache next.cache ∧
      next.prevRoot = trie.prevRoot := by
  have terminated := terminated_compactHexDecode key
  have holds : ∀ other value, Terminated 16 other →
      (tree.delete (compactHexDecode key)).get other = some value →
        (other, value) ∈ scope.pairs := by
    intro other value otherTerminated found
    rw [get_delete stands.rooted terminated otherTerminated] at found
    split at found
    · cases found
    · exact stands.holds other value otherTerminated found
  have kept : ∀ {reference : Value} (cache : Cache),
      (∃ text, reference = .str text) ∨ (∃ data, reference = .bytes data) →
      trie.setRoot sha3Bin reference cache = { trie with root := reference, cache := cache } := by
    rintro reference cache (⟨text, rfl⟩ | ⟨data, rfl⟩) <;> rfl
  rcases deleteState_eq_delete db spare spec ok collapsible (Nat.lt_succ_self _) terminated
    stands.points lengths allowed deletes with
    ⟨cache, deleted, evolves, unchanged⟩ | ⟨reference, cache, deleted, evolves, held⟩
  · refine ⟨{ trie with cache := cache }, ?_, ?_, evolves, rfl⟩
    · simp [Trie.deleteWithin, deleted, kept cache (stands.root_cases spec)]
    · rw [unchanged]
      exact evolves.stands spec ok stands
  · rcases (rooted_delete stands.rooted terminated).1 with isEmpty | canonical
    · rw [isEmpty] at held ⊢
      have isString : (∃ text, reference = .str text) ∨ ∃ data, reference = .bytes data := by
        rcases held.represents.str_cases with isStr | isBytes | ⟨_, _, isByte, _⟩
        · exact .inl ⟨_, isStr⟩
        · exact .inr ⟨_, isBytes⟩
        · cases isByte
      refine ⟨{ trie with root := reference, cache := cache },
        by simp [Trie.deleteWithin, deleted, kept cache isString], ?_, evolves, rfl⟩
      exact {
        root := held.represents
        rooted := .empty
        holds := fun _ _ _ found => by cases found
        occurs := fun canonical => canonical.elim
        keeps := fun canonical => canonical.elim
        stored := trivial }
    · have occurs : scope.Occurs (tree.delete (compactHexDecode key)) := by
        rcases stands.empty_or_known with rfl | known
        · exact canonical.elim
        · exact ((known.delete terminated deletes).resolve_left canonical.ne_empty).occurs
      obtain ⟨nextStands, further, prevEq⟩ :=
        held.stands_setRoot db spec ok trie canonical holds occurs
      exact ⟨trie.setRoot sha3Bin reference cache, by simp [Trie.deleteWithin, deleted],
        nextStands, evolves.trans further, prevEq⟩

end Deleting

end Thelonious
