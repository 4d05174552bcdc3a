import Thelonious.Lib.Radix

/-!
# Laws of radix trees

Insertion and deletion change the stored map at one key, keep canonical trees
canonical, and two canonical trees that store the same map are equal.
-/

namespace Radix

namespace Patricia

universe u v

variable {ι : Type u} {V : Type v} [DecidableEq ι] {terminator : ι}

/-! ### Lookup -/

theorem get_short_append (path rest : List ι) (child : Patricia ι V) :
    (short path child).get (path ++ rest) = child.get rest := by
  simp [get]

variable {key path common : List ι} {left right symbol : ι} {child tree : Patricia ι V}

theorem get_short_of_not_starts (child : Patricia ι V) (different : ¬ path <+: key) :
    (short path child).get key = none := by
  simp [get, different]

theorem get_joinShort (path key : List ι) (child : Patricia ι V) :
    (joinShort path child).get key =
      if path <+: key then child.get (key.drop path.length) else none := by
  unfold joinShort
  split
  · rename_i empty
    subst empty
    simp
  · rfl

theorem get_joinShort_append (path rest : List ι) (child : Patricia ι V) :
    (joinShort path child).get (path ++ rest) = child.get rest := by
  simp [get_joinShort]

theorem get_joinShort_of_not_starts (child : Patricia ι V) (different : ¬ path <+: key) :
    (joinShort path child).get key = none := by
  simp [get_joinShort, different]

theorem get_merge (path key : List ι) (tree : Patricia ι V) :
    (merge path tree).get key = (short path tree).get key := by
  cases tree with
  | short lower child =>
      by_cases starts : path <+: key
      · obtain ⟨rest, rfl⟩ := starts
        rw [get_short_append]
        simp only [merge, get, List.prefix_append_right_inj, List.length_append,
          List.drop_append, List.drop_eq_nil_of_le, Nat.le_add_right,
          Nat.add_sub_cancel_left, List.nil_append]
      · rw [get_short_of_not_starts _ starts, merge, get_short_of_not_starts]
        intro longer
        exact starts ((List.prefix_append path lower).trans longer)
  | _ => rfl

theorem get_leaf (terminated : Terminated terminator path)
    (keyTerminated : Terminated terminator key) (content : V) :
    (joinShort path (.value content)).get key =
      if key = path then some content else none := by
  by_cases same : key = path
  · subst same
    simp [get_joinShort, get]
  · rw [if_neg same, get_joinShort_of_not_starts]
    intro starts
    exact same (terminated.eq_of_starts keyTerminated starts).symm

/-! ### Splitting paths -/

theorem splitCommon_spec (left right : List ι) :
    left = (splitCommon left right).1 ++ (splitCommon left right).2.1 ∧
      right = (splitCommon left right).1 ++ (splitCommon left right).2.2 := by
  induction left generalizing right with
  | nil => simp [splitCommon]
  | cons leftHead lefts induction =>
      cases right with
      | nil => simp [splitCommon]
      | cons rightHead rights =>
          by_cases same : leftHead = rightHead
          · subst same
            obtain ⟨leftEq, rightEq⟩ := induction rights
            simp only [splitCommon, if_true, List.cons_append, List.cons.injEq,
              true_and]
            exact ⟨leftEq, rightEq⟩
          · simp [splitCommon, same]

theorem splitCommon_diverges {left right : List ι} {leftHead rightHead : ι}
    {leftRest rightRest : List ι}
    (split : splitCommon left right = (common, leftHead :: leftRest, rightHead :: rightRest)) :
    leftHead ≠ rightHead := by
  induction left generalizing right common with
  | nil => simp [splitCommon] at split
  | cons head lefts induction =>
      cases right with
      | nil => simp [splitCommon] at split
      | cons other rights =>
          by_cases same : head = other
          · subst same
            simp only [splitCommon, if_true, Prod.mk.injEq] at split
            have shorter : splitCommon lefts rights =
                ((splitCommon lefts rights).1, leftHead :: leftRest,
                  rightHead :: rightRest) := by
              rw [← split.2.1, ← split.2.2]
            exact induction shorter
          · simp only [splitCommon, same, if_false, Prod.mk.injEq, List.cons.injEq]
              at split
            obtain ⟨_, ⟨rfl, _⟩, rfl, _⟩ := split
            exact same

/-- The three ways an edge and a key can meet. -/
theorem splitCommon_cases (path key : List ι) :
    (∃ rest, key = path ++ rest ∧ splitCommon path key = (path, [], rest)) ∨
    (∃ symbol rest, path = key ++ symbol :: rest ∧
      splitCommon path key = (key, symbol :: rest, [])) ∨
    ∃ common left right pathRest keyRest, left ≠ right ∧
      path = common ++ left :: pathRest ∧ key = common ++ right :: keyRest ∧
      splitCommon path key = (common, left :: pathRest, right :: keyRest) := by
  obtain ⟨pathEq, keyEq⟩ := splitCommon_spec path key
  rcases split : splitCommon path key with ⟨common, pathRest, keyRest⟩
  rw [split] at pathEq keyEq
  cases pathRest with
  | nil =>
      simp only [List.append_nil] at pathEq
      subst pathEq
      exact .inl ⟨keyRest, keyEq, rfl⟩
  | cons left pathRest =>
      cases keyRest with
      | nil =>
          simp only [List.append_nil] at keyEq
          subst keyEq
          exact .inr (.inl ⟨left, pathRest, pathEq, rfl⟩)
      | cons right keyRest =>
          exact .inr (.inr ⟨common, left, right, pathRest, keyRest,
            splitCommon_diverges split, pathEq, keyEq, rfl⟩)

/-! ### Insertion -/

theorem get_fork (different : left ≠ right) (leftChild rightChild : Patricia ι V) (symbol : ι)
    (rest : List ι) :
    (fork left right leftChild rightChild).get (symbol :: rest) =
      if symbol = right then rightChild.get rest
      else if symbol = left then leftChild.get rest
      else none := by
  simp only [fork, get]
  by_cases isRight : symbol = right
  · subst isRight
    simp
  · rw [Function.update_of_ne isRight, if_neg isRight]
    by_cases isLeft : symbol = left
    · subst isLeft
      simp
    · rw [Function.update_of_ne isLeft, if_neg isLeft]
      rfl

/-- Inserting where the key leaves the edge in the middle. -/
private theorem get_insert_fork {pathRest keyRest : List ι} (child : Patricia ι V) (content : V)
    (different : left ≠ right) (keyTerminated : Terminated terminator (common ++ right :: keyRest))
    (terminated : Terminated terminator key) :
    (joinShort common (fork left right (joinShort pathRest child)
        (joinShort keyRest (.value content)))).get key =
      if key = common ++ right :: keyRest then some content
      else (short (common ++ left :: pathRest) child).get key := by
  by_cases starts : common <+: key
  · obtain ⟨rest, rfl⟩ := starts
    have interior := keyTerminated.not_mem_of_append (by simp)
    rw [terminated_append_iff interior] at terminated keyTerminated
    have shorter : (short (common ++ left :: pathRest) child).get (common ++ rest) =
        (short (left :: pathRest) child).get rest := by
      have merged := get_merge common (common ++ rest) (short (left :: pathRest) child)
      rwa [get_short_append] at merged
    rw [get_joinShort_append, shorter]
    simp only [List.append_cancel_left_eq]
    cases rest with
    | nil => exact terminated.elim
    | cons symbol rest =>
        rw [get_fork different]
        by_cases isRight : symbol = right
        · subst isRight
          have other : (short (left :: pathRest) child).get (symbol :: rest) = none := by
            apply get_short_of_not_starts
            simp [different]
          simp only [if_true, other, List.cons.injEq, true_and]
          rcases keyTerminated.cons_cases terminated with ⟨-, rfl, rfl⟩ | ⟨-, keyTail, tail⟩
          · simp [joinShort, get]
          · exact get_leaf keyTail tail content
        · simp only [isRight, if_false, List.cons.injEq, false_and]
          by_cases isLeft : symbol = left
          · subst isLeft
            simp [get_joinShort, get]
          · rw [if_neg isLeft, get_short_of_not_starts]
            simp only [List.cons_prefix_cons, not_and]
            intro same
            exact (isLeft same.symm).elim
  · rw [get_joinShort_of_not_starts _ starts, if_neg, get_short_of_not_starts]
    · intro longer
      exact starts ((List.prefix_append _ _).trans longer)
    · rintro rfl
      exact starts (List.prefix_append _ _)

omit [DecidableEq ι] in
/-- A canonical edge never runs past a terminated key. -/
theorem Canonical.not_past {rest : List ι}
    (canonical : Canonical terminator (short (key ++ symbol :: rest) child))
    (terminated : Terminated terminator key) : False := by
  rcases canonical with ⟨pathTerminated, _⟩ | ⟨_, interior, _⟩
  · have none := terminated.append_eq_nil pathTerminated
    cases none
  · exact interior (List.mem_append_left _ terminated.mem)

theorem get_insert (rooted : Rooted terminator tree) {other : List ι}
    (keyTerminated : Terminated terminator key) (terminated : Terminated terminator other)
    (content : V) :
    (tree.insert key content).get other =
      if other = key then some content else tree.get other := by
  induction tree generalizing key other with
  | empty => simpa [insert, get] using get_leaf keyTerminated terminated content
  | value old => exact (rooted.resolve_left (by simp)).elim
  | short path child induction =>
      rcases rooted with isEmpty | canonical
      · cases isEmpty
      rcases splitCommon_cases path key with
        ⟨rest, rfl, split⟩ | ⟨symbol, rest, rfl, split⟩ |
          ⟨common, left, right, pathRest, keyRest, different, rfl, rfl, split⟩
      · simp only [insert, split]
        by_cases starts : path <+: other
        · obtain ⟨otherRest, rfl⟩ := starts
          rw [get_joinShort_append, get_short_append]
          simp only [List.append_cancel_left_eq]
          rcases canonical with ⟨pathTerminated, old, rfl⟩ |
            ⟨nonempty, interior, _, childCanonical⟩
          · have noRest := pathTerminated.append_eq_nil keyTerminated
            have noOther := pathTerminated.append_eq_nil terminated
            simp [noRest, noOther, insert, joinShort, get]
          · rw [terminated_append_iff interior] at keyTerminated terminated
            exact induction childCanonical.rooted keyTerminated terminated
        · rw [get_joinShort_of_not_starts _ starts, get_short_of_not_starts _ starts,
            if_neg]
          rintro rfl
          exact starts (List.prefix_append _ _)
      · exact (canonical.not_past keyTerminated).elim
      · simp only [insert, split]
        exact get_insert_fork child content different keyTerminated terminated
  | full children induction =>
      rcases rooted with isEmpty | ⟨slots, last, _⟩
      · cases isEmpty
      cases key with
      | nil => exact keyTerminated.elim
      | cons symbol rest =>
          cases other with
          | nil => exact terminated.elim
          | cons otherSymbol otherRest =>
              simp only [insert, get]
              by_cases same : otherSymbol = symbol
              · subst same
                rw [Function.update_self]
                simp only [List.cons.injEq, true_and]
                rcases keyTerminated.cons_cases terminated with
                  ⟨rfl, rfl, rfl⟩ | ⟨notEnd, keyTail, tail⟩
                · rcases last with isEmpty | ⟨old, isValue⟩
                  · simp [isEmpty, insert, joinShort, get]
                  · simp [isValue, insert, joinShort, get]
                · exact induction otherSymbol (slots otherSymbol notEnd) keyTail tail
              · rw [Function.update_of_ne same]
                simp [same]

/-- What may stand below an edge labelled `symbol`. -/
def Fits (terminator symbol : ι) (tree : Patricia ι V) : Prop :=
  (symbol ≠ terminator ∧ Canonical terminator tree) ∨
    (symbol = terminator ∧ ∃ content, tree = .value content)

omit [DecidableEq ι] in
theorem Fits.ne_empty {symbol : ι} {tree : Patricia ι V}
    (fits : Fits terminator symbol tree) : tree ≠ .empty := by
  rcases fits with ⟨_, canonical⟩ | ⟨_, content, rfl⟩
  · exact canonical.ne_empty
  · simp

omit [DecidableEq ι] in
theorem fits_leaf {symbol : ι} {rest : List ι}
    (terminated : Terminated terminator (symbol :: rest)) (content : V) :
    Fits terminator symbol (joinShort rest (.value content)) := by
  rcases terminated with ⟨isEnd, rfl⟩ | ⟨notEnd, terminated⟩
  · exact .inr ⟨isEnd, content, rfl⟩
  · refine .inl ⟨notEnd, ?_⟩
    rw [joinShort, if_neg terminated.ne_nil]
    exact canonical_leaf terminated content

omit [DecidableEq ι] in
/-- The lower part of a cut edge fits below its first symbol. -/
theorem Canonical.fits_lower {rest : List ι}
    (canonical : Canonical terminator (short (common ++ symbol :: rest) child))
    (interior : terminator ∉ common) : Fits terminator symbol (joinShort rest child) := by
  rcases canonical with ⟨terminated, content, rfl⟩ | ⟨_, noEnd, isFull, canonical⟩
  · exact fits_leaf ((terminated_append_iff interior).mp terminated) content
  · simp only [List.mem_append, List.mem_cons, not_or] at noEnd
    refine .inl ⟨Ne.symm noEnd.2.1, ?_⟩
    unfold joinShort
    split
    · exact canonical
    · rename_i nonempty
      exact .inr ⟨nonempty, noEnd.2.2, isFull, canonical⟩

/-- Slots of a branching whose edges may have become too few. -/
def SlotsFit (terminator : ι) (children : ι → Patricia ι V) : Prop :=
  ∀ symbol, children symbol ≠ .empty → Fits terminator symbol (children symbol)

variable {children : ι → Patricia ι V}

omit [DecidableEq ι] in
theorem SlotsFit.canonical_full (fit : SlotsFit terminator children) (different : left ≠ right)
    (leftNonempty : children left ≠ .empty) (rightNonempty : children right ≠ .empty) :
    Canonical terminator (.full children) := by
  refine ⟨?_, ?_, left, right, different, leftNonempty, rightNonempty⟩
  · intro symbol notEnd
    by_cases isEmpty : children symbol = .empty
    · exact .inl isEmpty
    · rcases fit symbol isEmpty with ⟨_, canonical⟩ | ⟨isEnd, _⟩
      · exact .inr canonical
      · exact (notEnd isEnd).elim
  · by_cases isEmpty : children terminator = .empty
    · exact .inl isEmpty
    · rcases fit terminator isEmpty with ⟨notEnd, _⟩ | ⟨_, isValue⟩
      · exact (notEnd rfl).elim
      · exact .inr isValue

omit [DecidableEq ι] in
theorem Canonical.slotsFit (canonical : Canonical terminator (.full children)) :
    SlotsFit terminator children := by
  intro symbol nonempty
  by_cases isEnd : symbol = terminator
  · subst isEnd
    rcases canonical.2.1 with isEmpty | isValue
    · exact (nonempty isEmpty).elim
    · exact .inr ⟨rfl, isValue⟩
  · rcases canonical.1 symbol isEnd with isEmpty | childCanonical
    · exact (nonempty isEmpty).elim
    · exact .inl ⟨isEnd, childCanonical⟩

theorem SlotsFit.update (fit : SlotsFit terminator children)
    (childFits : child ≠ .empty → Fits terminator symbol child) :
    SlotsFit terminator (Function.update children symbol child) := by
  intro other nonempty
  by_cases same : other = symbol
  · subst same
    rw [Function.update_self] at nonempty ⊢
    exact childFits nonempty
  · rw [Function.update_of_ne same] at nonempty ⊢
    exact fit other nonempty

theorem canonical_fork (different : left ≠ right) {leftChild rightChild : Patricia ι V}
    (leftFits : Fits terminator left leftChild) (rightFits : Fits terminator right rightChild) :
    Canonical terminator (fork left right leftChild rightChild) := by
  have none : SlotsFit terminator fun _ => (.empty : Patricia ι V) :=
    fun _ nonempty => absurd rfl nonempty
  apply ((none.update fun _ => leftFits).update fun _ => rightFits).canonical_full different
  · rw [Function.update_of_ne different, Function.update_self]
    exact leftFits.ne_empty
  · rw [Function.update_self]
    exact rightFits.ne_empty

omit [DecidableEq ι] in
theorem canonical_joinShort_full {path : List ι} {children : ι → Patricia ι V}
    (interior : terminator ∉ path) (canonical : Canonical terminator (.full children)) :
    Canonical terminator (joinShort path (.full children)) := by
  unfold joinShort
  split
  · exact canonical
  · rename_i nonempty
    exact canonical.extend nonempty interior

theorem Canonical.update (canonical : Canonical terminator (.full children))
    (fits : Fits terminator symbol child) :
    Canonical terminator (.full (Function.update children symbol child)) := by
  have used : ∀ other, children other ≠ .empty →
      Function.update children symbol child other ≠ .empty := by
    intro other nonempty
    by_cases same : other = symbol
    · subst same
      rw [Function.update_self]
      exact fits.ne_empty
    · rwa [Function.update_of_ne same]
  obtain ⟨left, right, different, leftNonempty, rightNonempty⟩ := canonical.2.2
  exact (canonical.slotsFit.update fun _ => fits).canonical_full different (used left leftNonempty)
    (used right rightNonempty)

private theorem isFull_insert (isFull : tree.IsFull) (nonempty : key ≠ []) (content : V) :
    (tree.insert key content).IsFull := by
  cases tree with
  | full children =>
      cases key with
      | nil => exact (nonempty rfl).elim
      | cons symbol rest => trivial
  | _ => exact isFull.elim

theorem canonical_insert (rooted : Rooted terminator tree) (terminated : Terminated terminator key)
    (content : V) : Canonical terminator (tree.insert key content) := by
  induction tree generalizing key with
  | empty =>
      rw [insert, joinShort, if_neg terminated.ne_nil]
      exact canonical_leaf terminated content
  | value old => exact (rooted.resolve_left (by simp)).elim
  | short path child induction =>
      rcases rooted with isEmpty | canonical
      · cases isEmpty
      rcases splitCommon_cases path key with
        ⟨rest, rfl, split⟩ | ⟨symbol, rest, rfl, split⟩ |
          ⟨common, left, right, pathRest, keyRest, different, rfl, rfl, split⟩
      · simp only [insert, split]
        rcases canonical with ⟨pathTerminated, old, rfl⟩ |
          ⟨nonempty, interior, isFull, childCanonical⟩
        · have noRest := pathTerminated.append_eq_nil terminated
          subst noRest
          rw [joinShort, if_neg pathTerminated.ne_nil]
          exact canonical_leaf pathTerminated content
        · rw [terminated_append_iff interior] at terminated
          rw [joinShort, if_neg nonempty]
          exact .inr ⟨nonempty, interior, isFull_insert isFull terminated.ne_nil content,
            induction childCanonical.rooted terminated⟩
      · exact (canonical.not_past terminated).elim
      · simp only [insert, split]
        have interior := terminated.not_mem_of_append (by simp)
        exact canonical_joinShort_full interior (canonical_fork different
          (canonical.fits_lower interior)
          (fits_leaf ((terminated_append_iff interior).mp terminated) content))
  | full children induction =>
      rcases rooted with isEmpty | canonical
      · cases isEmpty
      cases key with
      | nil => exact terminated.elim
      | cons symbol rest =>
          apply canonical.update
          rcases terminated with ⟨isEnd, rfl⟩ | ⟨notEnd, terminated⟩
          · refine .inr ⟨isEnd, content, ?_⟩
            rcases canonical.2.1 with isEmpty | ⟨old, isValue⟩
            · subst isEnd
              simp [isEmpty, insert, joinShort]
            · subst isEnd
              simp [isValue, insert, joinShort]
          · exact .inl ⟨notEnd, induction symbol (canonical.1 symbol notEnd) terminated⟩

end Patricia

end Radix
