import Thelonious.Lib.RadixLaws

/-!
# Deletion and contents of radix trees

Deletion removes one key and keeps trees canonical.  A canonical tree is the
only one with its contents, so trees reached by different insertions and
deletions are equal as soon as they store the same map.
-/

namespace Radix

namespace Patricia

universe u v

variable {ι : Type u} {V : Type v} {terminator : ι}

/-! ### Collapsing a branching -/

section Collapse

variable {children : ι → Patricia ι V} {symbol : ι}

theorem collapse_eq_merge (sole : ∀ other, children other ≠ .empty ↔ other = symbol) :
    collapse children = merge [symbol] (children symbol) := by
  have found : ∃ symbol, ∀ other, children other ≠ .empty ↔ other = symbol :=
    ⟨symbol, sole⟩
  have chosen : found.choose = symbol :=
    (sole _).mp ((found.choose_spec _).mpr rfl)
  rw [collapse, dif_pos found, chosen]

theorem collapse_eq_full {left right : ι} (different : left ≠ right)
    (leftNonempty : children left ≠ .empty) (rightNonempty : children right ≠ .empty) :
    collapse children = .full children := by
  rw [collapse, dif_neg]
  rintro ⟨symbol, sole⟩
  exact different (((sole left).mp leftNonempty).trans ((sole right).mp rightNonempty).symm)

/-- A branching with at least one edge either keeps two or has a sole one. -/
theorem collapse_cases (nonempty : children symbol ≠ .empty) :
    (∃ other, other ≠ symbol ∧ children other ≠ .empty ∧
      collapse children = .full children) ∨
    ((∀ other, children other ≠ .empty ↔ other = symbol) ∧
      collapse children = merge [symbol] (children symbol)) := by
  by_cases more : ∃ other, other ≠ symbol ∧ children other ≠ .empty
  · obtain ⟨other, different, otherNonempty⟩ := more
    exact .inl ⟨other, different, otherNonempty,
      collapse_eq_full different otherNonempty nonempty⟩
  · have sole : ∀ other, children other ≠ .empty ↔ other = symbol := by
      intro other
      constructor
      · intro otherNonempty
        by_contra different
        exact more ⟨other, different, otherNonempty⟩
      · rintro rfl
        exact nonempty
    exact .inr ⟨sole, collapse_eq_merge sole⟩

theorem get_collapse [DecidableEq ι] (nonempty : children symbol ≠ .empty) {key : List ι}
    (keyNonempty : key ≠ []) : (collapse children).get key = (full children).get key := by
  rcases collapse_cases nonempty with ⟨_, _, _, keeps⟩ | ⟨sole, becomes⟩
  · rw [keeps]
  · rw [becomes, get_merge]
    cases key with
    | nil => exact (keyNonempty rfl).elim
    | cons head rest =>
        by_cases same : symbol = head
        · subst same
          exact get_short_append [symbol] rest (children symbol)
        · have absent : children head = .empty := by
            by_contra present
            exact same ((sole head).mp present).symm
          have misses : ¬ [symbol] <+: head :: rest := by
            simp [same]
          rw [get_short_of_not_starts _ misses]
          simp [get, absent]

theorem Canonical.merge {path : List ι} {tree : Patricia ι V} (interior : terminator ∉ path)
    (nonempty : path ≠ []) (canonical : Canonical terminator tree) :
    Canonical terminator (merge path tree) := by
  cases tree with
  | empty => exact canonical.elim
  | value content => exact canonical.elim
  | short lower child =>
      rcases canonical with ⟨terminated, isValue⟩ | ⟨_, noEnd, isFull, canonical⟩
      · exact .inl ⟨.append interior terminated, isValue⟩
      · refine .inr ⟨by simp [nonempty], ?_, isFull, canonical⟩
        simp only [List.mem_append, not_or]
        exact ⟨interior, noEnd⟩
  | full children => exact canonical.extend nonempty interior

theorem Fits.canonical_merge {child : Patricia ι V} (fits : Fits terminator symbol child) :
    Canonical terminator (Patricia.merge [symbol] child) := by
  rcases fits with ⟨notEnd, canonical⟩ | ⟨rfl, content, rfl⟩
  · exact canonical.merge (by simpa using Ne.symm notEnd) (by simp)
  · exact canonical_leaf (terminated_singleton _) content

theorem SlotsFit.canonical_collapse (fit : SlotsFit terminator children)
    (nonempty : children symbol ≠ .empty) : Canonical terminator (collapse children) := by
  rcases collapse_cases nonempty with ⟨other, different, otherNonempty, keeps⟩ |
    ⟨_, becomes⟩
  · rw [keeps]
    exact fit.canonical_full different otherNonempty nonempty
  · rw [becomes]
    exact (fit symbol nonempty).canonical_merge

end Collapse

/-! ### Deletion -/

section Delete

variable [DecidableEq ι] {children : ι → Patricia ι V}

/-- After a deletion some slot of a branching is still in use. -/
theorem Canonical.exists_other (canonical : Canonical terminator (.full children)) (symbol : ι)
    (child : Patricia ι V) :
    ∃ other, other ≠ symbol ∧
      Function.update children symbol child other ≠ .empty := by
  obtain ⟨_, _, left, right, different, leftNonempty, rightNonempty⟩ := canonical
  by_cases same : left = symbol
  · subst same
    exact ⟨right, Ne.symm different, by rwa [Function.update_of_ne (Ne.symm different)]⟩
  · exact ⟨left, same, by rwa [Function.update_of_ne same]⟩

/-- Emptying or shrinking one slot leaves a branching with its other edges. -/
private theorem Canonical.delete_slot (canonical : Canonical terminator (.full children))
    {symbol : ι} {child : Patricia ι V}
    (childFits : child ≠ .empty → Fits terminator symbol child) :
    Canonical terminator (collapse (Function.update children symbol child)) := by
  obtain ⟨other, _, nonempty⟩ := canonical.exists_other symbol child
  exact (canonical.slotsFit.update childFits).canonical_collapse nonempty

theorem rooted_delete {tree : Patricia ι V} (rooted : Rooted terminator tree)
    {key : List ι} (terminated : Terminated terminator key) :
    Rooted terminator (tree.delete key) ∧
      (tree.IsFull → Canonical terminator (tree.delete key)) := by
  induction tree generalizing key with
  | empty => exact ⟨.empty, fun isFull => isFull.elim⟩
  | value content => exact (rooted.resolve_left (by simp)).elim
  | short path child induction =>
      rcases rooted with isEmpty | canonical
      · cases isEmpty
      refine ⟨?_, fun isFull => isFull.elim⟩
      simp only [delete]
      split
      · exact .empty
      · split
        · rename_i different starts
          obtain ⟨rest, rfl⟩ := starts
          rcases canonical with ⟨pathTerminated, _⟩ |
            ⟨nonempty, interior, isFull, canonical⟩
          · have noRest := pathTerminated.append_eq_nil terminated
            simp [noRest] at different
          · rw [terminated_append_iff interior] at terminated
            rw [List.drop_left]
            exact (((induction canonical.rooted terminated).2 isFull).merge
              interior nonempty).rooted
        · exact canonical.rooted
  | full children induction =>
      rcases rooted with isEmpty | canonical
      · cases isEmpty
      cases key with
      | nil => exact terminated.elim
      | cons symbol rest =>
          have result : Canonical terminator ((full children).delete (symbol :: rest)) := by
            apply canonical.delete_slot
            intro nonempty
            rcases terminated with ⟨isEnd, rfl⟩ | ⟨notEnd, terminated⟩
            · subst isEnd
              rcases canonical.2.1 with isEmpty | ⟨content, isValue⟩
              · simp [isEmpty, delete] at nonempty
              · simp [isValue, delete] at nonempty
            · rcases (induction symbol (canonical.1 symbol notEnd) terminated).1 with
                isEmpty | childCanonical
              · exact (nonempty isEmpty).elim
              · exact .inl ⟨notEnd, childCanonical⟩
          exact ⟨result.rooted, fun _ => result⟩

theorem get_delete {tree : Patricia ι V} (rooted : Rooted terminator tree)
    {key other : List ι} (keyTerminated : Terminated terminator key)
    (terminated : Terminated terminator other) :
    (tree.delete key).get other = if other = key then none else tree.get other := by
  induction tree generalizing key other with
  | empty => simp [delete, get]
  | value content => exact (rooted.resolve_left (by simp)).elim
  | short path child induction =>
      rcases rooted with isEmpty | canonical
      · cases isEmpty
      simp only [delete]
      split
      · rename_i same
        subst same
        by_cases starts : path <+: other
        · have whole := keyTerminated.eq_of_starts terminated starts
          simp [whole, get]
        · rw [get_short_of_not_starts _ starts]
          simp [get]
      · rename_i different
        split
        · rename_i starts
          obtain ⟨rest, rfl⟩ := starts
          rcases canonical with ⟨pathTerminated, _⟩ |
            ⟨nonempty, interior, isFull, canonical⟩
          · have noRest := pathTerminated.append_eq_nil keyTerminated
            simp [noRest] at different
          · rw [List.drop_left, get_merge]
            by_cases otherStarts : path <+: other
            · obtain ⟨otherRest, rfl⟩ := otherStarts
              rw [terminated_append_iff interior] at keyTerminated terminated
              rw [get_short_append, get_short_append]
              simpa using induction canonical.rooted keyTerminated terminated
            · rw [get_short_of_not_starts _ otherStarts,
                get_short_of_not_starts _ otherStarts]
              simp
        · rename_i misses
          have absent : other = key → (short path child).get other = none := by
            rintro rfl
            exact get_short_of_not_starts _ misses
          split
          · rename_i same
            exact absent same
          · rfl
  | full children induction =>
      rcases rooted with isEmpty | canonical
      · cases isEmpty
      cases key with
      | nil => exact keyTerminated.elim
      | cons symbol rest =>
          obtain ⟨kept, _, nonempty⟩ :=
            canonical.exists_other symbol ((children symbol).delete rest)
          rw [delete, get_collapse nonempty terminated.ne_nil]
          cases other with
          | nil => exact terminated.elim
          | cons otherSymbol otherRest =>
              simp only [get]
              by_cases same : otherSymbol = symbol
              · subst same
                rw [Function.update_self]
                simp only [List.cons.injEq, true_and]
                rcases keyTerminated.cons_cases terminated with
                  ⟨rfl, rfl, rfl⟩ | ⟨notEnd, keyTail, tail⟩
                · rcases canonical.2.1 with isEmpty | ⟨content, isValue⟩
                  · simp [isEmpty, delete, get]
                  · simp [isValue, delete, get]
                · exact induction otherSymbol (canonical.1 otherSymbol notEnd) keyTail tail
              · rw [Function.update_of_ne same]
                simp [same]

end Delete

/-! ### Contents determine the tree -/

section Content

variable [DecidableEq ι] {path other : List ι} {children : ι → Patricia ι V}
  {child tree : Patricia ι V}

theorem Fits.exists_key {symbol : ι} (fits : Fits terminator symbol tree)
    (below : Canonical terminator tree →
      ∃ key content, Terminated terminator key ∧ tree.get key = some content) :
    ∃ rest content, Terminated terminator (symbol :: rest) ∧
      tree.get rest = some content := by
  rcases fits with ⟨notEnd, canonical⟩ | ⟨isEnd, content, rfl⟩
  · obtain ⟨rest, content, terminated, found⟩ := below canonical
    exact ⟨rest, content, .inr ⟨notEnd, terminated⟩, found⟩
  · exact ⟨[], content, .inl ⟨isEnd, rfl⟩, by simp [get]⟩

theorem Canonical.exists_key (canonical : Canonical terminator tree) :
    ∃ key content, Terminated terminator key ∧ tree.get key = some content := by
  induction tree with
  | empty => exact canonical.elim
  | value content => exact canonical.elim
  | short path child induction =>
      rcases canonical with ⟨terminated, content, rfl⟩ | ⟨_, interior, _, canonical⟩
      · exact ⟨path, content, terminated, by simp [get]⟩
      · obtain ⟨key, content, terminated, found⟩ := induction canonical
        exact ⟨path ++ key, content, .append interior terminated,
          by rw [get_short_append, found]⟩
  | full children induction =>
      obtain ⟨left, _, _, leftNonempty, _⟩ := canonical.2.2
      obtain ⟨rest, content, terminated, found⟩ :=
        (canonical.slotsFit left leftNonempty).exists_key (induction left)
      exact ⟨left :: rest, content, terminated, found⟩

/-- A canonical branching stores two keys that differ in their first symbol. -/
theorem Canonical.exists_two_keys (canonical : Canonical terminator (.full children)) :
    ∃ left right leftRest rightRest leftContent rightContent, left ≠ right ∧
      Terminated terminator (left :: leftRest) ∧
      Terminated terminator (right :: rightRest) ∧
      (full children).get (left :: leftRest) = some leftContent ∧
      (full children).get (right :: rightRest) = some rightContent := by
  obtain ⟨left, right, different, leftNonempty, rightNonempty⟩ := canonical.2.2
  obtain ⟨leftRest, leftContent, leftTerminated, leftFound⟩ :=
    (canonical.slotsFit left leftNonempty).exists_key Canonical.exists_key
  obtain ⟨rightRest, rightContent, rightTerminated, rightFound⟩ :=
    (canonical.slotsFit right rightNonempty).exists_key Canonical.exists_key
  exact ⟨left, right, leftRest, rightRest, leftContent, rightContent, different,
    leftTerminated, rightTerminated, leftFound, rightFound⟩

theorem prefix_of_get_short {key : List ι} {content : V}
    (found : (short path child).get key = some content) : path <+: key := by
  by_contra misses
  rw [get_short_of_not_starts _ misses] at found
  cases found

/-- Trees agree when they store the same map. -/
def SameContent (terminator : ι) (left right : Patricia ι V) : Prop :=
  ∀ key, Terminated terminator key → left.get key = right.get key

theorem SameContent.symm {left right : Patricia ι V}
    (same : SameContent terminator left right) : SameContent terminator right left :=
  fun key terminated => (same key terminated).symm

private theorem not_sameContent_empty (canonical : Canonical terminator tree)
    (same : SameContent terminator .empty tree) : False := by
  obtain ⟨key, content, terminated, found⟩ := canonical.exists_key
  have absent := same key terminated
  rw [found] at absent
  cases absent

private theorem not_sameContent_short_full (nonempty : path ≠ [])
    (canonical : Canonical terminator (.full children))
    (same : SameContent terminator (short path child) (full children)) : False := by
  obtain ⟨left, right, leftRest, rightRest, leftContent, rightContent, different,
    leftTerminated, rightTerminated, leftFound, rightFound⟩ := canonical.exists_two_keys
  rw [← same _ leftTerminated] at leftFound
  rw [← same _ rightTerminated] at rightFound
  cases path with
  | nil => exact nonempty rfl
  | cons symbol path =>
      have leftStarts := prefix_of_get_short leftFound
      have rightStarts := prefix_of_get_short rightFound
      simp only [List.cons_prefix_cons] at leftStarts rightStarts
      exact different (leftStarts.1.symm.trans rightStarts.1)

/-- An edge above a branching is as long as its contents allow. -/
private theorem prefix_of_sameContent (interior : terminator ∉ other)
    (canonical : Canonical terminator (.full children))
    (same : SameContent terminator (short path child) (short other (full children))) :
    path <+: other := by
  obtain ⟨left, right, leftRest, rightRest, leftContent, rightContent, different,
    leftTerminated, rightTerminated, leftFound, rightFound⟩ := canonical.exists_two_keys
  have leftStored := same _ (.append interior leftTerminated)
  have rightStored := same _ (.append interior rightTerminated)
  rw [get_short_append, leftFound] at leftStored
  rw [get_short_append, rightFound] at rightStored
  have leftStarts := prefix_of_get_short leftStored
  have rightStarts := prefix_of_get_short rightStored
  -- otherwise the edge would contain the first symbol of both keys
  rcases List.prefix_or_prefix_of_prefix leftStarts (List.prefix_append other _) with
    shorter | longer
  · exact shorter
  · obtain ⟨rest, rfl⟩ := longer
    cases rest with
    | nil => simp
    | cons symbol rest =>
        simp only [List.prefix_append_right_inj, List.cons_prefix_cons]
          at leftStarts rightStarts
        exact (different (leftStarts.1.symm.trans rightStarts.1)).elim

private theorem not_sameContent_leaf_edge {content : V} (terminated : Terminated terminator path)
    (interior : terminator ∉ other) (canonical : Canonical terminator (.full children))
    (same : SameContent terminator (short path (value content)) (short other (full children))) :
    False := by
  have starts := prefix_of_sameContent interior canonical same
  exact interior (starts.subset terminated.mem)

omit [DecidableEq ι] in
theorem Canonical.path_ne_nil {path : List ι} {child : Patricia ι V}
    (canonical : Canonical terminator (short path child)) : path ≠ [] := by
  rcases canonical with ⟨terminated, _⟩ | ⟨nonempty, _⟩
  · exact terminated.ne_nil
  · exact nonempty

private theorem eq_of_sameContent_short {otherChild : Patricia ι V}
    (canonical : Canonical terminator (short path child))
    (otherCanonical : Canonical terminator (short other otherChild))
    (same : SameContent terminator (short path child) (short other otherChild))
    (below : Canonical terminator child → Canonical terminator otherChild →
      SameContent terminator child otherChild → child = otherChild) :
    short path child = short other otherChild := by
  rcases canonical with ⟨terminated, content, rfl⟩ |
    ⟨nonempty, interior, isFull, childCanonical⟩
  · rcases otherCanonical with ⟨otherTerminated, otherContent, rfl⟩ |
      ⟨_, otherInterior, otherFull, otherChildCanonical⟩
    · have stored := same path terminated
      rw [show (short path (value content)).get path = some content by simp [get]]
        at stored
      have whole := otherTerminated.eq_of_starts terminated
        (prefix_of_get_short stored.symm)
      subst whole
      simpa [get] using stored
    · cases otherChild with
      | full children =>
          exact (not_sameContent_leaf_edge terminated otherInterior otherChildCanonical
            same).elim
      | _ => exact otherFull.elim
  · cases child with
    | full children =>
        rcases otherCanonical with ⟨otherTerminated, otherContent, rfl⟩ |
          ⟨_, otherInterior, otherFull, otherChildCanonical⟩
        · exact (not_sameContent_leaf_edge otherTerminated interior childCanonical
            same.symm).elim
        · cases otherChild with
          | full otherChildren =>
              have forward := prefix_of_sameContent otherInterior otherChildCanonical same
              have backward := prefix_of_sameContent interior childCanonical same.symm
              have pathEq : path = other :=
                forward.eq_of_length (Nat.le_antisymm forward.length_le backward.length_le)
              subst pathEq
              rw [below childCanonical otherChildCanonical]
              intro key terminated
              have stored := same (path ++ key) (.append interior terminated)
              rwa [get_short_append, get_short_append] at stored
          | _ => exact otherFull.elim
    | _ => exact isFull.elim

/-- A canonical tree is the only one with its contents. -/
theorem Rooted.eq_of_sameContent {left right : Patricia ι V}
    (leftRooted : Rooted terminator left) (rightRooted : Rooted terminator right)
    (same : SameContent terminator left right) : left = right := by
  induction left generalizing right with
  | empty =>
      rcases rightRooted with rfl | canonical
      · rfl
      · exact (not_sameContent_empty canonical same).elim
  | value content => exact (leftRooted.resolve_left (by simp)).elim
  | short path child induction =>
      rcases leftRooted with isEmpty | canonical
      · cases isEmpty
      rcases rightRooted with rfl | rightCanonical
      · exact (not_sameContent_empty canonical same.symm).elim
      cases right with
      | short other otherChild =>
          exact eq_of_sameContent_short canonical rightCanonical same
            (fun childCanonical otherCanonical childSame =>
              induction childCanonical.rooted otherCanonical.rooted childSame)
      | full children =>
          exact (not_sameContent_short_full canonical.path_ne_nil rightCanonical
            same).elim
      | _ => exact rightCanonical.elim
  | full children induction =>
      rcases leftRooted with isEmpty | canonical
      · cases isEmpty
      rcases rightRooted with rfl | rightCanonical
      · exact (not_sameContent_empty canonical same.symm).elim
      cases right with
      | short other otherChild =>
          exact (not_sameContent_short_full rightCanonical.path_ne_nil canonical
            same.symm).elim
      | full otherChildren =>
          congr 1
          funext symbol
          by_cases isEnd : symbol = terminator
          · subst isEnd
            have stored := same [symbol] (terminated_singleton symbol)
            simp only [get] at stored
            rcases canonical.2.1 with isEmpty | ⟨content, isValue⟩ <;>
              rcases rightCanonical.2.1 with otherEmpty | ⟨otherContent, otherValue⟩ <;>
              simp_all [get]
          · apply induction symbol (canonical.1 symbol isEnd)
              (rightCanonical.1 symbol isEnd)
            intro key terminated
            exact same (symbol :: key) (.inr ⟨isEnd, terminated⟩)
      | _ => exact rightCanonical.elim

end Content

end Patricia

end Radix
