import Mathlib

/-!
# Forests of parent pointers

Nodes are numbers and each node may name a parent.  When every parent is smaller
than its node, the walk from a node through its parents ends at a root.
-/

namespace ParentForest

/-- The nodes from a root up to `node`. -/
def pathTo (parent : Nat → Option Nat) : Nat → Nat → Option (List Nat)
  | 0, _ => none
  | fuel + 1, node =>
      match parent node with
      | none => some [node]
      | some up => do
          let path ← pathTo parent fuel up
          return path ++ [node]

/-- A path from a root: each node is the parent of the next one. -/
structure IsPath (parent : Nat → Option Nat) (node : Nat) (path : List Nat) : Prop where
  last : path.getLast? = some node
  root : ∃ root, path.head? = some root ∧ parent root = none
  linked : path.IsChain fun up down => parent down = some up

variable {parent : Nat → Option Nat} {fuel node up : Nat} {path : List Nat}

theorem IsPath.root_single (isRoot : parent node = none) : IsPath parent node [node] :=
  ⟨rfl, ⟨node, rfl, isRoot⟩, .singleton node⟩

theorem IsPath.snoc (isPath : IsPath parent up path) (isParent : parent node = some up) :
    IsPath parent node (path ++ [node]) := by
  obtain ⟨last, ⟨root, headEq, isRoot⟩, linked⟩ := isPath
  refine ⟨by simp, ⟨root, by simp [headEq], isRoot⟩, ?_⟩
  refine linked.append (.singleton node) ?_
  intro final finalMember next nextMember
  obtain rfl : up = final := Option.some.inj (last.symm.trans finalMember)
  obtain rfl : node = next := Option.some.inj nextMember
  exact isParent

theorem isPath_of_pathTo (walked : pathTo parent fuel node = some path) :
    IsPath parent node path := by
  induction fuel generalizing node path with
  | zero => cases walked
  | succ fuel induction =>
      rw [pathTo] at walked
      split at walked
      · rename_i isRoot
        cases walked
        exact .root_single isRoot
      · rename_i up isParent
        obtain ⟨before, walkedUp, eq⟩ := Option.bind_eq_some_iff.mp walked
        cases eq
        exact (induction walkedUp).snoc isParent

/-- A path is a root, or it leads on from the parent of its last node. -/
theorem IsPath.cases_parent (isPath : IsPath parent node path) :
    path = [node] ∧ parent node = none ∨
      ∃ up before, path = before ++ [node] ∧ parent node = some up ∧ IsPath parent up before := by
  obtain ⟨last, ⟨root, headEq, isRoot⟩, linked⟩ := isPath
  rcases List.eq_nil_or_concat path with rfl | ⟨before, final, rfl⟩
  · exact absurd last (by simp)
  · rw [List.concat_eq_append] at *
    obtain rfl : final = node := by simpa using last
    cases upEq : before.getLast? with
    | none =>
        obtain rfl := List.getLast?_eq_none_iff.mp upEq
        obtain rfl : final = root := by simpa using headEq
        exact .inl ⟨rfl, isRoot⟩
    | some up =>
        have nonempty : before ≠ [] := fun empty => absurd (empty ▸ upEq) (by simp)
        have isParent := (List.isChain_append.mp linked).2.2 up upEq final rfl
        rw [List.head?_append_of_ne_nil _ nonempty] at headEq
        exact .inr ⟨up, before, rfl, isParent, upEq, ⟨root, headEq, isRoot⟩,
          (List.isChain_append.mp linked).1⟩

/-- A path from a root goes on through nodes that follow each other. -/
theorem IsPath.append {chain : List Nat} {last : Nat} (isPath : IsPath parent up path)
    (first : ∀ next ∈ chain.head?, parent next = some up)
    (linked : chain.IsChain fun up down => parent down = some up)
    (lastEq : chain.getLast? = some last) : IsPath parent last (path ++ chain) := by
  obtain ⟨upEq, ⟨root, headEq, isRoot⟩, pathLinked⟩ := isPath
  refine ⟨by simp [lastEq], ⟨root, by simp [headEq], isRoot⟩, ?_⟩
  refine pathLinked.append linked ?_
  intro final finalMember next nextMember
  obtain rfl : up = final := Option.some.inj (upEq.symm.trans finalMember)
  exact first next nextMember

theorem IsPath.congr {other : Nat → Option Nat} (isPath : IsPath parent node path)
    (same : ∀ member ∈ path, other member = parent member) : IsPath other node path := by
  obtain ⟨last, ⟨root, headEq, isRoot⟩, linked⟩ := isPath
  refine ⟨last, ⟨root, headEq, (same root (List.mem_of_mem_head? headEq)).trans isRoot⟩, ?_⟩
  refine linked.imp_of_mem_imp ?_
  intro up down _ member isParent
  exact (same down member).trans isParent

theorem IsPath.unique {again : List Nat} (isPath : IsPath parent node path)
    (isPathAgain : IsPath parent node again) : path = again := by
  induction path using List.reverseRecOn generalizing node again with
  | nil => exact absurd isPath.last (by simp)
  | append_singleton before last induction =>
      rcases isPath.cases_parent with ⟨pathEq, isRoot⟩ | ⟨up, init, pathEq, isParent, upPath⟩
      · rcases isPathAgain.cases_parent with ⟨rfl, -⟩ | ⟨_, _, -, isParent, -⟩
        · exact pathEq
        · exact absurd (isRoot.symm.trans isParent) (by simp)
      · rcases isPathAgain.cases_parent with ⟨-, isRoot⟩ | ⟨other, otherInit, rfl, otherParent,
          otherPath⟩
        · exact absurd (isRoot.symm.trans isParent) (by simp)
        · obtain rfl : other = up := Option.some.inj (otherParent.symm.trans isParent)
          obtain ⟨rfl, -⟩ := List.append_inj' pathEq rfl
          rw [pathEq, induction upPath otherPath]

/-- The nodes of a path that starts below `bound` where all parents are smaller. -/
theorem IsPath.le_of_mem {bound : Nat}
    (smaller : ∀ {node up}, node < bound → parent node = some up → up < node)
    (isPath : IsPath parent node path) (below : node < bound) :
    ∀ other ∈ path, other ≤ node := by
  induction path using List.reverseRecOn generalizing node with
  | nil => exact fun _ member => absurd member List.not_mem_nil
  | append_singleton before last induction =>
      rcases isPath.cases_parent with ⟨pathEq, -⟩ | ⟨up, init, pathEq, isParent, upPath⟩
      · intro other member
        rw [pathEq] at member
        exact (List.mem_singleton.mp member).le
      · obtain ⟨rfl, lastEq⟩ := List.append_inj' pathEq rfl
        have upBelow := smaller below isParent
        intro other member
        rcases List.mem_append.mp member with member | member
        · exact (induction upPath (upBelow.trans below) other member).trans upBelow.le
        · rw [lastEq] at member
          exact (List.mem_singleton.mp member).le

/-- With smaller parents the walk needs no more steps than the number of the node. -/
theorem exists_pathTo {bound : Nat}
    (smaller : ∀ {node up}, node < bound → parent node = some up → up < node)
    (below : node < bound) (enough : node < fuel) :
    ∃ path, pathTo parent fuel node = some path := by
  induction fuel generalizing node with
  | zero => exact absurd enough (Nat.not_lt_zero _)
  | succ fuel induction =>
      rw [pathTo]
      cases isParent : parent node with
      | none => exact ⟨[node], rfl⟩
      | some up =>
          have upBelow := smaller below isParent
          obtain ⟨path, walked⟩ := induction (upBelow.trans below) (by omega)
          exact ⟨path ++ [node], by simp [walked]⟩

end ParentForest
