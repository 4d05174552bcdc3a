import Mathlib

/-!
# Ancestries

Every node has one parent, `up node`.  The ancestry of a node lists the nodes above
the root on the way to it.  Not every node has an ancestry, but none has two.
-/

inductive Ancestry {α : Type*} (root : α) (up : α → α) : α → List α → Prop
  | root : Ancestry root up root []
  | child {node : α} {path : List α} : node ≠ root → Ancestry root up (up node) path →
      Ancestry root up node (path ++ [node])

namespace Ancestry

variable {α : Type*} {root node other : α} {up : α → α} {path longer : List α}

theorem cases_parent (ancestry : Ancestry root up node path) :
    node = root ∧ path = [] ∨
      node ≠ root ∧ ∃ before, path = before ++ [node] ∧ Ancestry root up (up node) before := by
  cases ancestry with
  | root => exact .inl ⟨rfl, rfl⟩
  | child different ancestry => exact .inr ⟨different, _, rfl, ancestry⟩

theorem unique (ancestry : Ancestry root up node path) (again : Ancestry root up node longer) :
    path = longer := by
  induction ancestry generalizing longer with
  | root =>
      cases again with
      | root => rfl
      | child different _ => exact absurd rfl different
  | child different _ induction =>
      cases again with
      | root => exact absurd rfl different
      | child _ again => rw [induction again]

theorem ne_root_of_mem (ancestry : Ancestry root up node path) (member : other ∈ path) :
    other ≠ root := by
  induction ancestry with
  | root => exact absurd member List.not_mem_nil
  | child different _ induction =>
      rcases List.mem_append.mp member with member | member
      · exact induction member
      · exact List.mem_singleton.mp member ▸ different

theorem mem_of_ne_root (ancestry : Ancestry root up node path) (different : node ≠ root) :
    node ∈ path := by
  cases ancestry with
  | root => exact absurd rfl different
  | child _ _ => simp

theorem self_mem (ancestry : Ancestry root up node path) : node ∈ root :: path := by
  by_cases isRoot : node = root
  · exact isRoot ▸ List.mem_cons_self
  · exact List.mem_cons_of_mem _ (ancestry.mem_of_ne_root isRoot)

theorem of_mem (ancestry : Ancestry root up node path) (member : other ∈ path) :
    ∃ before later, path = before ++ other :: later ∧
      Ancestry root up other (before ++ [other]) := by
  induction ancestry with
  | root => exact absurd member List.not_mem_nil
  | @child node path different ancestry induction =>
      rcases List.mem_append.mp member with member | member
      · obtain ⟨before, later, rfl, leads⟩ := induction member
        exact ⟨before, later ++ [node], by simp, leads⟩
      · obtain rfl := List.mem_singleton.mp member
        exact ⟨path, [], rfl, .child different ancestry⟩

theorem not_mem_parent (ancestry : Ancestry root up (up node) path) (different : node ≠ root) :
    node ∉ path := by
  intro member
  obtain ⟨before, later, rfl, leads⟩ := ancestry.of_mem member
  have same := leads.unique (.child different ancestry)
  have lengths := congrArg List.length same
  simp at lengths

theorem nodup (ancestry : Ancestry root up node path) : path.Nodup := by
  induction ancestry with
  | root => exact .nil
  | child different ancestry induction =>
      refine induction.append (List.nodup_singleton _) ?_
      intro other member last
      obtain rfl := List.mem_singleton.mp last
      exact ancestry.not_mem_parent different member

theorem not_mem_later {later : List α} (ancestry : Ancestry root up node (path ++ later))
    (member : other ∈ root :: path) : other ∉ later := by
  intro inLater
  rcases List.mem_cons.mp member with rfl | member
  · exact ancestry.ne_root_of_mem (List.mem_append_right _ inLater) rfl
  · exact (List.nodup_append.mp ancestry.nodup).2.2 other member other inLater rfl

/-- Nodes that lead on from one with an ancestry. -/
theorem append {nodes : List α} (ancestry : Ancestry root up node path)
    (leads : (node :: nodes).IsChain fun parent child => up child = parent)
    (different : ∀ other ∈ nodes, other ≠ root) :
    Ancestry root up ((node :: nodes).getLast (List.cons_ne_nil _ _)) (path ++ nodes) := by
  induction nodes generalizing node path with
  | nil => simpa using ancestry
  | cons next nodes induction =>
      obtain ⟨step, leads⟩ := List.isChain_cons_cons.mp leads
      have nextAncestry : Ancestry root up next (path ++ [next]) :=
        .child (different next List.mem_cons_self) (step ▸ ancestry)
      have whole := induction nextAncestry leads fun other member =>
        different other (List.mem_cons_of_mem _ member)
      rw [List.append_assoc, List.singleton_append] at whole
      rw [List.getLast_cons (List.cons_ne_nil _ _)]
      exact whole

end Ancestry
