import Mathlib

/-!
# Path-compressed radix trees

Finite maps from terminated keys, stored as trees whose edges carry a list of
symbols (`short`) or a single symbol (`full`).  A key ends with the terminator
and does not contain it before, so no key is a proper prefix of another one.

A tree in which no edge could be compressed further is `Canonical`.  Insertion
and deletion keep trees canonical, and a canonical tree is determined by the
map it stores.
-/

namespace Radix

universe u v

inductive Patricia (ι : Type u) (V : Type v) where
  | empty
  | value (content : V)
  | short (path : List ι) (child : Patricia ι V)
  | full (children : ι → Patricia ι V)

/-- Keys end with the terminator, which does not occur before the end. -/
def Terminated {ι : Type u} (terminator : ι) : List ι → Prop
  | [] => False
  | symbol :: rest =>
      (symbol = terminator ∧ rest = []) ∨
        (symbol ≠ terminator ∧ Terminated terminator rest)

section Terminated

variable {ι : Type u} {terminator : ι} {path key rest : List ι}

theorem Terminated.ne_nil (terminated : Terminated terminator key) : key ≠ [] := by
  rintro rfl
  exact terminated

/-- One step along a key, with the fuel for it. -/
theorem Terminated.exists_step (terminated : Terminated terminator key) {fuel : Nat}
    (enough : key.length < fuel) :
    ∃ symbol rest less, key = symbol :: rest ∧ fuel = less + 1 ∧ rest.length < less := by
  obtain ⟨symbol, rest, rfl⟩ := List.exists_cons_of_ne_nil terminated.ne_nil
  rw [List.length_cons] at enough
  exact ⟨symbol, rest, fuel - 1, rfl, by omega, by omega⟩

theorem terminated_singleton (terminator : ι) : Terminated terminator [terminator] :=
  Or.inl ⟨rfl, rfl⟩

/-- Two keys that start with the same symbol end there both, or go on both. -/
theorem Terminated.cons_cases {symbol : ι} {other : List ι}
    (first : Terminated terminator (symbol :: rest))
    (second : Terminated terminator (symbol :: other)) :
    (symbol = terminator ∧ rest = [] ∧ other = []) ∨
      (symbol ≠ terminator ∧ Terminated terminator rest ∧ Terminated terminator other) := by
  rcases first with ⟨isEnd, empty⟩ | ⟨notEnd, tail⟩
  · exact .inl ⟨isEnd, empty, (second.resolve_right fun goes => goes.1 isEnd).2⟩
  · exact .inr ⟨notEnd, tail, (second.resolve_left fun ends => notEnd ends.1).2⟩

theorem Terminated.mem (terminated : Terminated terminator key) : terminator ∈ key := by
  induction key with
  | nil => exact terminated.elim
  | cons symbol rest induction =>
      rcases terminated with ⟨rfl, _⟩ | ⟨_, terminated⟩
      · exact List.mem_cons_self
      · exact List.mem_cons_of_mem _ (induction terminated)

theorem terminated_append_iff (interior : terminator ∉ path) :
    Terminated terminator (path ++ rest) ↔ Terminated terminator rest := by
  induction path with
  | nil => rfl
  | cons symbol path induction =>
      simp only [List.mem_cons, not_or] at interior
      simp only [List.cons_append, Terminated]
      rw [induction interior.2]
      constructor
      · rintro (⟨same, _⟩ | ⟨_, terminated⟩)
        · exact (interior.1 same.symm).elim
        · exact terminated
      · intro terminated
        exact .inr ⟨Ne.symm interior.1, terminated⟩

theorem Terminated.append_eq_nil (terminated : Terminated terminator path)
    (extended : Terminated terminator (path ++ rest)) : rest = [] := by
  induction path with
  | nil => exact terminated.elim
  | cons symbol path induction =>
      simp only [List.cons_append, Terminated] at terminated extended
      rcases terminated with ⟨rfl, rfl⟩ | ⟨different, terminated⟩
      · rcases extended with ⟨_, empty⟩ | ⟨different, _⟩
        · simpa using empty
        · exact (different rfl).elim
      · rcases extended with ⟨same, _⟩ | ⟨_, extended⟩
        · exact (different same).elim
        · exact induction terminated extended

theorem Terminated.eq_of_starts (terminated : Terminated terminator path)
    (whole : Terminated terminator key) (starts : path <+: key) : path = key := by
  obtain ⟨rest, rfl⟩ := starts
  rw [terminated.append_eq_nil whole, List.append_nil]

theorem Terminated.not_mem_of_append (terminated : Terminated terminator (path ++ rest))
    (more : rest ≠ []) : terminator ∉ path := by
  induction path with
  | nil => simp
  | cons symbol path induction =>
      simp only [List.cons_append, Terminated] at terminated
      rcases terminated with ⟨_, empty⟩ | ⟨different, terminated⟩
      · exact (more (List.append_eq_nil_iff.mp empty).2).elim
      · simp only [List.mem_cons, not_or]
        exact ⟨Ne.symm different, induction terminated⟩

theorem Terminated.append (interior : terminator ∉ path) (terminated : Terminated terminator rest) :
    Terminated terminator (path ++ rest) :=
  (terminated_append_iff interior).mpr terminated

theorem Terminated.getLast? (terminated : Terminated terminator key) :
    key.getLast? = some terminator := by
  induction key with
  | nil => exact terminated.elim
  | cons symbol rest induction =>
      rcases terminated with ⟨rfl, rfl⟩ | ⟨_, terminated⟩
      · rfl
      · rw [List.getLast?_cons, induction terminated]
        rfl

end Terminated

namespace Patricia

variable {ι : Type u} {V : Type v} {terminator : ι}

section Definitions

variable [DecidableEq ι]

def get : Patricia ι V → List ι → Option V
  | .empty, _ => none
  | .value content, key => if key = [] then some content else none
  | .short path child, key =>
      if path <+: key then child.get (key.drop path.length) else none
  | .full _, [] => none
  | .full children, symbol :: rest => (children symbol).get rest

/-- An edge labelled `path`, which is no edge at all when `path` is empty. -/
def joinShort (path : List ι) (child : Patricia ι V) : Patricia ι V :=
  if path = [] then child else .short path child

/-- Longest common part of two paths, with what remains of each. -/
def splitCommon : List ι → List ι → List ι × List ι × List ι
  | left :: lefts, right :: rights =>
      if left = right then
        match splitCommon lefts rights with
        | (common, leftRest, rightRest) => (left :: common, leftRest, rightRest)
      else ([], left :: lefts, right :: rights)
  | lefts, rights => ([], lefts, rights)

/-- A branching with two edges. -/
def fork (left right : ι) (leftChild rightChild : Patricia ι V) : Patricia ι V :=
  .full (Function.update (Function.update (fun _ => .empty) left leftChild)
    right rightChild)

def insert : Patricia ι V → List ι → V → Patricia ι V
  | .empty, key, content => joinShort key (.value content)
  | .value _, key, content => joinShort key (.value content)
  | .short path child, key, content =>
      match splitCommon path key with
      | (common, [], keyRest) => joinShort common (child.insert keyRest content)
      | (common, _ :: _, []) => joinShort common (.value content)
      | (common, left :: pathRest, right :: keyRest) =>
          joinShort common
            (fork left right (joinShort pathRest child)
              (joinShort keyRest (.value content)))
  | .full _, [], content => .value content
  | .full children, symbol :: rest, content =>
      .full (Function.update children symbol ((children symbol).insert rest content))

/-- Prepend `path` to the edge a tree starts with. -/
def merge (path : List ι) : Patricia ι V → Patricia ι V
  | .short lower child => .short (path ++ lower) child
  | tree => .short path tree

open Classical in
/-- A branching that is left with one edge becomes that edge. -/
noncomputable def collapse (children : ι → Patricia ι V) : Patricia ι V :=
  if sole : ∃ symbol, ∀ other, children other ≠ .empty ↔ other = symbol then
    merge [sole.choose] (children sole.choose)
  else .full children

noncomputable def delete : Patricia ι V → List ι → Patricia ι V
  | .empty, _ => .empty
  | .value content, key => if key = [] then .empty else .value content
  | .short path child, key =>
      if path = key then .empty
      else if path <+: key then merge path (child.delete (key.drop path.length))
      else .short path child
  | .full _, [] => .empty
  | .full children, symbol :: rest =>
      collapse (Function.update children symbol ((children symbol).delete rest))

end Definitions

/-- The tree is a branching. -/
def IsFull : Patricia ι V → Prop
  | .full _ => True
  | _ => False

/-- Non-empty trees without compressible edges: an edge that ends with the
terminator leads to a value, any other one to a branching, and a branching has
at least two edges. -/
def Canonical (terminator : ι) : Patricia ι V → Prop
  | .empty => False
  | .value _ => False
  | .short path child =>
      (Terminated terminator path ∧ ∃ content, child = .value content) ∨
        (path ≠ [] ∧ terminator ∉ path ∧ child.IsFull ∧ Canonical terminator child)
  | .full children =>
      (∀ symbol, symbol ≠ terminator →
        children symbol = .empty ∨ Canonical terminator (children symbol)) ∧
      (children terminator = .empty ∨ ∃ content, children terminator = .value content) ∧
      ∃ left right, left ≠ right ∧ children left ≠ .empty ∧ children right ≠ .empty

/-- The tree of a possibly empty map. -/
def Rooted (terminator : ι) (tree : Patricia ι V) : Prop :=
  tree = .empty ∨ Canonical terminator tree

theorem Rooted.empty : Rooted terminator (.empty : Patricia ι V) := .inl rfl

theorem Canonical.rooted {tree : Patricia ι V} (canonical : Canonical terminator tree) :
    Rooted terminator tree := .inr canonical

theorem Canonical.ne_empty {tree : Patricia ι V} (canonical : Canonical terminator tree) :
    tree ≠ .empty := by
  rintro rfl
  exact canonical

theorem canonical_leaf {path : List ι} (terminated : Terminated terminator path)
    (content : V) : Canonical terminator (.short path (.value content)) :=
  .inl ⟨terminated, content, rfl⟩

theorem Canonical.extend {path : List ι} {children : ι → Patricia ι V}
    (nonempty : path ≠ []) (interior : terminator ∉ path)
    (canonical : Canonical terminator (.full children)) :
    Canonical terminator (.short path (.full children)) :=
  .inr ⟨nonempty, interior, trivial, canonical⟩

end Patricia

end Radix
