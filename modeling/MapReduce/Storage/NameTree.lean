/-
# Values by lists of names

A tree that keeps at most one value for each list of names. A look-up takes one
step for each name, however long the lists of the other values are.

Key definitions: `NameTree`, `NameTree.find?`, `NameTree.set`.
Key theorems: `NameTree.find?_set_self`, `NameTree.find?_set_of_ne`.
-/
namespace MapReduce

/-- The value of the empty list, and a tree for each first name. -/
inductive NameTree (α : Type) where
  | node (value : Option α) (branches : List (String × NameTree α))

namespace NameTree

variable {α : Type}

/-- No values. -/
def empty : NameTree α := .node none []

instance : Inhabited (NameTree α) := ⟨empty⟩

/-- The tree of a first name. -/
def branch : NameTree α → String → NameTree α
  | .node _ branches, name => (branches.lookup name).getD empty

/-- Replaces the tree of a first name. -/
def setBranch : NameTree α → String → NameTree α → NameTree α
  | .node v branches, name, b => .node v ((name, b) :: branches.filter (fun p => p.1 != name))

/-- The value of a list of names. -/
def find? : NameTree α → List String → Option α
  | .node v _, [] => v
  | t, name :: names => (t.branch name).find? names

/-- Replaces the value of a list of names. -/
def set : NameTree α → List String → Option α → NameTree α
  | .node _ branches, [], v => .node v branches
  | t, name :: names, v => t.setBranch name ((t.branch name).set names v)

theorem lookup_filter_of_ne {name other : String} (h : other ≠ name) :
    ∀ l : List (String × NameTree α),
      (l.filter (fun p => p.1 != name)).lookup other = l.lookup other
  | [] => rfl
  | (k, b) :: l => by
    have ih := lookup_filter_of_ne h l
    by_cases hk : k = name
    · simp [hk, List.lookup_cons, ih, beq_eq_false_iff_ne.mpr h]
    · simp [hk, List.lookup_cons, ih]

@[simp] theorem branch_setBranch_self (name : String) (b t : NameTree α) :
    (t.setBranch name b).branch name = b := by
  cases t
  simp [setBranch, branch]

theorem branch_setBranch_of_ne {name other : String} (h : other ≠ name) (b t : NameTree α) :
    (t.setBranch name b).branch other = t.branch other := by
  cases t
  simp [setBranch, branch, List.lookup_cons, beq_eq_false_iff_ne.mpr h, lookup_filter_of_ne h]

@[simp] theorem find?_cons (t : NameTree α) (name : String) (names : List String) :
    t.find? (name :: names) = (t.branch name).find? names := by
  cases t
  rfl

@[simp] theorem set_cons (t : NameTree α) (name : String) (names : List String) (v : Option α) :
    t.set (name :: names) v = t.setBranch name ((t.branch name).set names v) := by
  cases t
  rfl

/-- A value that was set is found. -/
theorem find?_set_self (v : Option α) :
    ∀ (p : List String) (t : NameTree α), (t.set p v).find? p = v
  | [], .node _ _ => rfl
  | name :: names, t => by simp [find?_set_self v names]

/-- Setting a value leaves the others. -/
theorem find?_set_of_ne (v : Option α) :
    ∀ {p q : List String}, q ≠ p → ∀ t : NameTree α, (t.set p v).find? q = t.find? q
  | [], [], h, _ => absurd rfl h
  | [], _ :: _, _, .node _ _ => rfl
  | _ :: _, [], _, .node _ _ => by simp [setBranch, find?]
  | name :: names, other :: others, h, t => by
    by_cases hn : other = name
    · subst hn
      have hne : others ≠ names := fun e => h (by rw [e])
      simp [find?_set_of_ne v hne]
    · simp [branch_setBranch_of_ne hn]

end NameTree

end MapReduce
