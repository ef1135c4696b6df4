/-
# Forests of combiner waves

A bag can be combined in any number of waves: it is cut into parts, each part is
combined to one row, rows are combined to rows again, as deep and as unevenly as
wanted, and the last wave gives the value. Such a schedule is a list of trees with
the parts at their leaves (`CombinerTree`).

A tree comes to the same row as one wave over all its leaves (`run_eq`): the rows
of its children are worth the bags behind them (`Aggregate.reduce_intermediates`),
the nulls of empty parts included. So the value of a forest is that of the bag that
its leaves cut, bit by bit, and it fails exactly if this does, with the same error.

Key definitions: `CombinerTree`, `CombinerTree.run`, `CombinerTree.leaves`.
Key theorems: `CombinerTree.run_eq`, `finalValue_forest`.
-/
import MapReduce.Proofs.AggregateLaws

namespace MapReduce

/-- A schedule of waves: at a leaf a part of the bag is combined, at an inner node
the results of the children. -/
inductive CombinerTree where
  | leaf (part : Bag)
  | node (children : List CombinerTree)

namespace CombinerTree

mutual

/-- The parts at the leaves, from left to right. -/
def leaves : CombinerTree → List Bag
  | .leaf part => [part]
  | .node children => forestLeaves children

/-- The parts at the leaves of several trees, from left to right. -/
def forestLeaves : List CombinerTree → List Bag
  | [] => []
  | t :: ts => t.leaves ++ forestLeaves ts

end

mutual

/-- The row that a tree comes to. -/
def run (f : Aggregate) : CombinerTree → Except ExecError Tuple
  | .leaf part => f.intermediate part
  | .node children => do f.intermediate (← runForest f children)

/-- The rows that several trees come to, in order. -/
def runForest (f : Aggregate) : List CombinerTree → Except ExecError Bag
  | [] => .ok []
  | t :: ts => do return (← t.run f) :: (← runForest f ts)

end

variable {f : Aggregate}

theorem flatten_forestLeaves : ∀ ts : List CombinerTree,
    (forestLeaves ts).flatten = (ts.map (fun t => t.leaves.flatten)).flatten
  | [] => rfl
  | t :: ts => by simp [forestLeaves, flatten_forestLeaves ts]

mutual

/-- **A tree of waves comes to what one wave over its leaves comes to.** -/
theorem run_eq (h : f.Exact) : ∀ t : CombinerTree, t.run f = f.intermediate t.leaves.flatten
  | .leaf part => by simp [run, leaves]
  | .node children => by
    rw [run, runForest_eq h children, leaves, flatten_forestLeaves]
    exact f.intermediate_intermediates h _

/-- The trees of a forest are waves beside each other. -/
theorem runForest_eq (h : f.Exact) : ∀ ts : List CombinerTree,
    runForest f ts = (ts.map (fun t => t.leaves.flatten)).mapM f.intermediate
  | [] => rfl
  | t :: ts => by
    rw [runForest, run_eq h t, runForest_eq h ts, List.map_cons, List.mapM_cons]

end

end CombinerTree

open CombinerTree

/-- **Combiner waves do not change the result.** For the greatest and the least of
any kind of numbers and for sums of integers: the last wave over the rows of a
forest gives what it gives over the bag that the leaves of the forest cut, the same
value or the same error, and null exactly if this bag has no number. -/
theorem finalValue_forest {f : Aggregate} (h : f.Exact) (forest : List CombinerTree) {b : Bag}
    (hb : (forestLeaves forest).flatten = b) :
    (runForest f forest >>= f.finalValue) = f.finalValue b ∧
      ((runForest f forest >>= f.finalValue) = .ok .null ↔ ∀ t ∈ b, t.field 0 = .ok .null) := by
  have heq : (runForest f forest >>= f.finalValue) = f.finalValue b := by
    rw [runForest_eq h, f.finalValue_intermediates h, ← flatten_forestLeaves, hb]
  refine ⟨heq, ?_⟩
  rw [heq]
  exact Aggregate.finalValue_eq_null_iff

/-- Both zeros and a null, cut into uneven trees with empty parts. -/
def zerosForest : List CombinerTree :=
  [.node [.leaf [], .node [.leaf [⟨[.null]⟩, ⟨[.double (Ieee.zero true)]⟩]], .node []],
    .leaf [⟨[.float (Ieee.zero false)]⟩]]

/-- Of the two zeros the first is kept, through all waves. -/
theorem finalValue_forest_zeros :
    let f : Aggregate := ⟨.double, .max⟩
    let b : Bag := [⟨[.null]⟩, ⟨[.double (Ieee.zero true)]⟩, ⟨[.float (Ieee.zero false)]⟩]
    f.Exact ∧ (forestLeaves zerosForest).flatten = b ∧
      (runForest f zerosForest >>= f.finalValue) = f.finalValue b ∧
      f.finalValue b = .ok (.double (Ieee.zero true)) :=
  ⟨by decide, by decide, (finalValue_forest (by decide) zerosForest rfl).1, by decide⟩

end MapReduce
