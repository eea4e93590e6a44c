import ExprFold.Residual.Basic
import Mathlib.Data.Finset.Insert

/-!
# Collecting names

The walk that lists the variables of a residual expression. It carries one set of the names that it
has met through the whole tree, so that each name is taken where it occurs first.
-/

namespace ExprFold.Residual

/-- The names that a walk has met so far. -/
structure Collected where
  /-- In the order in which they were met. -/
  names : List String := []
  met : Finset String := ∅

/-- A node is visited: the name of a variable is taken unless it has been met. -/
def Collected.visit (c : Collected) (label : Label) : Collected :=
  if label.kind = .var ∧ label.name ∉ c.met then
    ⟨c.names ++ [label.name], insert label.name c.met⟩
  else c

/-- Visits all nodes, a node before its left subtree and that before its right. -/
def collect : Residual → Collected → Collected
  | .node label left right, c =>
    let c := c.visit label
    let c := match left with | none => c | some l => collect l c
    match right with | none => c | some r => collect r c

/-- The names of the variables, as the walk takes them. -/
def collectNames (t : Residual) : List String := (collect t {}).names

end ExprFold.Residual
