import ExprFold.Kind
import ExprFold.Tree

/-!
# Residual expressions

What is left of an expression when every part without variables has been worked out: such a part is
a single leaf that holds its value, and above it stand the operators that wait for a variable. Like
any tree, one that came from outside may have any shape.
-/

namespace ExprFold

structure Residual.Label where
  kind : Kind
  /-- The value of a folded leaf. -/
  value : Float
  /-- The name of a variable. -/
  name : String
  /-- The node stands for a part that has been worked out. -/
  folded : Bool
deriving BEq, Repr

abbrev Residual := Tree Residual.Label

namespace Residual

/-- A part that has been worked out. -/
def folded (value : Float) : Residual := Tree.leaf ⟨.decimal, value, "", true⟩

/-- A variable that waits for its value. -/
def var (name : String) : Residual := Tree.leaf ⟨.var, 0, name, false⟩

/-- A node over two operands. Its kind may be any. -/
def operator (kind : Kind) (l r : Residual) : Residual := Tree.branch ⟨kind, 0, "", false⟩ l r

/-- The whole expression has been worked out. -/
def isConstant (t : Residual) : Bool := t.label.folded

/-- The names of the variables, each once, in the order in which they first occur when a node is
read before its left subtree and that before its right. -/
def variableNames (t : Residual) : List String :=
  ((t.labels.filter (·.kind == .var)).map (·.name)).eraseDups

end Residual

end ExprFold
