import ExprFold.Kind
import ExprFold.Tree

/-!
# Expression trees

A node of an expression holds its kind and a literal. The literal matters in leaves only, as the
text of a number or the name of a variable, and is not looked at before the tree is evaluated or
folded; so a tree can hold `12x` as a number.
-/

namespace ExprFold

structure Expr.Label where
  kind : Kind
  literal : String
deriving DecidableEq, Repr

abbrev Expr := Tree Expr.Label

namespace Expr

/-- A node without children. -/
abbrev leaf (kind : Kind) (literal : String) : Expr := Tree.leaf ⟨kind, literal⟩

def integer (literal : String) : Expr := leaf .integer literal

def decimal (literal : String) : Expr := leaf .decimal literal

def var (name : String) : Expr := leaf .var name

/-- A node with two children and an empty literal. Its kind may be any. -/
abbrev binary (kind : Kind) (l r : Expr) : Expr := Tree.branch ⟨kind, ""⟩ l r

def kind (e : Expr) : Kind := e.label.kind

def literal (e : Expr) : String := e.label.literal

end Expr

end ExprFold
