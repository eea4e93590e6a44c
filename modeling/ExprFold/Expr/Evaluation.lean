import ExprFold.Arithmetic
import ExprFold.Expr.Basic

/-!
# Evaluation

The value of an expression without variables. A tree is checked as it is walked, the node before its
left operand and that before its right; the first fault met is the answer.
-/

namespace ExprFold.Expr

/-- The value of a subtree whose root is at the given depth. -/
def evaluateAt (limit : Limit) : Nat → Expr → Except Error Float
  | depth, .node ⟨kind, literal⟩ left right => do
    limit.check depth
    match kind with
    | .integer => do
      rejectChildren kind left right
      integerValue literal
    | .decimal => do
      rejectChildren kind left right
      decimalValue literal
    | .var => .error (.invalidNode (.unbound literal))
    | .op o =>
      match left, right with
      | none, _ => .error .missingLeft
      | some _, none => .error .missingRight
      | some l, some r => do
        let x ← evaluateAt limit (depth + 1) l
        let y ← evaluateAt limit (depth + 1) r
        o.apply x y

/-- The value of an expression. -/
def evaluate (limit : Limit) (e : Expr) : Except Error Float := evaluateAt limit 1 e

end ExprFold.Expr
