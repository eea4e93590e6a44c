import ExprFold.Arithmetic
import ExprFold.Expr.Basic
import ExprFold.Log
import ExprFold.Residual.Basic

/-!
# Folding

Works out every part of an expression that has no variables. Both operands of an operator are
settled before the operator is, and it is folded exactly when both of them are. Faults are met in the
same order as in evaluation, except that a variable is no fault here.
-/

namespace ExprFold.Expr

/-- An operator over two operands that are settled. -/
def foldOperator (o : Op) (l r : Residual) : Traced Error Residual :=
  if l.label.folded && r.label.folded then do
    let value ← o.apply l.label.value r.label.value
    Traced.emit (.folded o l.label.value r.label.value value)
    return .folded value
  else
    return .operator (.op o) l r

/-- What is left of a subtree whose root is at the given depth. -/
def foldAt (limit : Limit) : Nat → Expr → Traced Error Residual
  | depth, .node ⟨kind, literal⟩ left right => do
    limit.check depth
    match kind with
    | .integer => do
      rejectChildren kind left right
      return .folded (← integerValue literal)
    | .decimal => do
      rejectChildren kind left right
      return .folded (← decimalValue literal)
    | .var => do
      rejectChildren kind left right
      return .var literal
    | .op o =>
      match left, right with
      | none, _ => (throw .missingLeft : Except Error Residual)
      | some _, none => (throw .missingRight : Except Error Residual)
      | some l, some r => do
        let l ← foldAt limit (depth + 1) l
        let r ← foldAt limit (depth + 1) r
        foldOperator o l r

/-- What is left of an expression. Success is reported with the sizes of both trees. -/
def fold (limit : Limit) (e : Expr) : Traced Error Residual := do
  let t ← foldAt limit 1 e
  Traced.emit (.optimized e.size t.size t.isConstant)
  return t

end ExprFold.Expr
