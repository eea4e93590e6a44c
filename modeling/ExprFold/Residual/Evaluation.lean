import ExprFold.Arithmetic
import ExprFold.Residual.Basic

/-!
# Evaluation under bindings

The value of a residual expression once its variables have values. This is the only gate that a tree
from outside passes, so every node is checked for its shape on the way.
-/

namespace ExprFold

/-- The values that variables have. A variable without one is not bound. -/
abbrev Bindings := String → Option Float

/-- Nothing is bound. -/
def Bindings.none : Bindings := fun _ => Option.none

/-- The bindings that a list of names and values stands for, the first of a name counting. -/
def Bindings.ofList (entries : List (String × Float)) : Bindings := fun name => entries.lookup name

namespace Residual

/-- The value of a subtree whose root is at the given depth. -/
def evaluateAt (limit : Limit) (bindings : Bindings) : Nat → Residual → Except Error Float
  | depth, .node ⟨kind, value, name, folded⟩ left right => do
    limit.check depth
    if folded then
      if kind = .decimal && left.isNone && right.isNone then return value
      else .error (.invalidNode (.foldedShape kind))
    else
      match kind with
      | .integer | .decimal => .error (.invalidNode (.unfoldedLiteral kind))
      | .var => do
        rejectChildren kind left right
        match bindings name with
        | some x => return x
        | none => .error (.invalidVariable name)
      | .op o =>
        match left, right with
        | none, _ => .error .missingLeft
        | some _, none => .error .missingRight
        | some l, some r => do
          let x ← evaluateAt limit bindings (depth + 1) l
          let y ← evaluateAt limit bindings (depth + 1) r
          o.apply x y

/-- The value of a residual expression. -/
def evaluate (limit : Limit) (bindings : Bindings) (t : Residual) : Except Error Float :=
  evaluateAt limit bindings 1 t

end Residual

end ExprFold
