import ExprFold.Expr.Evaluation
import ExprFold.Expr.Folding
import ExprFold.Expr.Parser
import ExprFold.Residual.Evaluation

/-!
# The engine

The operations on expressions, all under one limit on their depth.
-/

namespace ExprFold

structure Engine where
  limit : Limit := none
deriving DecidableEq, Repr

namespace Engine

/-- The value of an expression without variables. -/
def evaluate (engine : Engine) (e : Expr) : Except Error Float := e.evaluate engine.limit

/-- What is left of an expression when the parts without variables are worked out. -/
def fold (engine : Engine) (e : Expr) : Traced Error Residual := e.fold engine.limit

/-- The value of a residual expression under bindings. -/
def evaluateBound (engine : Engine) (bindings : Bindings) (t : Residual) : Except Error Float :=
  t.evaluate engine.limit bindings

/-- The value of a text. The empty text is worth zero. -/
def evaluateText (engine : Engine) (s : String) : Traced (List Error) Float :=
  if s.isEmpty then pure 0
  else do
    let e ← Expr.parse engine.limit s
    Traced.emit (.parsed s e.size)
    (engine.evaluate e).mapError ([·])

end Engine

end ExprFold
