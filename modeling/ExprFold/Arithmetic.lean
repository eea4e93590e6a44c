import ExprFold.Error
import ExprFold.NumberText

/-!
# What operators and literals are worth

The one place that decides the value of an operator over two numbers and of a literal. Evaluation,
folding and evaluation under bindings all go through it, so they cannot disagree.
-/

namespace ExprFold

/-- The value of an operator. Dividing by zero of either sign is refused; all else follows the
arithmetic of doubles, infinities and NaN included. -/
def Op.apply : Op → Float → Float → Except Error Float
  | add, x, y => .ok (x + y)
  | sub, x, y => .ok (x - y)
  | mul, x, y => .ok (x * y)
  | div, x, y => if y == 0 then .error .divisionByZero else .ok (x / y)

/-- The value of an integer literal: a 64-bit signed integer, rounded to a double. -/
def integerValue (literal : String) : Except Error Float :=
  match NumberText.integer? literal with
  | some n => .ok (Float.ofInt n)
  | none => .error (.invalidInteger literal)

/-- The value of a decimal literal. What is infinite or no number at all is not a literal, however
it is written. -/
def decimalValue (literal : String) : Except Error Float :=
  match NumberText.float? literal with
  | some x => if x.isFinite then .ok x else .error (.invalidDecimal literal)
  | none => .error (.invalidDecimal literal)

/-- A leaf has no children. -/
def rejectChildren {α : Type} (kind : Kind) (left right : Option α) : Except Error Unit :=
  if left.isNone && right.isNone then .ok () else .error (.invalidNode (.leafWithChildren kind))

theorem rejectChildren_eq_ok_iff {α : Type} {kind : Kind} {left right : Option α} :
    rejectChildren kind left right = .ok () ↔ left = none ∧ right = none := by
  cases left <;> cases right <;> simp [rejectChildren]

end ExprFold
