import ExprFold.Decimal.Basic

/-!
# The fewest digits that read back

Of the decimals that round to a given double, the one to print: as few digits as will do, and of
those with that many digits the nearest to the double. Two can be equally near; which one is taken
then is the printer's choice, a `Tie`.

Seventeen digits always suffice, so the search ends there; were it to find nothing, the decimal that
the double is exactly would be printed, which reads back as well.
-/

namespace ExprFold

/-- What becomes of a number exactly half way between two neighbours. -/
inductive Tie where
  | toEven
  | up
deriving DecidableEq, Repr

namespace Decimal

/-- How many digits a number has in base ten; zero has one. -/
def digitCount (n : Nat) : Nat := (Nat.toDigits 10 n).length

/-- The neighbours of a magnitude among the multiples of `10 ^ drop`, as multiples, the nearer
first. -/
def neighbours (tie : Tie) (n drop : Nat) : List Nat :=
  let below := n / Nat.pow 10 drop
  let rest := n % Nat.pow 10 drop
  let belowFirst :=
    if 2 * rest = Nat.pow 10 drop then tie == .toEven && below % 2 == 0
    else 2 * rest < Nat.pow 10 drop
  if belowFirst then [below, below + 1] else [below + 1, below]

/-- The decimals on either side of `d` that keep all but its last `drop` digits, the nearer
first. -/
def candidates (tie : Tie) (d : Decimal) (drop : Nat) : List Decimal :=
  (neighbours tie d.digits drop).map fun n => ⟨d.negative, n, d.exponent + drop⟩

/-- The decimal to print a finite double as. -/
def shortest (tie : Tie) (x : Float) : Decimal :=
  let exact := ofFloat x
  let length := digitCount exact.digits
  let found := (List.range 17).findSome? fun i =>
    (candidates tie exact (length - (i + 1))).find? fun d =>
      d.nearestBits == Binary64.magnitudeBits x
  found.getD exact

end Decimal

end ExprFold
