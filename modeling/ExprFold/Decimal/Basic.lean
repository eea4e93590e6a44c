import ExprFold.Binary64

/-!
# Exact decimals

A decimal is a sign, a whole number of any size and a power of ten. Reading one as a double rounds
once, to the nearest; every finite double is a decimal without rounding (`Decimal.ofFloat`).
-/

namespace ExprFold

/-- The number `digits * 10 ^ exponent`, with a sign that zero has too. -/
structure Decimal where
  negative : Bool
  digits : Nat
  exponent : Int
deriving DecidableEq, Repr

namespace Decimal

/-- The magnitude as a quotient of naturals, numerator first. -/
def ratio (d : Decimal) : Nat × Nat :=
  match d.exponent with
  | .ofNat e => (d.digits * Nat.pow 10 e, 1)
  | .negSucc e => (d.digits, Nat.pow 10 (e + 1))

/-- The pattern of the double nearest the magnitude. -/
def nearestBits (d : Decimal) : Nat := Binary64.nearest d.ratio.1 d.ratio.2

/-- The double nearest the decimal, infinite where that is out of range. -/
def toFloat (d : Decimal) : Float :=
  let x := Binary64.ofMagnitudeBits d.nearestBits
  if d.negative then -x else x

def ofInt (n : Int) : Decimal := ⟨n < 0, n.natAbs, 0⟩

/-- The decimal that a finite double is. What is not whole has a power of two below its significand,
and `2 ^ (-n)` is `5 ^ n / 10 ^ n`. -/
def ofFloat (x : Float) : Decimal :=
  let bits := Binary64.magnitudeBits x
  let s := Binary64.significand bits
  let k := Binary64.scale bits
  if 1074 ≤ k then ⟨Binary64.isNegative x, s * Nat.pow 2 (k - 1074), 0⟩
  else ⟨Binary64.isNegative x, s * Nat.pow 5 (1074 - k), -((1074 - k : Nat) : Int)⟩

end Decimal

end ExprFold
