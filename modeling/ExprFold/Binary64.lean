/-!
# Rounding to a double

Finite doubles are whole multiples of the least positive one, 2⁻¹⁰⁷⁴, called a unit here. The bit
pattern of a magnitude, read as a number, is `k * 2^52 + s` for `s * 2^k` units, where the significand
`s` is below `2^53` and, unless `k` is zero, not below `2^52`. `nearest` goes from a quotient of
naturals to the pattern, `units` from the pattern to the magnitude, both in exact arithmetic.
-/

namespace ExprFold.Binary64

/-- One is `2^1074` units. -/
def unitsPerOne : Nat := Nat.pow 2 1074

/-- The pattern of infinity; the patterns of the finite magnitudes are the numbers below it. -/
def infinityBits : Nat := 2047 * Nat.pow 2 52

/-- The whole number nearest `n / d`, of two equally near ones the even one. -/
def roundHalfEven (n d : Nat) : Nat :=
  let q := n / d
  let r := n % d
  if 2 * r < d then q else if d < 2 * r then q + 1 else q + q % 2

/-- The pattern of the double nearest `n / d`, ties going to the even significand. A quotient that
rounds past the largest finite double gives infinity. -/
def nearest (n d : Nat) : Nat :=
  let scaled := n * unitsPerOne
  let k := (scaled / d).log2 - 52
  min (k * Nat.pow 2 52 + roundHalfEven scaled (d * Nat.pow 2 k)) infinityBits

/-- The significand of a finite pattern. -/
def significand (bits : Nat) : Nat :=
  if bits < Nat.pow 2 52 then bits else Nat.pow 2 52 + bits % Nat.pow 2 52

/-- The power of two that multiplies the significand of a finite pattern, in units. -/
def scale (bits : Nat) : Nat := bits / Nat.pow 2 52 - 1

/-- The magnitude of a finite pattern, counted in units. -/
def units (bits : Nat) : Nat := significand bits * Nat.pow 2 (scale bits)

/-- The pattern of a double's magnitude: its bits without the sign. -/
def magnitudeBits (x : Float) : Nat := x.toBits.toNat % Nat.pow 2 63

/-- The double of a magnitude's pattern. -/
def ofMagnitudeBits (bits : Nat) : Float := Float.ofBits (UInt64.ofNat bits)

def infinity : Float := ofMagnitudeBits infinityBits

def nan : Float := ofMagnitudeBits (infinityBits + Nat.pow 2 51)

/-- The sign bit is set, as it is in minus zero too. -/
def isNegative (x : Float) : Bool := Nat.pow 2 63 ≤ x.toBits.toNat

end ExprFold.Binary64
