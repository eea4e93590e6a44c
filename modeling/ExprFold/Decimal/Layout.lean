import ExprFold.Decimal.Shortest

/-!
# Doubles as text

Where the digits of a double stand relative to the point. A `FloatFormat` is the whole of what two
ways of printing can differ in: the tie, the point after a whole number, and the range that is
written without an exponent.
-/

namespace ExprFold

/-- A way to print doubles. -/
structure FloatFormat where
  /-- Which of two equally near decimals is printed. -/
  tie : Tie
  /-- Whole numbers end in a point and a zero. -/
  wholePoint : Bool
  /-- The positions of the point, counted from the first digit, that are written out. Outside of
  these there is an exponent; without bounds there never is. -/
  positional : Option (Int × Int)

namespace FloatFormat

/-- The digits of `0.ds * 10 ^ point` with the point and the zeros they need. -/
def writeOut (f : FloatFormat) (ds : List Char) (point : Int) : List Char :=
  if point ≤ 0 then
    '0' :: '.' :: List.replicate (-point).toNat '0' ++ ds
  else
    let n := point.toNat
    if ds.length ≤ n then
      ds ++ List.replicate (n - ds.length) '0' ++ if f.wholePoint then ['.', '0'] else []
    else
      ds.take n ++ '.' :: ds.drop n

/-- The digits of `0.ds * 10 ^ point` with the point after the first of them. -/
def writeExponent (ds : List Char) (point : Int) : List Char :=
  let mantissa := match ds with
    | d :: rest@(_ :: _) => d :: '.' :: rest
    | ds => ds
  mantissa ++ 'e' :: (toString (point - 1)).toList

/-- The magnitude of a decimal. Zeros at the end of its digits are not printed. -/
def writeDecimal (f : FloatFormat) (d : Decimal) : List Char :=
  if d.digits = 0 then
    f.writeOut ['0'] 1
  else
    let all := Nat.toDigits 10 d.digits
    let ds := (all.reverse.dropWhile (· == '0')).reverse
    let point := all.length + d.exponent
    let isPositional := match f.positional with
      | none => true
      | some (least, greatest) => least ≤ point && point ≤ greatest
    if isPositional then f.writeOut ds point else writeExponent ds point

/-- The text of a double. The sign of zero is kept, and a NaN has none. -/
def write (f : FloatFormat) (x : Float) : String :=
  if x.isNaN then "NaN"
  else
    let magnitude :=
      if x.isFinite then f.writeDecimal (Decimal.shortest f.tie x) else ['i', 'n', 'f']
    String.ofList (if Binary64.isNegative x then '-' :: magnitude else magnitude)

end FloatFormat

end ExprFold
