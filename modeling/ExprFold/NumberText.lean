import ExprFold.Numeral

/-!
# Numbers in text

The two readings of a signed number: as a whole number that fits in 64 bits, and as a double. Both
allow a sign of either kind in front and nothing around it. The text language itself writes no sign
into a number, but the literals of a tree may hold any text.
-/

namespace ExprFold.NumberText

/-- The whole number written in a text, when it lies in the range of 64-bit signed integers. -/
def integer? (s : String) : Option Int :=
  let (sign, ds) := Numeral.scanSign s.toList
  if ds.isEmpty || !ds.all Char.isDigit then none
  else
    let magnitude : Int := Numeral.ofDigits ds
    let n := if sign = some '-' then -magnitude else magnitude
    if -Int.pow 2 63 ≤ n ∧ n < Int.pow 2 63 then some n else none

/-- The double that an unsigned text stands for: a complete number, or in any letter case one of the
names of infinity and of NaN. -/
def unsigned? (cs : List Char) : Option Float :=
  let (numeral, rest) := Numeral.scan cs
  if rest.isEmpty && numeral.isComplete then some numeral.value.toFloat
  else
    match String.ofList (cs.map Char.toLower) with
    | "inf" | "infinity" => some Binary64.infinity
    | "nan" => some Binary64.nan
    | _ => none

/-- The double nearest to the number written in a text. -/
def float? (s : String) : Option Float :=
  let (sign, cs) := Numeral.scanSign s.toList
  (unsigned? cs).map fun x => if sign = some '-' then -x else x

end ExprFold.NumberText
