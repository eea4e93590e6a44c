import ExprFold.Decimal.Basic

/-!
# Written numbers

The notation for unsigned numbers: digits, a point with more digits, and an exponent, each of them
optional. `Numeral.scan` takes the longest such prefix of a text, complete or not, so a number that
lacks its exponent digits is still one number (`scan_append`: nothing is lost); `Numeral.isComplete`
says which of them have a value.
-/

namespace ExprFold

/-- The exponent of a number as it was written. -/
structure Numeral.Exponent where
  mark : Char
  sign : Option Char
  digits : List Char
deriving DecidableEq, Repr

/-- An unsigned number as it was written. -/
structure Numeral where
  /-- The digits before the point. -/
  whole : List Char
  /-- The digits after the point, if there is a point. -/
  fraction : Option (List Char)
  exponent : Option Numeral.Exponent
deriving DecidableEq, Repr

namespace Numeral

def Exponent.text (e : Exponent) : List Char := e.mark :: e.sign.toList ++ e.digits

/-- The characters that the number was written with. -/
def text (n : Numeral) : List Char :=
  n.whole ++ n.fraction.elim [] ('.' :: ·) ++ n.exponent.elim [] Exponent.text

/-- A leading `+` or `-`, and what follows it. -/
def scanSign : List Char → Option Char × List Char
  | c :: cs => if c = '+' ∨ c = '-' then (some c, cs) else (none, c :: cs)
  | [] => (none, [])

/-- A point with the digits after it, and what follows them. -/
def scanFraction : List Char → Option (List Char) × List Char
  | c :: cs =>
    if c = '.' then (some (cs.takeWhile Char.isDigit), cs.dropWhile Char.isDigit)
    else (none, c :: cs)
  | [] => (none, [])

/-- An exponent mark with the sign and the digits after it, and what follows them. -/
def scanExponent : List Char → Option Exponent × List Char
  | c :: cs =>
    if c = 'e' ∨ c = 'E' then
      let (sign, cs) := scanSign cs
      (some ⟨c, sign, cs.takeWhile Char.isDigit⟩, cs.dropWhile Char.isDigit)
    else (none, c :: cs)
  | [] => (none, [])

/-- The longest number that a text begins with, possibly of no characters, and what follows it. -/
def scan (cs : List Char) : Numeral × List Char :=
  let (fraction, rest) := scanFraction (cs.dropWhile Char.isDigit)
  let (exponent, rest) := scanExponent rest
  (⟨cs.takeWhile Char.isDigit, fraction, exponent⟩, rest)

/-- Written with digits alone. -/
def isWhole (n : Numeral) : Bool := n.fraction.isNone && n.exponent.isNone

/-- The digits on both sides of the point. -/
def mantissa (n : Numeral) : List Char := n.whole ++ n.fraction.getD []

/-- There is a digit before the exponent, and there is one in it. -/
def isComplete (n : Numeral) : Bool :=
  !n.mantissa.isEmpty && n.exponent.all fun e => !e.digits.isEmpty

def digitValue (c : Char) : Nat := c.toNat - '0'.toNat

/-- The number that decimal digits stand for. -/
def ofDigits (ds : List Char) : Nat := ds.foldl (fun n c => 10 * n + digitValue c) 0

/-- The number that the digits of an exponent stand for, as far as it matters: past 65536 the
remaining digits no longer count. -/
def Exponent.magnitude (e : Exponent) : Nat :=
  e.digits.foldl (fun n c => if n < 65536 then 10 * n + digitValue c else n) 0

def Exponent.value (e : Exponent) : Int :=
  if e.sign = some '-' then -e.magnitude else e.magnitude

/-- The number written. -/
def value (n : Numeral) : Decimal :=
  ⟨false, ofDigits n.mantissa, n.exponent.elim 0 Exponent.value - (n.fraction.getD []).length⟩

/-! ## Nothing is lost -/

theorem scanSign_append (cs : List Char) : (scanSign cs).1.toList ++ (scanSign cs).2 = cs := by
  cases cs with
  | nil => rfl
  | cons c cs => simp only [scanSign]; split <;> rfl

theorem scanFraction_append (cs : List Char) :
    (scanFraction cs).1.elim [] ('.' :: ·) ++ (scanFraction cs).2 = cs := by
  cases cs with
  | nil => rfl
  | cons c cs =>
    simp only [scanFraction]
    split
    · simp_all
    · rfl

theorem scanExponent_append (cs : List Char) :
    (scanExponent cs).1.elim [] Exponent.text ++ (scanExponent cs).2 = cs := by
  cases cs with
  | nil => rfl
  | cons c cs =>
    simp only [scanExponent]
    split
    · simp only [Option.elim, Exponent.text, List.cons_append, List.append_assoc,
        List.takeWhile_append_dropWhile, scanSign_append]
    · rfl

theorem scan_append (cs : List Char) : (scan cs).1.text ++ (scan cs).2 = cs := by
  simp only [scan, text, List.append_assoc, scanExponent_append, scanFraction_append,
    List.takeWhile_append_dropWhile]

theorem length_scan_le (cs : List Char) : (scan cs).2.length ≤ cs.length := by
  have := congrArg List.length (scan_append cs)
  rw [List.length_append] at this
  omega

/-- A number takes at least one character off a text that begins with a digit or a point. -/
theorem length_scan_lt {c : Char} {cs : List Char} (h : c.isDigit = true ∨ c = '.') :
    (scan (c :: cs)).2.length < (c :: cs).length := by
  have key := congrArg List.length (scan_append (c :: cs))
  rw [List.length_append] at key
  suffices 0 < (scan (c :: cs)).1.text.length by omega
  rcases h with h | rfl
  · simp [scan, text, h]
  · simp [scan, text, scanFraction, Char.isDigit]

end Numeral

end ExprFold
