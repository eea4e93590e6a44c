import ExprFold.Proofs.Rendering

/-!
# What number literals are worth

The literal of an integer leaf that comes from a text is digits, with or without a minus sign in
front. It stands for a whole number (`Expr.wholeNumber`), and it has a value exactly when 64 bits
hold that number: `Expr.IsNumber.integerValue_eq`.
-/

namespace ExprFold

/-- The whole numbers that a word of 64 bits holds, one of the bits for the sign. -/
def FitsWord (n : Int) : Prop := -9223372036854775808 ≤ n ∧ n ≤ 9223372036854775807

instance (n : Int) : Decidable (FitsWord n) :=
  inferInstanceAs (Decidable (-9223372036854775808 ≤ n ∧ n ≤ 9223372036854775807))

namespace Expr

/-- The whole number that digits stand for, with a minus sign in front or without. -/
def wholeNumber (s : String) : Int :=
  match s.toList with
  | '-' :: ds => -(Nat.ofDigitChars 10 ds 0 : Int)
  | ds => (Nat.ofDigitChars 10 ds 0 : Int)

theorem wholeNumber_minus (s : String) :
    wholeNumber ("-" ++ s) = -(Nat.ofDigitChars 10 s.toList 0 : Int) := by
  simp [wholeNumber]

theorem wholeNumber_of_isDigits {s : String} (h : IsDigits s.toList) :
    wholeNumber s = (Nat.ofDigitChars 10 s.toList 0 : Int) := by
  unfold wholeNumber
  split
  · rename_i ds hs
    have hd := h.2 '-' (by simp [hs])
    exact absurd hd (by decide)
  · rfl

theorem IsUnsigned.scanSign_eq {k : Kind} {cs : List Char} (h : IsUnsigned k cs) :
    Numeral.scanSign cs = (none, cs) := by
  obtain ⟨c, rest, rfl, hc⟩ := h.beginsNumber
  refine @Numeral.scanSign_append_of none _ nofun fun d hd => ?_
  cases hd
  constructor <;> rintro rfl <;> exact absurd hc (by decide)

/-- The range test of the reading, on the number that the digits stand for. -/
theorem integer?_eq_of_scanSign {s : String} {sign : Option Char} {ds : List Char} {n : Int}
    (hs : Numeral.scanSign s.toList = (sign, ds)) (hd : IsDigits ds)
    (hn : (if sign = some '-' then -(Nat.ofDigitChars 10 ds 0 : Int)
      else (Nat.ofDigitChars 10 ds 0 : Int)) = n) :
    NumberText.integer? s = if FitsWord n then some n else none := by
  have hshape : (ds.isEmpty || !ds.all Char.isDigit) = false := by
    simpa [hd.1] using hd.2
  have hrange : (-Int.pow 2 63 ≤ n ∧ n < Int.pow 2 63) ↔ FitsWord n := by
    have hpow : Int.pow 2 63 = 9223372036854775808 := rfl
    rw [hpow, FitsWord]
    omega
  simp only [NumberText.integer?, hs, hshape, Bool.false_eq_true, if_false, Numeral.ofDigits_eq, hn,
    hrange]

theorem IsNumber.integer?_eq {s : String} (h : IsNumber .integer s) :
    NumberText.integer? s =
      if FitsWord (wholeNumber s) then some (wholeNumber s) else none := by
  rcases h with h | ⟨r, rfl, h⟩
  · have hd : IsDigits s.toList := h
    exact integer?_eq_of_scanSign h.scanSign_eq hd
      (by rw [if_neg nofun, wholeNumber_of_isDigits hd])
  · have hs : Numeral.scanSign ("-" ++ r).toList = (some '-', r.toList) := by
      simp [Numeral.scanSign]
    exact integer?_eq_of_scanSign hs h (by rw [if_pos rfl, wholeNumber_minus])

/-- An integer literal of a text has a value exactly when 64 bits hold its number. -/
theorem IsNumber.integerValue_eq {s : String} (h : IsNumber .integer s) :
    integerValue s =
      if FitsWord (wholeNumber s) then .ok (Float.ofInt (wholeNumber s))
      else .error (.invalidInteger s) := by
  rw [integerValue, h.integer?_eq]
  by_cases hfit : FitsWord (wholeNumber s)
  · rw [if_pos hfit, if_pos hfit]
  · rw [if_neg hfit, if_neg hfit]

theorem IsNumber.integerValue_eq_ok_iff {s : String} {x : Float} (h : IsNumber .integer s) :
    integerValue s = .ok x ↔ FitsWord (wholeNumber s) ∧ x = Float.ofInt (wholeNumber s) := by
  rw [h.integerValue_eq]
  split
  · rename_i hfit
    rw [Except.ok.injEq]
    exact ⟨fun hx => ⟨hfit, hx.symm⟩, fun hx => hx.2.symm⟩
  · rename_i hfit
    exact iff_of_false nofun fun hx => hfit hx.1

/-- The least of these numbers is one farther from zero than the greatest. -/
example : FitsWord (wholeNumber "-09223372036854775808") ∧
    ¬FitsWord (wholeNumber "9223372036854775808") := by
  constructor <;> decide

end Expr

end ExprFold
