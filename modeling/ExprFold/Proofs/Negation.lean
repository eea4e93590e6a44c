import ExprFold.Proofs.Binding
import ExprFold.Proofs.Literals
import ExprFold.Proofs.SignedDoubles
import ExprFold.Proofs.Spacing

/-!
# The value of a negated expression

A minus sign goes into the text of a number, and multiplies anything else by minus one. Either way
the value becomes its negative (`Expr.Negates.negated`), with one exception: the least integer that
64 bits hold has no negative there. Main statement: `Expr.evaluateText_negated`.
-/

namespace ExprFold.Expr

open Binary64 (SameNumber)

/-! ## Numbers with and without a sign -/

section
variable {k : Kind} {s : String} {x : Float}

theorem decimalValue_eq_ok_iff :
    decimalValue s = .ok x ↔ NumberText.float? s = some x ∧ x.isFinite = true := by
  unfold decimalValue
  cases NumberText.float? s with
  | none => simp
  | some y =>
    simp only [Option.some.injEq]
    split
    · rename_i hy
      rw [Except.ok.injEq]
      exact ⟨fun h => ⟨h, h ▸ hy⟩, And.left⟩
    · rename_i hy
      refine iff_of_false nofun ?_
      rintro ⟨rfl, h⟩
      exact hy h

theorem float?_minus (h : IsUnsigned k s.toList) :
    NumberText.float? ("-" ++ s) = (NumberText.float? s).map (-·) := by
  have hs : Numeral.scanSign ("-" ++ s).toList = (some '-', s.toList) := by
    simp [Numeral.scanSign]
  simp only [NumberText.float?, hs, h.scanSign_eq, reduceCtorEq, if_true, if_false, Option.map_id']

/-- A sign that a decimal takes makes its value negative, and so does one that it loses. -/
theorem decimalValue_minus_eq_ok_iff (h : IsUnsigned k s.toList) :
    decimalValue ("-" ++ s) = .ok x ↔ decimalValue s = .ok (-x) := by
  rw [decimalValue_eq_ok_iff, decimalValue_eq_ok_iff, float?_minus h, Option.map_eq_some_iff]
  constructor
  · rintro ⟨⟨y, hy, rfl⟩, hx⟩
    rw [Binary64.neg_neg]
    refine ⟨hy, ?_⟩
    rw [← Binary64.neg_neg y]
    exact Binary64.isFinite_neg hx
  · rintro ⟨hy, hx⟩
    refine ⟨⟨-x, hy, Binary64.neg_neg x⟩, ?_⟩
    rw [← Binary64.neg_neg x]
    exact Binary64.isFinite_neg hx

theorem wholeNumber_minus_eq_neg (h : IsUnsigned .integer s.toList) :
    wholeNumber ("-" ++ s) = -wholeNumber s := by
  rw [wholeNumber_minus, wholeNumber_of_isDigits h]

/-- Of the integers that 64 bits hold all but the least have their negative there. -/
theorem integerValue_neg {s' : String} (hs : IsNumber .integer s) (hs' : IsNumber .integer s')
    (hneg : wholeNumber s' = -wholeNumber s) (hleast : wholeNumber s ≠ -9223372036854775808)
    (hx : integerValue s = .ok x) :
    ∃ y, integerValue s' = .ok y ∧ SameNumber y (-x) := by
  obtain ⟨hfit, rfl⟩ := hs.integerValue_eq_ok_iff.1 hx
  have hfit' : FitsWord (wholeNumber s') := by
    unfold FitsWord at hfit ⊢
    omega
  exact ⟨_, hs'.integerValue_eq_ok_iff.2 ⟨hfit', rfl⟩, hneg ▸ Binary64.ofInt_neg _⟩

end

/-! ## Values of negated expressions -/

/-- The expression is the least integer that 64 bits hold, written with these digits. -/
def IsLeastInteger (t : Expr) (digits : String) : Prop :=
  t = .integer ("-" ++ digits) ∧ Nat.ofDigitChars 10 digits.toList 0 = 9223372036854775808

/-- What becomes of the value `x` of an expression when a minus sign turns it into another one. -/
inductive Negated (u t : Expr) (x : Float) : Prop
  /-- The literal of the least integer is too large without its sign. -/
  | least (digits : String) : IsLeastInteger u digits →
      evaluate none t = .error (.invalidInteger digits) → Negated u t x
  | value (y : Float) : (∀ digits, ¬IsLeastInteger u digits) → evaluate none t = .ok y →
      SameNumber y (-x) → Negated u t x

section
variable {k : Kind} {s : String} {u t : Expr} {x : Float}

/-- A number that takes a sign. -/
theorem negated_sign (h : IsUnsigned k s.toList) (hx : evaluate none (.leaf k s) = .ok x) :
    Negated (.leaf k s) (.leaf k ("-" ++ s)) x := by
  have hs : ∀ digits, ¬IsLeastInteger (.leaf k s) digits := by
    rintro digits ⟨heq, -⟩
    cases heq
    exact absurd (by simp) h.head?_ne_minus
  cases k with
  | integer =>
    have hleast : wholeNumber s ≠ -9223372036854775808 := by
      have := wholeNumber_of_isDigits h
      omega
    obtain ⟨y, hy, hsame⟩ :=
      integerValue_neg (.inl h) (.inr ⟨s, rfl, h⟩) (wholeNumber_minus_eq_neg h) hleast hx
    exact .value y hs hy hsame
  | decimal =>
    have hy : decimalValue ("-" ++ s) = .ok (-x) := by
      rw [decimalValue_minus_eq_ok_iff h, Binary64.neg_neg]
      exact hx
    exact .value (-x) hs hy (.refl _)
  | var | op _ => exact h.elim

/-- A number that loses its sign. -/
theorem negated_unsign (h : IsUnsigned k s.toList)
    (hx : evaluate none (.leaf k ("-" ++ s)) = .ok x) :
    Negated (.leaf k ("-" ++ s)) (.leaf k s) x := by
  cases k with
  | integer =>
    have hminus : IsNumber .integer ("-" ++ s) := .inr ⟨s, rfl, h⟩
    by_cases hs : Nat.ofDigitChars 10 s.toList 0 = 9223372036854775808
    · have hfit : ¬FitsWord (wholeNumber s) := by
        rw [wholeNumber_of_isDigits h, hs]
        decide
      have hfault : integerValue s = .error (.invalidInteger s) := by
        rw [IsNumber.integerValue_eq (.inl h), if_neg hfit]
      exact .least s ⟨rfl, hs⟩ hfault
    · have hleast : wholeNumber ("-" ++ s) ≠ -9223372036854775808 := by
        rw [wholeNumber_minus]
        omega
      have hneg : wholeNumber s = -wholeNumber ("-" ++ s) := by
        rw [wholeNumber_minus_eq_neg h, Int.neg_neg]
      obtain ⟨y, hy, hsame⟩ := integerValue_neg hminus (.inl h) hneg hleast hx
      refine .value y ?_ hy hsame
      rintro digits ⟨heq, hd⟩
      obtain rfl : s = digits := by simpa [Expr.integer, ← String.toList_inj] using heq
      exact hs hd
  | decimal =>
    have hy : decimalValue s = .ok (-x) := (decimalValue_minus_eq_ok_iff h).1 hx
    exact .value (-x) (fun _ hd => by cases hd.1) hy (.refl _)
  | var | op _ => exact h.elim

/-- The other expressions are multiplied by minus one. -/
theorem negated_scale (hu : ∀ k s, k.role = .literal → u ≠ .leaf k s)
    (hx : evaluate none u = .ok x) :
    Negated u (.binary (.op .mul) (.integer "-1") u) x := by
  have hone : evaluateAt none 2 (.integer "-1") = .ok (Float.ofInt (-1)) := rfl
  have hu' : evaluateAt none 2 u = .ok x := by
    rw [evaluateAt_none_eq, ← @evaluateAt_none_eq 1]
    exact hx
  have hy : evaluate none (.binary (.op .mul) (.integer "-1") u) = .ok (-x) := by
    rw [evaluate, evaluateAt_operator, hone, hu', ← Binary64.neg_one_mul]
    rfl
  exact .value (-x) (fun _ hd => hu _ _ rfl hd.1) hy (.refl _)

theorem Negates.negated (h : Negates u t) (hu : Canonical u) (hx : evaluate none u = .ok x) :
    Negated u t x := by
  cases h with
  | sign hk hs => exact negated_sign ((hu.isNumber hk).isUnsigned hs) hx
  | unsign hk => exact negated_unsign (hu.isNumber hk).isUnsigned_of_minus hx
  | scale hu => exact negated_scale hu hx

end

/-! ## Texts -/

section
variable {s : String} {x : Float}

theorem parse_negated {u t : Expr} (hs : parse none s = .ok u) (h : Negates u t) :
    parse none ("-(" ++ s ++ ")") = .ok t := by
  obtain ⟨ts, hts, hrun⟩ := parse_eq_ok_iff.1 hs
  have hu : Derives .expr ts u := Parser.run_none_eq_ok_iff.1 hrun
  have htokens := ((Spells.of_tokenize hts).parens.cons
    (c := '-') (t := .op .sub) rfl).tokenize_eq_ok
  have htext : String.ofList ('-' :: ('(' :: s.toList ++ [')'])) = "-(" ++ s ++ ")" := by
    simp [← String.toList_inj]
  rw [htext] at htokens
  have ht : Derives .expr _ t := .ofTerm (.ofUnary (.minus (.ofPrimary (.parens hu)) h))
  exact parse_eq_ok_iff.2 ⟨_, htokens, Parser.run_none_eq_ok_iff.2 ht⟩

/-- **A minus sign in front makes the value its negative.** A text that has a value has the negative
as its value when it stands in parentheses behind a minus sign, but for the sign of zero. Just when
the text is the least integer that 64 bits hold, it is at fault there, and the fault is its literal
without the sign. -/
theorem evaluateText_negated (hs : s ≠ "") (h : (Engine.evaluateText {} s).result = .ok x) :
    let negated := (Engine.evaluateText {} ("-(" ++ s ++ ")")).result
    ∃ u, parse none s = .ok u ∧
      ((∃ digits, IsLeastInteger u digits ∧ negated = .error [.invalidInteger digits]) ∨
        ((∀ digits, ¬IsLeastInteger u digits) ∧ ∃ y, negated = .ok y ∧ SameNumber y (-x))) := by
  intro negated
  rw [Engine.result_evaluateText_of_ne _ hs] at h
  obtain ⟨u, hu, hvalue⟩ := bind_eq_ok_iff.1 h
  obtain ⟨t, ht⟩ := exists_negates u
  have hnegated : negated = (evaluate none t).mapError ([·]) := by
    have hne : "-(" ++ s ++ ")" ≠ "" := by simp
    have hparse : parse (Engine.limit {}) ("-(" ++ s ++ ")") = .ok t := parse_negated hu ht
    rw [show negated = _ from Engine.result_evaluateText_of_ne _ hne, hparse, ok_bind]
    rfl
  refine ⟨u, hu, ?_⟩
  cases ht.negated (canonical_of_parse hu) (mapError_eq_ok_iff.1 hvalue) with
  | least digits hleast hfault =>
    rw [hfault] at hnegated
    exact .inl ⟨digits, hleast, hnegated⟩
  | value y hleast hy hsame =>
    rw [hy] at hnegated
    exact .inr ⟨hleast, y, hnegated, hsame⟩

end

/-- A difference is multiplied, whatever the parentheses around it. -/
theorem evaluateText_negated_difference :
    let s := "((1 - 2.5))"
    s ≠ "" ∧ (Engine.evaluateText {} s).result = .ok (1 - 2.5) ∧
      ∃ y, (Engine.evaluateText {} "-(((1 - 2.5)))").result = .ok y ∧
        SameNumber y (-(1 - 2.5)) := by
  intro s
  have hs : s ≠ "" := by decide
  have hvalue : (Engine.evaluateText {} s).result = .ok (1 - 2.5) := by decide +kernel
  have hparse : parse none s =
      .ok (.binary (.op .sub) (.integer "1") (.decimal "2.5")) := by cbv
  refine ⟨hs, hvalue, ?_⟩
  obtain ⟨u, hu, ⟨digits, hleast, -⟩ | ⟨-, h⟩⟩ := evaluateText_negated hs hvalue
  · rw [hparse] at hu
    cases hu
    cases hleast.1
  · exact h

/-- The least integer has a value, and behind a minus sign it has none. -/
theorem not_evaluateText_negated_least :
    ¬∀ (s : String) (x : Float), s ≠ "" → (Engine.evaluateText {} s).result = .ok x →
      ∃ y, (Engine.evaluateText {} ("-(" ++ s ++ ")")).result = .ok y ∧ SameNumber y (-x) := by
  intro h
  have hvalue : (Engine.evaluateText {} "-9223372036854775808").result =
      .ok (Float.ofInt (-9223372036854775808)) := by decide +kernel
  have hfault : (Engine.evaluateText {} ("-(" ++ "-9223372036854775808" ++ ")")).result =
      .error [.invalidInteger "9223372036854775808"] := by decide +kernel
  obtain ⟨y, hy, -⟩ := h _ _ (by decide) hvalue
  rw [hfault] at hy
  cases hy

end ExprFold.Expr
