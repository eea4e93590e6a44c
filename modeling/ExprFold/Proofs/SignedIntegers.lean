import ExprFold.Proofs.Literals
import ExprFold.Proofs.Spacing

/-!
# Integers under minus signs and parentheses

`Expr.Wrapped` says which texts put minus signs, parentheses and blanks around digits. Such a text
is one integer leaf, whose literal has a minus sign just when an odd number of them was written
(`Expr.Wrapped.parse_eq`), and it has a value exactly when 64 bits hold the number. Main statement:
`Expr.evaluateText_wrapped`.
-/

namespace ExprFold.Expr

/-- A text that puts minus signs, parentheses and blanks around others, with the number of its minus
signs. -/
inductive Wrapped (core : List Char) : Nat → List Char → Prop
  | core : Wrapped core 0 core
  | minus {k : Nat} {cs : List Char} : Wrapped core k cs → Wrapped core (k + 1) ('-' :: cs)
  | parens {k : Nat} {cs : List Char} : Wrapped core k cs → Wrapped core k ('(' :: cs ++ [')'])
  | blankBefore {k : Nat} {c : Char} {cs : List Char} : Lexeme.isBlank c = true →
      Wrapped core k cs → Wrapped core k (c :: cs)
  | blankBehind {k : Nat} {c : Char} {cs : List Char} : Lexeme.isBlank c = true →
      Wrapped core k cs → Wrapped core k (cs ++ [c])

/-- What a number of minus signs makes of a literal without one. -/
def signed (k : Nat) (s : String) : String := if Even k then s else "-" ++ s

section
variable {k : Nat} {s : String}

/-- One minus sign more makes of the literal what the next number of them does. -/
theorem negates_signed {kind : Kind} (h : IsUnsigned kind s.toList) :
    Negates (.leaf kind (signed k s)) (.leaf kind (signed (k + 1) s)) := by
  by_cases hk : Even k
  · have hk' : ¬Even (k + 1) := Nat.not_even_iff_odd.2 hk.add_one
    rw [signed, signed, if_pos hk, if_neg hk']
    exact .sign h.role_eq h.head?_ne_minus
  · have hk' : Even (k + 1) := (Nat.not_even_iff_odd.1 hk).add_one
    rw [signed, signed, if_neg hk, if_pos hk']
    exact .unsign h.role_eq

theorem isNumber_signed (h : IsDigits s.toList) : IsNumber .integer (signed k s) := by
  unfold signed
  split
  · exact .inl h
  · exact .inr ⟨s, rfl, h⟩

theorem wholeNumber_signed (h : IsDigits s.toList) :
    wholeNumber (signed k s) = (-1) ^ k * (Nat.ofDigitChars 10 s.toList 0 : Int) := by
  unfold signed
  split
  · rename_i hk
    rw [wholeNumber_of_isDigits h, hk.neg_one_pow, one_mul]
  · rename_i hk
    rw [wholeNumber_minus, (Nat.not_even_iff_odd.1 hk).neg_one_pow, neg_one_mul]

end

namespace Wrapped

variable {s : String} {k : Nat} {cs : List Char}

/-- The words of the text are an operand, the leaf of the literal. -/
theorem spells (hs : IsDigits s.toList) (h : Wrapped s.toList k cs) :
    ∃ ts, Spells cs ts ∧ Derives .unary ts (.integer (signed k s)) := by
  induction h with
  | core => exact ⟨[.integer s], .word (t := .integer s) hs, .ofPrimary (.integer s)⟩
  | minus _ ih =>
    obtain ⟨ts, hcs, ht⟩ := ih
    have hunsigned : IsUnsigned .integer s.toList := hs
    exact ⟨.op .sub :: ts, .cons rfl hcs, .minus ht (negates_signed hunsigned)⟩
  | parens _ ih =>
    obtain ⟨ts, hcs, ht⟩ := ih
    exact ⟨_, hcs.parens, .ofPrimary (.parens (.ofTerm (.ofUnary ht)))⟩
  | blankBefore hc _ ih =>
    obtain ⟨ts, hcs, ht⟩ := ih
    exact ⟨ts, hcs.cons_blank hc, ht⟩
  | blankBehind hc _ ih =>
    obtain ⟨ts, hcs, ht⟩ := ih
    exact ⟨ts, hcs.snoc_blank hc, ht⟩

theorem parse_eq {text : String} (hs : IsDigits s.toList) (h : Wrapped s.toList k text.toList) :
    parse none text = .ok (.integer (signed k s)) := by
  obtain ⟨ts, htext, ht⟩ := h.spells hs
  have htokens := htext.tokenize_eq_ok
  rw [String.ofList_toList] at htokens
  exact parse_eq_ok_iff.2 ⟨ts, htokens, Parser.run_none_eq_ok_iff.2 (.ofTerm (.ofUnary ht))⟩

theorem ne_nil (hs : IsDigits s.toList) (h : Wrapped s.toList k cs) : cs ≠ [] := by
  cases h with
  | core => exact hs.1
  | minus _ | parens _ | blankBefore _ _ | blankBehind _ _ => simp

end Wrapped

/-- **Digits under minus signs and parentheses are one literal.** It has a minus sign just when the
number of minus signs is odd, and its value is the number with the sign that they make, if 64 bits
hold that number; else it is the fault of the literal. -/
theorem evaluateText_wrapped (s : String) (k : Nat) (text : String) (hs : IsDigits s.toList)
    (h : Wrapped s.toList k text.toList) :
    let n : Int := (-1) ^ k * (Nat.ofDigitChars 10 s.toList 0 : Int)
    parse none text = .ok (.integer (signed k s)) ∧
      (Engine.evaluateText {} text).result =
        if FitsWord n then .ok (Float.ofInt n) else .error [.invalidInteger (signed k s)] := by
  intro n
  have hparse := h.parse_eq hs
  refine ⟨hparse, ?_⟩
  have hne : text ≠ "" := by simpa using h.ne_nil hs
  have hvalue : Engine.evaluate {} (.integer (signed k s)) = integerValue (signed k s) := rfl
  rw [Engine.result_evaluateText_of_ne _ hne, hparse, ok_bind, hvalue,
    (isNumber_signed hs).integerValue_eq, wholeNumber_signed hs]
  by_cases hn : FitsWord n
  · rw [if_pos hn, if_pos hn]; rfl
  · rw [if_neg hn, if_neg hn]; rfl

/-- Three signs give the least number that 64 bits hold, and with one sign fewer it does not fit. -/
theorem evaluateText_wrapped_least :
    let s := "09223372036854775808"
    let three := "-( -\t(-09223372036854775808\n) )"
    let two := "--09223372036854775808"
    IsDigits s.toList ∧ Wrapped s.toList 3 three.toList ∧ Wrapped s.toList 2 two.toList ∧
      (Engine.evaluateText {} three).result = .ok (Float.ofInt (-9223372036854775808)) ∧
      (Engine.evaluateText {} two).result = .error [.invalidInteger s] := by
  intro s three two
  have hs : IsDigits s.toList := by simp [s, IsDigits]
  have hthree : Wrapped s.toList 3 three.toList := by
    have inner : Wrapped s.toList 1 ('(' :: ('-' :: s.toList ++ ['\n']) ++ [')']) :=
      .parens (.blankBehind rfl (.minus .core))
    have outer := (inner.blankBefore (c := '\t') rfl).minus.blankBefore (c := ' ') rfl
    simpa [s, three] using (outer.blankBehind (c := ' ') rfl).parens.minus
  have htwo : Wrapped s.toList 2 two.toList := by
    simpa [s, two] using (@Wrapped.core s.toList).minus.minus
  have hn : Nat.ofDigitChars 10 s.toList 0 = 9223372036854775808 := by
    simp [s, Nat.ofDigitChars_cons]
  have hvalue := (evaluateText_wrapped s 3 three hs hthree).2
  have hfault := (evaluateText_wrapped s 2 two hs htwo).2
  rw [hn] at hvalue hfault
  exact ⟨hs, hthree, htwo, hvalue, hfault⟩

end ExprFold.Expr
