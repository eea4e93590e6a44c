import ExprFold.Proofs.Negation
import ExprFold.Proofs.NumberTexts
import ExprFold.Proofs.Overflow
import ExprFold.Proofs.Printing
import ExprFold.Proofs.SignedIntegers

/-!
# Which decimals have a value

A number as it was written stands for a rational number, `Numeral.exact`. Its double is read from
the number that is left when the exponent is cut short behind the digit that brings it to 65536
(`Numeral.magnitude_value_eq_exact`), which is the same number for all but very long ones
(`Numeral.exact_curtailed_lt_iff`). A decimal has a value when it has digits where it must have
some and its double is finite (`Expr.exists_decimalValue_signed_iff`), and a text of minus signs and
a decimal has it too: `Expr.evaluateText_decimal`.
-/

namespace ExprFold

namespace Numeral

/-! ## The number that is written -/

/-- The whole number that an exponent stands for. -/
def Exponent.exact (e : Exponent) : ℤ :=
  if e.sign = some '-' then -(Nat.ofDigitChars 10 e.digits 0 : ℤ)
  else (Nat.ofDigitChars 10 e.digits 0 : ℤ)

/-- The number that is written, however long it is. -/
def exact (n : Numeral) : ℚ :=
  Nat.ofDigitChars 10 n.mantissa 0 *
    10 ^ (n.exponent.elim 0 Exponent.exact - (n.fraction.getD []).length : ℤ)

/-! ## The number that is read -/

/-- The digits of an exponent that count: the shortest beginning that stands for 65536 or more, and
all of them where there is none. -/
def countedDigits (ds : List Char) : List Char :=
  (ds.inits.find? fun p => 65536 ≤ Nat.ofDigitChars 10 p 0).getD ds

/-- The number without the digits of its exponent that do not count. -/
def curtailed (n : Numeral) : Numeral :=
  { n with exponent := n.exponent.map fun e => { e with digits := countedDigits e.digits } }

/-- Reading stops behind the digits that count, whatever stands in front of them. -/
theorem foldl_magnitude (ds : List Char) (m : Nat) :
    ds.foldl (fun n c => if n < 65536 then 10 * n + digitValue c else n) m =
      Nat.ofDigitChars 10
        ((ds.inits.find? fun p => 65536 ≤ Nat.ofDigitChars 10 p m).getD ds) m := by
  induction ds generalizing m with
  | nil => by_cases hm : 65536 ≤ m <;> simp [hm]
  | cons c ds ih =>
    by_cases hm : m < 65536
    · have hnext : (fun p => decide (65536 ≤ Nat.ofDigitChars 10 p m)) ∘ (c :: ·) =
          fun p => decide (65536 ≤ Nat.ofDigitChars 10 p (10 * m + digitValue c)) := by
        funext p
        rfl
      rw [List.foldl_cons, if_pos hm, ih, List.inits_cons,
        List.find?_cons_of_neg (by simpa using hm), List.find?_map, hnext]
      cases ds.inits.find? fun p => decide (65536 ≤ Nat.ofDigitChars 10 p (10 * m + digitValue c)) <;>
        simp [Nat.ofDigitChars_cons, digitValue]
    · have hstop : ∀ ds : List Char,
          ds.foldl (fun n c => if n < 65536 then 10 * n + digitValue c else n) m = m := by
        intro ds
        induction ds with
        | nil => rfl
        | cons c ds ih => rw [List.foldl_cons, if_neg hm, ih]
      rw [hstop, List.inits_cons, List.find?_cons_of_pos (by simpa using hm)]
      rfl

/-- The double of a number is read from the digits that count. -/
theorem magnitude_value_eq_exact (n : Numeral) : n.value.magnitude = n.curtailed.exact := by
  obtain ⟨whole, fraction, exponent⟩ := n
  cases exponent with
  | none => rfl
  | some e =>
    have hmagnitude : e.magnitude = Nat.ofDigitChars 10 (countedDigits e.digits) 0 :=
      foldl_magnitude e.digits 0
    simp [FloatFormat.magnitude_value, exact, curtailed, Exponent.value, Exponent.exact, mantissa,
      ofDigits_eq, hmagnitude]

/-! ## When all digits count -/

section
variable {ds : List Char} {n : Numeral} {e : Exponent}

/-- Of the digits of an exponent below 655360 none is left out. -/
theorem countedDigits_of_lt (h : Nat.ofDigitChars 10 ds 0 < 655360) : countedDigits ds = ds := by
  unfold countedDigits
  cases hp : ds.inits.find? fun p => decide (65536 ≤ Nat.ofDigitChars 10 p 0) with
  | none => rfl
  | some p =>
    have hlarge : 65536 ≤ Nat.ofDigitChars 10 p 0 := by simpa using List.find?_some hp
    obtain ⟨rest, rfl⟩ := (List.mem_inits _ _).1 (List.mem_of_find?_eq_some hp)
    cases rest with
    | nil => simp
    | cons c rest =>
      -- one digit more makes ten times as much
      have hten : 10 * Nat.ofDigitChars 10 p 0 ≤ Nat.ofDigitChars 10 (p ++ c :: rest) 0 := by
        rw [Nat.ofDigitChars_append, @Nat.ofDigitChars_eq_ofDigitChars_zero (c :: rest),
          List.length_cons, Nat.pow_succ]
        calc 10 * Nat.ofDigitChars 10 p 0 ≤ 10 ^ rest.length * (10 * Nat.ofDigitChars 10 p 0) :=
              Nat.le_mul_of_pos_left _ (Nat.pow_pos (by decide))
          _ ≤ _ := by rw [Nat.mul_assoc]; exact Nat.le_add_right _ _
      omega

/-- An exponent of 65536 or more stays that large. -/
theorem le_countedDigits (h : 65536 ≤ Nat.ofDigitChars 10 ds 0) :
    65536 ≤ Nat.ofDigitChars 10 (countedDigits ds) 0 := by
  unfold countedDigits
  cases hp : ds.inits.find? fun p => decide (65536 ≤ Nat.ofDigitChars 10 p 0) with
  | none => exact h
  | some p => simpa using List.find?_some hp

theorem ofDigitChars_lt (h : ∀ c ∈ ds, c.isDigit = true) :
    Nat.ofDigitChars 10 ds 0 < 10 ^ ds.length := by
  induction ds with
  | nil => decide
  | cons c ds ih =>
    have hc : c.toNat - '0'.toNat ≤ 9 := by
      have := (Char.isDigit_iff_toNat.1 (h c (by simp))).2
      have hnine : '9'.toNat = '0'.toNat + 9 := rfl
      omega
    have hds := ih fun d hd => h d (List.mem_cons_of_mem c hd)
    rw [Nat.ofDigitChars_cons, Nat.ofDigitChars_eq_ofDigitChars_zero, List.length_cons,
      Nat.pow_succ, Nat.mul_zero, Nat.zero_add]
    have hle := Nat.mul_le_mul_left (10 ^ ds.length) hc
    omega

/-- The bound lies between two powers of ten. -/
theorem overflow_bounds : (10 : ℚ) ^ 308 < Decimal.overflow ∧ Decimal.overflow < 10 ^ 309 := by
  have hlow : 10 ^ 308 + 2 ^ 970 < 2 ^ 1024 := by decide +kernel
  have hhigh : 2 ^ 1024 < 10 ^ 309 + 2 ^ 970 := by decide +kernel
  unfold Decimal.overflow
  generalize 308 = a at *
  generalize 309 = b at *
  generalize 970 = c at *
  generalize 1024 = d at *
  rw [lt_sub_iff_add_lt, sub_lt_iff_lt_add]
  exact ⟨by exact_mod_cast hlow, by exact_mod_cast hhigh⟩

theorem WellFormed.isDigit_of_mem_mantissa (hn : n.WellFormed) :
    ∀ c ∈ n.mantissa, c.isDigit = true := by
  intro c hc
  rcases List.mem_append.1 hc with hc | hc
  · exact hn.whole c hc
  · cases hf : n.fraction with
    | none => simp [hf] at hc
    | some ds => exact hn.fraction ds hf c (by simpa [hf] using hc)

/-- A whole number of `l` digits whose point is moved left by `l` places or more is one at most. -/
theorem mul_zpow_le_one {m l : ℕ} {z : ℤ} (hm : m < 10 ^ l) (hz : z ≤ -l) :
    (m : ℚ) * 10 ^ z ≤ 1 := by
  have hdigits : (m : ℚ) ≤ 10 ^ (l : ℤ) := by
    rw [zpow_natCast]
    exact_mod_cast hm.le
  have hpow : (10 : ℚ) ^ z ≤ 10 ^ (-l : ℤ) := zpow_le_zpow_right₀ (by norm_num) hz
  calc (m : ℚ) * 10 ^ z ≤ 10 ^ (l : ℤ) * 10 ^ (-l : ℤ) := by gcongr
    _ = 1 := by rw [← zpow_add₀ (by norm_num), add_neg_cancel, zpow_zero]

/-- With 309 places or more behind it a whole number is too large. -/
theorem overflow_lt_mul_zpow {m : ℕ} {z : ℤ} (hm : m ≠ 0) (hz : 309 ≤ z) :
    Decimal.overflow < (m : ℚ) * 10 ^ z := by
  have hone : (1 : ℚ) ≤ m := by exact_mod_cast Nat.one_le_iff_ne_zero.2 hm
  have hpow : (10 : ℚ) ^ (309 : ℤ) ≤ 10 ^ z := zpow_le_zpow_right₀ (by norm_num) hz
  calc Decimal.overflow < 10 ^ 309 := overflow_bounds.2
    _ = 1 * 10 ^ (309 : ℤ) := by rw [one_mul]; rfl
    _ ≤ m * 10 ^ z := by gcongr

theorem one_lt_overflow : (1 : ℚ) < Decimal.overflow :=
  (one_le_pow₀ (by norm_num)).trans_lt overflow_bounds.1

/-- Behind few digits an exponent of 65536 or more decides by its sign. -/
theorem exact_lt_overflow_iff (hn : ∀ c ∈ n.mantissa, c.isDigit = true)
    (hfew : n.mantissa.length ≤ 65227)
    (he : n.exponent = some e) (hlarge : 65536 ≤ Nat.ofDigitChars 10 e.digits 0) :
    n.exact < Decimal.overflow ↔ e.sign = some '-' ∨ Nat.ofDigitChars 10 n.mantissa 0 = 0 := by
  have hfraction : (n.fraction.getD []).length ≤ n.mantissa.length := by simp [mantissa]
  have hdigits := ofDigitChars_lt hn
  rw [exact, he, Option.elim_some, Exponent.exact]
  by_cases hs : e.sign = some '-'
  · rw [if_pos hs]
    exact iff_of_true ((mul_zpow_le_one hdigits (by omega)).trans_lt one_lt_overflow) (.inl hs)
  · rw [if_neg hs]
    by_cases hzero : Nat.ofDigitChars 10 n.mantissa 0 = 0
    · rw [hzero, Nat.cast_zero, zero_mul]
      exact iff_of_true (one_pos.trans one_lt_overflow) (.inr rfl)
    · exact iff_of_false (overflow_lt_mul_zpow hzero (by omega)).le.not_gt (by simp [hs, hzero])

/-- Where the exponent is short or the digits in front of it are few, the digits that do not count
make no difference to whether the number is too large. -/
theorem exact_curtailed_lt_iff (hn : n.WellFormed)
    (h : n.mantissa.length ≤ 65227 ∨
      ∀ e ∈ n.exponent, Nat.ofDigitChars 10 e.digits 0 < 655360) :
    n.curtailed.exact < Decimal.overflow ↔ n.exact < Decimal.overflow := by
  obtain ⟨whole, fraction, exponent⟩ := n
  have hdigits := hn.isDigit_of_mem_mantissa
  cases exponent with
  | none => rfl
  | some e =>
    by_cases hshort : Nat.ofDigitChars 10 e.digits 0 < 655360
    · simp [curtailed, countedDigits_of_lt hshort]
    · have hfew := h.resolve_right fun h => hshort (h e rfl)
      have hlarge : 65536 ≤ Nat.ofDigitChars 10 e.digits 0 := by omega
      have hcurtailed : (curtailed ⟨whole, fraction, some e⟩).exact < Decimal.overflow ↔ _ :=
        exact_lt_overflow_iff (e := { e with digits := countedDigits e.digits }) hdigits hfew rfl
          (le_countedDigits hlarge)
      exact hcurtailed.trans (exact_lt_overflow_iff hdigits hfew rfl hlarge).symm

end

end Numeral

namespace Expr

/-! ## Texts of minus signs and a decimal -/

section
variable {n : Numeral} {s text : String} {k : Nat} {x : Float}

/-- A decimal that a token is written with has the double nearest to it, if that is finite. -/
theorem decimalValue_eq_ok_iff_exact (hn : n.WellFormed) (hw : n.isWhole = false)
    (hb : n.whole ≠ [] ∨ n.fraction.isSome = true) (hs : n.text = s.toList) :
    decimalValue s = .ok x ↔
      n.IsReadable ∧ n.curtailed.exact < Decimal.overflow ∧ n.value.toFloat = x := by
  have hdecimal : IsUnsigned .decimal s.toList := ⟨n, hn, hw, hb, hs⟩
  have hfloat : NumberText.float? s = if n.isComplete then some n.value.toFloat else none := by
    simp only [NumberText.float?, hdecimal.scanSign_eq, reduceCtorEq, if_false, Option.map_id']
    rw [← hs, NumberText.unsigned?_text hn hb]
  rw [decimalValue_eq_ok_iff, hfloat, Option.ite_none_right_eq_some, Option.some.injEq,
    Numeral.isComplete_iff, and_assoc, ← n.magnitude_value_eq_exact,
    ← Decimal.isFinite_toFloat_iff]
  constructor
  · rintro ⟨hreadable, rfl, hfinite⟩
    exact ⟨hreadable, hfinite, rfl⟩
  · rintro ⟨hreadable, hfinite, rfl⟩
    exact ⟨hreadable, rfl, hfinite⟩

theorem eq_of_decimalValue_eq_error {e : Error} (h : decimalValue s = .error e) :
    e = .invalidDecimal s := by
  unfold decimalValue at h
  split at h
  · split at h
    · cases h
    · cases h
      rfl
  · cases h
    rfl

/-- Signs make no difference to whether a decimal has a value. -/
theorem exists_decimalValue_signed_iff (h : IsUnsigned .decimal s.toList) :
    (∃ x, decimalValue (signed k s) = .ok x) ↔ ∃ x, decimalValue s = .ok x := by
  unfold signed
  split
  · rfl
  · constructor
    · rintro ⟨x, hx⟩
      exact ⟨-x, (decimalValue_minus_eq_ok_iff h).1 hx⟩
    · rintro ⟨x, hx⟩
      exact ⟨-x, (decimalValue_minus_eq_ok_iff h).2 (by rw [Binary64.neg_neg, hx])⟩

/-- Each minus sign in front of a decimal goes into its literal. -/
theorem derives_signed (h : IsUnsigned .decimal s.toList) (k : Nat) :
    Derives .unary (List.replicate k (.op .sub) ++ [.decimal s]) (.decimal (signed k s)) := by
  induction k with
  | zero => exact .ofPrimary (.decimal s)
  | succ k ih => exact .minus ih (negates_signed h)

/-- The value of a text of minus signs and a decimal is that of the literal with its sign. -/
theorem result_evaluateText_decimal
    (h : tokenize text = .ok (List.replicate k (.op .sub) ++ [.decimal s])) :
    (Engine.evaluateText {} text).result = (decimalValue (signed k s)).mapError ([·]) := by
  have hs : IsUnsigned .decimal s.toList := isWord_of_tokenize h (.decimal s) (by simp)
  have hparse : parse none text = .ok (.decimal (signed k s)) :=
    parse_eq_ok_iff.2 ⟨_, h, Parser.run_none_eq_ok_iff.2 (.ofTerm (.ofUnary (derives_signed hs k)))⟩
  have hne : text ≠ "" := by
    rintro rfl
    simpa [Lexeme.scan_nil] using tokenize_eq_ok_iff.1 h
  have hvalue : Engine.evaluate {} (.decimal (signed k s)) = decimalValue (signed k s) := rfl
  rw [Engine.result_evaluateText_of_ne _ hne, hparse, ok_bind, hvalue]

/-- Of minus signs and a decimal, the decimal alone decides whether there is a value. -/
theorem exists_evaluateText_decimal_iff
    (h : tokenize text = .ok (List.replicate k (.op .sub) ++ [.decimal s])) :
    let n := (Numeral.scan s.toList).1
    (n.WellFormed ∧ n.text = s.toList) ∧
      ((∃ x, (Engine.evaluateText {} text).result = .ok x) ↔
        n.IsReadable ∧ n.curtailed.exact < Decimal.overflow) := by
  have hs : IsUnsigned .decimal s.toList := isWord_of_tokenize h (.decimal s) (by simp)
  obtain ⟨n, hn, hw, hb, htext⟩ := id hs
  have hscan : (Numeral.scan s.toList).1 = n := by rw [← htext, hn.scan_text]
  rw [hscan]
  refine ⟨⟨hn, htext⟩, ?_⟩
  rw [result_evaluateText_decimal h]
  simp only [mapError_eq_ok_iff]
  rw [exists_decimalValue_signed_iff hs]
  simp only [decimalValue_eq_ok_iff_exact hn hw hb htext]
  simp

/-- **Which decimals have a value.** Minus signs and a decimal have one just when the decimal has
the digits that it needs and stands for less than the least number that rounds to infinity, where an
exponent counts up to the digit that brings it to 65536. The value is finite, and without one the
fault is the literal with the sign that the minus signs make. The digits of the exponent that do not
count decide nothing, unless there are at least six of them and more than 65227 in front of it. -/
theorem evaluateText_decimal
    (h : tokenize text = .ok (List.replicate k (.op .sub) ++ [.decimal s])) :
    let n := (Numeral.scan s.toList).1
    let value := (Engine.evaluateText {} text).result
    (n.WellFormed ∧ n.text = s.toList) ∧
      ((∃ x, value = .ok x) ↔ n.IsReadable ∧ n.curtailed.exact < Decimal.overflow) ∧
      (∀ x, value = .ok x → x.isFinite = true) ∧
      (∀ es, value = .error es → es = [.invalidDecimal (signed k s)]) ∧
      (n.mantissa.length ≤ 65227 ∨
          (∀ e ∈ n.exponent, Nat.ofDigitChars 10 e.digits 0 < 655360) →
        (n.curtailed.exact < Decimal.overflow ↔ n.exact < Decimal.overflow)) := by
  intro n value
  have hvalue : value = (decimalValue (signed k s)).mapError ([·]) := result_evaluateText_decimal h
  obtain ⟨hwritten, hexists⟩ := exists_evaluateText_decimal_iff h
  refine ⟨hwritten, hexists, ?_, ?_, Numeral.exact_curtailed_lt_iff hwritten.1⟩
  · intro x hx
    rw [hvalue, mapError_eq_ok_iff] at hx
    exact (decimalValue_eq_ok_iff.1 hx).2
  · intro es hes
    rw [hvalue] at hes
    cases hliteral : decimalValue (signed k s) with
    | ok x => rw [hliteral] at hes; cases hes
    | error e =>
      rw [hliteral] at hes
      cases hes
      rw [eq_of_decimalValue_eq_error hliteral]

end

/-- The first digit past the largest double, behind a point and three signs. -/
theorem evaluateText_decimal_too_large :
    let s := ".17976931348623159e309"
    let text := "- --.17976931348623159e309"
    tokenize text = .ok (List.replicate 3 (.op .sub) ++ [.decimal s]) ∧
      ¬(Numeral.scan s.toList).1.exact < Decimal.overflow ∧
      (Engine.evaluateText {} text).result = .error [.invalidDecimal ("-" ++ s)] := by
  intro s text
  have htokens : tokenize text = .ok (List.replicate 3 (.op .sub) ++ [.decimal s]) := by
    decide +kernel
  have hfault : (Engine.evaluateText {} text).result = .error [.invalidDecimal ("-" ++ s)] := by
    decide +kernel
  obtain ⟨-, hexists, -, -, hcurtailed⟩ := evaluateText_decimal htokens
  refine ⟨htokens, fun hsmall => ?_, hfault⟩
  have hreadable : (Numeral.scan s.toList).1.IsReadable := Numeral.isComplete_iff.1 (by decide)
  have hfew : (Numeral.scan s.toList).1.mantissa.length ≤ 65227 := by decide
  obtain ⟨x, hx⟩ := hexists.2 ⟨hreadable, (hcurtailed (.inl hfew)).2 hsmall⟩
  rw [hfault] at hx
  cases hx

/-- A one with zeros behind it, and digits in an exponent below zero. -/
def power (zeros : Nat) (ds : List Char) : Numeral :=
  ⟨'1' :: List.replicate zeros '0', none, some ⟨'e', some '-', ds⟩⟩

section
variable {zeros : Nat} {ds : List Char}

theorem wellFormed_power (hds : ∀ c ∈ ds, c.isDigit = true) : (power zeros ds).WellFormed where
  whole := by
    intro c hc
    rcases List.mem_cons.1 hc with rfl | hc
    · rfl
    · exact FloatFormat.isDigit_of_mem_zeros hc
  fraction := nofun
  mark := by rintro e ⟨⟩; exact .inl rfl
  sign := by rintro e ⟨⟩ c ⟨⟩; exact .inr rfl
  digits := by rintro e ⟨⟩; exact hds

theorem isReadable_power (hds : ds ≠ []) : (power zeros ds).IsReadable :=
  ⟨nofun, by rintro e ⟨⟩; exact hds⟩

theorem exact_power : (power zeros ds).exact = 10 ^ (zeros - Nat.ofDigitChars 10 ds 0 : ℤ) := by
  have hmantissa : Nat.ofDigitChars 10 (power zeros ds).mantissa 0 = 10 ^ zeros := by
    have hzeros := Numeral.ofDigits_append_zeros ['1'] zeros
    rw [show Numeral.ofDigits ['1'] = 1 from rfl, Nat.mul_one] at hzeros
    rw [show (power zeros ds).mantissa = ['1'] ++ List.replicate zeros '0' ++ [] from rfl,
      List.append_nil, ← Numeral.ofDigits_eq, hzeros]
  have hexponent : ((power zeros ds).exponent.elim 0 Numeral.Exponent.exact : ℤ) -
      ((power zeros ds).fraction.getD []).length = -(Nat.ofDigitChars 10 ds 0 : ℤ) := by
    simp [power, Numeral.Exponent.exact]
  rw [Numeral.exact, hmantissa, hexponent, Nat.cast_pow, Nat.cast_ofNat, ← zpow_natCast,
    ← zpow_add₀ (by norm_num)]
  rfl

theorem exact_power_lt_iff :
    (power zeros ds).exact < Decimal.overflow ↔ zeros ≤ 308 + Nat.ofDigitChars 10 ds 0 := by
  rw [exact_power]
  constructor
  · intro hsmall
    by_contra hge
    have hlarge : Decimal.overflow < (1 : ℕ) * 10 ^ (zeros - Nat.ofDigitChars 10 ds 0 : ℤ) :=
      Numeral.overflow_lt_mul_zpow one_ne_zero (by omega)
    rw [Nat.cast_one, one_mul] at hlarge
    exact hsmall.not_gt hlarge
  · intro hle
    have hpow : (10 : ℚ) ^ (zeros - Nat.ofDigitChars 10 ds 0 : ℤ) ≤ 10 ^ (308 : ℤ) :=
      zpow_le_zpow_right₀ (by norm_num) (by omega)
    exact hpow.trans_lt Numeral.overflow_bounds.1

end

/-- A number far below one that has no value: of its exponent the last digit does not count, and
without it the number is too large. -/
theorem not_evaluateText_decimal_exact :
    ¬∀ (text s : String) (k : Nat),
      tokenize text = .ok (List.replicate k (.op .sub) ++ [.decimal s]) →
        let n := (Numeral.scan s.toList).1
        ((∃ x, (Engine.evaluateText {} text).result = .ok x) ↔
          n.IsReadable ∧ n.exact < Decimal.overflow) := by
  intro h
  obtain ⟨zeros, hzeros⟩ : ∃ zeros, zeros = 65845 := ⟨_, rfl⟩
  let n := power zeros ['6', '5', '5', '3', '6', '0']
  have hn : n.WellFormed := wellFormed_power (List.all_eq_true.1 rfl)
  let text := String.ofList n.text
  have hscan : (Numeral.scan text.toList).1 = n := by rw [String.toList_ofList, hn.scan_text]
  have htokens : tokenize text = .ok (List.replicate 0 (.op .sub) ++ [.decimal text]) := by
    have hword : (Token.decimal text).IsWord :=
      ⟨n, hn, rfl, .inl nofun, (String.toList_ofList).symm⟩
    simpa [Token.text] using Token.isWord_iff.1 hword
  have hclaimed := h text text 0 htokens
  have hactual := (exists_evaluateText_decimal_iff htokens).2
  rw [hscan] at hclaimed hactual
  have hsmall : n.exact < Decimal.overflow := by
    have hdigits : Nat.ofDigitChars 10 ['6', '5', '5', '3', '6', '0'] 0 = 655360 := rfl
    rw [exact_power_lt_iff, hdigits]
    omega
  have hlarge : ¬n.curtailed.exact < Decimal.overflow := by
    have hdigits : Nat.ofDigitChars 10 (Numeral.countedDigits ['6', '5', '5', '3', '6', '0']) 0 =
        65536 := rfl
    have hcurtailed : n.curtailed =
        power zeros (Numeral.countedDigits ['6', '5', '5', '3', '6', '0']) := rfl
    rw [hcurtailed, exact_power_lt_iff, hdigits]
    omega
  have hreadable : n.IsReadable := isReadable_power (by simp)
  exact hlarge (hactual.1 (hclaimed.2 ⟨hreadable, hsmall⟩)).2

end Expr

end ExprFold
