import ExprFold.Decimal.Layout
import ExprFold.Proofs.Numerals
import ExprFold.Proofs.Rounding

/-!
# Printed numbers

However a `FloatFormat` lays out the digits of a decimal, what it writes is a complete number with
that decimal's magnitude (`FloatFormat.shows_writeDecimal`). Read with its sign, the text of a
finite double is the double again (`FloatFormat.exists_write`).
-/

namespace ExprFold

/-! ## Digits -/

namespace Numeral

theorem ofDigits_zeros_append (k : Nat) (ds : List Char) :
    ofDigits (List.replicate k '0' ++ ds) = ofDigits ds := by
  simp [ofDigits_eq, Nat.ofDigitChars_append]

theorem ofDigits_append_zeros (ds : List Char) (k : Nat) :
    ofDigits (ds ++ List.replicate k '0') = 10 ^ k * ofDigits ds := by
  simp [ofDigits_eq, Nat.ofDigitChars_append]

theorem ofDigits_toDigits (n : Nat) : ofDigits (Nat.toDigits 10 n) = n :=
  Nat.ofDigitChars_ten_toDigits

/-- The digits of an exponent below the bound are all read. -/
theorem Exponent.magnitude_eq {e : Exponent} (h : ofDigits e.digits < 65536) :
    e.magnitude = ofDigits e.digits := by
  have read : ∀ (ds : List Char) (n : Nat), Nat.ofDigitChars 10 ds n < 65536 →
      ds.foldl (fun n c => if n < 65536 then 10 * n + digitValue c else n) n =
        Nat.ofDigitChars 10 ds n := by
    intro ds
    induction ds with
    | nil => intro n _; rfl
    | cons c ds ih =>
      intro n hn
      have hle : n ≤ Nat.ofDigitChars 10 (c :: ds) n := by
        rw [Nat.ofDigitChars_eq_ofDigitChars_zero]
        exact (Nat.le_mul_of_pos_left n (Nat.pow_pos (by decide))).trans (Nat.le_add_right _ _)
      rw [List.foldl_cons, if_pos (by omega)]
      exact ih _ hn
  exact read e.digits 0 h

end Numeral

theorem isDigit_of_mem_toDigits {n : Nat} {c : Char} (h : c ∈ Nat.toDigits 10 n) :
    c.isDigit = true :=
  Nat.isDigit_of_mem_toDigits (by decide) (by decide) h

/-- A number has no zero in front of its digits. -/
theorem head?_toDigits_ne_zero {n : Nat} (hn : 0 < n) : (Nat.toDigits 10 n).head? ≠ some '0' := by
  induction n using Nat.strongRecOn with
  | ind n ih =>
    rw [Nat.toDigits_eq_if (by decide)]
    split
    · rename_i hlt
      intro h
      have hzero : n.digitChar = '0' := by simpa using h
      have := Nat.toNat_digitChar_of_lt_ten hlt
      rw [hzero] at this
      simp at this
      omega
    · rw [List.head?_append_of_ne_nil _ Nat.toDigits_ne_nil]
      exact ih (n / 10) (by omega) (by omega)

/-- A whole number is written as its digits, with a minus sign in front when it has one. -/
theorem toList_toString (k : Int) :
    (toString k).toList = (if k < 0 then ['-'] else []) ++ Nat.toDigits 10 k.natAbs := by
  rw [Int.toString_eq_repr, Int.repr_eq_if]
  by_cases hk : k < 0
  · have habs : (-k).toNat = k.natAbs := by omega
    simp [hk, not_le.2 hk, habs]
  · have habs : k.toNat = k.natAbs := by omega
    simp [hk, not_lt.1 hk, habs]

/-- Taking the zeros off the end leaves the digits in front of them. -/
theorem exists_append_zeros (cs : List Char) :
    ∃ k, cs = (cs.reverse.dropWhile (· == '0')).reverse ++ List.replicate k '0' := by
  refine ⟨(cs.reverse.takeWhile (· == '0')).length, ?_⟩
  have hzeros : cs.reverse.takeWhile (· == '0') =
      List.replicate (cs.reverse.takeWhile (· == '0')).length '0' :=
    List.eq_replicate_iff.2 ⟨rfl, fun c hc => by simpa using List.mem_takeWhile_imp hc⟩
  rw [← List.reverse_replicate, ← hzeros, ← List.reverse_append, List.takeWhile_append_dropWhile,
    List.reverse_reverse]

namespace FloatFormat

variable {f : FloatFormat}

/-! ## Layout -/

/-- Digits without a zero in front. -/
structure Significant (ds : List Char) : Prop where
  ne_nil : ds ≠ []
  isDigit : ∀ c ∈ ds, c.isDigit = true
  head : ds.head? ≠ some '0'

/-- A number as the format writes it: with digits in all its parts, and no zero in front of
others. -/
structure Printed (f : FloatFormat) (n : Numeral) : Prop where
  wellFormed : n.WellFormed
  whole : n.whole ≠ []
  leading : n.whole.head? = some '0' → n.whole.length = 1
  fraction : n.fraction ≠ some []
  exponent : ∀ e ∈ n.exponent, e.digits ≠ []
  point : f.wholePoint = true → n.isWhole = false

/-- A number without an exponent. -/
theorem Printed.plain {whole : List Char} {fraction : Option (List Char)} (hne : whole ≠ [])
    (hw : ∀ c ∈ whole, c.isDigit = true) (hlead : whole.head? = some '0' → whole.length = 1)
    (hf : ∀ ds ∈ fraction, ds ≠ [] ∧ ∀ c ∈ ds, c.isDigit = true)
    (hp : f.wholePoint = true → fraction.isSome = true) : Printed f ⟨whole, fraction, none⟩ where
  wellFormed := ⟨hw, fun ds hds => (hf ds hds).2, nofun, nofun, nofun⟩
  whole := hne
  leading := hlead
  fraction := fun h => (hf [] h).1 rfl
  exponent := nofun
  point := fun h => by
    have := hp h
    cases fraction with
    | none => cases this
    | some _ => rfl

theorem isDigit_of_mem_zeros {k : Nat} {c : Char} (h : c ∈ List.replicate k '0') :
    c.isDigit = true := by
  rw [(List.mem_replicate.1 h).2]
  rfl

theorem magnitude_value (n : Numeral) :
    n.value.magnitude = (Numeral.ofDigits n.mantissa : ℚ) *
      10 ^ (n.exponent.elim 0 Numeral.Exponent.value - (n.fraction.getD []).length : ℤ) := rfl

/-- An exponent as it is printed. -/
def printedExponent (k : Int) : Numeral.Exponent :=
  ⟨'e', if k < 0 then some '-' else none, Nat.toDigits 10 k.natAbs⟩

theorem text_printedExponent (k : Int) : (printedExponent k).text = 'e' :: (toString k).toList := by
  rw [toList_toString]
  by_cases hk : k < 0 <;> simp [printedExponent, Numeral.Exponent.text, hk]

theorem value_printedExponent {k : Int} (hk : k.natAbs < 65536) :
    (printedExponent k).value = k := by
  have hmag : (printedExponent k).magnitude = k.natAbs := by
    rw [Numeral.Exponent.magnitude_eq] <;> rw [printedExponent, Numeral.ofDigits_toDigits]
    exact hk
  rw [Numeral.Exponent.value, hmag, printedExponent]
  by_cases hneg : k < 0
  · rw [if_pos hneg, if_pos rfl]
    omega
  · rw [if_neg hneg, if_neg nofun]
    omega

/-- A number with an exponent has one digit in front of the point. -/
theorem Printed.scientific {d : Char} {fraction : Option (List Char)} (hd : d.isDigit = true)
    (hf : ∀ ds ∈ fraction, ds ≠ [] ∧ ∀ c ∈ ds, c.isDigit = true) (k : Int) :
    Printed f ⟨[d], fraction, printedExponent k⟩ where
  wellFormed := by
    refine ⟨by simpa using hd, fun ds hds => (hf ds hds).2, ?_, ?_, ?_⟩
    · rintro _ ⟨⟩
      exact .inl rfl
    · rintro _ ⟨⟩ c hc
      simp only [printedExponent, Option.mem_def, Option.ite_none_right_eq_some] at hc
      exact .inr (Option.some.inj hc.2).symm
    · rintro _ ⟨⟩ c hc
      exact isDigit_of_mem_toDigits hc
  whole := nofun
  leading _ := rfl
  fraction h := (hf [] h).1 rfl
  exponent := by
    rintro _ ⟨⟩
    exact Nat.toDigits_ne_nil
  point _ := by simp [Numeral.isWhole]

/-- The text is a number of the given magnitude, printed in the format. -/
def Shows (f : FloatFormat) (cs : List Char) (magnitude : ℚ) : Prop :=
  ∃ n, Printed f n ∧ n.text = cs ∧ n.value.magnitude = magnitude

section

variable {ds : List Char} (hds : Significant ds)

include hds

theorem shows_pointBefore (k : Nat) :
    Shows f ('0' :: '.' :: List.replicate k '0' ++ ds)
      (Numeral.ofDigits ds * 10 ^ (-(k : ℤ) - ds.length)) := by
  refine ⟨⟨['0'], some (List.replicate k '0' ++ ds), none⟩, ?_, by simp [Numeral.text], ?_⟩
  · refine .plain (List.cons_ne_nil _ _) (by simp) (fun _ => rfl) ?_ (fun _ => rfl)
    rintro _ ⟨⟩
    refine ⟨by simp [hds.ne_nil], fun c hc => ?_⟩
    exact (List.mem_append.1 hc).elim isDigit_of_mem_zeros (hds.isDigit c)
  · have hexp : 0 - ((List.replicate k '0' ++ ds).length : ℤ) = -(k : ℤ) - ds.length := by
      simp only [List.length_append, List.length_replicate, Nat.cast_add]
      omega
    rw [magnitude_value, ← Numeral.ofDigits_zeros_append (k + 1) ds, ← hexp]
    rfl

theorem shows_pointBehind (k : Nat) :
    Shows f (ds ++ List.replicate k '0' ++ if f.wholePoint then ['.', '0'] else [])
      (Numeral.ofDigits ds * 10 ^ k) := by
  have hne : ds ++ List.replicate k '0' ≠ [] := by simp [hds.ne_nil]
  have hdigit : ∀ c ∈ ds ++ List.replicate k '0', c.isDigit = true := fun c hc =>
    (List.mem_append.1 hc).elim (hds.isDigit c) isDigit_of_mem_zeros
  have hlead : (ds ++ List.replicate k '0').head? ≠ some '0' := by
    rw [List.head?_append_of_ne_nil _ hds.ne_nil]
    exact hds.head
  cases hw : f.wholePoint with
  | true =>
    refine ⟨⟨ds ++ List.replicate k '0', some ['0'], none⟩, ?_, by simp [Numeral.text], ?_⟩
    · refine .plain hne hdigit (fun h => absurd h hlead) ?_ (fun _ => rfl)
      rintro _ ⟨⟩
      exact ⟨List.cons_ne_nil _ _, by simp⟩
    · have hmantissa := Numeral.ofDigits_append_zeros ds (k + 1)
      rw [List.replicate_succ', ← List.append_assoc] at hmantissa
      rw [magnitude_value, Numeral.mantissa, Option.getD_some, hmantissa]
      simp
      ring
  | false =>
    refine ⟨⟨ds ++ List.replicate k '0', none, none⟩, ?_, by simp [Numeral.text], ?_⟩
    · exact .plain hne hdigit (fun h => absurd h hlead) (by simp) (fun h => by simp [hw] at h)
    · rw [magnitude_value, Numeral.mantissa, Option.getD_none, List.append_nil,
        Numeral.ofDigits_append_zeros]
      simp
      ring

theorem shows_pointBetween {k : Nat} (hk : 0 < k) (hlt : k < ds.length) :
    Shows f (ds.take k ++ '.' :: ds.drop k) (Numeral.ofDigits ds * 10 ^ ((k : ℤ) - ds.length)) := by
  refine ⟨⟨ds.take k, some (ds.drop k), none⟩, ?_, by simp [Numeral.text], ?_⟩
  · refine .plain ?_ (fun c hc => hds.isDigit c (List.mem_of_mem_take hc)) ?_ ?_ (fun _ => rfl)
    · rw [Ne, List.take_eq_nil_iff]
      exact not_or.2 ⟨hk.ne', hds.ne_nil⟩
    · intro h
      rw [List.head?_take, if_neg hk.ne'] at h
      exact absurd h hds.head
    · rintro _ ⟨⟩
      exact ⟨by simpa using hlt, fun c hc => hds.isDigit c (List.mem_of_mem_drop hc)⟩
  · have hexp : 0 - ((ds.drop k).length : ℤ) = (k : ℤ) - ds.length := by
      rw [List.length_drop]
      omega
    rw [magnitude_value, Numeral.mantissa, Option.getD_some, List.take_append_drop, ← hexp]
    rfl

theorem shows_writeOut (point : Int) :
    Shows f (f.writeOut ds point) (Numeral.ofDigits ds * 10 ^ (point - ds.length)) := by
  simp only [writeOut]
  split
  · rename_i hp
    have h := shows_pointBefore (f := f) hds (-point).toNat
    rwa [show -((-point).toNat : ℤ) = point by omega] at h
  · rename_i hp
    obtain ⟨n, rfl⟩ := Int.eq_ofNat_of_zero_le (not_le.1 hp).le
    simp only [Int.toNat_natCast]
    split
    · have h := shows_pointBehind (f := f) hds (n - ds.length)
      rwa [← zpow_natCast, show ((n - ds.length : ℕ) : ℤ) = n - ds.length by omega] at h
    · exact shows_pointBetween hds (by omega) (by omega)

theorem shows_writeExponent {point : Int} (hlo : -60000 < point) (hhi : point < 60000) :
    Shows f (writeExponent ds point) (Numeral.ofDigits ds * 10 ^ (point - ds.length)) := by
  have hvalue : (printedExponent (point - 1)).value = point - 1 :=
    value_printedExponent (by omega)
  have hexp : Numeral.Exponent.text (printedExponent (point - 1)) = _ := text_printedExponent _
  match ds, hds with
  | [], hds => exact absurd rfl hds.ne_nil
  | [d], hds =>
    refine ⟨⟨[d], none, printedExponent (point - 1)⟩, ?_, ?_, ?_⟩
    · exact .scientific (hds.isDigit d (by simp)) (by simp) _
    · simp [Numeral.text, writeExponent, hexp]
    · rw [magnitude_value, Option.elim_some, hvalue]
      simp [Numeral.mantissa]
  | d :: d' :: rest, hds =>
    refine ⟨⟨[d], some (d' :: rest), printedExponent (point - 1)⟩, ?_, ?_, ?_⟩
    · refine .scientific (hds.isDigit d (by simp)) ?_ _
      rintro _ ⟨⟩
      exact ⟨List.cons_ne_nil _ _, fun c hc => hds.isDigit c (List.mem_cons_of_mem d hc)⟩
    · simp [Numeral.text, writeExponent, hexp]
    · have hlen : point - 1 - ((d' :: rest).length : ℤ) = point - (d :: d' :: rest).length := by
        simp only [List.length_cons, Nat.cast_add]
        omega
      rw [magnitude_value, Option.elim_some, hvalue, Option.getD_some, hlen]
      rfl

end

/-! ## Decimals -/

/-- A decimal's digits without the zeros at their end. -/
theorem exists_significant {n : Nat} (hn : 0 < n) :
    ∃ ds k, Significant ds ∧ Nat.toDigits 10 n = ds ++ List.replicate k '0' ∧
      ((Nat.toDigits 10 n).reverse.dropWhile (· == '0')).reverse = ds := by
  obtain ⟨k, hk⟩ := exists_append_zeros (Nat.toDigits 10 n)
  have hhead := head?_toDigits_ne_zero hn
  generalize ((Nat.toDigits 10 n).reverse.dropWhile (· == '0')).reverse = ds at hk
  have hne : ds ≠ [] := by
    rintro rfl
    cases k with
    | zero => exact Nat.toDigits_ne_nil hk
    | succ k => rw [hk] at hhead; exact hhead rfl
  refine ⟨ds, k, ⟨hne, ?_, ?_⟩, hk, rfl⟩
  · intro c hc
    exact isDigit_of_mem_toDigits (hk ▸ List.mem_append_left _ hc)
  · rwa [hk, List.head?_append_of_ne_nil _ hne] at hhead

/-- Zero is the one number that begins with a zero and goes on without a point. -/
theorem shows_zero : Shows f (f.writeOut ['0'] 1) 0 := by
  have hdigit : ∀ c ∈ ['0'], c.isDigit = true := by simp
  cases hw : f.wholePoint with
  | true =>
    refine ⟨⟨['0'], some ['0'], none⟩, ?_, by simp [writeOut, Numeral.text, hw], ?_⟩
    · refine .plain (List.cons_ne_nil _ _) hdigit (fun _ => rfl) ?_ (fun _ => rfl)
      rintro _ ⟨⟩
      exact ⟨List.cons_ne_nil _ _, hdigit⟩
    · simp [magnitude_value, Numeral.mantissa, Numeral.ofDigits, Numeral.digitValue]
  | false =>
    refine ⟨⟨['0'], none, none⟩, ?_, by simp [writeOut, Numeral.text, hw], ?_⟩
    · exact .plain (List.cons_ne_nil _ _) hdigit (fun _ => rfl) (by simp)
        (fun h => by simp [hw] at h)
    · simp [magnitude_value, Numeral.mantissa, Numeral.ofDigits, Numeral.digitValue]

theorem shows_writeDecimal {d : Decimal} (hlo : -1074 ≤ d.exponent)
    (hhi : Decimal.digitCount d.digits + d.exponent ≤ 3000) :
    Shows f (f.writeDecimal d) d.magnitude := by
  simp only [writeDecimal]
  split
  · rename_i hz
    rw [Decimal.magnitude, hz, Nat.cast_zero, zero_mul]
    exact shows_zero
  · rename_i hz
    obtain ⟨ds, k, hds, hall, htrim⟩ := exists_significant (Nat.pos_of_ne_zero hz)
    have hdigits : d.digits = 10 ^ k * Numeral.ofDigits ds := by
      rw [← Numeral.ofDigits_append_zeros, ← hall, Numeral.ofDigits_toDigits]
    have hlen : (Nat.toDigits 10 d.digits).length = ds.length + k := by simp [hall]
    have hmag : d.magnitude = Numeral.ofDigits ds *
        10 ^ (((Nat.toDigits 10 d.digits).length : ℤ) + d.exponent - ds.length) := by
      have hexp : ((ds.length + k : ℕ) : ℤ) + d.exponent - ds.length = k + d.exponent := by omega
      rw [hlen, hexp, zpow_add₀ (by norm_num), zpow_natCast, Decimal.magnitude, hdigits]
      push_cast
      ring
    have hpos : -1074 ≤ ((Nat.toDigits 10 d.digits).length : ℤ) + d.exponent := by omega
    rw [htrim, hmag]
    rw [Decimal.digitCount] at hhi
    generalize ((Nat.toDigits 10 d.digits).length : ℤ) + d.exponent = point at hpos hhi ⊢
    have either : ∀ isPositional : Bool,
        Shows f (if isPositional then f.writeOut ds point else writeExponent ds point)
          (Numeral.ofDigits ds * 10 ^ (point - ds.length)) := by
      intro isPositional
      cases isPositional with
      | true => exact shows_writeOut hds point
      | false => exact shows_writeExponent hds (by omega) (by omega)
    exact either _

/-! ## Doubles -/

/-- What is written for a finite double is a number that, with its sign, is near to no other. -/
theorem exists_write (f : FloatFormat) {x : Float} (hx : x.isFinite = true) :
    ∃ n, Printed f n ∧
      (f.write x).toList = (if Binary64.isNegative x then '-' :: n.text else n.text) ∧
      Decimal.toFloat ⟨Binary64.isNegative x, n.value.digits, n.value.exponent⟩ = x := by
  obtain ⟨hlo, hhi⟩ := Decimal.shortest_bounds f.tie hx
  obtain ⟨n, hn, htext, hmag⟩ := shows_writeDecimal (f := f) hlo hhi
  have hnan : x.isNaN = false := by
    rw [Bool.eq_false_iff, Ne, Binary64.isNaN_iff]
    exact not_lt.2 (Binary64.isFinite_iff.1 hx).le
  refine ⟨n, hn, ?_, ?_⟩
  · simp only [write, hnan, Bool.false_eq_true, if_false, hx, if_true, String.toList_ofList, htext]
  · have hbits := congrArg Binary64.magnitudeBits (Decimal.toFloat_shortest f.tie hx)
    rw [(Decimal.bits_toFloat _).2] at hbits
    refine Decimal.toFloat_eq rfl ?_
    rw [← hbits]
    exact Decimal.nearestBits_congr hmag

end FloatFormat

end ExprFold
