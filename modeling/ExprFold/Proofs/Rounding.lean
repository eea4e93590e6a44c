import ExprFold.Decimal.Shortest
import ExprFold.Proofs.Doubles

/-!
# Rounding to the nearest double, and back

`Decimal.magnitude` is the number that a decimal is. The nearest double depends on nothing else
(`Decimal.nearestBits_congr`), the exact decimal of a finite double has that double's magnitude
(`Decimal.magnitude_ofFloat`), and so the decimal that a finite double is printed as reads back as
the double (`Decimal.toFloat_shortest`).
-/

namespace ExprFold

namespace Binary64

/-! ## The nearest double -/

theorem roundHalfEven_mul_left {c : Nat} (hc : 0 < c) (n d : Nat) :
    roundHalfEven (c * n) (c * d) = roundHalfEven n d := by
  have hlt : 2 * (c * (n % d)) < c * d ↔ 2 * (n % d) < d := by
    rw [Nat.mul_left_comm, Nat.mul_lt_mul_left hc]
  have hgt : c * d < 2 * (c * (n % d)) ↔ d < 2 * (n % d) := by
    rw [Nat.mul_left_comm, Nat.mul_lt_mul_left hc]
  simp only [roundHalfEven, Nat.mul_div_mul_left _ _ hc, Nat.mul_mod_mul_left, hlt, hgt]

theorem roundHalfEven_mul_right {d : Nat} (hd : 0 < d) (n : Nat) :
    roundHalfEven (n * d) d = n := by
  simp [roundHalfEven, Nat.mul_div_cancel _ hd, hd]

theorem nearest_mul_left {c : Nat} (hc : 0 < c) (n d : Nat) :
    nearest (c * n) (c * d) = nearest n d := by
  simp only [nearest, Nat.mul_assoc, Nat.mul_div_mul_left _ _ hc, roundHalfEven_mul_left hc]

/-- Only the quotient matters. -/
theorem nearest_congr {n d n' d' : Nat} (hd : 0 < d) (hd' : 0 < d')
    (h : (n / d : ℚ) = n' / d') : nearest n d = nearest n' d' := by
  have hcross : d' * n = d * n' := by
    rw [div_eq_div_iff (Nat.cast_ne_zero.2 hd.ne') (Nat.cast_ne_zero.2 hd'.ne')] at h
    rw [Nat.mul_comm d' n, Nat.mul_comm d n']
    exact_mod_cast h
  rw [← nearest_mul_left hd' n d, ← nearest_mul_left hd n' d', hcross, Nat.mul_comm d d']

theorem nearest_le (n d : Nat) : nearest n d ≤ infinityBits := Nat.min_le_right _ _

theorem unitsPerOne_pos : 0 < unitsPerOne := by
  unfold unitsPerOne
  generalize 1074 = N
  exact Nat.pow_pos Nat.two_pos

theorem units_eq (m : Nat) : units m = significand m * 2 ^ scale m := rfl

theorem scale_mul_add_significand (m : Nat) : scale m * 2 ^ 52 + significand m = m := by
  simp only [scale, significand, Nat.pow_eq]
  split <;> omega

/-- The power of two is read off the length of the magnitude. -/
theorem log2_units {m : Nat} (hm : m ≠ 0) : (units m).log2 - 52 = scale m := by
  have hpos := significand_pos hm
  have hscale : scale m = m / 2 ^ 52 - 1 := rfl
  by_cases hn : 2 ^ 52 ≤ m
  · obtain ⟨hlo, hhi⟩ := (Nat.log2_eq_iff (by omega)).1 ((log2_significand hm).2 hn)
    have hlog : (units m).log2 = 52 + scale m := by
      rw [units_eq, Nat.log2_eq_iff (Nat.ne_of_gt (Nat.mul_pos hpos (Nat.two_pow_pos _))),
        Nat.add_right_comm, Nat.pow_add, Nat.pow_add]
      exact ⟨Nat.mul_le_mul_right _ hlo, Nat.mul_lt_mul_of_pos_right hhi (Nat.two_pow_pos _)⟩
    omega
  · have hzero : scale m = 0 := by omega
    have hunits : units m = m := by
      rw [units_eq, hzero, significand, Nat.pow_eq, if_pos (by omega), Nat.pow_zero, Nat.mul_one]
    have hlog : m.log2 < 52 := (Nat.log2_lt hm).2 (by omega)
    rw [hunits]
    omega

/-- The magnitude that a pattern of a double stands for is nearest to itself. -/
theorem nearest_units {m : Nat} (hm : m < infinityBits) : nearest (units m) unitsPerOne = m := by
  by_cases hz : m = 0
  · subst hz
    decide +kernel
  have hpos : 0 < unitsPerOne * 2 ^ scale m := Nat.mul_pos unitsPerOne_pos (Nat.two_pow_pos _)
  have hmul : units m * unitsPerOne = significand m * (unitsPerOne * 2 ^ scale m) := by
    rw [units_eq, Nat.mul_assoc, Nat.mul_comm unitsPerOne]
  simp only [nearest, Nat.mul_div_cancel _ unitsPerOne_pos, log2_units hz, Nat.pow_eq]
  rw [hmul, roundHalfEven_mul_right hpos, scale_mul_add_significand, Nat.min_eq_left hm.le]

end Binary64

namespace Decimal

/-! ## The number that a decimal is -/

/-- The magnitude, as a rational number. -/
def magnitude (d : Decimal) : ℚ := d.digits * 10 ^ d.exponent

theorem ratio_pos (d : Decimal) : 0 < d.ratio.2 := by
  unfold ratio
  split
  · exact Nat.one_pos
  · exact Nat.pow_pos (by decide)

theorem ratio_div (d : Decimal) : (d.ratio.1 / d.ratio.2 : ℚ) = d.magnitude := by
  obtain ⟨_, n, e⟩ := d
  cases e with
  | ofNat e => simp [ratio, magnitude]
  | negSucc e => simp [ratio, magnitude, div_eq_mul_inv, zpow_negSucc]

/-- Decimals of the same magnitude are near to the same double. -/
theorem nearestBits_congr {d d' : Decimal} (h : d.magnitude = d'.magnitude) :
    d.nearestBits = d'.nearestBits :=
  Binary64.nearest_congr d.ratio_pos d'.ratio_pos (by rw [ratio_div, ratio_div, h])

theorem nearestBits_eq_of_units {d : Decimal} {m : Nat} (hm : m < Binary64.infinityBits)
    (h : d.magnitude = Binary64.units m / Binary64.unitsPerOne) : d.nearestBits = m := by
  rw [← Binary64.nearest_units hm]
  exact Binary64.nearest_congr d.ratio_pos Binary64.unitsPerOne_pos (by rw [ratio_div, h])

theorem bits_toFloat (d : Decimal) :
    Binary64.isNegative d.toFloat = d.negative ∧
      Binary64.magnitudeBits d.toFloat = d.nearestBits := by
  have hle : d.nearestBits ≤ Binary64.infinityBits := Binary64.nearest_le _ _
  obtain ⟨hs, hm⟩ := Binary64.bits_ofMagnitudeBits hle
  simp only [toFloat]
  cases d.negative with
  | false => exact ⟨hs, hm⟩
  | true =>
    obtain ⟨hs', hm'⟩ := Binary64.bits_neg (hm.trans_le hle)
    exact ⟨by rw [if_pos rfl, hs', hs]; rfl, by rw [if_pos rfl, hm', hm]⟩

/-- A decimal reads as the double whose sign it has and whose magnitude it is near to. -/
theorem toFloat_eq {d : Decimal} {x : Float} (hs : d.negative = Binary64.isNegative x)
    (hm : d.nearestBits = Binary64.magnitudeBits x) : d.toFloat = x := by
  obtain ⟨hs', hm'⟩ := d.bits_toFloat
  exact Binary64.eq_of_bits (hs'.trans hs) (hm'.trans hm)

/-! ## The decimal that a double is -/

theorem magnitude_ofFloat (x : Float) :
    (ofFloat x).magnitude =
      Binary64.units (Binary64.magnitudeBits x) / Binary64.unitsPerOne := by
  simp only [ofFloat, Binary64.units]
  unfold Binary64.unitsPerOne
  generalize Binary64.significand (Binary64.magnitudeBits x) = s
  generalize Binary64.scale (Binary64.magnitudeBits x) = k
  generalize 1074 = N
  simp only [Nat.pow_eq]
  split
  · rename_i h
    have hpow : (2 : ℚ) ^ k = 2 ^ (k - N) * 2 ^ N := by rw [← pow_add, Nat.sub_add_cancel h]
    simp only [magnitude, Nat.cast_mul, Nat.cast_pow, Nat.cast_ofNat, zpow_zero, hpow]
    field_simp
  · rename_i h
    have hpow : (2 : ℚ) ^ N = 2 ^ k * 2 ^ (N - k) := by
      rw [← pow_add, Nat.add_sub_cancel' (by omega)]
    have hten : (10 : ℚ) ^ (N - k) = 2 ^ (N - k) * 5 ^ (N - k) := by rw [← mul_pow]; norm_num
    simp only [magnitude, Nat.cast_mul, Nat.cast_pow, Nat.cast_ofNat, zpow_neg, zpow_natCast, hpow,
      hten]
    field_simp

/-! ## The decimal that a double is printed as -/

theorem negative_of_mem_candidates {tie : Tie} {d d' : Decimal} {drop : Nat}
    (h : d' ∈ candidates tie d drop) : d'.negative = d.negative := by
  obtain ⟨n, -, rfl⟩ := List.mem_map.1 h
  rfl

/-- What is printed for a double is the double that it is exactly, or has been found near to it. -/
theorem shortest_cases (tie : Tie) (x : Float) :
    shortest tie x = ofFloat x ∨
      (∃ drop ≤ digitCount (ofFloat x).digits, shortest tie x ∈ candidates tie (ofFloat x) drop) ∧
        (shortest tie x).nearestBits = Binary64.magnitudeBits x := by
  simp only [shortest]
  cases hf : (List.range 17).findSome? fun i =>
    (candidates tie (ofFloat x) (digitCount (ofFloat x).digits - (i + 1))).find? fun d =>
      d.nearestBits == Binary64.magnitudeBits x with
  | none => exact .inl rfl
  | some d =>
    obtain ⟨i, -, hi⟩ := List.exists_of_findSome?_eq_some hf
    refine .inr ⟨⟨_, Nat.sub_le _ _, List.mem_of_find?_eq_some hi⟩, ?_⟩
    simpa using List.find?_some hi

theorem negative_shortest (tie : Tie) (x : Float) :
    (shortest tie x).negative = Binary64.isNegative x := by
  have hexact : (ofFloat x).negative = Binary64.isNegative x := by
    simp only [ofFloat]
    split <;> rfl
  rcases shortest_cases tie x with h | ⟨⟨drop, -, h⟩, -⟩
  · rw [h, hexact]
  · rw [negative_of_mem_candidates h, hexact]

/-- What is printed for a finite double reads back as it. -/
theorem toFloat_shortest (tie : Tie) {x : Float} (hx : x.isFinite = true) :
    (shortest tie x).toFloat = x := by
  refine toFloat_eq (negative_shortest tie x) ?_
  rcases shortest_cases tie x with h | ⟨-, h⟩
  · rw [h]
    exact nearestBits_eq_of_units (Binary64.isFinite_iff.1 hx) (magnitude_ofFloat x)
  · exact h

/-! ## How long the printed decimals are

The bounds are wide; what matters is that exponents stay far below the number from which on their
digits are no longer read.
-/

theorem digitCount_le {n k : Nat} (hk : 0 < k) (hn : n < 10 ^ k) : digitCount n ≤ k :=
  (Nat.length_toDigits_le_iff (by decide) hk).2 hn

theorem lt_ten_pow {s b e N : Nat} (hs : s < 2 ^ 53) (hb : 0 < b) (hb' : b ≤ 10) (he : e ≤ N) :
    s * b ^ e < 10 ^ (53 + N) := by
  calc s * b ^ e < 10 ^ 53 * b ^ e := by
        exact Nat.mul_lt_mul_of_pos_right (hs.trans (by decide)) (Nat.pow_pos hb)
    _ ≤ 10 ^ 53 * 10 ^ N :=
        Nat.mul_le_mul_left _
          ((Nat.pow_le_pow_left hb' e).trans (Nat.pow_le_pow_right (by decide) he))
    _ = 10 ^ (53 + N) := (Nat.pow_add ..).symm

theorem ofFloat_bounds {x : Float} (hx : x.isFinite = true) :
    (ofFloat x).digits < 10 ^ (53 + 1074) ∧
      -1074 ≤ (ofFloat x).exponent ∧ (ofFloat x).exponent ≤ 0 := by
  rw [Binary64.isFinite_iff, Binary64.infinityBits_eq] at hx
  have hs : Binary64.significand (Binary64.magnitudeBits x) < 2 ^ 53 := by
    simp only [Binary64.significand, Nat.pow_eq]
    split <;> omega
  have hk : Binary64.scale (Binary64.magnitudeBits x) ≤ 2045 := by
    simp only [Binary64.scale, Nat.pow_eq]
    omega
  simp only [ofFloat]
  split
  · refine ⟨lt_ten_pow hs (by decide) (by decide) (by omega), ?_, ?_⟩ <;> dsimp only <;> omega
  · refine ⟨lt_ten_pow hs (by decide) (by decide) (by omega), ?_, ?_⟩ <;> dsimp only <;> omega

theorem le_of_mem_neighbours {tie : Tie} {n drop m : Nat} (h : m ∈ neighbours tie n drop) :
    m ≤ n + 1 := by
  unfold neighbours at h
  extract_lets below _ belowFirst at h
  have hbelow : below ≤ n := Nat.div_le_self _ _
  have hcases : m = below ∨ m = below + 1 := by
    split at h
    · simpa using h
    · simpa [or_comm] using h
  omega

theorem bounds_of_mem_candidates {tie : Tie} {d d' : Decimal} {drop : Nat}
    (h : d' ∈ candidates tie d drop) :
    d'.digits ≤ d.digits + 1 ∧ d'.exponent = d.exponent + drop := by
  obtain ⟨n, hn, rfl⟩ := List.mem_map.1 h
  exact ⟨le_of_mem_neighbours hn, rfl⟩

theorem shortest_bounds (tie : Tie) {x : Float} (hx : x.isFinite = true) :
    -1074 ≤ (shortest tie x).exponent ∧
      digitCount (shortest tie x).digits + (shortest tie x).exponent ≤ 3000 := by
  obtain ⟨hd, he, he'⟩ := ofFloat_bounds hx
  generalize hN : 53 + 1074 = N at hd
  have hlen : digitCount (ofFloat x).digits ≤ N := digitCount_le (by omega) hd
  rcases shortest_cases tie x with h | ⟨⟨drop, hdrop, h⟩, -⟩
  · rw [h]
    omega
  · obtain ⟨hd', hexp⟩ := bounds_of_mem_candidates h
    have hlen' : digitCount (shortest tie x).digits ≤ N + 1 := by
      refine digitCount_le (by omega) ?_
      calc (shortest tie x).digits ≤ 10 ^ N := by omega
        _ < 10 ^ (N + 1) := Nat.pow_lt_pow_right (by decide) (Nat.lt_succ_self _)
    omega

end Decimal

end ExprFold
