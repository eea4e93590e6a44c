import ExprFold.Proofs.Rounding

/-!
# Where doubles end

A quotient rounds to a finite double just when it lies below `2 ^ 1024 - 2 ^ 970`, which is half a
unit of the last place past the largest finite double (`Binary64.nearest_lt_infinityBits_iff`); at
that bound the tie goes up, for the largest significand is odd. So a decimal has a finite double
just when its magnitude is below the bound: `Decimal.isFinite_toFloat_iff`.
-/

namespace ExprFold

namespace Binary64

/-! ## Bounds of a rounded quotient -/

/-- What lies below half a unit past `m` rounds to `m` at most. -/
theorem roundHalfEven_le {n d m : Nat} (h : 2 * n < (2 * m + 1) * d) : roundHalfEven n d ≤ m := by
  have hd : 0 < d := by
    rcases Nat.eq_zero_or_pos d with rfl | hd
    · simp at h
    · exact hd
  have hdiv := Nat.div_add_mod n d
  have hmod := Nat.mod_lt n hd
  have hle : n / d ≤ m := by
    refine Nat.lt_succ_iff.1 ((Nat.div_lt_iff_lt_mul hd).2 ?_)
    rw [Nat.succ_mul]
    rw [Nat.add_mul, Nat.mul_assoc] at h
    omega
  simp only [roundHalfEven]
  rcases Nat.lt_or_eq_of_le hle with hlt | heq
  · split
    · omega
    · split <;> omega
  · have hhalf : 2 * (n % d) < d := by
      rw [← heq, Nat.add_mul, Nat.mul_assoc, Nat.mul_comm (n / d)] at h
      omega
    rw [if_pos hhalf, heq]

/-- What lies at half a unit before an even `m` or beyond rounds to `m` at least. -/
theorem le_roundHalfEven {n d m : Nat} (hd : 0 < d) (hm : m % 2 = 0)
    (h : 2 * (m * d) ≤ 2 * n + d) : m ≤ roundHalfEven n d := by
  have hdiv := Nat.div_add_mod n d
  simp only [roundHalfEven]
  by_cases hle : m ≤ n / d
  · split
    · exact hle
    · split <;> omega
  · -- the whole part is the odd number before `m`
    have hbelow : m - 1 ≤ n / d := by
      refine (Nat.le_div_iff_mul_le hd).2 ?_
      rw [Nat.sub_mul]
      omega
    have heq : m = n / d + 1 := by omega
    have hhalf : d ≤ 2 * (n % d) := by
      rw [heq, Nat.add_mul, Nat.mul_comm (n / d)] at h
      omega
    rw [if_neg (by omega)]
    split
    · omega
    · omega

/-! ## The largest finite double -/

section
variable {n d k : Nat}

/-- The power of two under the significand of a quotient, from above. -/
theorem lt_of_log2_div (hd : 0 < d) (hk : (n / d).log2 - 52 ≤ k) : n < 2 ^ (k + 53) * d := by
  refine (Nat.div_lt_iff_lt_mul hd).1 (Nat.lt_log2_self.trans_le ?_)
  exact Nat.pow_le_pow_right Nat.two_pos (by omega)

/-- The same from below. -/
theorem le_of_log2_div (hd : 0 < d) (hk : k ≤ (n / d).log2 - 52) (hpos : 0 < k) :
    2 ^ (k + 52) * d ≤ n := by
  refine (Nat.le_div_iff_mul_le hd).1 ?_
  have hne : n / d ≠ 0 := by
    intro h
    rw [h, Nat.log2_zero] at hk
    omega
  exact (Nat.pow_le_pow_right Nat.two_pos (by omega)).trans (Nat.log2_self_le hne)

end

/-- With the power of two under its significand at most `e + 1`, a quotient lies below the next
power by half a unit or more, just when its pattern does not reach that power. -/
theorem pattern_lt_iff {n d k : Nat} (e : Nat) (hd : 0 < d) (hk : (n / d).log2 - 52 = k) :
    k * 2 ^ 52 + roundHalfEven n (d * 2 ^ k) < (e + 3) * 2 ^ 52 ↔
      n < (2 ^ 54 - 1) * (2 ^ e * d) := by
  have hpos : 0 < d * 2 ^ k := Nat.mul_pos hd (Nat.two_pow_pos k)
  rcases Nat.lt_trichotomy k (e + 1) with hlt | rfl | hgt
  · -- far below the bound
    have hn := lt_of_log2_div hd hk.le
    have hround : roundHalfEven n (d * 2 ^ k) ≤ 2 ^ 53 := by
      refine roundHalfEven_le ?_
      rw [Nat.pow_add, Nat.mul_comm _ d, ← Nat.mul_assoc] at hn
      omega
    have hpow : 2 ^ (k + 53) * d ≤ 2 ^ 53 * (2 ^ e * d) := by
      rw [← Nat.mul_assoc, ← Nat.pow_add]
      exact Nat.mul_le_mul_right d (Nat.pow_le_pow_right Nat.two_pos (by omega))
    constructor <;> intro _ <;> omega
  · -- the last power of two decides by its significand
    have hdouble : d * 2 ^ (e + 1) = 2 * (2 ^ e * d) := by
      rw [Nat.pow_succ, Nat.mul_comm d, Nat.mul_right_comm, Nat.mul_comm]
    rw [hdouble] at hpos ⊢
    constructor
    · intro h
      by_contra hge
      have hround : 2 ^ 53 ≤ roundHalfEven n (2 * (2 ^ e * d)) :=
        le_roundHalfEven hpos (by decide) (by omega)
      omega
    · intro h
      have hround : roundHalfEven n (2 * (2 ^ e * d)) ≤ 2 ^ 53 - 1 := roundHalfEven_le (by omega)
      omega
  · -- past the bound
    have hn : 2 ^ (k + 52) * d ≤ n := le_of_log2_div hd hk.ge (by omega)
    have hround : 2 ^ 52 ≤ roundHalfEven n (d * 2 ^ k) := by
      refine le_roundHalfEven hpos (by decide) ?_
      rw [Nat.pow_add, Nat.mul_comm _ d, ← Nat.mul_assoc, Nat.mul_comm _ (2 ^ 52)] at hn
      omega
    have hpow : 2 ^ 54 * (2 ^ e * d) ≤ 2 ^ (k + 52) * d := by
      rw [← Nat.mul_assoc, ← Nat.pow_add]
      exact Nat.mul_le_mul_right d (Nat.pow_le_pow_right Nat.two_pos (by omega))
    constructor <;> intro _ <;> omega

/-- A quotient rounds to a finite pattern just when it lies below the bound. -/
theorem nearest_lt_infinityBits_iff {n d : Nat} (hd : 0 < d) :
    nearest n d < infinityBits ↔ n < (2 ^ 54 - 1) * (2 ^ 970 * d) := by
  have hunits : n < (2 ^ 54 - 1) * (2 ^ 970 * d) ↔
      n * unitsPerOne < (2 ^ 54 - 1) * (2 ^ 2044 * d) := by
    have hpow : 2 ^ 2044 = 2 ^ 970 * unitsPerOne := by
      rw [show 2044 = 970 + 1074 from rfl]
      unfold unitsPerOne
      generalize 970 = M
      generalize 1074 = N
      exact Nat.pow_add 2 M N
    rw [hpow, Nat.mul_right_comm (2 ^ 970), ← Nat.mul_assoc _ _ unitsPerOne,
      Nat.mul_lt_mul_right unitsPerOne_pos]
  rw [hunits, ← pattern_lt_iff 2044 hd rfl]
  simp only [nearest, infinityBits_eq, Nat.pow_eq]
  omega

end Binary64

namespace Decimal

/-- The least magnitude that rounds to infinity. -/
def overflow : ℚ := 2 ^ 1024 - 2 ^ 970

/-- A decimal has a finite double just when its magnitude is below the bound. -/
theorem isFinite_toFloat_iff (d : Decimal) : d.toFloat.isFinite = true ↔ d.magnitude < overflow := by
  have hden : (0 : ℚ) < d.ratio.2 := Nat.cast_pos.2 d.ratio_pos
  have hbound : (((2 ^ 54 - 1) * (2 ^ 970 * d.ratio.2) : ℕ) : ℚ) = overflow * d.ratio.2 := by
    rw [overflow, show 1024 = 54 + 970 from rfl, pow_add]
    generalize 970 = N
    push_cast
    ring
  rw [Binary64.isFinite_iff, (d.bits_toFloat).2, nearestBits,
    Binary64.nearest_lt_infinityBits_iff d.ratio_pos, ← ratio_div, div_lt_iff₀ hden, ← hbound,
    Nat.cast_lt]

end Decimal

end ExprFold
