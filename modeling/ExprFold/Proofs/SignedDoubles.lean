import ExprFold.Proofs.Doubles

/-!
# Signs of doubles

Taking the negative changes the sign and nothing else, and the product with minus one is the
negative (`neg_one_mul`): the significand of such a product has 52 zeros at its end, and rounding
takes just these off again. The negative of an integer's double is the double of the negative
integer, but for the sign of zero (`ofInt_neg`).
-/

open Float.Model Float.Model.UnpackedFloat

namespace ExprFold.Binary64

/-! ## Negatives -/

section
variable {x : Float}

theorem isNaN_iff_unpack_eq : x.isNaN = true ↔ x.toModel.unpack = .notANumber :=
  UnpackedFloat.isNaN_iff

/-- There is one NaN, so its sign cannot change. -/
theorem neg_of_isNaN (hx : x.isNaN = true) : -x = x := by
  have hu : x.toModel.unpack = .notANumber := isNaN_iff_unpack_eq.1 hx
  have hpack : UnpackedFloat.pack .binary64 x.toModel.unpack = x.toBits.toBitVec :=
    pack_unpack_of_valid x.toModel.valid
  have hneg : (-x).toBits.toBitVec = UnpackedFloat.pack .binary64 x.toModel.unpack.neg := rfl
  refine Float.toBits_inj.1 (UInt64.toBitVec_inj.1 ?_)
  rw [hneg, ← hpack, hu]
  rfl

theorem magnitudeBits_le (hx : x.isNaN = false) : magnitudeBits x ≤ infinityBits := by
  have h := isNaN_iff.not.1 (Bool.eq_false_iff.1 hx)
  omega

theorem neg_neg (x : Float) : -(-x) = x := by
  cases hx : x.isNaN with
  | true => rw [neg_of_isNaN hx, neg_of_isNaN hx]
  | false =>
    obtain ⟨hs, hm⟩ := bits_neg (magnitudeBits_le hx)
    obtain ⟨hs', hm'⟩ := bits_neg (hm ▸ magnitudeBits_le hx)
    exact eq_of_bits (by rw [hs', hs, Bool.not_not]) (by rw [hm', hm])

theorem isFinite_neg (hx : x.isFinite = true) : (-x).isFinite = true := by
  have hlt := isFinite_iff.1 hx
  rw [isFinite_iff, (bits_neg hlt.le).2]
  exact hlt

end

/-! ## Equal numbers -/

/-- The two stand for the same number, zero having no sign, or neither is a number. -/
def SameNumber (x y : Float) : Prop := (x == y) = true ∨ (x.isNaN = true ∧ y.isNaN = true)

theorem SameNumber.refl (x : Float) : SameNumber x x := by
  cases hx : x.isNaN with
  | true => exact .inr ⟨hx, hx⟩
  | false =>
    have hu : x.toModel.unpack ≠ .notANumber :=
      isNaN_iff_unpack_eq.not.1 (Bool.eq_false_iff.1 hx)
    exact .inl ((beq_iff_ne_notANumber_and_eq _ _).2 ⟨hu, hu, .inl rfl⟩)

theorem SameNumber.of_eq {x y : Float} (h : x = y) : SameNumber x y := h ▸ .refl x

/-- Only zero has no negative integer. -/
theorem ofInt_neg (n : Int) : SameNumber (Float.ofInt (-n)) (-Float.ofInt n) := by
  match n with
  | .ofNat 0 => exact .inl (by decide +kernel)
  | .ofNat (n + 1) => exact .of_eq rfl
  | .negSucc n => exact .of_eq (neg_neg _).symm

/-! ## Products with minus one -/

/-- Shifting zeros out to the right loses nothing. -/
theorem shiftRight_exact (m n : Nat) :
    (⟨m * 2 ^ n, false, false⟩ : ExtendedMantissa) >>> n = ⟨m, false, false⟩ := by
  show Nat.repeat ExtendedMantissa.shiftRightOne n _ = _
  induction n generalizing m with
  | zero => rw [Nat.pow_zero, Nat.mul_one]; rfl
  | succ n ih =>
    have hm : m * 2 ^ (n + 1) = m * 2 * 2 ^ n := by rw [Nat.pow_succ', Nat.mul_assoc]
    rw [Nat.repeat, hm, ih (m * 2)]
    simp [ExtendedMantissa.shiftRightOne]

/-- With zeros at its end a significand keeps the exponent that it is rounded to. -/
theorem targetExponent_significand {m : Nat} (hm : m ≠ 0) (k : Nat) :
    Format.binary64.targetExponent (totalExponent (significand m * 2 ^ k) (scale m - 1074 - k)) =
      scale m - 1074 := by
  have hpos := significand_pos hm
  have hlog : (significand m * 2 ^ k).log2 = (significand m).log2 + k := by
    rw [Nat.log2_eq_iff (Nat.mul_ne_zero hpos.ne' (Nat.two_pow_pos k).ne'),
      Nat.add_right_comm, Nat.pow_add, Nat.pow_add]
    exact ⟨Nat.mul_le_mul_right _ (Nat.log2_self_le hpos.ne'),
      Nat.mul_lt_mul_of_pos_right Nat.lt_log2_self (Nat.two_pow_pos k)⟩
  have hscale : scale m = m / 2 ^ 52 - 1 := rfl
  simp only [Format.targetExponent, totalExponent, hlog, Format.mantissaBits, Format.minExponent]
  by_cases hn : 2 ^ 52 ≤ m
  · rw [(log2_significand hm).2 hn]
    omega
  · have hlt : (significand m).log2 < 52 := by
      have hsig : significand m = m := if_pos (Nat.not_le.1 hn)
      rw [hsig]
      exact (Nat.log2_lt hm).2 (Nat.not_le.1 hn)
    omega

/-- A significand with zeros at its end is rounded to the significand. -/
theorem roundWithAccuracy_significand (s : Sign) {m : Nat} (hm : m ≠ 0) (k : Nat) :
    roundWithAccuracy .binary64 s (significand m * 2 ^ k) (scale m - 1074 - k) .exact =
      .finite s (significand m) (scale m - 1074) (significand_pos hm) := by
  have hfirst :
      shiftToTargetExponent .binary64 (significand m * 2 ^ k) (scale m - 1074 - k) .exact =
      (ExtendedMantissa.mk (significand m) false false, (scale m : Int) - 1074) := by
    have hshift : ((scale m : Int) - 1074 - (scale m - 1074 - k)).toNat = k := by omega
    simp only [shiftToTargetExponent, targetExponent_significand hm, shiftToExponent, hshift,
      ExtendedMantissa.ofMantissaAndAccuracy, shiftRight_exact]
    congr 1
    omega
  have hsecond : shiftToTargetExponent .binary64 (significand m) (scale m - 1074) .exact =
      (ExtendedMantissa.mk (significand m) false false, (scale m : Int) - 1074) := by
    have h := targetExponent_significand hm 0
    rw [Nat.pow_zero, Nat.mul_one, Int.natCast_zero, Int.sub_zero] at h
    have hshift := shiftRight_exact (significand m) 0
    rw [Nat.pow_zero, Nat.mul_one] at hshift
    simp only [shiftToTargetExponent, h, shiftToExponent, Int.sub_self, Int.toNat_zero,
      ExtendedMantissa.ofMantissaAndAccuracy, hshift, Int.natCast_zero, Int.add_zero]
  simp only [roundWithAccuracy, hfirst, ExtendedMantissa.roundedMantissa,
    ExtendedMantissa.accuracy, Accuracy.roundToNearestEven, hsecond]
  rw [dif_neg (significand_pos hm).ne']

theorem mul_signOf (negative : Bool) : Sign.negative * signOf negative = -signOf negative := by
  cases negative <;> rfl

theorem mul_unpacked (negative : Bool) (m : Nat) :
    UnpackedFloat.mul .binary64 (.finite .negative (2 ^ 52) (-52) (by decide))
      (unpacked negative m) = (unpacked negative m).neg := by
  rw [unpacked]
  split
  · rw [UnpackedFloat.mul, mul_signOf, UnpackedFloat.neg]
  · rename_i hm
    split
    · have hexp : (-52 : Int) + (scale m - 1074) = scale m - 1074 - (52 : Nat) := by omega
      rw [UnpackedFloat.mul, mul_signOf, Nat.mul_comm, hexp,
        roundWithAccuracy_significand _ hm, UnpackedFloat.neg]
    · split
      · rw [UnpackedFloat.mul, mul_signOf, UnpackedFloat.neg]
      · rfl

/-- The product with minus one is the negative. -/
theorem neg_one_mul (x : Float) : Float.ofInt (-1) * x = -x := by
  have hone : (Float.ofInt (-1)).toModel.unpack =
      .finite .negative (2 ^ 52) (-52) (by decide) := rfl
  have hmul : UnpackedFloat.mul .binary64 (Float.ofInt (-1)).toModel.unpack x.toModel.unpack =
      x.toModel.unpack.neg := by
    rw [hone, toModel_unpack, mul_unpacked]
  exact congrArg (fun u => Float.ofModel (.pack u)) hmul

end ExprFold.Binary64
