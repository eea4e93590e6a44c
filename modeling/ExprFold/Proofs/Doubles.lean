import ExprFold.Decimal.Basic
import Mathlib

/-!
# Doubles by their bits

A double is its sign and the pattern of its magnitude, and a pattern past `infinityBits` is that of
the one NaN. This is read off the logical model of `Float`: taking the bits apart (`unpack_eq`) and
putting them together again (`toNat_pack_unpacked`) are worked out once, and what is said here about
a `Float` is said in `isNegative` and `magnitudeBits` from then on.
-/

open Float.Model Float.Model.UnpackedFloat

namespace ExprFold.Binary64

theorem infinityBits_eq : infinityBits = 2047 * 2 ^ 52 := by decide

/-! ## The three fields -/

section Fields

variable (b : BitVec Format.binary64.numBits)

/-- All bits but the sign. -/
def pattern : Nat := b.toNat % Nat.pow 2 63

theorem pattern_lt : pattern b < 2 ^ 63 := Nat.mod_lt _ (by decide)

theorem toNat_unpackMantissa : (unpackMantissa b).toNat = pattern b % 2 ^ 52 := by
  simp [unpackMantissa, BitVec.extractLsb, pattern]

theorem toNat_unpackExponent : (unpackExponent b).toNat = pattern b / 2 ^ 52 := by
  simp [unpackExponent, BitVec.extractLsb, Nat.shiftRight_eq_div_pow, pattern]
  omega

/-- A significand with the bit that is not written. -/
theorem toNat_implicit : (1#1 ++ unpackMantissa b).toNat = 2 ^ 52 + pattern b % 2 ^ 52 := by
  rw [BitVec.toNat_append, ← Nat.shiftLeft_add_eq_or_of_lt (unpackMantissa b).isLt,
    toNat_unpackMantissa]
  rfl

def signOf (negative : Bool) : Sign := if negative then .negative else .positive

theorem signOf_not (negative : Bool) : signOf (!negative) = -signOf negative := by
  cases negative <;> rfl

theorem toNat_signOf (negative : Bool) : (signOf negative).toBitVec.toNat = negative.toNat := by
  cases negative <;> rfl

theorem ofBitVec_unpackSign : Sign.ofBitVec (unpackSign b) = signOf (Nat.pow 2 63 ≤ b.toNat) := by
  have hb : b.toNat < 2 ^ 64 := b.isLt
  have hsign : (unpackSign b).toNat = b.toNat / 2 ^ 63 := by
    simp [unpackSign, BitVec.extractLsb, Nat.shiftRight_eq_div_pow]
    omega
  have hzero : unpackSign b = 0#1 ↔ ¬Nat.pow 2 63 ≤ b.toNat := by
    rw [← BitVec.toNat_inj, hsign, Nat.pow_eq]
    show _ = 0 ↔ _
    omega
  by_cases h : Nat.pow 2 63 ≤ b.toNat <;> simp [Sign.ofBitVec, signOf, hzero, h]

theorem toNat_packComponents (s : Sign) (e : BitVec 11) (m : BitVec 52) :
    (packComponents .binary64 s e m).toNat =
      s.toBitVec.toNat * 2 ^ 63 + e.toNat * 2 ^ 52 + m.toNat := by
  have he := e.isLt
  have hm := m.isLt
  rw [packComponents, BitVec.toNat_append, BitVec.toNat_append,
    ← Nat.shiftLeft_add_eq_or_of_lt he, ← Nat.shiftLeft_add_eq_or_of_lt hm]
  simp only [Nat.shiftLeft_eq]
  omega

end Fields

/-! ## Taking apart and putting together -/

theorem significand_pos {m : Nat} (hm : m ≠ 0) : 0 < significand m := by
  simp only [significand, Nat.pow_eq]
  split <;> omega

/-- A significand takes 53 bits, but for the smallest magnitudes. -/
theorem log2_significand {m : Nat} (hm : m ≠ 0) : (significand m).log2 = 52 ↔ 2 ^ 52 ≤ m := by
  rw [Nat.log2_eq_iff (Nat.ne_of_gt (significand_pos hm))]
  simp only [significand, Nat.pow_eq]
  split <;> omega

/-- The double that a sign and the pattern of a magnitude stand for. -/
def unpacked (negative : Bool) (m : Nat) : UnpackedFloat :=
  if hz : m = 0 then .zero (signOf negative)
  else if m < infinityBits then
    .finite (signOf negative) (significand m) (scale m - 1074) (significand_pos hz)
  else if m = infinityBits then .infinity (signOf negative)
  else .notANumber

theorem neg_unpacked (negative : Bool) (m : Nat) :
    (unpacked negative m).neg = unpacked (!negative) m := by
  simp only [unpacked, signOf_not]
  split
  · rfl
  split
  · rfl
  split <;> rfl

theorem unpack_eq (b : BitVec Format.binary64.numBits) :
    UnpackedFloat.unpack .binary64 b = unpacked (Nat.pow 2 63 ≤ b.toNat) (pattern b) := by
  have hexp := toNat_unpackExponent b
  have hman := toNat_unpackMantissa b
  have himplicit := toNat_implicit b
  have hm := pattern_lt b
  generalize pattern b = m at hexp hman himplicit hm
  have hinf : unpackExponent b = (-1#_) ↔ m / 2 ^ 52 = 2047 := by
    rw [← BitVec.toNat_inj, hexp]; rfl
  have hsub : unpackExponent b = (0#_) ↔ m / 2 ^ 52 = 0 := by
    rw [← BitVec.toNat_inj, hexp]; rfl
  have hzero : unpackMantissa b = (0#_) ↔ m % 2 ^ 52 = 0 := by
    rw [← BitVec.toNat_inj, hman]; rfl
  have hbias : ((Format.binary64.exponentBias : Nat) : Int) = 1023 := rfl
  have hbits : ((Format.binary64.mantissaBitsWithoutImplicit : Nat) : Int) = 52 := rfl
  simp only [UnpackedFloat.unpack, ofBitVec_unpackSign, hinf, hsub, hzero, hbias, hbits, hexp,
    hman, himplicit]
  simp only [unpacked, infinityBits_eq, significand, scale, Nat.pow_eq]
  split
  · split
    · rw [dif_neg (by omega), if_neg (by omega), if_pos (by omega)]
    · rw [dif_neg (by omega), if_neg (by omega), if_neg (by omega)]
  · split
    · split
      · rw [dif_pos (by omega)]
      · rw [dif_neg (by omega), if_pos (by omega), UnpackedFloat.finite.injEq, if_pos (by omega)]
        exact ⟨rfl, by omega, by omega⟩
    · rw [dif_neg (by omega), if_pos (by omega), UnpackedFloat.finite.injEq, if_neg (by omega)]
      exact ⟨rfl, rfl, by omega⟩

theorem toNat_pack_unpacked (negative : Bool) {m : Nat} (hm : m ≤ infinityBits) :
    (UnpackedFloat.pack .binary64 (unpacked negative m)).toNat =
      negative.toNat * 2 ^ 63 + m := by
  rw [← toNat_signOf]
  by_cases hz : m = 0
  · rw [unpacked, dif_pos hz, UnpackedFloat.pack, packedZero, toNat_packComponents, hz]
    simp
  by_cases hinf : m = infinityBits
  · rw [unpacked, dif_neg hz, if_neg (by omega), if_pos hinf, UnpackedFloat.pack, packedInfinity,
      toNat_packComponents, hinf, infinityBits_eq]
    simp
  have hlt : m < infinityBits := by omega
  rw [unpacked, dif_neg hz, if_pos hlt]
  rw [infinityBits_eq] at hlt
  have hexp : (((scale m : Int) - 1074 + (Format.binary64.exponentBias : Nat) +
      (Format.binary64.mantissaBitsWithoutImplicit : Nat)).toNat) = scale m + 1 := by
    have hbias : ((Format.binary64.exponentBias : Nat) : Int) = 1023 := rfl
    have hbits : ((Format.binary64.mantissaBitsWithoutImplicit : Nat) : Int) = 52 := rfl
    omega
  have hbits : Format.binary64.mantissaBits = 53 := rfl
  have hscale : scale m = m / 2 ^ 52 - 1 := rfl
  simp only [UnpackedFloat.pack, hexp, hbits]
  rw [if_neg (by rw [hscale]; show ¬2 ^ 11 ≤ _; omega)]
  by_cases hn : 2 ^ 52 ≤ m
  · have hsig : significand m = 2 ^ 52 + m % 2 ^ 52 := if_neg (Nat.not_lt.2 hn)
    rw [if_pos (by rw [(log2_significand hz).2 hn]), toNat_packComponents, BitVec.toNat_ofNat,
      BitVec.toNat_ofNat, hsig, hscale]
    omega
  · have hsig : significand m = m := if_pos (Nat.not_le.1 hn)
    have hlog := (log2_significand hz).not.2 hn
    rw [if_neg (by omega), toNat_packComponents, BitVec.toNat_ofNat, BitVec.toNat_ofNat, hsig]
    omega

/-! ## What the bits say -/

section

variable {x y : Float}

theorem eq_of_bits (hs : isNegative x = isNegative y) (hm : magnitudeBits x = magnitudeBits y) :
    x = y := by
  have hx : x.toBits.toNat < 2 ^ 64 := x.toBits.toBitVec.isLt
  have hy : y.toBits.toNat < 2 ^ 64 := y.toBits.toBitVec.isLt
  simp only [isNegative, magnitudeBits, Nat.pow_eq, decide_eq_decide] at hs hm
  exact Float.toBits_inj.1 (UInt64.toNat_inj.1 (by omega))

theorem toModel_unpack (x : Float) :
    x.toModel.unpack = unpacked (isNegative x) (magnitudeBits x) :=
  unpack_eq x.toBits.toBitVec

theorem isFinite_iff : x.isFinite = true ↔ magnitudeBits x < infinityBits := by
  show x.toModel.unpack.isFinite = true ↔ _
  rw [toModel_unpack, unpacked]
  split
  · simp_all [UnpackedFloat.isFinite, infinityBits_eq]
  split
  · simp_all [UnpackedFloat.isFinite]
  split <;> simp_all [UnpackedFloat.isFinite]

theorem isNaN_iff : x.isNaN = true ↔ infinityBits < magnitudeBits x := by
  show x.toModel.unpack.isNaN = true ↔ _
  rw [toModel_unpack, unpacked]
  split
  · simp_all [UnpackedFloat.isNaN]
  split
  · simp_all [UnpackedFloat.isNaN]; omega
  split <;> simp_all [UnpackedFloat.isNaN]; omega

/-! ## Doubles made from bits -/

theorem bits_of_toBits {negative : Bool} {m : Nat} (hm : m ≤ infinityBits)
    (hx : x.toBits = .ofBitVec (UnpackedFloat.pack .binary64 (unpacked negative m))) :
    isNegative x = negative ∧ magnitudeBits x = m := by
  have hbits : x.toBits.toNat = negative.toNat * 2 ^ 63 + m := by
    rw [hx, ← toNat_pack_unpacked negative hm]; rfl
  rw [infinityBits_eq] at hm
  simp only [isNegative, magnitudeBits, hbits, Nat.pow_eq]
  cases negative with
  | false => simp only [Bool.toNat_false, decide_eq_false_iff_not]; omega
  | true => simp only [Bool.toNat_true, decide_eq_true_eq]; omega

theorem bits_neg (hx : magnitudeBits x ≤ infinityBits) :
    isNegative (-x) = (!isNegative x) ∧ magnitudeBits (-x) = magnitudeBits x := by
  apply bits_of_toBits hx
  rw [← neg_unpacked, ← toModel_unpack]
  rfl

theorem bits_ofMagnitudeBits {m : Nat} (hm : m ≤ infinityBits) :
    isNegative (ofMagnitudeBits m) = false ∧ magnitudeBits (ofMagnitudeBits m) = m := by
  apply bits_of_toBits hm
  rw [infinityBits_eq] at hm
  have hbits : (UInt64.ofNat m).toBitVec.toNat = m := by simp; omega
  have hlt : m < Nat.pow 2 63 := by simp only [Nat.pow_eq]; omega
  have h := unpack_eq (UInt64.ofNat m).toBitVec
  rw [pattern, hbits, Nat.mod_eq_of_lt hlt, decide_eq_false (not_le.2 hlt)] at h
  rw [← h]
  rfl

end

end ExprFold.Binary64
