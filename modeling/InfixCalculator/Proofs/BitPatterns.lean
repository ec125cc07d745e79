import InfixCalculator.Proofs.ExactValue
import Mathlib.Tactic.Ring

namespace InfixCalculator

namespace Binary64

open Float.Model Float.Model.UnpackedFloat

def assemble (s : Sign) (exponent : BitVec 11) (fraction : BitVec 52) : UnpackedFloat :=
  if exponent = -1#11 then if fraction = 0#52 then .infinity s else .notANumber
  else if exponent = 0#11 then
    if some : fraction = 0#52 then .zero s
    else .finite s fraction.toNat (exponent.toNat - 1075 + 1) (toNat_pos some)
  else .finite s (1#1 ++ fraction).toNat (exponent.toNat - 1075) (by rw [implicit_toNat]; omega)

def Numeric (exponent : BitVec 11) (fraction : BitVec 52) : Prop :=
  exponent = -1#11 → fraction = 0#52

theorem unpack_assemble (bits : BitVec 64) :
    UnpackedFloat.unpack Format.binary64 bits =
      assemble (Sign.ofBitVec (@unpackSign Format.binary64 bits))
        (@unpackExponent Format.binary64 bits) (@unpackMantissa Format.binary64 bits) := rfl

theorem assemble_neg (s : Sign) (exponent : BitVec 11) (fraction : BitVec 52) :
    (assemble s exponent fraction).neg = assemble (-s) exponent fraction := by
  unfold assemble
  by_cases full : exponent = -1#11
  · rw [if_pos full, if_pos full]
    by_cases none : fraction = 0#52
    · rw [if_pos none, if_pos none]
      rfl
    · rw [if_neg none, if_neg none]
      rfl
  · rw [if_neg full, if_neg full]
    by_cases least : exponent = 0#11
    · rw [if_pos least, if_pos least]
      by_cases none : fraction = 0#52
      · rw [dif_pos none, dif_pos none]
        rfl
      · rw [dif_neg none, dif_neg none]
        rfl
    · rw [if_neg least, if_neg least]
      rfl

theorem pack_finite (s : Sign) (mantissa : ℕ) (exponent : ℤ) (positive : 0 < mantissa) :
    UnpackedFloat.pack Format.binary64 (.finite s mantissa exponent positive) =
      if 2 ^ 11 ≤ (exponent + 1023 + 52).toNat + 1 then packedInfinity Format.binary64 s
      else if mantissa.log2 + 1 = 53 then
        packComponents Format.binary64 s (BitVec.ofNat 11 (exponent + 1023 + 52).toNat)
          (BitVec.ofNat 52 mantissa)
      else packComponents Format.binary64 s 0#11 (BitVec.ofNat 52 mantissa) := rfl

theorem pack_subnormal (s : Sign) {fraction : BitVec 52} (positive : 0 < fraction.toNat) :
    UnpackedFloat.pack Format.binary64 (.finite s fraction.toNat (-1074) positive) =
      packComponents Format.binary64 s 0#11 fraction := by
  have few : fraction.toNat.log2 < 52 := (Nat.log2_lt positive.ne').mpr fraction.isLt
  rw [pack_finite, if_neg (by decide), if_neg (by omega), BitVec.ofNat_toNat, BitVec.setWidth_eq]

theorem pack_normal (s : Sign) {exponent : BitVec 11} {fraction : BitVec 52}
    (below : exponent ≠ -1#11) (positive : 0 < (1#1 ++ fraction).toNat) :
    UnpackedFloat.pack Format.binary64
        (.finite s (1#1 ++ fraction).toNat (exponent.toNat - 1075) positive) =
      packComponents Format.binary64 s exponent fraction := by
  have bound := fraction.isLt
  have count := implicit_toNat fraction
  have field : ((exponent.toNat : ℤ) - 1075 + 1023 + 52).toNat = exponent.toNat := by omega
  have small : exponent.toNat ≠ 2047 := fun full => below (BitVec.toNat_inj.mp full)
  have leading : (1#1 ++ fraction).toNat.log2 = 52 :=
    (Nat.log2_eq_iff positive.ne').mpr (by omega)
  have kept : BitVec.ofNat 52 (1#1 ++ fraction).toNat = fraction := by
    rw [← BitVec.toNat_inj, BitVec.toNat_ofNat]
    omega
  rw [pack_finite, field, if_neg (by omega), if_pos (by rw [leading]), kept, BitVec.ofNat_toNat,
    BitVec.setWidth_eq]

theorem pack_assemble (s : Sign) {exponent : BitVec 11} {fraction : BitVec 52}
    (numeric : Numeric exponent fraction) :
    UnpackedFloat.pack Format.binary64 (assemble s exponent fraction) =
      packComponents Format.binary64 s exponent fraction := by
  unfold assemble
  by_cases full : exponent = -1#11
  · rw [if_pos full, if_pos (numeric full), full, numeric full]
    rfl
  · rw [if_neg full]
    by_cases least : exponent = 0#11
    · rw [if_pos least, least]
      by_cases none : fraction = 0#52
      · rw [dif_pos none, none]
        rfl
      · rw [dif_neg none]
        exact pack_subnormal s (toNat_pos none)
    · rw [if_neg least]
      exact pack_normal s full _

theorem packComponents_toNat (s : Sign) (exponent : BitVec 11) (fraction : BitVec 52) :
    (packComponents Format.binary64 s exponent fraction).toNat =
      s.toBitVec.toNat * 2 ^ 63 + exponent.toNat * 2 ^ 52 + fraction.toNat := by
  have parts : packComponents Format.binary64 s exponent fraction =
      s.toBitVec ++ exponent ++ fraction := rfl
  rw [parts, BitVec.toNat_append, BitVec.toNat_append, ← Nat.shiftLeft_add_eq_or_of_lt fraction.isLt,
    ← Nat.shiftLeft_add_eq_or_of_lt exponent.isLt, Nat.shiftLeft_eq, Nat.shiftLeft_eq]
  omega

theorem toBits_pack (s : Sign) {exponent : BitVec 11} {fraction : BitVec 52}
    (numeric : Numeric exponent fraction) :
    (Float.ofModel (.pack (assemble s exponent fraction))).toBits.toNat =
      s.toBitVec.toNat * 2 ^ 63 + exponent.toNat * 2 ^ 52 + fraction.toNat := by
  rw [← packComponents_toNat, ← pack_assemble s numeric]
  rfl

theorem numeric_of_magnitude {bits : ℕ} {exponent : BitVec 11} {fraction : BitVec 52}
    (high : exponent.toNat = bits / 2 ^ 52 % 2 ^ 11) (low : fraction.toNat = bits % 2 ^ 52)
    (number : bits % 2 ^ 63 ≤ infinityBits) : Numeric exponent fraction := by
  intro full
  have most : exponent.toNat = 2047 := congrArg BitVec.toNat full
  unfold infinityBits mantissaBits at number
  rw [← BitVec.toNat_inj, BitVec.toNat_ofNat]
  omega

theorem magnitudeBits_ofBits {bits : ℕ} (number : bits ≤ infinityBits) :
    magnitudeBits (Float.ofBits (UInt64.ofNat bits)) = bits ∧
      isNegative (Float.ofBits (UInt64.ofNat bits)) = false := by
  have small : bits < 2 ^ 63 := by
    unfold infinityBits mantissaBits at number
    omega
  have pattern : (UInt64.ofNat bits).toBitVec.toNat = bits := Nat.mod_eq_of_lt (by omega)
  have high := unpackExponent_toNat (UInt64.ofNat bits).toBitVec
  have low := unpackMantissa_toNat (UInt64.ofNat bits).toBitVec
  have sign := unpackSign_toNat (UInt64.ofNat bits).toBitVec
  rw [pattern] at high low sign
  have positive : Sign.ofBitVec (@unpackSign Format.binary64 (UInt64.ofNat bits).toBitVec) =
      .positive := if_pos (BitVec.toNat_inj.mp (sign.trans (by rw [BitVec.toNat_ofNat]; omega)))
  have whole := toBits_pack .positive (numeric_of_magnitude high low (by omega))
  rw [← positive, ← unpack_assemble, high, low, positive] at whole
  have same : (Float.ofBits (UInt64.ofNat bits)).toBits.toNat = bits := by
    refine whole.trans ?_
    have none : Sign.positive.toBitVec.toNat = 0 := rfl
    rw [none]
    omega
  unfold magnitudeBits isNegative signPosition
  rw [same, decide_eq_false_iff_not]
  omega

theorem magnitudeBits_neg {v : Float} (number : isNaN v = false) :
    magnitudeBits (-v) = magnitudeBits v ∧ isNegative (-v) = !isNegative v := by
  have bound := v.toBits.toNat_lt
  have small : magnitudeBits v ≤ infinityBits := by simpa [isNaN] using number
  have numeric := numeric_of_magnitude (exponentField_toNat v) (fractionField_toNat v) small
  have shape : -v = Float.ofModel (.pack (assemble (-signOf v) (exponentField v) (fractionField v))) := by
    rw [← assemble_neg, ← ofBitVec_signField]
    rfl
  have bits := toBits_pack (-signOf v) numeric
  rw [← shape, exponentField_toNat, fractionField_toNat] at bits
  have turned : (-signOf v).toBitVec.toNat = if isNegative v = true then 0 else 1 := by
    unfold signOf
    cases isNegative v <;> rfl
  have sign : isNegative v = true ↔ 2 ^ 63 ≤ v.toBits.toNat := decide_eq_true_iff
  have sign' : isNegative (-v) = true ↔ 2 ^ 63 ≤ (-v).toBits.toNat := decide_eq_true_iff
  rw [turned] at bits
  unfold magnitudeBits signPosition
  rw [Bool.eq_iff_iff, Bool.not_eq_true', ← Bool.not_eq_true, sign', sign]
  split at bits
  · next negative =>
    rw [sign] at negative
    omega
  · next positive =>
    rw [sign] at positive
    omega

theorem not_isNaN {v : Float} (finite : v.isFinite = true) : isNaN v = false :=
  decide_eq_false (Nat.not_lt.mpr (magnitudeBits_finite finite).le)

theorem neg_finite {v : Float} (finite : v.isFinite = true) :
    (-v).isFinite = true ∧ rational (-v) = -rational v := by
  obtain ⟨magnitude, sign⟩ := magnitudeBits_neg (not_isNaN finite)
  have again : (-v).isFinite = true := by
    rw [isFinite_eq] at finite ⊢
    rwa [isFinite, magnitude]
  have count : units (-v) = units v := by rw [units, magnitude, units]
  refine ⟨again, ?_⟩
  rw [rational_eq again, rational_eq finite, count]
  unfold signOf
  rw [sign]
  cases isNegative v
  · simp only [Bool.not_false, if_true, Bool.false_eq_true, if_false, Sign.apply]
    push_cast
    ring
  · simp only [Bool.not_true, if_true, Bool.false_eq_true, if_false, Sign.apply]
    push_cast
    ring

end Binary64

end InfixCalculator
