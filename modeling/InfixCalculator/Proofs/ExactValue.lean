import InfixCalculator.Binary64
import Mathlib.Algebra.Order.Field.Power
import Mathlib.Data.Rat.Cast.Order
import Mathlib.Tactic.FieldSimp
import Mathlib.Tactic.Linarith

namespace InfixCalculator

namespace Binary64

open Float.Model Float.Model.UnpackedFloat

def rational (v : Float) : ℚ :=
  match v.toModel.unpack with
  | .finite sign mantissa exponent _ => sign.apply mantissa * 2 ^ exponent
  | _ => 0

def signField (v : Float) : BitVec 1 := @unpackSign Format.binary64 v.toModel.toBits.toBitVec

def exponentField (v : Float) : BitVec 11 := @unpackExponent Format.binary64 v.toModel.toBits.toBitVec

def fractionField (v : Float) : BitVec 52 := @unpackMantissa Format.binary64 v.toModel.toBits.toBitVec

theorem unpackSign_toNat (bits : BitVec 64) :
    (@unpackSign Format.binary64 bits).toNat = bits.toNat / 2 ^ 63 := by
  have bound := bits.isLt
  have taken : (@unpackSign Format.binary64 bits).toNat = (bits.extractLsb 63 63).toNat := rfl
  rw [taken, BitVec.extractLsb_toNat, Nat.shiftRight_eq_div_pow]
  change bits.toNat / 2 ^ 63 % 2 = _
  omega

theorem unpackExponent_toNat (bits : BitVec 64) :
    (@unpackExponent Format.binary64 bits).toNat = bits.toNat / 2 ^ 52 % 2 ^ 11 := by
  have taken : (@unpackExponent Format.binary64 bits).toNat = (bits.extractLsb 62 52).toNat := rfl
  rw [taken, BitVec.extractLsb_toNat, Nat.shiftRight_eq_div_pow]

theorem unpackMantissa_toNat (bits : BitVec 64) :
    (@unpackMantissa Format.binary64 bits).toNat = bits.toNat % 2 ^ 52 := by
  have taken : (@unpackMantissa Format.binary64 bits).toNat = (bits.extractLsb 51 0).toNat := rfl
  rw [taken, BitVec.extractLsb_toNat]
  rfl

theorem signField_toNat (v : Float) : (signField v).toNat = v.toBits.toNat / 2 ^ 63 :=
  unpackSign_toNat v.toBits.toBitVec

theorem exponentField_toNat (v : Float) :
    (exponentField v).toNat = v.toBits.toNat / 2 ^ 52 % 2 ^ 11 :=
  unpackExponent_toNat v.toBits.toBitVec

theorem fractionField_toNat (v : Float) : (fractionField v).toNat = v.toBits.toNat % 2 ^ 52 :=
  unpackMantissa_toNat v.toBits.toBitVec

def signOf (v : Float) : Sign := if isNegative v then .negative else .positive

theorem ofBitVec_signField (v : Float) : Sign.ofBitVec (signField v) = signOf v := by
  have position := signField_toNat v
  have bound := v.toBits.toNat_lt
  unfold Sign.ofBitVec signOf isNegative signPosition
  simp only [← BitVec.toNat_inj, position, BitVec.toNat_ofNat, decide_eq_true_eq]
  split <;> split <;> first | rfl | omega

theorem units_fields (v : Float) :
    units v = if (exponentField v).toNat = 0 then (fractionField v).toNat
      else (2 ^ 52 + (fractionField v).toNat) * 2 ^ ((exponentField v).toNat - 1) := by
  rw [exponentField_toNat, fractionField_toNat]
  unfold units magnitudeBits signPosition unitsOfBits mantissaBits
  generalize v.toBits.toNat = n
  have field : n % 2 ^ 63 / 2 ^ 52 = n / 2 ^ 52 % 2 ^ 11 := by omega
  have fraction : n % 2 ^ 63 % 2 ^ 52 = n % 2 ^ 52 := by omega
  rw [field, fraction]
  split <;> split <;> first | rfl | omega

theorem implicit_toNat (m : BitVec 52) : (1#1 ++ m).toNat = 2 ^ 52 + m.toNat := by
  rw [BitVec.toNat_append, ← Nat.shiftLeft_add_eq_or_of_lt m.isLt]
  rfl

theorem toNat_pos {n : ℕ} {field : BitVec n} (some : field ≠ 0#n) : 0 < field.toNat := by
  simpa [BitVec.toNat_pos, BitVec.pos_iff_ne_zero] using some

theorem unpack_fields (v : Float) :
    v.toModel.unpack =
      if exponentField v = -1#11 then
        if fractionField v = 0#52 then .infinity (signOf v) else .notANumber
      else if exponentField v = 0#11 then
        if some : fractionField v = 0#52 then .zero (signOf v)
        else .finite (signOf v) (fractionField v).toNat ((exponentField v).toNat - 1075 + 1)
          (toNat_pos some)
      else .finite (signOf v) (1#1 ++ fractionField v).toNat ((exponentField v).toNat - 1075)
        (by rw [implicit_toNat]; omega) := by
  rw [← ofBitVec_signField]
  rfl

theorem isFinite_iff (v : Float) : v.isFinite = true ↔ exponentField v ≠ -1#11 := by
  change (v.toModel.unpack).isFinite = true ↔ _
  rw [unpack_fields]
  by_cases full : exponentField v = -1#11
  · rw [if_pos full]
    refine iff_of_false (fun finite => ?_) (not_not_intro full)
    by_cases none : fractionField v = 0#52
    · rw [if_pos none] at finite
      cases finite
    · rw [if_neg none] at finite
      cases finite
  · rw [if_neg full]
    refine iff_of_true ?_ full
    by_cases subnormal : exponentField v = 0#11
    · rw [if_pos subnormal]
      by_cases none : fractionField v = 0#52
      · rw [dif_pos none]
        rfl
      · rw [dif_neg none]
        rfl
    · rw [if_neg subnormal]
      rfl

theorem isFinite_eq (v : Float) : v.isFinite = isFinite v := by
  have field := exponentField_toNat v
  have bound := v.toBits.toNat_lt
  have ones : exponentField v = -1#11 ↔ (exponentField v).toNat = 2047 := BitVec.toNat_inj.symm
  rw [Bool.eq_iff_iff, isFinite_iff, ne_eq, ones]
  unfold isFinite magnitudeBits infinityBits signPosition mantissaBits
  rw [decide_eq_true_iff]
  omega

theorem magnitudeBits_finite {v : Float} (finite : v.isFinite = true) :
    magnitudeBits v < infinityBits := by
  rw [isFinite_eq] at finite
  exact of_decide_eq_true finite

-- A finite value is a zero, or a mantissa and an exponent, and its units count the
-- mantissa as often as the exponent says.
theorem unpack_finite {v : Float} (finite : v.isFinite = true) :
    (v.toModel.unpack = .zero (signOf v) ∧ units v = 0) ∨
      ∃ mantissa exponent, ∃ positive : 0 < mantissa,
        v.toModel.unpack = .finite (signOf v) mantissa exponent positive ∧
        -1074 ≤ exponent ∧ units v = mantissa * 2 ^ (exponent + 1074).toNat := by
  have count := units_fields v
  rw [unpack_fields, if_neg ((isFinite_iff v).mp finite)]
  by_cases subnormal : exponentField v = 0#11
  · rw [if_pos subnormal]
    rw [subnormal] at count ⊢
    by_cases none : fractionField v = 0#52
    · exact .inl ⟨dif_pos none, by simpa [none] using count⟩
    · exact .inr ⟨_, _, toNat_pos none, dif_neg none, by decide, by simpa using count⟩
  · have positive := toNat_pos subnormal
    rw [if_neg subnormal]
    refine .inr ⟨_, _, by rw [implicit_toNat]; omega, rfl, by omega, ?_⟩
    rw [count, if_neg positive.ne', implicit_toNat]
    congr 2
    omega

theorem rational_eq {v : Float} (finite : v.isFinite = true) :
    rational v = (signOf v).apply (units v) / 2 ^ unitExponent := by
  unfold rational
  rcases unpack_finite finite with ⟨shape, none⟩ | ⟨mantissa, exponent, positive, shape, least, count⟩
  · rw [shape, none]
    cases signOf v <;> simp [Sign.apply]
  · rw [shape, count]
    have split : (2 : ℚ) ^ (exponent + 1074).toNat = 2 ^ exponent * 2 ^ 1074 := by
      rw [← zpow_natCast, Int.toNat_of_nonneg (by omega), zpow_add₀ two_ne_zero]
      rfl
    unfold unitExponent
    cases signOf v <;> simp only [Sign.apply] <;> push_cast <;> rw [split] <;> field_simp

theorem zero_unpack : (0 : Float).toModel.unpack = .zero .positive := rfl

theorem compare_zero {v : Float} (finite : v.isFinite = true) :
    v.toModel.unpack.compare (.zero .positive) =
      some (if units v = 0 then .eq else if isNegative v then .lt else .gt) := by
  rcases unpack_finite finite with ⟨shape, none⟩ | ⟨mantissa, exponent, positive, shape, -, count⟩
  · rw [shape, none]
    rfl
  · have some : units v ≠ 0 := by rw [count]; positivity
    rw [shape, if_neg some]
    unfold signOf
    cases isNegative v <;> rfl

theorem beq_zero_iff {v : Float} (finite : v.isFinite = true) : (v == 0) = true ↔ units v = 0 := by
  change (v.toModel.unpack.compare _ == some .eq) = true ↔ _
  rw [zero_unpack, compare_zero finite]
  split
  · simpa
  · split <;> simpa

theorem lt_zero_iff {v : Float} (finite : v.isFinite = true) :
    v < 0 ↔ isNegative v = true ∧ units v ≠ 0 := by
  have compared : v < 0 ↔ (v.toModel.unpack.compare (0 : Float).toModel.unpack == some .lt) = true :=
    decide_eq_true_iff
  rw [compared, zero_unpack, compare_zero finite]
  split
  · simp_all
  · split <;> simp_all

theorem units_pos {v : Float} (finite : v.isFinite = true) (nonzero : (v == 0) = false) :
    0 < units v := by
  rw [Nat.pos_iff_ne_zero]
  intro none
  rw [(beq_zero_iff finite).mpr none] at nonzero
  cases nonzero

theorem abs_rational {v : Float} (finite : v.isFinite = true) :
    |rational v| = (units v : ℚ) / (2 ^ unitExponent : ℕ) := by
  have nonneg : (0 : ℚ) ≤ (units v : ℚ) / 2 ^ unitExponent :=
    div_nonneg (Nat.cast_nonneg _) (pow_nonneg two_pos.le _)
  rw [rational_eq finite]
  push_cast
  cases signOf v with
  | positive => exact abs_of_nonneg nonneg
  | negative =>
    simp only [Sign.apply]
    push_cast
    rw [neg_div, abs_neg, abs_of_nonneg nonneg]

theorem rational_eq_zero_iff {v : Float} (finite : v.isFinite = true) : rational v = 0 ↔ units v = 0 := by
  have one : ((2 ^ unitExponent : ℕ) : ℚ) ≠ 0 := Nat.cast_ne_zero.mpr (Nat.two_pow_pos unitExponent).ne'
  rw [← abs_eq_zero, abs_rational finite, div_eq_zero_iff, or_iff_left one, Nat.cast_eq_zero]

theorem negative_iff {v : Float} (finite : v.isFinite = true) : v < 0 ↔ rational v < 0 := by
  have one : (0 : ℚ) < 2 ^ unitExponent := pow_pos two_pos unitExponent
  rw [lt_zero_iff finite, rational_eq finite, signOf, div_lt_iff₀ one, zero_mul]
  cases isNegative v with
  | false => simp [Sign.apply]
  | true => simp [Sign.apply, Nat.pos_iff_ne_zero]

end Binary64

end InfixCalculator
