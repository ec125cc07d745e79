import InfixCalculator.Proofs.BitPatterns
import InfixCalculator.Proofs.Rounding

namespace InfixCalculator

namespace Binary64

def overflow : ℚ := (2 ^ 54 - 1) * 2 ^ 970

-- `w` is the value nearest to `x`: of two equally near ones it is the one with the even pattern.
-- From `overflow` on it is infinite.
structure NearestTo (x : ℚ) (w : Float) : Prop where
  finite_iff : w.isFinite = true ↔ |x| < overflow
  infinite : overflow ≤ |x| → isInfinite w = true
  signed : isNegative w = true ↔ x < 0
  closest : w.isFinite = true → ∀ u : Float, u.isFinite = true → |x - rational w| ≤ |x - rational u|
  even : w.isFinite = true → ∀ u : Float, u.isFinite = true → rational u ≠ rational w →
    |x - rational u| = |x - rational w| → magnitudeBits w % 2 = 0

section Patterns

variable {shift mantissa bits : ℕ}

-- A mantissa of 53 bits, added to its shift in the place of the exponent field. One that has
-- become too long by one gives the next field, and the units are still the right ones.
theorem unitsOfBits_join (most : mantissa ≤ 2 ^ 53) (leading : shift = 0 ∨ 2 ^ 52 ≤ mantissa) :
    unitsOfBits (shift * 2 ^ 52 + mantissa) = mantissa * 2 ^ shift := by
  unfold unitsOfBits mantissaBits
  by_cases small : shift * 2 ^ 52 + mantissa < 2 ^ 52
  · have none : shift = 0 := by omega
    rw [if_pos small, none]
    omega
  · rw [if_neg small]
    rcases Nat.lt_or_eq_of_le most with fits | full
    · have field : (shift * 2 ^ 52 + mantissa) / 2 ^ 52 - 1 = shift := by omega
      have rest : 2 ^ 52 + (shift * 2 ^ 52 + mantissa) % 2 ^ 52 = mantissa := by omega
      rw [field, rest]
    · have field : (shift * 2 ^ 52 + mantissa) / 2 ^ 52 - 1 = shift + 1 := by omega
      have rest : (shift * 2 ^ 52 + mantissa) % 2 ^ 52 = 0 := by omega
      rw [field, rest, full, pow_succ]
      omega

theorem exists_join (bits : ℕ) : ∃ shift mantissa, bits = shift * 2 ^ 52 + mantissa ∧
    mantissa < 2 ^ 53 ∧ (shift = 0 ∨ 2 ^ 52 ≤ mantissa) := by
  refine ⟨bits / 2 ^ 52 - 1, bits - (bits / 2 ^ 52 - 1) * 2 ^ 52, ?_, ?_, ?_⟩ <;> omega

theorem unitsOfBits_succ (most : mantissa < 2 ^ 53) (leading : shift = 0 ∨ 2 ^ 52 ≤ mantissa) :
    unitsOfBits (shift * 2 ^ 52 + mantissa + 1) =
      unitsOfBits (shift * 2 ^ 52 + mantissa) + 2 ^ shift := by
  rw [Nat.add_assoc, unitsOfBits_join most (leading.imp_right Nat.le_succ_of_le),
    unitsOfBits_join most.le leading, Nat.succ_mul]

theorem unitsOfBits_strictMono : StrictMono unitsOfBits := by
  refine strictMono_nat_of_lt_succ fun bits => ?_
  obtain ⟨shift, mantissa, rfl, most, leading⟩ := exists_join bits
  rw [unitsOfBits_succ most leading]
  exact Nat.lt_add_of_pos_right (Nat.two_pow_pos shift)

theorem unitsOfBits_grid (shift bits : ℕ) : (∃ n : ℕ, unitsOfBits bits = n * 2 ^ shift) ∨
    0 < shift ∧ unitsOfBits bits < 2 ^ 52 * 2 ^ shift := by
  obtain ⟨low, mantissa, rfl, most, leading⟩ := exists_join bits
  rw [unitsOfBits_join most.le leading]
  rcases Nat.lt_or_ge low shift with lower | above
  · refine .inr ⟨by omega, ?_⟩
    calc mantissa * 2 ^ low < 2 ^ 53 * 2 ^ low :=
          Nat.mul_lt_mul_of_pos_right most (Nat.two_pow_pos low)
      _ = 2 ^ 52 * 2 ^ (low + 1) := by rw [pow_succ]; ring
      _ ≤ 2 ^ 52 * 2 ^ shift := Nat.mul_le_mul_left _ (Nat.pow_le_pow_right two_pos lower)
  · refine .inl ⟨mantissa * 2 ^ (low - shift), ?_⟩
    rw [Nat.mul_assoc, ← pow_add, Nat.sub_add_cancel above]

end Patterns

section Cut

variable {x : ℚ} {shift mantissa : ℕ}

-- `shift` leaves 53 bits of `x` before the point, or all there are, and `mantissa` is the whole
-- number nearest to what is left.
structure Cut (x : ℚ) (shift mantissa : ℕ) : Prop where
  lower : shift = 0 ∨ 2 ^ 52 ≤ x / 2 ^ shift
  upper : x / 2 ^ shift < 2 ^ 53
  rounded : RoundsTo (x / 2 ^ shift) mantissa

theorem Cut.unitsOfBits_eq (cut : Cut x shift mantissa) :
    unitsOfBits (shift * 2 ^ 52 + mantissa) = mantissa * 2 ^ shift := by
  refine unitsOfBits_join (cut.rounded.not_more ?_) (cut.lower.imp_right fun lower => ?_)
  · exact_mod_cast cut.upper.le
  · exact cut.rounded.not_less (by exact_mod_cast lower)

theorem distance_shifted (x : ℚ) (n shift : ℕ) :
    |x - (n * 2 ^ shift : ℕ)| = |x / 2 ^ shift - n| * 2 ^ shift := by
  have unit : (0 : ℚ) < 2 ^ shift := pow_pos two_pos shift
  rw [← abs_of_pos unit, ← abs_mul, abs_of_pos unit]
  congr 1
  push_cast
  field_simp

theorem Cut.closest (cut : Cut x shift mantissa) (other : ℕ) :
    |x - unitsOfBits (shift * 2 ^ 52 + mantissa)| ≤ |x - unitsOfBits other| ∧
      (other ≠ shift * 2 ^ 52 + mantissa →
        |x - unitsOfBits other| = |x - unitsOfBits (shift * 2 ^ 52 + mantissa)| → mantissa % 2 = 0) := by
  have unit : (0 : ℚ) < 2 ^ shift := pow_pos two_pos shift
  have units := cut.unitsOfBits_eq
  rcases unitsOfBits_grid shift other with ⟨n, multiple⟩ | ⟨shifted, below⟩
  · have distinct : other ≠ shift * 2 ^ 52 + mantissa → n ≠ mantissa := by
      rintro different rfl
      exact different (unitsOfBits_strictMono.injective (multiple.trans units.symm))
    rw [units, multiple, distance_shifted, distance_shifted, mul_left_inj' unit.ne']
    exact ⟨mul_le_mul_of_nonneg_right (cut.rounded.closest n) unit.le,
      fun different tie => cut.rounded.tied (distinct different) tie⟩
  · have lower := cut.lower.resolve_left shifted.ne'
    have nearer := mul_le_mul_of_nonneg_right (cut.rounded.closest (2 ^ 52)) unit.le
    rw [← distance_shifted, ← distance_shifted, ← units] at nearer
    rw [le_div_iff₀ unit] at lower
    have below : (unitsOfBits other : ℚ) < (2 ^ 52 * 2 ^ shift : ℕ) := by exact_mod_cast below
    have farther : |x - (2 ^ 52 * 2 ^ shift : ℕ)| < |x - unitsOfBits other| := by
      push_cast at below ⊢
      rw [abs_of_nonneg (by linarith), abs_of_nonneg (by linarith)]
      linarith
    exact ⟨(nearer.trans_lt farther).le, fun _ tie => absurd tie (nearer.trans_lt farther).ne'⟩

theorem unitsOfBits_last : (unitsOfBits (infinityBits - 1) : ℚ) = (2 ^ 54 - 2) * 2 ^ 2044 := by
  have pattern : infinityBits - 1 = 2045 * 2 ^ 52 + (2 ^ 53 - 1) := by
    unfold infinityBits mantissaBits
    omega
  rw [pattern, unitsOfBits_join (by omega) (.inr (by omega)), pow_succ 2 2044, Nat.cast_mul,
    Nat.cast_mul, Nat.cast_pow, Nat.cast_ofNat]
  generalize (2 : ℚ) ^ 2044 = unit
  norm_num
  ring

theorem unitsOfBits_first : (unitsOfBits infinityBits : ℚ) = 2 ^ 54 * 2 ^ 2044 := by
  have pattern : infinityBits = 2046 * 2 ^ 52 + 2 ^ 52 := by
    unfold infinityBits mantissaBits
    omega
  rw [pattern, unitsOfBits_join (by omega) (.inr le_rfl), pow_add 2 2044 2, Nat.cast_mul,
    Nat.cast_mul, Nat.cast_pow 2 2044, Nat.cast_ofNat]
  generalize (2 : ℚ) ^ 2044 = unit
  norm_num
  ring

theorem overflow_units : overflow * 2 ^ unitExponent = (2 ^ 54 - 1) * 2 ^ 2044 := by
  unfold overflow unitExponent
  rw [mul_assoc, ← pow_add]

theorem Cut.fits_iff (cut : Cut x shift mantissa) :
    shift * 2 ^ 52 + mantissa < infinityBits ↔ x < overflow * 2 ^ unitExponent := by
  have last := unitsOfBits_last
  have first := unitsOfBits_first
  have unit : (0 : ℚ) < 2 ^ 2044 := pow_pos two_pos 2044
  rw [overflow_units]
  generalize (2 : ℚ) ^ 2044 = p at *
  constructor
  · intro fits
    by_contra high
    rw [not_lt] at high
    have below : (unitsOfBits (shift * 2 ^ 52 + mantissa) : ℚ) ≤ (2 ^ 54 - 2) * p := by
      rw [← last]
      exact_mod_cast unitsOfBits_strictMono.monotone (Nat.le_sub_one_of_lt fits)
    obtain ⟨nearer, tie⟩ := cut.closest infinityBits
    rw [first] at nearer tie
    have before : 0 ≤ x - unitsOfBits (shift * 2 ^ 52 + mantissa) := by linarith
    rw [abs_of_nonneg before] at nearer tie
    rcases le_total x (2 ^ 54 * p) with before | behind
    · rw [abs_of_nonpos (by linarith)] at nearer tie
      have even := tie fits.ne' (by linarith)
      have same : unitsOfBits (shift * 2 ^ 52 + mantissa) = unitsOfBits (infinityBits - 1) := by
        have equal : (unitsOfBits (shift * 2 ^ 52 + mantissa) : ℚ) = (2 ^ 54 - 2) * p := by linarith
        exact_mod_cast equal.trans last.symm
      have pattern := unitsOfBits_strictMono.injective same
      unfold infinityBits mantissaBits at pattern
      omega
    · rw [abs_of_nonneg (by linarith)] at nearer
      linarith
  · intro low
    by_contra high
    have above : 2 ^ 54 * p ≤ (unitsOfBits (shift * 2 ^ 52 + mantissa) : ℚ) := by
      rw [← first]
      exact_mod_cast unitsOfBits_strictMono.monotone (Nat.not_lt.mp high)
    have nearer := (cut.closest (infinityBits - 1)).1
    rw [last, abs_of_nonpos (by linarith)] at nearer
    rcases le_total x ((2 ^ 54 - 2) * p) with before | behind
    · rw [abs_of_nonpos (by linarith)] at nearer
      linarith
    · rw [abs_of_nonneg (by linarith)] at nearer
      linarith

theorem cut_of_ratio (num : ℕ) {den : ℕ} (positive : 0 < den) {shift : ℕ}
    (chosen : shift = (num / den).log2 - mantissaBits) :
    Cut ((num : ℚ) / den) shift (divNearest num (den * 2 ^ shift)) := by
  have scale : (0 : ℚ) < den := by exact_mod_cast positive
  have unit : (0 : ℚ) < 2 ^ shift := pow_pos two_pos shift
  have rounded := divNearest_roundsTo num (Nat.mul_pos positive (Nat.two_pow_pos shift))
  rw [Nat.cast_mul, Nat.cast_pow, Nat.cast_ofNat, ← div_div] at rounded
  refine ⟨?_, ?_, rounded⟩
  · refine or_iff_not_imp_left.mpr fun shifted => ?_
    have some : num / den ≠ 0 := by
      intro none
      rw [none] at chosen
      exact shifted chosen
    have least := Nat.log2_self_le some
    have exponent : (num / den).log2 = 52 + shift := by
      unfold mantissaBits at chosen
      omega
    rw [exponent, Nat.le_div_iff_mul_le positive] at least
    rw [le_div_iff₀ unit, le_div_iff₀ scale, ← pow_add]
    exact_mod_cast least
  · have most : num / den < 2 ^ (53 + shift) := by
      refine (Nat.lt_log2_self).trans_le (Nat.pow_le_pow_right two_pos ?_)
      unfold mantissaBits at chosen
      omega
    rw [Nat.div_lt_iff_lt_mul positive] at most
    rw [div_lt_iff₀ unit, div_lt_iff₀ scale, ← pow_add]
    exact_mod_cast most

end Cut

section Nearest

variable {x : ℚ} {v w : Float} {shift mantissa : ℕ}

theorem distance_units (x : ℚ) (n : ℕ) :
    |x * 2 ^ unitExponent - n| = |x - n / 2 ^ unitExponent| * 2 ^ unitExponent := by
  have unit : (0 : ℚ) < 2 ^ unitExponent := pow_pos two_pos unitExponent
  rw [← abs_of_pos unit, ← abs_mul, abs_of_pos unit, sub_mul, div_mul_cancel₀ _ unit.ne']

theorem rational_positive (finite : w.isFinite = true) (sign : isNegative w = false) :
    rational w = (units w : ℚ) / 2 ^ unitExponent := by
  rw [rational_eq finite, signOf, sign]
  rfl

-- A value of the nearest pattern is the nearest value, where it is finite: the other values are
-- those of the other patterns, and their negatives.
theorem Cut.nearestTo (cut : Cut (x * 2 ^ unitExponent) shift mantissa) (nonneg : 0 ≤ x)
    (pattern : magnitudeBits w = min infinityBits (shift * 2 ^ 52 + mantissa))
    (sign : isNegative w = false) : NearestTo x w := by
  have unit : (0 : ℚ) < 2 ^ unitExponent := pow_pos two_pos unitExponent
  have fits : w.isFinite = true ↔ x < overflow := by
    rw [isFinite_eq, isFinite, decide_eq_true_iff, pattern, ← mul_lt_mul_iff_left₀ unit,
      ← cut.fits_iff, min_lt_iff]
    simp only [lt_self_iff_false, false_or]
  have shown (finite : w.isFinite = true) :
      rational w = (unitsOfBits (shift * 2 ^ 52 + mantissa) : ℚ) / 2 ^ unitExponent := by
    have inside := cut.fits_iff.mpr (mul_lt_mul_of_pos_right (fits.mp finite) unit)
    rw [rational_positive finite sign, units, pattern, min_eq_right inside.le]
  have closest (finite : w.isFinite = true) (n : ℕ) :
      |x - rational w| ≤ |x - (unitsOfBits n : ℚ) / 2 ^ unitExponent| := by
    have nearer := (cut.closest n).1
    rw [distance_units, distance_units, mul_le_mul_iff_left₀ unit] at nearer
    rwa [shown finite]
  have size : |x| = x := abs_of_nonneg nonneg
  refine ⟨by rw [size, fits], fun high => ?_, ?_, fun finite u other => ?_, fun finite u other different tie => ?_⟩
  · rw [size] at high
    have above := mt cut.fits_iff.mp (not_lt.mpr (mul_le_mul_of_nonneg_right high unit.le))
    rw [isInfinite, pattern, min_eq_left (not_lt.mp above), beq_self_eq_true]
  · rw [sign]
    exact iff_of_false Bool.false_ne_true (not_lt.mpr nonneg)
  · have sides := abs_abs_sub_abs_le x (rational u)
    rw [size, abs_rational other] at sides
    have nearer := closest finite (magnitudeBits u)
    push_cast at sides
    exact nearer.trans sides
  · -- a negative value is farther away than zero is
    have positive : 0 ≤ rational u := by
      by_contra negative
      have zero := closest finite 0
      have none : (unitsOfBits 0 : ℚ) / 2 ^ unitExponent = 0 := by
        rw [show unitsOfBits 0 = 0 from rfl, Nat.cast_zero, zero_div]
      rw [none, sub_zero, size, ← tie, abs_of_nonneg (by linarith)] at zero
      linarith
    have value := abs_rational other
    rw [abs_of_nonneg positive, Nat.cast_pow, Nat.cast_ofNat] at value
    have distinct : magnitudeBits u ≠ shift * 2 ^ 52 + mantissa := by
      intro same
      rw [value, shown finite, Binary64.units, same] at different
      exact different rfl
    have scaled : |x * 2 ^ unitExponent - unitsOfBits (magnitudeBits u)| =
        |x * 2 ^ unitExponent - unitsOfBits (shift * 2 ^ 52 + mantissa)| := by
      rw [distance_units, distance_units, ← shown finite, ← tie, value, Binary64.units]
    have even := (cut.closest (magnitudeBits u)).2 distinct scaled
    have inside := cut.fits_iff.mpr (mul_lt_mul_of_pos_right (fits.mp finite) unit)
    rw [pattern, min_eq_right inside.le]
    omega

theorem nearest_nearestTo (num : ℕ) {den : ℕ} (positive : 0 < den) :
    NearestTo (num / den) (nearest num den) := by
  have cut := cut_of_ratio (num * 2 ^ unitExponent) positive rfl
  have scaled : ((num * 2 ^ unitExponent : ℕ) : ℚ) / den = num / den * 2 ^ unitExponent := by
    rw [Nat.cast_mul, Nat.cast_pow, Nat.cast_ofNat, div_mul_eq_mul_div]
  obtain ⟨pattern, sign⟩ := magnitudeBits_ofBits (min_le_left infinityBits _)
  rw [scaled] at cut
  have nonneg : (0 : ℚ) ≤ num / den := div_nonneg (Nat.cast_nonneg _) (Nat.cast_nonneg _)
  exact cut.nearestTo nonneg pattern sign

theorem NearestTo.positive (near : NearestTo x w) (nonneg : 0 ≤ x) : isNegative w = false := by
  rw [← Bool.not_eq_true, near.signed]
  exact not_lt.mpr nonneg

theorem NearestTo.number (near : NearestTo x w) : isNaN w = false := by
  rcases lt_or_ge |x| overflow with fits | high
  · exact not_isNaN (near.finite_iff.mpr fits)
  · have pattern := beq_iff_eq.mp (near.infinite high)
    rw [isNaN, pattern]
    exact decide_eq_false (lt_irrefl infinityBits)

theorem NearestTo.neg (near : NearestTo x w) (nonzero : x ≠ 0) : NearestTo (-x) (-w) := by
  obtain ⟨magnitude, sign⟩ := magnitudeBits_neg near.number
  have fits : (-w).isFinite = w.isFinite := by
    rw [isFinite_eq, isFinite_eq, isFinite, isFinite, magnitude]
  have turned (y : ℚ) : |-x - y| = |x - -y| := by
    rw [← abs_neg, neg_sub, sub_neg_eq_add, sub_neg_eq_add, add_comm]
  refine ⟨?_, ?_, ?_, fun finite u other => ?_, fun finite u other different tie => ?_⟩
  · rw [fits, abs_neg]
    exact near.finite_iff
  · rw [abs_neg, isInfinite, magnitude]
    exact near.infinite
  · rw [sign, Bool.not_eq_true', ← Bool.not_eq_true, near.signed, not_lt, neg_lt_zero]
    exact ⟨fun nonneg => lt_of_le_of_ne nonneg nonzero.symm, le_of_lt⟩
  · rw [fits] at finite
    obtain ⟨again, same⟩ := neg_finite other
    rw [turned, turned, (neg_finite finite).2, neg_neg, ← same]
    exact near.closest finite (-u) again
  · rw [fits] at finite
    obtain ⟨again, same⟩ := neg_finite other
    rw [turned, turned, (neg_finite finite).2, neg_neg, ← same] at tie
    rw [(neg_finite finite).2, ne_eq, ← neg_eq_iff_eq_neg, ← same] at different
    rw [magnitude]
    exact near.even finite (-u) again different tie

theorem nearestTo_tiny (nonneg : 0 ≤ x) (tiny : x * 2 ^ unitExponent < 1 / 2) : NearestTo x 0 := by
  have cut : Cut (x * 2 ^ unitExponent) 0 0 := by
    have positive : 0 ≤ x * 2 ^ unitExponent := mul_nonneg nonneg (pow_nonneg two_pos.le _)
    rw [← div_one (x * 2 ^ unitExponent), ← pow_zero 2] at tiny positive
    refine ⟨.inl rfl, by linarith, .of_near ?_⟩
    rw [Nat.cast_zero, sub_zero, abs_of_nonneg positive]
    exact tiny
  exact cut.nearestTo nonneg rfl rfl

theorem nearestTo_huge (high : overflow ≤ x) : NearestTo x infinity := by
  have positive : 0 < overflow := by
    unfold overflow
    positivity
  have size : |x| = x := abs_of_nonneg (positive.le.trans high)
  have unbounded : infinity.isFinite = false := rfl
  refine ⟨?_, fun _ => rfl, ?_, ?_, ?_⟩
  · rw [unbounded, size]
    exact iff_of_false Bool.false_ne_true (not_lt.mpr high)
  · exact iff_of_false Bool.false_ne_true (not_lt.mpr (positive.le.trans high))
  · rw [unbounded]
    exact nofun
  · rw [unbounded]
    exact nofun

theorem NearestTo.closest_pattern (near : NearestTo x w) (nonneg : 0 ≤ x) (finite : w.isFinite = true)
    {bits : ℕ} (inside : bits < infinityBits) :
    |x - units w / 2 ^ unitExponent| ≤ |x - unitsOfBits bits / 2 ^ unitExponent| := by
  obtain ⟨pattern, sign⟩ := magnitudeBits_ofBits inside.le
  have other : (Float.ofBits (UInt64.ofNat bits)).isFinite = true := by
    rw [isFinite_eq, isFinite, pattern]
    exact decide_eq_true inside
  have count : units (Float.ofBits (UInt64.ofNat bits)) = unitsOfBits bits := by rw [units, pattern]
  have nearer := near.closest finite _ other
  rwa [rational_positive finite (near.positive nonneg), rational_positive other sign, count] at nearer

theorem NearestTo.half_step (near : NearestTo x w) (nonneg : 0 ≤ x) (finite : w.isFinite = true)
    (room : magnitudeBits w + 1 < infinityBits) :
    ∃ shift, (shift = 0 ∨ 2 ^ 52 * 2 ^ shift ≤ units w) ∧
      2 * (x * 2 ^ unitExponent - units w) ≤ 2 ^ shift := by
  obtain ⟨shift, mantissa, pattern, most, leading⟩ := exists_join (magnitudeBits w)
  have step := unitsOfBits_succ most leading
  have count := unitsOfBits_join most.le leading
  have unit : (0 : ℚ) < 2 ^ shift := pow_pos two_pos shift
  have one : (0 : ℚ) < 2 ^ unitExponent := pow_pos two_pos unitExponent
  rw [← pattern] at step count
  refine ⟨shift, leading.imp_right fun least => ?_, ?_⟩
  · rw [units, count]
    exact Nat.mul_le_mul_right _ least
  · have nearer := near.closest_pattern nonneg finite room
    rw [← mul_le_mul_iff_left₀ one, ← distance_units, ← distance_units, step, Nat.cast_add,
      Nat.cast_pow, Nat.cast_ofNat, ← units, ← sub_sub] at nearer
    generalize x * 2 ^ unitExponent - units w = above at nearer ⊢
    by_contra farther
    rw [abs_of_pos (by linarith)] at nearer
    rcases le_total above (2 ^ shift) with before | behind
    · rw [abs_of_nonpos (by linarith)] at nearer
      linarith
    · rw [abs_of_nonneg (by linarith)] at nearer
      linarith

theorem eq_of_pattern (magnitude : magnitudeBits v = magnitudeBits w)
    (sign : isNegative v = isNegative w) : v = w := by
  have boundV := v.toBits.toNat_lt
  have boundW := w.toBits.toNat_lt
  unfold magnitudeBits signPosition at magnitude
  unfold isNegative signPosition at sign
  rw [decide_eq_decide] at sign
  have bits : v.toBits = w.toBits := UInt64.toNat_inj.mp (by omega)
  cases v with
  | ofModel one =>
    cases w with
    | ofModel two =>
      cases one
      cases two
      cases bits
      rfl

-- Two nearest values would be neighbours, and the patterns of neighbours are not both even.
theorem NearestTo.not_lower (one : NearestTo x v) (two : NearestTo x w) (nonneg : 0 ≤ x)
    (fits : |x| < overflow) : ¬magnitudeBits v < magnitudeBits w := by
  intro less
  have unit : (0 : ℚ) < 2 ^ unitExponent := pow_pos two_pos unitExponent
  have finiteV := one.finite_iff.mpr fits
  have finiteW := two.finite_iff.mpr fits
  have inside := magnitudeBits_finite finiteW
  have ordered {m n : ℕ} (less : m < n) :
      (unitsOfBits m : ℚ) / 2 ^ unitExponent < unitsOfBits n / 2 ^ unitExponent :=
    div_lt_div_of_pos_right (by exact_mod_cast unitsOfBits_strictMono less) unit
  have neighbours : magnitudeBits w = magnitudeBits v + 1 := by
    by_contra apart
    have above := ordered (Nat.lt_succ_self (magnitudeBits v))
    have below := ordered (show (magnitudeBits v).succ < magnitudeBits w by omega)
    have room : (magnitudeBits v).succ < infinityBits := by omega
    have nearV := one.closest_pattern nonneg finiteV room
    have nearW := two.closest_pattern nonneg finiteW room
    rw [units] at nearV nearW
    rcases le_total x (unitsOfBits (magnitudeBits v).succ / 2 ^ unitExponent) with before | behind
    · rw [abs_of_neg (by linarith), abs_of_nonpos (by linarith)] at nearW
      linarith
    · rw [abs_of_pos (by linarith), abs_of_nonneg (by linarith)] at nearV
      linarith
  have different : rational v ≠ rational w := by
    rw [rational_positive finiteV (one.positive nonneg), rational_positive finiteW (two.positive nonneg)]
    exact (ordered less).ne
  have tie : |x - rational v| = |x - rational w| :=
    le_antisymm (one.closest finiteV w finiteW) (two.closest finiteW v finiteV)
  have evenV := one.even finiteV w finiteW different.symm tie.symm
  have evenW := two.even finiteW v finiteV different tie
  omega

theorem NearestTo.magnitude_unique (one : NearestTo x v) (two : NearestTo x w) (nonneg : 0 ≤ x) :
    magnitudeBits v = magnitudeBits w := by
  rcases lt_or_ge |x| overflow with fits | high
  · exact le_antisymm (not_lt.mp (two.not_lower one nonneg fits))
      (not_lt.mp (one.not_lower two nonneg fits))
  · exact (beq_iff_eq.mp (one.infinite high)).trans (beq_iff_eq.mp (two.infinite high)).symm

theorem NearestTo.unique (one : NearestTo x v) (two : NearestTo x w) : v = w := by
  refine eq_of_pattern ?_ (Bool.eq_iff_iff.mpr (one.signed.trans two.signed.symm))
  rcases le_or_gt 0 x with nonneg | negative
  · exact one.magnitude_unique two nonneg
  · have same := (one.neg negative.ne).magnitude_unique (two.neg negative.ne) (by linarith)
    rwa [(magnitudeBits_neg one.number).1, (magnitudeBits_neg two.number).1] at same

end Nearest

end Binary64

end InfixCalculator
