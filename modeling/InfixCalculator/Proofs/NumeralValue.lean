import InfixCalculator.Proofs.DecimalText
import InfixCalculator.Proofs.NearestValue

namespace InfixCalculator

namespace Numeral

theorem number_cons (c : Char) (t : Text) :
    number (c :: t) = 10 ^ t.length * (c.toNat - '0'.toNat) + number t := by
  have first : number [c] = c.toNat - '0'.toNat := by
    rw [number, Nat.ofDigitChars_cons, Nat.mul_zero, Nat.zero_add]
    rfl
  rw [← List.singleton_append, number_append, first]

theorem number_lt {ds : Text} (inside : ∀ c ∈ ds, c.isDigit = true) : number ds < 10 ^ ds.length := by
  induction ds with
  | nil => exact Nat.one_pos
  | cons c ds ih =>
    have digit := digit_iff.mp (inside c List.mem_cons_self)
    have rest := ih fun d member => inside d (List.mem_cons_of_mem _ member)
    have zero : '0'.toNat = 48 := rfl
    have most : c.toNat - '0'.toNat ≤ 9 := by omega
    rw [number_cons, List.length_cons, pow_succ]
    have bound := Nat.mul_le_mul_left (10 ^ ds.length) most
    omega

theorem le_number {c : Char} {ds : Text} (digit : c.isDigit = true) (leading : c ≠ '0') :
    10 ^ ds.length ≤ number (c :: ds) := by
  have bounds := digit_iff.mp digit
  have zero : '0'.toNat = 48 := rfl
  have other : c.toNat ≠ 48 := fun same => leading (Char.toNat_inj.mp same)
  have least : 1 ≤ c.toNat - '0'.toNat := by omega
  rw [number_cons]
  have bound := Nat.mul_le_mul_left (10 ^ ds.length) least
  omega

theorem fraction_digits (t : Text) : ∀ c ∈ (fraction t).drop 1, c.isDigit = true := by
  rcases fraction_cases t with none | ⟨last, grouped, pointed⟩
  · simp [none]
  · rw [pointed, List.drop_succ_cons, List.drop_zero]
    exact grouped.2

theorem significant_digits (t : Text) : ∀ c ∈ (parts t).significant, c.isDigit = true := by
  intro c member
  rcases List.mem_append.mp ((List.dropWhile_sublist _).mem member) with whole | behind
  · exact List.all_eq_true.mp List.all_takeWhile c whole
  · exact fraction_digits _ c behind

theorem mantissa_lt (t : Text) : (parts t).mantissa < 10 ^ (parts t).significant.length :=
  number_lt (significant_digits t)

theorem le_mantissa {t : Text} (some : (parts t).mantissa ≠ 0) :
    ∃ n, (parts t).significant.length = n + 1 ∧ 10 ^ n ≤ (parts t).mantissa := by
  have digits := significant_digits t
  unfold Parts.mantissa at some ⊢
  cases leading : (parts t).significant with
  | nil => exact absurd (leading ▸ rfl) some
  | cons c ds =>
    rw [leading] at digits
    refine ⟨ds.length, rfl, le_number (digits c List.mem_cons_self) ?_⟩
    have first := List.head?_dropWhile_not (· == '0') ((parts t).whole ++ (parts t).fraction.drop 1)
    rw [← Parts.significant, leading] at first
    simpa using first

theorem scaled_ratio (mantissa : ℕ) (scale : ℤ) :
    ((mantissa * 10 ^ scale.toNat : ℕ) : ℚ) / (10 ^ (-scale).toNat : ℕ) = mantissa * 10 ^ scale := by
  push_cast
  rw [mul_div_assoc, Display.ten_zpow]

theorem overflow_le : Binary64.overflow ≤ 10 ^ 310 := by
  have high : ((2 ^ 970 : ℕ) : ℚ) ≤ (10 ^ 292 : ℕ) := Nat.cast_le.mpr (by decide +kernel)
  rw [Nat.cast_pow, Nat.cast_pow, Nat.cast_ofNat, Nat.cast_ofNat] at high
  have split : (10 : ℚ) ^ 310 = 10 ^ 18 * 10 ^ 292 := by rw [← pow_add]
  rw [Binary64.overflow, split]
  exact mul_le_mul (by norm_num) high (pow_nonneg two_pos.le 970) (by norm_num)

theorem lowest_tiny : (10 : ℚ) ^ (-331 : ℤ) * 2 ^ Binary64.unitExponent < 1 / 2 := by
  have low : ((2 * 2 ^ Binary64.unitExponent : ℕ) : ℚ) < (10 ^ 331 : ℕ) :=
    Nat.cast_lt.mpr (by decide +kernel)
  rw [Nat.cast_mul, Nat.cast_pow, Nat.cast_pow, Nat.cast_ofNat, Nat.cast_ofNat] at low
  have unit : (0 : ℚ) < 10 ^ (331 : ℕ) := pow_pos (by norm_num) 331
  rw [zpow_neg, zpow_ofNat, inv_mul_eq_div, div_lt_iff₀ unit,
    div_mul_eq_mul_div, one_mul, lt_div_iff₀ two_pos, mul_comm]
  exact low

theorem huge_of_highest {mantissa n : ℕ} {scale : ℤ} (least : 10 ^ n ≤ mantissa)
    (high : 310 ≤ n + scale) : Binary64.overflow ≤ mantissa * 10 ^ scale := by
  have unit : (0 : ℚ) < 10 ^ scale := zpow_pos (by norm_num) scale
  have least : (10 : ℚ) ^ n ≤ mantissa := by exact_mod_cast least
  calc Binary64.overflow ≤ 10 ^ (310 : ℤ) := overflow_le
    _ ≤ 10 ^ (n + scale) := zpow_le_zpow_right₀ (by norm_num) high
    _ = 10 ^ n * 10 ^ scale := by rw [zpow_add₀ (by norm_num), zpow_natCast]
    _ ≤ mantissa * 10 ^ scale := mul_le_mul_of_nonneg_right least unit.le

theorem tiny_of_lowest {mantissa size : ℕ} {scale : ℤ} (most : mantissa < 10 ^ size)
    (low : size + scale ≤ -331) : (mantissa * 10 ^ scale : ℚ) * 2 ^ Binary64.unitExponent < 1 / 2 := by
  have unit : (0 : ℚ) < 10 ^ scale := zpow_pos (by norm_num) scale
  have most : (mantissa : ℚ) < 10 ^ size := by exact_mod_cast most
  have below : (mantissa * 10 ^ scale : ℚ) ≤ 10 ^ (-331 : ℤ) :=
    calc (mantissa * 10 ^ scale : ℚ) ≤ 10 ^ size * 10 ^ scale := mul_le_mul_of_nonneg_right most.le unit.le
      _ = 10 ^ (size + scale) := by rw [zpow_add₀ (by norm_num), zpow_natCast]
      _ ≤ 10 ^ (-331 : ℤ) := zpow_le_zpow_right₀ (by norm_num) low
  exact (mul_le_mul_of_nonneg_right below (pow_nonneg two_pos.le _)).trans_lt lowest_tiny

theorem nearest_nearestTo {mantissa size : ℕ} (scale : ℤ) (most : mantissa < 10 ^ size)
    (least : mantissa ≠ 0 → ∃ n, size = n + 1 ∧ 10 ^ n ≤ mantissa) :
    Binary64.NearestTo (mantissa * 10 ^ scale) (nearest mantissa size scale) := by
  have unit : (0 : ℚ) < 10 ^ scale := zpow_pos (by norm_num) scale
  have nonneg : (0 : ℚ) ≤ mantissa * 10 ^ scale := mul_nonneg (Nat.cast_nonneg _) unit.le
  unfold nearest highestPower lowestPower
  split
  · next none =>
    refine Binary64.nearestTo_tiny nonneg ?_
    rw [none, Nat.cast_zero, zero_mul, zero_mul]
    exact one_half_pos
  · next some =>
    obtain ⟨n, length, lower⟩ := least some
    split
    · next high => exact Binary64.nearestTo_huge (huge_of_highest lower (by omega))
    · split
      · next low => exact Binary64.nearestTo_tiny nonneg (tiny_of_lowest most (by omega))
      · rw [← scaled_ratio]
        exact Binary64.nearest_nearestTo _ (Nat.pow_pos (by decide))

-- The value of a numeral is the one nearest to the number that it writes.
theorem value_nearestTo {t : Text} {q : ℚ} (written : rational? t = some q) :
    Binary64.NearestTo q (value t) := by
  unfold rational? at written
  split at written
  · cases written
    exact nearest_nearestTo _ (mantissa_lt t) le_mantissa
  · cases written

end Numeral

end InfixCalculator
