import InfixCalculator.Proofs.NearestValue

namespace InfixCalculator

namespace Display

namespace Rounded

open Binary64

variable {e : ℤ} {W V shift : ℕ}

-- `10 ^ -314` is the one power of ten that has ten digits in units, and about 2024022533.07 of them.
theorem least_power : (20240225325 / 10 : ℚ) < 10 ^ (-314 : ℤ) * 2 ^ unitExponent ∧
    (10 : ℚ) ^ (-314 : ℤ) * 2 ^ unitExponent ≤ 20240225331 / 10 := by
  have low : ((20240225325 * 10 ^ 314 : ℕ) : ℚ) < (10 * 2 ^ unitExponent : ℕ) :=
    Nat.cast_lt.mpr (by decide +kernel)
  have high : ((10 * 2 ^ unitExponent : ℕ) : ℚ) ≤ (20240225331 * 10 ^ 314 : ℕ) :=
    Nat.cast_le.mpr (by decide +kernel)
  have unit : (0 : ℚ) < 10 ^ (314 : ℕ) := pow_pos (by norm_num) 314
  rw [Nat.cast_mul, Nat.cast_mul, Nat.cast_pow, Nat.cast_pow, Nat.cast_ofNat, Nat.cast_ofNat,
    Nat.cast_ofNat] at low high
  rw [zpow_neg, zpow_ofNat, inv_mul_eq_div, lt_div_iff₀ unit, div_le_iff₀ unit]
  generalize (10 : ℚ) ^ 314 = t at *
  generalize (2 : ℚ) ^ unitExponent = p at *
  constructor <;> linarith

theorem close_to_least_power (least : 10 ^ 9 ≤ (10 : ℚ) ^ e * 2 ^ unitExponent)
    (most : (10 : ℚ) ^ e * 2 ^ unitExponent < 10 ^ 10)
    (half : 2 * ((10 : ℚ) ^ e * 2 ^ unitExponent - W) ≤ 1) :
    20 * 10 ^ 9 * ((10 : ℚ) ^ e * 2 ^ unitExponent - W) ≤ 10 ^ e * 2 ^ unitExponent := by
  obtain ⟨low, high⟩ := least_power
  have one : (0 : ℚ) < 2 ^ unitExponent := pow_pos two_pos unitExponent
  have power : e = -314 := by
    refine le_antisymm (not_lt.mp fun above => ?_) (not_lt.mp fun below => ?_)
    · have larger : (10 : ℚ) ^ (-314 + 1 : ℤ) ≤ 10 ^ e := zpow_le_zpow_right₀ (by norm_num) (by omega)
      rw [zpow_add_one₀ (by norm_num)] at larger
      have product := mul_le_mul_of_nonneg_right larger one.le
      linarith
    · have smaller : (10 : ℚ) ^ e ≤ 10 ^ (-314 - 1 : ℤ) := zpow_le_zpow_right₀ (by norm_num) (by omega)
      rw [zpow_sub_one₀ (by norm_num)] at smaller
      have product := mul_le_mul_of_nonneg_right smaller one.le
      linarith
  rw [power] at half ⊢
  generalize (10 : ℚ) ^ (-314 : ℤ) * 2 ^ unitExponent = Q at *
  have reached : (2024022532 : ℚ) < W := by linarith
  have reached : 2024022533 ≤ W := by exact_mod_cast reached
  have reached : (2024022533 : ℚ) ≤ W := by exact_mod_cast reached
  linarith

-- `V` is above `W` and is rounded to the power of ten `Q`. The steps are finer than half a unit of an
-- eleventh digit, or there are so few digits in units that `V` lies too far.
theorem close_below_power {Q : ℚ} (power : Q = 10 ^ e * 2 ^ unitExponent)
    (leading : shift = 0 ∨ 2 ^ 52 * 2 ^ shift ≤ W) (half : 2 * (Q - W) ≤ 2 ^ shift)
    (below : (W : ℚ) < Q) (other : W < V) (rounded : (V - Q) * 10 ^ 9 ≤ Q / 2) :
    20 * 10 ^ 9 * (Q - W) ≤ Q := by
  rcases leading with rfl | leading
  · rw [pow_zero] at half
    have other : (W : ℚ) + 1 ≤ V := by exact_mod_cast other
    rcases lt_or_ge Q (10 ^ 10) with few | many
    · rw [power] at few half ⊢
      refine close_to_least_power ?_ few half
      rw [← power]
      linarith
    · linarith
  · have leading : (2 ^ 52 : ℚ) * 2 ^ shift ≤ W := by exact_mod_cast leading
    generalize (2 : ℚ) ^ shift = step at *
    linarith

variable {r : Rounded} {x y : ℚ} {d : ℕ} {v w : Float}

theorem Cut.least (cut : r.Cut x e d) : 10 ^ 9 ≤ d :=
  cut.rounded.not_less (by exact_mod_cast cut.lower)

theorem Cut.number_eq_power (cut : r.Cut x e d) (first : d = 10 ^ 9) : r.number = 10 ^ e := by
  have unit : (10 : ℚ) ^ (9 - e) ≠ 0 := zpow_ne_zero _ (by norm_num)
  have whole := cut.whole
  have same : (10 : ℚ) ^ e * 10 ^ (9 - e) = 10 ^ 9 := by
    rw [← zpow_add₀ (by norm_num), add_sub_cancel, zpow_ofNat]
  rw [first, Nat.cast_pow, Nat.cast_ofNat, ← same] at whole
  exact mul_right_cancel₀ unit whole

-- What lies at least as near to the rounded number is rounded to it as well, unless this is a
-- power of ten. Below that the digits are finer, and it has to lie nearer.
theorem Cut.nearest_of_nearer (cut : r.Cut x e d)
    (nearer : |y * 10 ^ (9 - e) - d| ≤ |x * 10 ^ (9 - e) - d|)
    (close : d = 10 ^ 9 → y * 10 ^ (9 - e) < 10 ^ 9 → 20 * (10 ^ 9 - y * 10 ^ (9 - e)) ≤ 1) :
    r.Nearest y := by
  have near := nearer.trans cut.rounded.near
  rcases le_or_gt (10 ^ 9) (y * 10 ^ (9 - e)) with lower | below
  · have rounded : RoundsTo (y * 10 ^ (9 - e)) d :=
      ⟨near, fun tie => cut.rounded.even (le_antisymm cut.rounded.near (tie ▸ nearer))⟩
    have again : r.Cut y e d := ⟨cut.full, lower, rounded, cut.whole, cut.even⟩
    exact again.nearest
  · have first : d = 10 ^ 9 := by
      refine le_antisymm ?_ cut.least
      have above := (abs_le.mp near).1
      have fits : (d : ℚ) < 10 ^ 9 + 1 := by linarith
      exact Nat.lt_succ_iff.mp (by exact_mod_cast fits)
    have close := close first below
    have finer : (10 : ℚ) ^ (9 - (e - 1)) = 10 * 10 ^ (9 - e) := by
      rw [sub_sub_eq_add_sub, add_sub_right_comm, zpow_add_one₀ (by norm_num), mul_comm]
    have whole := cut.whole
    rw [first] at whole
    have again : r.Cut y (e - 1) (10 ^ 10) := by
      refine ⟨cut.full, ?_, ⟨?_, fun _ => by norm_num⟩, ?_, fun _ => cut.even (by omega)⟩
      · rw [finer]
        linarith
      · rw [finer, abs_le]
        push_cast
        constructor <;> linarith
      · rw [finer, mul_left_comm, whole]
        norm_num
    exact again.nearest

section Float

variable (finite : v.isFinite = true) (cut : r.Cut (units v / 2 ^ unitExponent) e d)
  (near : NearestTo r.number w) (bounded : w.isFinite = true)

include finite cut near bounded

theorem Cut.nearer_of_nearest :
    |(units w : ℚ) / 2 ^ unitExponent * 10 ^ (9 - e) - d| ≤
      |(units v : ℚ) / 2 ^ unitExponent * 10 ^ (9 - e) - d| := by
  have unit : (0 : ℚ) < 10 ^ (9 - e) := zpow_pos (by norm_num) _
  have nearer := near.closest_pattern cut.full.number_pos.le bounded (magnitudeBits_finite finite)
  rw [abs_sub_comm, abs_sub_comm r.number] at nearer
  rw [← cut.whole, distance_scaled, distance_scaled]
  exact mul_le_mul_of_nonneg_right nearer unit.le

theorem Cut.close_of_nearest (first : d = 10 ^ 9)
    (below : (units w : ℚ) / 2 ^ unitExponent * 10 ^ (9 - e) < 10 ^ 9) :
    20 * (10 ^ 9 - (units w : ℚ) / 2 ^ unitExponent * 10 ^ (9 - e)) ≤ 1 := by
  have one : (0 : ℚ) < 2 ^ unitExponent := pow_pos two_pos unitExponent
  have positive := cut.full.number_pos
  have power := cut.number_eq_power first
  have whole := cut.whole
  have lower := cut.lower
  have upper := (abs_le.mp cut.rounded.near).2
  rw [first, Nat.cast_pow, Nat.cast_ofNat] at whole upper
  -- everything is compared in units, where `Q` is the rounded number
  obtain ⟨Q, count⟩ : ∃ Q, Q = r.number * 2 ^ unitExponent := ⟨_, rfl⟩
  have some : 0 < Q := count ▸ mul_pos positive one
  have scaled (n : ℕ) : (n : ℚ) / 2 ^ unitExponent * 10 ^ (9 - e) * Q = n * 10 ^ 9 := by
    rw [count, ← whole]
    field_simp
  have low := mul_lt_mul_of_pos_right below some
  have high := mul_le_mul_of_nonneg_right lower some.le
  have rounded := mul_le_mul_of_nonneg_right upper some.le
  rw [scaled] at low high
  rw [sub_mul, scaled] at rounded
  have below : (units w : ℚ) < Q := by linarith
  have other : units w < units v := by
    have above : (units w : ℚ) < units v := by linarith
    exact_mod_cast above
  have inside := magnitudeBits_finite finite
  have lower := unitsOfBits_strictMono.lt_iff_lt.mp other
  obtain ⟨shift, leading, half⟩ := near.half_step positive.le bounded (by omega)
  rw [← count] at half
  have close := close_below_power (count.trans (by rw [power])) leading half below other (by linarith)
  rw [← mul_le_mul_iff_left₀ some, mul_assoc, sub_mul, scaled]
  linarith

-- A finite value that is the nearest one to a number with ten digits, where another value is
-- rounded to that number, is rounded to it itself.
theorem Cut.nearest_again : 0 < units w ∧ r.Nearest (units w / 2 ^ unitExponent) := by
  have nearer := cut.nearer_of_nearest finite near bounded
  refine ⟨Nat.pos_of_ne_zero fun none => ?_, cut.nearest_of_nearer nearer
    (cut.close_of_nearest finite near bounded)⟩
  have least : (10 ^ 9 : ℚ) ≤ d := by exact_mod_cast cut.least
  have far := (abs_le.mp (nearer.trans cut.rounded.near)).1
  rw [none, Nat.cast_zero, zero_div, zero_mul] at far
  linarith

end Float

end Rounded

end Display

end InfixCalculator
