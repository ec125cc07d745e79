import InfixCalculator.Display
import Mathlib.Algebra.Order.Field.Power
import Mathlib.Data.Rat.Cast.Order
import Mathlib.Tactic.FieldSimp
import Mathlib.Tactic.Linarith
import Mathlib.Tactic.Positivity
import Mathlib.Tactic.Ring

namespace InfixCalculator

-- `n` is the whole number nearest to `x`; of two equally near ones it is the even one.
structure RoundsTo (x : ℚ) (n : ℕ) : Prop where
  near : |x - n| ≤ 1 / 2
  even : |x - n| = 1 / 2 → n % 2 = 0

namespace RoundsTo

theorem of_near {x : ℚ} {n : ℕ} (near : |x - n| < 1 / 2) : RoundsTo x n :=
  ⟨near.le, fun tie => absurd tie near.ne⟩

theorem apart {x : ℚ} {m n : ℕ} (rounded : RoundsTo x m) (other : n ≠ m) : 1 / 2 ≤ |x - n| := by
  have whole : (1 : ℤ) ≤ |(m : ℤ) - n| := Int.one_le_abs (by omega)
  have step : (1 : ℚ) ≤ |(m : ℚ) - n| := by exact_mod_cast whole
  have sides := abs_sub_le (m : ℚ) x n
  rw [abs_sub_comm (m : ℚ) x] at sides
  linarith [rounded.near]

theorem closest {x : ℚ} {m : ℕ} (rounded : RoundsTo x m) (n : ℕ) : |x - m| ≤ |x - n| := by
  by_cases same : n = m
  · rw [same]
  · exact rounded.near.trans (rounded.apart same)

theorem tied {x : ℚ} {m n : ℕ} (rounded : RoundsTo x m) (other : n ≠ m)
    (tie : |x - n| = |x - m|) : m % 2 = 0 :=
  rounded.even (le_antisymm rounded.near (tie ▸ rounded.apart other))

theorem not_less {x : ℚ} {m n : ℕ} (rounded : RoundsTo x m) (lower : (n : ℚ) ≤ x) : n ≤ m := by
  by_contra less
  have less : (m : ℚ) < n := by exact_mod_cast not_le.mp less
  have nearer := rounded.closest n
  rw [abs_of_nonneg (by linarith), abs_of_nonneg (by linarith)] at nearer
  linarith

theorem not_more {x : ℚ} {m n : ℕ} (rounded : RoundsTo x m) (upper : x ≤ n) : m ≤ n := by
  by_contra more
  have more : (n : ℚ) < m := by exact_mod_cast not_le.mp more
  have nearer := rounded.closest n
  rw [abs_of_nonpos (by linarith), abs_of_nonpos (by linarith)] at nearer
  linarith

theorem unique {x : ℚ} {m n : ℕ} (one : RoundsTo x m) (two : RoundsTo x n) : m = n := by
  by_contra different
  have evenM := one.even (le_antisymm one.near (two.apart different))
  have evenN := two.even (le_antisymm two.near (one.apart (Ne.symm different)))
  have sides := abs_sub_le (m : ℚ) x n
  rw [abs_sub_comm (m : ℚ) x] at sides
  have close : |(m : ℚ) - n| ≤ 1 := by linarith [one.near, two.near]
  have close : |(m : ℤ) - n| ≤ 1 := by exact_mod_cast close
  rw [abs_le] at close
  omega

end RoundsTo

namespace Binary64

theorem distance_quotient (num : ℕ) {den : ℕ} (positive : 0 < den) :
    |(num : ℚ) / den - (num / den : ℕ)| = (num % den : ℕ) / den ∧
      |(num : ℚ) / den - (num / den + 1 : ℕ)| = 1 - (num % den : ℕ) / den := by
  have scale : (0 : ℚ) < den := by exact_mod_cast positive
  have below : num % den < den := Nat.mod_lt num positive
  have whole : num = den * (num / den) + num % den := (Nat.div_add_mod num den).symm
  generalize num / den = quotient at whole
  generalize num % den = rest at whole below
  have split : (num : ℚ) / den = quotient + rest / den := by
    rw [whole]
    push_cast
    field_simp
  have at_most : (rest : ℚ) / den ≤ 1 := by
    rw [div_le_one scale]
    exact_mod_cast below.le
  have nonneg : 0 ≤ (rest : ℚ) / den := by positivity
  constructor
  · rw [split, add_sub_cancel_left, abs_of_nonneg nonneg]
  · rw [split, abs_sub_comm, abs_of_nonneg] <;> push_cast <;> linarith

theorem divNearest_roundsTo (num : ℕ) {den : ℕ} (positive : 0 < den) :
    RoundsTo ((num : ℚ) / den) (divNearest num den) := by
  have scale : (0 : ℚ) < den := by exact_mod_cast positive
  obtain ⟨lower, upper⟩ := distance_quotient num positive
  unfold divNearest
  dsimp only
  generalize num / den = quotient at *
  generalize num % den = rest at *
  have less_iff : (rest : ℚ) / den < 1 / 2 ↔ 2 * rest < den := by
    rw [div_lt_div_iff₀ scale two_pos]
    norm_cast
    omega
  have more_iff : 1 / 2 < (rest : ℚ) / den ↔ den < 2 * rest := by
    rw [div_lt_div_iff₀ two_pos scale]
    norm_cast
    omega
  split
  · next less => exact .of_near (by rw [lower]; exact less_iff.mpr less)
  · next notLess =>
    split
    · next more => exact .of_near (by rw [upper]; linarith [more_iff.mpr more])
    · next notMore =>
      have tie : (rest : ℚ) / den = 1 / 2 :=
        le_antisymm (not_lt.mp (mt more_iff.mp notMore)) (not_lt.mp (mt less_iff.mp notLess))
      split
      · next even => exact ⟨by rw [lower, tie], fun _ => even⟩
      · next odd => exact ⟨by rw [upper, tie]; norm_num, fun _ => by omega⟩

end Binary64

namespace Display

theorem ten_zpow (places : ℤ) :
    (10 : ℚ) ^ places.toNat / 10 ^ (-places).toNat = 10 ^ places := by
  rcases Int.eq_nat_or_neg places with ⟨n, rfl | rfl⟩ <;> simp

theorem divScaled_roundsTo (num : ℕ) {den : ℕ} (positive : 0 < den) (places : ℤ) :
    RoundsTo ((num : ℚ) / den * 10 ^ places) (divScaled num den places) := by
  have rounded := Binary64.divNearest_roundsTo (num * 10 ^ places.toNat)
    (Nat.mul_pos positive (Nat.pow_pos (n := (-places).toNat) (by decide : 0 < 10)))
  have shifted : ((num * 10 ^ places.toNat : ℕ) : ℚ) / (den * 10 ^ (-places).toNat : ℕ) =
      num / den * 10 ^ places := by
    push_cast
    rw [mul_div_mul_comm, ten_zpow]
  rwa [shifted] at rounded

theorem decimalLength_bounds {n : ℕ} (positive : 0 < n) :
    10 ^ (decimalLength n - 1) ≤ n ∧ n < 10 ^ decimalLength n := by
  have some : 0 < decimalLength n := Nat.length_toDigits_pos
  refine ⟨?_, (Nat.length_toDigits_le_iff (by decide) some).mp le_rfl⟩
  by_cases one : decimalLength n - 1 = 0
  · rw [one]
    exact positive
  · have longer : ¬decimalLength n ≤ decimalLength n - 1 := by omega
    exact not_lt.mp (mt (Nat.length_toDigits_le_iff (by decide) (by omega)).mpr longer)

theorem decimalExponent_bounds {num den : ℕ} (some : 0 < num) (positive : 0 < den) :
    (10 : ℚ) ^ decimalExponent num den ≤ num / den ∧
      (num : ℚ) / den < 10 ^ (decimalExponent num den + 1) := by
  have scale : (0 : ℚ) < den := by exact_mod_cast positive
  unfold decimalExponent
  split
  · next whole =>
    have bounds := decimalLength_bounds (Nat.div_pos whole positive)
    have length : 0 < decimalLength (num / den) := Nat.length_toDigits_pos
    generalize decimalLength (num / den) = k at bounds length
    obtain ⟨lower, upper⟩ := bounds
    rw [Nat.le_div_iff_mul_le positive] at lower
    rw [Nat.div_lt_iff_lt_mul positive] at upper
    have next_power : ((k - 1 : ℕ) : ℤ) + 1 = (k : ℕ) := by omega
    rw [next_power, zpow_natCast, zpow_natCast, le_div_iff₀ scale, div_lt_iff₀ scale]
    exact ⟨by exact_mod_cast lower, by exact_mod_cast upper⟩
  · next small =>
    have bounds := decimalLength_bounds (Nat.div_pos (by omega : num ≤ den - 1) some)
    have length : 0 < decimalLength ((den - 1) / num) := Nat.length_toDigits_pos
    generalize decimalLength ((den - 1) / num) = k at bounds length
    obtain ⟨lower, upper⟩ := bounds
    rw [Nat.le_div_iff_mul_le some] at lower
    rw [Nat.div_lt_iff_lt_mul some] at upper
    have lower : 10 ^ (k - 1) * num < den := by omega
    have upper : den ≤ 10 ^ k * num := by omega
    have next_power : -(k : ℤ) + 1 = -((k - 1 : ℕ) : ℤ) := by omega
    rw [next_power, zpow_neg, zpow_neg, zpow_natCast, zpow_natCast, le_div_iff₀ scale,
      div_lt_iff₀ scale, inv_mul_le_iff₀ (by positivity), lt_inv_mul_iff₀ (by positivity)]
    exact ⟨by exact_mod_cast upper, by exact_mod_cast lower⟩

namespace Rounded

def number (r : Rounded) : ℚ := r.digits * 10 ^ (r.exponent - 9)

def Full (r : Rounded) : Prop := 10 ^ 9 ≤ r.digits ∧ r.digits < 10 ^ 10

-- Of all numbers with ten digits, whatever their exponents, `r` is the nearest to
-- `x`; of two equally near ones it is the one whose last digit is even.
structure Nearest (r : Rounded) (x : ℚ) : Prop where
  full : r.Full
  closest : ∀ s : Rounded, s.Full → |x - r.number| ≤ |x - s.number|
  even : ∀ s : Rounded, s.Full → s ≠ r → |x - s.number| = |x - r.number| → r.digits % 2 = 0

theorem number_scaled (r : Rounded) (e : ℤ) :
    r.number * 10 ^ (9 - e) = r.digits * 10 ^ (r.exponent - e) := by
  rw [number, mul_assoc, ← zpow_add₀ (by norm_num)]
  congr 2
  ring

theorem number_on_grid (r : Rounded) {e : ℤ} (above : e ≤ r.exponent) :
    r.number * 10 ^ (9 - e) = (r.digits * 10 ^ (r.exponent - e).toNat : ℕ) := by
  rw [number_scaled]
  push_cast
  rw [← zpow_natCast, Int.toNat_of_nonneg (by omega)]

theorem Full.number_below {r : Rounded} (full : r.Full) {e : ℤ} (below : r.exponent < e) :
    r.number * 10 ^ (9 - e) < 10 ^ 9 := by
  have digits : (r.digits : ℚ) < 10 ^ 10 := by exact_mod_cast full.2
  have tenth : (10 : ℚ) ^ (r.exponent - e) ≤ 10 ^ (-1 : ℤ) :=
    zpow_le_zpow_right₀ (by norm_num) (by omega)
  rw [number_scaled]
  calc (r.digits : ℚ) * 10 ^ (r.exponent - e) ≤ r.digits * 10 ^ (-1 : ℤ) :=
        mul_le_mul_of_nonneg_left tenth (by positivity)
    _ < 10 ^ 9 := by rw [zpow_neg_one]; linarith

theorem Full.number_bounds {r : Rounded} (full : r.Full) :
    10 ^ r.exponent ≤ r.number ∧ r.number < 10 ^ (r.exponent + 1) := by
  have unit : (0 : ℚ) < 10 ^ (r.exponent - 9) := zpow_pos (by norm_num) _
  have split (k : ℕ) : (10 : ℚ) ^ (r.exponent - 9 + k) = 10 ^ k * 10 ^ (r.exponent - 9) := by
    rw [zpow_add₀ (by norm_num), zpow_natCast, mul_comm]
  have first := split 9
  have last := split 10
  rw [Nat.cast_ofNat, sub_add_cancel] at first
  rw [Nat.cast_ofNat, show r.exponent - 9 + 10 = r.exponent + 1 by ring] at last
  rw [first, last, number]
  exact ⟨mul_le_mul_of_nonneg_right (by exact_mod_cast full.1) unit.le,
    mul_lt_mul_of_pos_right (by exact_mod_cast full.2) unit⟩

theorem Full.number_pos {r : Rounded} (full : r.Full) : 0 < r.number :=
  (zpow_pos (by norm_num) _).trans_le full.number_bounds.1

theorem Full.exponent_not_less {r s : Rounded} (full : r.Full) (other : s.Full)
    (same : r.number = s.number) : s.exponent ≤ r.exponent := by
  by_contra less
  have below := full.number_below (not_le.mp less)
  rw [same, number_on_grid s le_rfl] at below
  have few : s.digits * 10 ^ (s.exponent - s.exponent).toNat < 10 ^ 9 := by exact_mod_cast below
  have many := other.1
  simp only [Int.sub_self, Int.toNat_zero, pow_zero, mul_one] at few
  omega

theorem Full.number_injective {r s : Rounded} (full : r.Full) (other : s.Full)
    (same : r.number = s.number) : r = s := by
  have exponents : r.exponent = s.exponent :=
    le_antisymm (other.exponent_not_less full same.symm) (full.exponent_not_less other same)
  have digits : (r.digits : ℚ) = s.digits := by
    simp only [number, exponents] at same
    exact mul_right_cancel₀ (zpow_ne_zero _ (by norm_num)) same
  cases r
  cases s
  simp only [mk.injEq]
  exact ⟨by exact_mod_cast digits, exponents⟩

theorem distance_scaled (x y : ℚ) (k : ℤ) : |x * 10 ^ k - y * 10 ^ k| = |x - y| * 10 ^ k := by
  rw [← sub_mul, abs_mul, abs_of_pos (zpow_pos (by norm_num : (0 : ℚ) < 10) k)]

section Grid

variable {r s : Rounded} {x : ℚ} {e : ℤ} {d : ℕ}

-- `x` has the exponent `e` or a higher one, `d` is the whole number nearest to it in
-- units of `10 ^ (e - 9)`, and `r` is that number of units.
structure Cut (r : Rounded) (x : ℚ) (e : ℤ) (d : ℕ) : Prop where
  full : r.Full
  lower : 10 ^ 9 ≤ x * 10 ^ (9 - e)
  rounded : RoundsTo (x * 10 ^ (9 - e)) d
  whole : r.number * 10 ^ (9 - e) = d
  even : d % 2 = 0 → r.digits % 2 = 0

-- A number with ten digits is a whole number of these units as well, or it has a
-- lower exponent, and then `10 ^ e` lies between it and `x`.
theorem Cut.on_grid_or_farther (cut : r.Cut x e d) (full : s.Full) :
    (∃ n : ℕ, s.number * 10 ^ (9 - e) = n ∧ (s.digits % 2 = 0 → n % 2 = 0)) ∨
      |x * 10 ^ (9 - e) - d| < |x * 10 ^ (9 - e) - s.number * 10 ^ (9 - e)| := by
  by_cases above : e ≤ s.exponent
  · refine .inl ⟨_, s.number_on_grid above, fun even => ?_⟩
    rw [Nat.mul_mod, even, Nat.zero_mul, Nat.zero_mod]
  · have below := full.number_below (not_le.mp above)
    have lower := cut.lower
    refine .inr ((cut.rounded.closest (10 ^ 9)).trans_lt ?_)
    push_cast
    rw [abs_of_nonneg (by linarith), abs_of_nonneg (by linarith)]
    linarith

theorem Cut.eq_of_units (cut : r.Cut x e d) (full : s.Full) (units : s.number * 10 ^ (9 - e) = d) :
    s = r :=
  full.number_injective cut.full
    (mul_right_cancel₀ (zpow_ne_zero _ (by norm_num)) (units.trans cut.whole.symm))

theorem Cut.distance (cut : r.Cut x e d) :
    |x * 10 ^ (9 - e) - d| = |x - r.number| * 10 ^ (9 - e) := by
  rw [← cut.whole, distance_scaled]

theorem Cut.nearest (cut : r.Cut x e d) : r.Nearest x := by
  have unit : (0 : ℚ) < 10 ^ (9 - e) := zpow_pos (by norm_num) _
  refine ⟨cut.full, fun s full => ?_, fun s full different tie => cut.even ?_⟩
  · rw [← mul_le_mul_iff_of_pos_right unit, ← distance_scaled x s.number, ← cut.distance]
    rcases cut.on_grid_or_farther full with ⟨n, units, -⟩ | farther
    · rw [units]
      exact cut.rounded.closest n
    · exact farther.le
  · have tie : |x * 10 ^ (9 - e) - s.number * 10 ^ (9 - e)| = |x * 10 ^ (9 - e) - d| := by
      rw [distance_scaled, tie, cut.distance]
    rcases cut.on_grid_or_farther full with ⟨n, units, -⟩ | farther
    · rw [units] at tie
      exact cut.rounded.tied (fun same => different (cut.eq_of_units full (same ▸ units))) tie
    · exact absurd tie farther.ne'

-- Two different numbers cannot both be nearest: they would be equally near, both
-- with an even last digit, and so both the whole number of units nearest to `x`.
theorem Cut.eq_of_nearest (cut : r.Cut x e d) (nearest : s.Nearest x) : s = r := by
  by_contra different
  have tie : |x - s.number| = |x - r.number| :=
    le_antisymm (nearest.closest r cut.full) (cut.nearest.closest s nearest.full)
  have even := nearest.even r cut.full (Ne.symm different) tie.symm
  have tie : |x * 10 ^ (9 - e) - s.number * 10 ^ (9 - e)| = |x * 10 ^ (9 - e) - d| := by
    rw [distance_scaled, tie, cut.distance]
  rcases cut.on_grid_or_farther nearest.full with ⟨n, units, parity⟩ | farther
  · rw [units] at tie
    have other : RoundsTo (x * 10 ^ (9 - e)) n := ⟨tie ▸ cut.rounded.near, fun _ => parity even⟩
    exact different (cut.eq_of_units nearest.full (other.unique cut.rounded ▸ units))
  · exact farther.ne' tie

end Grid

section Ratio

variable {num den : ℕ}

theorem scaled_bounds (some : 0 < num) (positive : 0 < den) :
    (10 : ℚ) ^ 9 ≤ num / den * 10 ^ (9 - decimalExponent num den) ∧
      (num : ℚ) / den * 10 ^ (9 - decimalExponent num den) < 10 ^ 10 := by
  obtain ⟨lower, upper⟩ := decimalExponent_bounds some positive
  generalize decimalExponent num den = e at lower upper
  have unit : (0 : ℚ) < 10 ^ (9 - e) := zpow_pos (by norm_num) _
  have first : (10 : ℚ) ^ 9 = 10 ^ e * 10 ^ (9 - e) := by
    rw [← zpow_add₀ (by norm_num), add_sub_cancel, ← zpow_natCast]
    rfl
  have last : (10 : ℚ) ^ 10 = 10 ^ (e + 1) * 10 ^ (9 - e) := by
    rw [zpow_add₀ (by norm_num), zpow_one, mul_right_comm, ← first]
    norm_num
  rw [first, last]
  exact ⟨mul_le_mul_of_nonneg_right lower unit.le, mul_lt_mul_of_pos_right upper unit⟩

theorem ofRatio_cases (some : 0 < num) (positive : 0 < den) :
    let e := decimalExponent num den
    let d := divScaled num den (9 - e)
    10 ^ 9 ≤ d ∧ d < 10 ^ 10 ∧ ofRatio num den = ⟨d, e⟩ ∨
      d = 10 ^ 10 ∧ ofRatio num den = ⟨10 ^ 9, e + 1⟩ := by
  intro e d
  have rounded := divScaled_roundsTo num positive (9 - e)
  obtain ⟨lower, upper⟩ := scaled_bounds some positive
  have chosen : ofRatio num den = if d < 10 ^ 10 then ⟨d, e⟩ else ⟨d / 10, e + 1⟩ := rfl
  rw [chosen]
  split
  · next few => exact .inl ⟨rounded.not_less (by exact_mod_cast lower), few, rfl⟩
  · next many =>
    have most : d ≤ 10 ^ 10 := rounded.not_more (by exact_mod_cast upper.le)
    have carried : d = 10 ^ 10 := le_antisymm most (not_lt.mp many)
    exact .inr ⟨carried, by rw [carried]; rfl⟩

theorem ofRatio_cut (some : 0 < num) (positive : 0 < den) :
    (ofRatio num den).Cut (num / den) (decimalExponent num den)
      (divScaled num den (9 - decimalExponent num den)) := by
  have rounded := divScaled_roundsTo num positive (9 - decimalExponent num den)
  have lower := (scaled_bounds some positive).1
  rcases ofRatio_cases some positive with ⟨least, few, chosen⟩ | ⟨carried, chosen⟩
  · rw [chosen]
    refine ⟨⟨least, few⟩, lower, rounded, ?_, id⟩
    rw [number_scaled, sub_self, zpow_zero, mul_one]
  · rw [carried] at rounded
    rw [chosen, carried]
    refine ⟨by norm_num [Full], lower, rounded, ?_, fun _ => by norm_num⟩
    rw [number_scaled, add_sub_cancel_left]
    norm_num

theorem nearest_iff (some : 0 < num) (positive : 0 < den) (r : Rounded) :
    r.Nearest (num / den) ↔ r = ofRatio num den := by
  have cut := ofRatio_cut some positive
  refine ⟨cut.eq_of_nearest, ?_⟩
  rintro rfl
  exact cut.nearest

-- Rounding again, to the decimals that the rounded exponent leaves, gives the same
-- digits: also when nines were carried and one decimal less is left.
theorem divScaled_ofRatio (some : 0 < num) (positive : 0 < den) :
    divScaled num den (9 - (ofRatio num den).exponent) = (ofRatio num den).digits := by
  rcases ofRatio_cases some positive with ⟨-, -, chosen⟩ | ⟨carried, chosen⟩
  · rw [chosen]
  · rw [chosen]
    have rounded := divScaled_roundsTo num positive (9 - decimalExponent num den)
    have again := divScaled_roundsTo num positive (9 - (decimalExponent num den + 1))
    refine again.unique (.of_near ?_)
    have near := rounded.near
    have tenth : (10 : ℚ) ^ (9 - (decimalExponent num den + 1)) =
        10 ^ (9 - decimalExponent num den) / 10 := by
      rw [← sub_sub, zpow_sub_one₀ (by norm_num), div_eq_mul_inv]
    rw [carried] at near
    rw [tenth]
    push_cast at near ⊢
    rw [abs_le] at near
    rw [abs_lt]
    constructor <;> linarith

end Ratio

end Rounded

end Display

end InfixCalculator
