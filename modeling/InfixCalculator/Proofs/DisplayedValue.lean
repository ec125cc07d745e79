import InfixCalculator.Proofs.DecimalText
import InfixCalculator.Proofs.ExactValue
import InfixCalculator.Proofs.Rounding

namespace InfixCalculator

namespace Display

open Numeral

def read? : Text → Option ℚ
  | '-' :: rest => (Numeral.rational? rest).map (-·)
  | t => Numeral.rational? t

theorem read?_negative (t : Text) : read? ('-' :: t) = (Numeral.rational? t).map (-·) := rfl

def mantissaText (t : Text) : Text := (t.takeWhile (· != 'e')).dropWhile (· == '-')

def scientificText (r : Rounded) : Text :=
  dropFilling (fixedText r.digits 9) ++ 'e' :: exponentText r.exponent

def positionalText (units : ℕ) (exponent : ℤ) : Text :=
  let places := (9 - exponent).toNat
  dropFilling (fixedText (divScaled units (2 ^ Binary64.unitExponent) places) places)

theorem magnitudeText_eq (units : ℕ) :
    magnitudeText units =
      let r := Rounded.ofRatio units (2 ^ Binary64.unitExponent)
      if r.exponent < -4 ∨ 10 ≤ r.exponent then scientificText r
      else positionalText units r.exponent := by
  unfold magnitudeText
  simp only [Bool.or_eq_true, decide_eq_true_eq]
  rfl

theorem rational?_scientificText (r : Rounded) :
    Numeral.rational? (scientificText r) = some r.number := by
  rw [scientificText, (unfilled_dropFilling r.digits 9).rational?_append (isExponent_exponentText _),
    powerOf_exponentText, Rounded.number, zpow_sub₀ (by norm_num)]
  congr 1
  rw [div_mul_eq_mul_div, mul_div_assoc]
  rfl

section Magnitude

variable {units : ℕ} {r : Rounded}

theorem positionalText_eq (counted : 0 < units)
    (rounded : r = Rounded.ofRatio units (2 ^ Binary64.unitExponent)) (fits : r.exponent < 10) :
    positionalText units r.exponent =
      dropFilling (fixedText r.digits (9 - r.exponent).toNat) := by
  have again := Rounded.divScaled_ofRatio counted (Nat.two_pow_pos Binary64.unitExponent)
  have places : ((9 - r.exponent).toNat : ℤ) = 9 - r.exponent := Int.toNat_of_nonneg (by omega)
  rw [← rounded] at again
  simp only [positionalText, places]
  rw [again]

theorem number_positional (fits : r.exponent < 10) :
    (r.digits : ℚ) / 10 ^ (9 - r.exponent).toNat = r.number := by
  rw [Rounded.number, ← zpow_natCast, Int.toNat_of_nonneg (by omega), div_eq_mul_inv, ← zpow_neg,
    neg_sub]

theorem rational?_positionalText (counted : 0 < units)
    (rounded : r = Rounded.ofRatio units (2 ^ Binary64.unitExponent)) (fits : r.exponent < 10) :
    Numeral.rational? (positionalText units r.exponent) = some r.number := by
  have written := (unfilled_dropFilling r.digits (9 - r.exponent).toNat).rational?_append .absent
  rw [List.append_nil, number_positional fits] at written
  rw [positionalText_eq counted rounded fits, written]
  congr 1
  exact mul_one _

theorem rational?_magnitudeText (counted : 0 < units)
    (rounded : r = Rounded.ofRatio units (2 ^ Binary64.unitExponent)) :
    Numeral.rational? (magnitudeText units) = some r.number := by
  rw [magnitudeText_eq, ← rounded]
  dsimp only
  split
  · exact rational?_scientificText r
  · exact rational?_positionalText counted rounded (by omega)

theorem magnitudeText_pieces (counted : 0 < units)
    (rounded : r = Rounded.ofRatio units (2 ^ Binary64.unitExponent)) :
    ∃ body q tail, magnitudeText units = body ++ tail ∧ Unfilled body q ∧
      ((r.exponent < -4 ∨ 10 ≤ r.exponent) ∧ tail = 'e' :: exponentText r.exponent ∨
        ¬(r.exponent < -4 ∨ 10 ≤ r.exponent) ∧ tail = [] ∧ q = r.number) := by
  rw [magnitudeText_eq, ← rounded]
  dsimp only
  split
  · next scientific =>
    exact ⟨_, _, _, rfl, unfilled_dropFilling _ _, .inl ⟨scientific, rfl⟩⟩
  · next positional =>
    have fits : r.exponent < 10 := by omega
    refine ⟨_, _, [], (List.append_nil _).symm, ?_, .inr ⟨positional, rfl, number_positional fits⟩⟩
    rw [positionalText_eq counted rounded fits]
    exact unfilled_dropFilling _ _

end Magnitude

def signText (v : Float) : Text := if v < 0 then ['-'] else []

theorem signText_cases (v : Float) : signText v = [] ∨ signText v = ['-'] := by
  unfold signText
  split
  · exact .inr rfl
  · exact .inl rfl

theorem signText_eq_iff (v : Float) : signText v = ['-'] ↔ v < 0 := by
  unfold signText
  split
  · next negative => exact iff_of_true rfl negative
  · next positive => exact iff_of_false (List.cons_ne_nil _ _).symm positive

theorem value_finite {v : Float} (finite : v.isFinite = true) :
    value v = if Binary64.units v = 0 then ['0']
      else (if Binary64.isNegative v then ['-'] else []) ++ magnitudeText (Binary64.units v) := by
  have below := Binary64.magnitudeBits_finite finite
  have number : ¬Binary64.isNaN v = true := by
    simpa [Binary64.isNaN] using below.le
  have bounded : ¬Binary64.isInfinite v = true := by
    simpa [Binary64.isInfinite] using below.ne
  unfold value
  rw [if_neg number]
  dsimp only
  rw [if_neg bounded]

theorem value_counted {v : Float} (finite : v.isFinite = true) (counted : 0 < Binary64.units v) :
    value v = signText v ++ magnitudeText (Binary64.units v) := by
  have sign : Binary64.isNegative v = true ↔ v < 0 := by
    rw [Binary64.lt_zero_iff finite]
    exact (and_iff_left counted.ne').symm
  rw [value_finite finite, if_neg counted.ne', signText, if_congr sign rfl rfl]

section Pieces

variable {sign body tail : Text} {q : ℚ}

theorem Unfilled.without_exponent (unfilled : Unfilled body q)
    (signed : sign = [] ∨ sign = ['-']) :
    ∀ c ∈ sign ++ body, (c != 'e') = true := by
  intro c member
  rcases List.mem_append.mp member with front | back
  · rcases signed with rfl | rfl
    · cases front
    · rw [List.mem_singleton.mp front]
      rfl
  · rcases unfilled.inside c back with digit | rfl
    · exact bne_iff_ne.mpr (digit_ne digit rfl)
    · rfl

theorem Unfilled.mantissaText_eq (unfilled : Unfilled body q) (signed : sign = [] ∨ sign = ['-'])
    (powered : tail = [] ∨ ∃ power, tail = 'e' :: power) :
    mantissaText (sign ++ (body ++ tail)) = body := by
  have front := unfilled.without_exponent signed
  have stop : tail.takeWhile (· != 'e') = [] := by
    rcases powered with rfl | ⟨power, rfl⟩ <;> rfl
  obtain ⟨d, rest, first, digit⟩ := unfilled.first
  have kept : (d == '-') = false := beq_eq_false_iff_ne.mpr (digit_ne digit rfl)
  unfold mantissaText
  rw [← List.append_assoc, List.takeWhile_append_of_pos front, stop, List.append_nil, first]
  rcases signed with rfl | rfl <;> simp [kept]

theorem Unfilled.exponent_iff (unfilled : Unfilled body q) (signed : sign = [] ∨ sign = ['-'])
    (powered : tail = [] ∨ ∃ power, tail = 'e' :: power) :
    'e' ∈ sign ++ (body ++ tail) ↔ tail ≠ [] := by
  rcases powered with rfl | ⟨power, rfl⟩
  · refine iff_of_false (fun member => ?_) (fun powered => powered rfl)
    rw [List.append_nil] at member
    exact absurd (unfilled.without_exponent signed 'e' member) (by decide)
  · exact iff_of_true (by simp) (List.cons_ne_nil _ _)

theorem Unfilled.head?_eq (unfilled : Unfilled body q) (signed : sign = [] ∨ sign = ['-']) :
    (sign ++ (body ++ tail)).head? = some '-' ↔ sign = ['-'] := by
  obtain ⟨d, rest, rfl, digit⟩ := unfilled.first
  rcases signed with rfl | rfl
  · simpa using digit_ne digit (by rfl)
  · simp

theorem Unfilled.read?_eq (unfilled : Unfilled body q) :
    read? (body ++ tail) = Numeral.rational? (body ++ tail) := by
  obtain ⟨d, rest, rfl, digit⟩ := unfilled.first
  unfold read?
  split
  · next shape =>
    cases shape
    exact absurd digit (by decide)
  · rfl

end Pieces

-- What the text of a finite value says, where `r` is the rounded value. Either notation, where there
-- is one, would write the same number.
structure Shows (v : Float) (r : Rounded) : Prop where
  exponent : 10 ^ r.exponent ≤ r.number ∧ r.number < 10 ^ (r.exponent + 1)
  reads : read? (value v) = some (if v < 0 then -r.number else r.number)
  scientific : 'e' ∈ value v ↔ r.exponent < -4 ∨ 10 ≤ r.exponent
  signed : (value v).head? = some '-' ↔ v < 0
  pointed : '.' ∈ mantissaText (value v) →
    (mantissaText (value v)).getLast? ≠ some '0' ∧ (mantissaText (value v)).getLast? ≠ some '.'
  whole : '.' ∉ mantissaText (value v) → ∃ n : ℕ, mantissaText (value v) = digitText n ∧
    ('e' ∉ value v → r.number = n)
  notations : Numeral.rational? (scientificText r) = some r.number ∧
    (r.exponent < 10 → Numeral.rational? (positionalText (Binary64.units v) r.exponent) = some r.number)

theorem shows_ofRatio {v : Float} (finite : v.isFinite = true) (nonzero : (v == 0) = false) :
    Shows v (Rounded.ofRatio (Binary64.units v) (2 ^ Binary64.unitExponent)) := by
  have counted := Binary64.units_pos finite nonzero
  have full := (Rounded.ofRatio_cut counted (Nat.two_pow_pos Binary64.unitExponent)).full
  have text := value_counted finite counted
  generalize rounded : Rounded.ofRatio (Binary64.units v) (2 ^ Binary64.unitExponent) = r at full
  have read := rational?_magnitudeText counted rounded.symm
  obtain ⟨body, q, tail, pieces, unfilled, form⟩ := magnitudeText_pieces counted rounded.symm
  have signed := signText_cases v
  have powered : tail = [] ∨ ∃ power, tail = 'e' :: power :=
    form.symm.imp (·.2.1) fun scientific => ⟨_, scientific.2⟩
  have mantissa : mantissaText (value v) = body := by
    rw [text, pieces, unfilled.mantissaText_eq signed powered]
  have exponent : 'e' ∈ value v ↔ r.exponent < -4 ∨ 10 ≤ r.exponent := by
    rw [text, pieces, unfilled.exponent_iff signed powered]
    rcases form with ⟨scientific, rfl⟩ | ⟨positional, rfl, -⟩
    · exact iff_of_true (List.cons_ne_nil _ _) scientific
    · exact iff_of_false (fun some => some rfl) positional
  refine ⟨full.number_bounds, ?_, exponent, ?_, ?_, ?_, rational?_scientificText r,
    rational?_positionalText counted rounded.symm⟩
  · rw [text, signText]
    by_cases negative : v < 0
    · rw [if_pos negative, if_pos negative, List.singleton_append, read?_negative, read,
        Option.map_some]
    · rw [if_neg negative, if_neg negative, List.nil_append, pieces, unfilled.read?_eq, ← pieces, read]
  · rw [text, pieces, unfilled.head?_eq signed, signText_eq_iff]
  · rw [mantissa]
    exact unfilled.ends
  · rw [mantissa, exponent]
    intro unpointed
    obtain ⟨n, digits, rfl⟩ := unfilled.unpointed unpointed
    refine ⟨n, digits, fun positional => ?_⟩
    rcases form with ⟨scientific, -⟩ | ⟨-, -, number⟩
    · exact absurd scientific positional
    · exact number.symm

-- A finite value other than zero is shown rounded to ten digits, a tie going to the
-- even one: `r` is the only number with ten digits that is nearest to it.
theorem value_rounds_once {v : Float} (finite : v.isFinite = true) (nonzero : (v == 0) = false) :
    ∃ r : Rounded, (∀ s : Rounded, s.Nearest |Binary64.rational v| ↔ s = r) ∧ Shows v r := by
  refine ⟨_, fun s => ?_, shows_ofRatio finite nonzero⟩
  rw [Binary64.abs_rational finite]
  exact Rounded.nearest_iff (Binary64.units_pos finite nonzero) (Nat.two_pow_pos _) s

theorem value_rounds_once_carry :
    (-9999999999.5 : Float).isFinite = true ∧ ((-9999999999.5 : Float) == 0) = false ∧
      value (-9999999999.5) = ['-', '1', 'e', '1', '0'] ∧
      ∃ r : Rounded, (∀ s : Rounded, s.Nearest |Binary64.rational (-9999999999.5)| ↔ s = r) ∧
        Shows (-9999999999.5) r :=
  ⟨rfl, rfl, by decide +kernel, value_rounds_once rfl rfl⟩

end Display

end InfixCalculator
