import InfixCalculator.Proofs.DisplayedValue
import InfixCalculator.Proofs.Grammar
import InfixCalculator.Proofs.LexicalGrammar
import InfixCalculator.Proofs.NumeralValue
import InfixCalculator.Proofs.SameDigits
import InfixCalculator.Proofs.Steps

namespace InfixCalculator

namespace Numeral

theorem isNumeral_of_rational? {t : Text} {q : ℚ} (written : rational? t = some q) : IsNumeral t := by
  unfold rational? at written
  split at written
  · next whole => exact isNumeral_of_scan? whole
  · cases written

end Numeral

namespace Display

open Binary64

def signTokens (v : Float) : List Token := if v < 0 then [Operator.minusSign.token 0] else []

def numeralToken (v : Float) (numeral : Text) : Token :=
  ⟨numeral, (signText v).byteLength, .number (Numeral.value numeral)⟩

def signedValue (v : Float) (numeral : Text) : Float :=
  if v < 0 then -Numeral.value numeral else Numeral.value numeral

section Reading

variable {numeral : Text}

theorem signText_visible (v : Float) : (signText v).Visible := by
  rcases signText_cases v with none | minus
  · rw [none]
    decide
  · rw [minus]
    decide

theorem signText_lower (v : Float) : (signText v).map Char.toLower = signText v := by
  rcases signText_cases v with none | minus
  · rw [none]
    rfl
  · rw [minus]
    rfl

theorem normalise_signed (v : Float) (written : Numeral.IsNumeral numeral) :
    (signText v ++ numeral).normalise = signText v ++ numeral := by
  have visible := Text.visible_append (signText_visible v) (Numeral.visible_of_isNumeral written)
  rw [Text.normalise, Text.normaliseFrom_visible visible, List.map_append, signText_lower,
    (Lexeme.Lexical.number written).lower]

theorem tokenize_signed (v : Float) (written : Numeral.IsNumeral numeral) :
    Token.tokenize (signText v ++ numeral) = .ok (signTokens v ++ [numeralToken v numeral]) := by
  have scanned : Lexeme.first? numeral = some (.number, numeral) := by
    simp [Lexeme.first?, Lexeme.number?, Numeral.scan?_of_isNumeral written]
  rw [Token.tokenize_eq_ok_iff, numeralToken]
  unfold signText signTokens
  by_cases negative : v < 0
  · rw [if_pos negative, if_pos negative]
    have minus : Lexeme.first? (['-'] ++ numeral) = some (.minus, ['-']) := rfl
    exact .token minus rfl (Token.reads_lexeme scanned rfl)
  · rw [if_neg negative, if_neg negative]
    exact Token.reads_lexeme scanned rfl

theorem execute_signed (c : Context) (v : Float) (numeral : Text) :
    Engine.execute c (signTokens v ++ [numeralToken v numeral]) = .ok (signedValue v numeral) := by
  unfold signTokens signedValue
  by_cases negative : v < 0
  · rw [if_pos negative, if_pos negative]
    rfl
  · rw [if_neg negative, if_neg negative]
    rfl

theorem evaluate_signed (c : Context) (v : Float) (written : Numeral.IsNumeral numeral) :
    evaluate c (signText v ++ numeral) = .ok (signedValue v numeral) := by
  have read := tokenize_signed v written
  rw [← normalise_signed v written] at read
  rw [evaluate_eq_execute c read, execute_signed]
  rfl

end Reading

-- The number with ten digits that is nearest to `x`. Zero has none, and stays zero.
inductive Shortened : (x : ℚ) → ℚ → Prop
  | zero : Shortened 0 0
  | positive {r : Rounded} : 0 < x → r.Nearest x → Shortened x r.number
  | negative {r : Rounded} : x < 0 → r.Nearest (-x) → Shortened x (-r.number)

-- The text of `v` is calculated to `w`, the value nearest to what ten digits leave of `v`. It is infinite
-- where that is out of range, and else it has the same text.
structure TypedBack (v : Float) (q : ℚ) (w : Float) : Prop where
  rounded : Shortened (rational v) q
  nearest : ∀ u : Float, NearestTo q u ↔ u = w
  unbounded : isInfinite w = true ↔ overflow ≤ |q|
  tokens : ∃ numeral, value v = signText v ++ numeral ∧
    Token.tokenize (value v) = .ok (signTokens v ++ [numeralToken v numeral])
  evaluated : ∀ c, evaluate c (value v) = .ok w
  again : w.isFinite = true → value w = value v

section Value

variable {v : Float} {numeral : Text} {p q : ℚ} {r : Rounded}

theorem TypedBack.of_numeral (text : value v = signText v ++ numeral)
    (written : Numeral.rational? numeral = some p) (rounded : Shortened (rational v) q)
    (near : NearestTo q (signedValue v numeral))
    (again : (signedValue v numeral).isFinite = true → value (signedValue v numeral) = value v) :
    TypedBack v q (signedValue v numeral) := by
  have shape := Numeral.isNumeral_of_rational? written
  refine ⟨rounded, fun u => ⟨fun other => other.unique near, ?_⟩, ⟨fun infinite => ?_, near.infinite⟩,
    ⟨numeral, text, ?_⟩, fun c => ?_, again⟩
  · rintro rfl
    exact near
  · have unbounded : ¬(signedValue v numeral).isFinite = true := by
      rw [isFinite_eq, isFinite, beq_iff_eq.mp infinite, decide_eq_true_iff]
      exact lt_irrefl _
    rw [near.finite_iff, not_lt] at unbounded
    exact unbounded
  · rw [text]
    exact tokenize_signed v shape
  · rw [text]
    exact evaluate_signed c v shape

theorem typedBack_zero (finite : v.isFinite = true) (none : units v = 0) : TypedBack v 0 0 := by
  have positive : ¬v < 0 := by
    rw [lt_zero_iff finite]
    exact fun negative => negative.2 none
  have sign : signText v = [] := if_neg positive
  have result : signedValue v ['0'] = 0 := if_neg positive
  have text : value v = ['0'] := by rw [value_finite finite, if_pos none]
  have written : Numeral.rational? ['0'] = some 0 := by
    have digits := Numeral.rational?_whole (isDigits_digitText 0) .absent
    rw [number_digitText, Nat.cast_zero, zero_mul] at digits
    exact digits
  have rounded : Shortened (rational v) 0 := by
    rw [(rational_eq_zero_iff finite).mpr none]
    exact .zero
  have near : NearestTo 0 (signedValue v ['0']) := by
    rw [result]
    exact Numeral.value_nearestTo written
  rw [← result]
  refine .of_numeral (by rw [sign, text]; rfl) written rounded near fun _ => ?_
  rw [result, text]
  rfl

theorem magnitudeText_of_rounded {m n : ℕ} (some : 0 < m) (other : 0 < n)
    (same : Rounded.ofRatio m (2 ^ unitExponent) = Rounded.ofRatio n (2 ^ unitExponent)) :
    magnitudeText m = magnitudeText n := by
  rw [magnitudeText_eq, magnitudeText_eq, same]
  dsimp only
  split
  · rfl
  · rw [positionalText_eq other rfl (by omega), positionalText_eq some same.symm (by omega)]

theorem signedValue_magnitude (v : Float) (written : Numeral.rational? numeral = some p) :
    magnitudeBits (signedValue v numeral) = magnitudeBits (Numeral.value numeral) := by
  unfold signedValue
  split
  · exact (magnitudeBits_neg (Numeral.value_nearestTo written).number).1
  · rfl

theorem signedValue_nearestTo (v : Float) (written : Numeral.rational? numeral = some p)
    (nonzero : p ≠ 0) : NearestTo (if v < 0 then -p else p) (signedValue v numeral) := by
  have near := Numeral.value_nearestTo written
  unfold signedValue
  split
  · exact near.neg nonzero
  · exact near

theorem shortened_signed (finite : v.isFinite = true) (counted : 0 < units v)
    (rounded : r.Nearest |rational v|) : Shortened (rational v) (if v < 0 then -r.number else r.number) := by
  split
  · next negative =>
    rw [negative_iff finite] at negative
    rw [abs_of_neg negative] at rounded
    exact .negative negative rounded
  · next nonneg =>
    rw [negative_iff finite, not_lt] at nonneg
    rw [abs_of_nonneg nonneg] at rounded
    have nonzero : rational v ≠ 0 := mt (rational_eq_zero_iff finite).mp counted.ne'
    exact .positive (lt_of_le_of_ne nonneg nonzero.symm) rounded

theorem value_signedValue (finite : v.isFinite = true) (counted : 0 < units v)
    (rounded : r = Rounded.ofRatio (units v) (2 ^ unitExponent))
    (written : Numeral.rational? numeral = some r.number)
    (bounded : (signedValue v numeral).isFinite = true) : value (signedValue v numeral) = value v := by
  have one := Nat.two_pow_pos unitExponent
  have cut := Rounded.ofRatio_cut counted one
  rw [← rounded, Nat.cast_pow, Nat.cast_ofNat] at cut
  have positive := cut.full.number_pos
  have magnitude := signedValue_magnitude v written
  have count : units (signedValue v numeral) = units (Numeral.value numeral) := by
    rw [units, magnitude, units]
  have inside : (Numeral.value numeral).isFinite = true := by
    rw [isFinite_eq] at bounded ⊢
    rwa [isFinite, ← magnitude]
  obtain ⟨some, again⟩ := cut.nearest_again finite (Numeral.value_nearestTo written) inside
  rw [← count] at some again
  have same : Rounded.ofRatio (units (signedValue v numeral)) (2 ^ unitExponent) =
      Rounded.ofRatio (units v) (2 ^ unitExponent) := by
    rw [← rounded]
    exact ((Rounded.nearest_iff some one r).mp (by rwa [Nat.cast_pow, Nat.cast_ofNat])).symm
  have sign : signedValue v numeral < 0 ↔ v < 0 := by
    have near := signedValue_nearestTo v written positive.ne'
    rw [lt_zero_iff bounded, near.signed, and_iff_left some.ne']
    split
    · next negative => exact iff_of_true (neg_lt_zero.mpr positive) negative
    · next nonneg => exact iff_of_false (not_lt.mpr positive.le) nonneg
  rw [value_counted bounded some, value_counted finite counted, signText, signText,
    if_congr sign rfl rfl, magnitudeText_of_rounded some counted same]

theorem typedBack_counted (finite : v.isFinite = true) (counted : 0 < units v) :
    ∃ q w, TypedBack v q w := by
  have one := Nat.two_pow_pos unitExponent
  have nearest := (Rounded.nearest_iff counted one _).mpr rfl
  rw [← abs_rational finite] at nearest
  have written := rational?_magnitudeText counted rfl
  exact ⟨_, _, .of_numeral (value_counted finite counted) written
    (shortened_signed finite counted nearest) (signedValue_nearestTo v written nearest.full.number_pos.ne')
    (value_signedValue finite counted rfl written)⟩

end Value

-- What is displayed of a finite value can be typed in again, whatever the current value is and
-- whatever angles are measured in.
theorem value_typed_back {v : Float} (finite : v.isFinite = true) : ∃ q w, TypedBack v q w := by
  rcases Nat.eq_zero_or_pos (units v) with none | counted
  · exact ⟨0, 0, typedBack_zero finite none⟩
  · exact typedBack_counted finite counted

-- Where there is the least room: the value nearest to `1e-314` is below it, and is carried again
-- when it is rounded.
theorem value_typed_back_least :
    (Float.ofBits 2024022534).isFinite = true ∧
      value (Float.ofBits 2024022534) = ['1', 'e', '-', '3', '1', '4'] ∧
      units (Numeral.value (value (Float.ofBits 2024022534))) = 2024022533 ∧
      ∃ q w, TypedBack (Float.ofBits 2024022534) q w :=
  ⟨rfl, by decide +kernel, by decide +kernel, value_typed_back rfl⟩

end Display

end InfixCalculator
