import InfixCalculator.Display
import InfixCalculator.Proofs.Normalisation
import InfixCalculator.Proofs.Numerals
import Mathlib.Algebra.Order.Field.Power
import Mathlib.Data.Rat.Cast.Order
import Mathlib.Tactic.FieldSimp
import Mathlib.Tactic.Ring

namespace InfixCalculator

namespace Numeral

def rational? (t : Text) : Option ℚ :=
  if scan? t = some t then some ((parts t).mantissa * 10 ^ (parts t).scale) else none

theorem number_append (front back : Text) :
    number (front ++ back) = 10 ^ back.length * number front + number back := by
  rw [number, Nat.ofDigitChars_append, Nat.ofDigitChars_eq_ofDigitChars_zero]
  rfl

theorem number_replicate (n : ℕ) : number (List.replicate n '0') = 0 := by
  simp [number]

theorem number_significant (t : Text) : number (t.dropWhile (· == '0')) = number t := by
  induction t with
  | nil => rfl
  | cons c t ih =>
    by_cases zero : c = '0'
    · subst zero
      simpa [number, Nat.ofDigitChars_cons] using ih
    · simp [zero]

def powerOf (exponent : Text) : ℤ := Parts.power ⟨[], [], exponent⟩

theorem rational?_whole {ds power : Text} (grouped : IsDigits ds) (written : IsExponent power) :
    rational? (ds ++ power) = some ((number ds : ℚ) * 10 ^ powerOf power) := by
  have numeral : IsNumeral ([] ++ [] ++ ds ++ power) := .intro (by simp) (.inl rfl) grouped written
  have whole : scan? (ds ++ power) = some (ds ++ power) := by simpa using scan?_of_isNumeral numeral
  rw [rational?, if_pos whole, parts_unpointed grouped.2 written]
  have scale : Parts.scale ⟨ds, [], power⟩ = powerOf power := sub_zero _
  rw [scale, Parts.mantissa, Parts.significant, number_significant, List.drop_nil, List.append_nil]

theorem rational?_pointed {whole last power : Text} (inside : ∀ c ∈ whole, c.isDigit = true)
    (grouped : IsDigits last) (written : IsExponent power) :
    rational? (whole ++ '.' :: (last ++ power)) =
      some (((number whole : ℚ) + number last / 10 ^ last.length) * 10 ^ powerOf power) := by
  have numeral : IsNumeral (whole ++ ['.'] ++ last ++ power) :=
    .intro inside (.inr rfl) grouped written
  have all := scan?_of_isNumeral numeral
  rw [List.append_assoc, List.append_assoc] at all
  change scan? (whole ++ '.' :: (last ++ power)) = some (whole ++ '.' :: (last ++ power)) at all
  rw [rational?, if_pos all, parts_pointed inside grouped written]
  have scale : Parts.scale ⟨whole, '.' :: last, power⟩ = powerOf power - last.length := rfl
  rw [scale, Parts.mantissa, Parts.significant, number_significant, zpow_sub₀ (by norm_num),
    zpow_natCast]
  simp only [List.drop_succ_cons, List.drop_zero, number_append]
  push_cast
  congr 1
  field_simp

end Numeral

namespace Display

open Numeral

theorem isDigits_digitText (n : ℕ) : IsDigits (digitText n) :=
  ⟨Nat.toDigits_ne_nil, fun _ member => Nat.isDigit_of_mem_toDigits (by decide) (by decide) member⟩

theorem number_digitText (n : ℕ) : number (digitText n) = n := Nat.ofDigitChars_ten_toDigits

theorem isExponent_exponentText (e : ℤ) : IsExponent ('e' :: exponentText e) := by
  unfold exponentText
  split
  · exact .present (.inr (.inr rfl)) (isDigits_digitText _)
  · exact .present (.inl rfl) (isDigits_digitText _)

theorem powerOf_exponentText (e : ℤ) : powerOf ('e' :: exponentText e) = e := by
  unfold exponentText
  split
  · next negative =>
    change -(number (digitText e.natAbs) : ℤ) = e
    rw [number_digitText]
    omega
  · next nonneg =>
    obtain ⟨some, inside⟩ := isDigits_digitText e.natAbs
    have count := number_digitText e.natAbs
    cases digits : digitText e.natAbs with
    | nil => contradiction
    | cons d ds =>
      rw [digits] at count inside
      have digit : d.isDigit = true := inside d (by simp)
      have unsigned : powerOf ('e' :: d :: ds) = number (d :: ds) := by
        unfold powerOf Parts.power
        split
        · cases ‹_ = _›; exact absurd digit (by decide)
        · cases ‹_ = _›; exact absurd digit (by decide)
        · cases ‹_ = _›; rfl
        · next other => exact (other _ rfl).elim
      rw [unsigned, count]
      omega

theorem getLast?_pointed (whole kept : Text) :
    (whole ++ '.' :: kept).getLast? = some (kept.getLast?.getD '.') := by
  rw [List.getLast?_append, List.getLast?_cons]
  rfl

-- A number in digits, written without filling: a whole number, and behind a point
-- more digits of which the last is not zero.
inductive Unfilled : Text → ℚ → Prop
  | whole (n : ℕ) : Unfilled (digitText n) n
  | pointed (n : ℕ) : IsDigits last → last.getLast? ≠ some '0' →
      Unfilled (digitText n ++ '.' :: last) (n + number last / 10 ^ last.length)

namespace Unfilled

variable {t : Text} {q : ℚ}

theorem rational?_append {power : Text} (unfilled : Unfilled t q) (written : IsExponent power) :
    rational? (t ++ power) = some (q * 10 ^ powerOf power) := by
  cases unfilled with
  | whole n => rw [rational?_whole (isDigits_digitText n) written, number_digitText]
  | @pointed last n grouped kept =>
    rw [List.append_assoc, List.cons_append,
      rational?_pointed (isDigits_digitText n).2 grouped written, number_digitText]

theorem inside (unfilled : Unfilled t q) : ∀ c ∈ t, c.isDigit = true ∨ c = '.' := by
  intro c member
  cases unfilled with
  | whole n => exact .inl ((isDigits_digitText n).2 c member)
  | @pointed last n grouped _ =>
    rcases List.mem_append.mp member with whole | behind
    · exact .inl ((isDigits_digitText n).2 c whole)
    · rcases List.mem_cons.mp behind with rfl | last
      · exact .inr rfl
      · exact .inl (grouped.2 c last)

theorem first (unfilled : Unfilled t q) :
    ∃ d rest, t = d :: rest ∧ d.isDigit = true := by
  have start : ∀ n, ∃ d rest, digitText n = d :: rest ∧ d.isDigit = true := fun n => by
    obtain ⟨some, inside⟩ := isDigits_digitText n
    obtain ⟨d, rest, split⟩ := List.exists_cons_of_ne_nil some
    exact ⟨d, rest, split, inside d (split ▸ List.mem_cons_self)⟩
  cases unfilled with
  | whole n => exact start n
  | @pointed last n _ _ =>
    obtain ⟨d, rest, split, digit⟩ := start n
    exact ⟨d, rest ++ '.' :: last, by rw [split]; rfl, digit⟩

theorem ends (unfilled : Unfilled t q) (pointed : '.' ∈ t) :
    t.getLast? ≠ some '0' ∧ t.getLast? ≠ some '.' := by
  cases unfilled with
  | whole n => exact absurd rfl (digit_ne ((isDigits_digitText n).2 '.' pointed) rfl)
  | @pointed last n grouped kept =>
    obtain ⟨front, d, rfl, digit⟩ := grouped.last
    rw [getLast?_pointed, List.getLast?_append]
    rw [List.getLast?_append] at kept
    refine ⟨kept, ?_⟩
    simpa using digit_ne digit (by rfl)

theorem unpointed (unfilled : Unfilled t q) (whole : '.' ∉ t) :
    ∃ n : ℕ, t = digitText n ∧ q = n := by
  cases unfilled with
  | whole n => exact ⟨n, rfl, rfl⟩
  | pointed n _ _ => exact absurd (List.mem_append_right _ List.mem_cons_self) whole

end Unfilled

theorem dropTrailing_point {t : Text} (last : ∀ c ∈ t.getLast?, c.isDigit = true) :
    Text.dropTrailing (· == '.') t = t :=
  Text.dropTrailing_kept fun c member =>
    beq_eq_false_iff_ne.mpr (digit_ne (last c member) rfl)

theorem dropFilling_pointed {whole kept : Text} (grouped : IsDigits whole)
    (inside : ∀ c ∈ kept, c.isDigit = true) (last : kept.getLast? ≠ some '0') (n : ℕ) :
    dropFilling (whole ++ '.' :: (kept ++ List.replicate n '0')) =
      if kept = [] then whole else whole ++ '.' :: kept := by
  have pointed : (whole ++ '.' :: (kept ++ List.replicate n '0')).contains '.' = true := by simp
  have split : whole ++ '.' :: (kept ++ List.replicate n '0') =
      (whole ++ '.' :: kept) ++ List.replicate n '0' := by simp
  have ends : ∀ c ∈ (whole ++ '.' :: kept).getLast?, (c == '0') = false := by
    rw [getLast?_pointed]
    cases final : kept.getLast? with
    | none => simp
    | some d => simpa [final] using last
  unfold dropFilling
  rw [if_pos pointed, split, Text.dropTrailing_replicate, Text.dropTrailing_kept ends]
  split
  · next none =>
    rw [none, Text.dropTrailing_append (by rfl)]
    exact dropTrailing_point fun c member => grouped.2 c (List.mem_of_getLast? member)
  · next some =>
    refine dropTrailing_point fun c member => ?_
    rw [getLast?_pointed] at member
    cases final : kept.getLast? with
    | none => exact absurd (List.getLast?_eq_none_iff.mp final) some
    | some d =>
      obtain rfl : d = c := by simpa [final] using member
      exact inside d (List.mem_of_getLast? final)

theorem leftpad_decimals (units : ℕ) {places : ℕ} (some : 0 < places) :
    let decimals := (digitText (units % 10 ^ places)).leftpad places '0'
    (∀ c ∈ decimals, c.isDigit = true) ∧ decimals.length = places ∧
      number decimals = units % 10 ^ places := by
  intro decimals
  have below : units % 10 ^ places < 10 ^ places := Nat.mod_lt _ (Nat.pow_pos (by decide))
  have fits : (digitText (units % 10 ^ places)).length ≤ places :=
    (Nat.length_toDigits_le_iff (by decide) some).mpr below
  have padded : decimals = List.replicate (places - (digitText (units % 10 ^ places)).length) '0' ++
    digitText (units % 10 ^ places) := rfl
  rw [padded]
  refine ⟨fun c member => ?_, ?_, ?_⟩
  · rcases List.mem_append.mp member with padding | digit
    · rw [List.eq_of_mem_replicate padding]
      rfl
    · exact (isDigits_digitText _).2 c digit
  · rw [List.length_append, List.length_replicate]
    omega
  · rw [number_append, number_replicate, number_digitText, Nat.mul_zero, Nat.zero_add]

theorem unfilled_dropFilling (units places : ℕ) :
    Unfilled (dropFilling (fixedText units places)) (units / 10 ^ places) := by
  rcases Nat.eq_zero_or_pos places with rfl | some
  · have unpointed : ¬(digitText units).contains '.' = true := by
      rw [List.contains_iff_mem]
      intro member
      exact absurd rfl (digit_ne ((isDigits_digitText units).2 '.' member) rfl)
    have text : dropFilling (fixedText units 0) = digitText units := by
      unfold dropFilling fixedText
      rw [if_pos rfl, pow_zero, Nat.div_one, if_neg unpointed]
    rw [text, pow_zero, div_one]
    exact .whole units
  · have text : fixedText units places = digitText (units / 10 ^ places) ++
        '.' :: (digitText (units % 10 ^ places)).leftpad places '0' := if_neg some.ne'
    obtain ⟨inside, length, count⟩ := leftpad_decimals units some
    obtain ⟨kept, n, split, last⟩ := Text.exists_before_replicate '0'
      ((digitText (units % 10 ^ places)).leftpad places '0')
    rw [split] at text inside length count
    have digits : ∀ c ∈ kept, c.isDigit = true := fun c member =>
      inside c (List.mem_append_left _ member)
    have value : (units : ℚ) / 10 ^ places =
        (units / 10 ^ places : ℕ) + (number kept : ℚ) / 10 ^ kept.length := by
      rw [number_append, number_replicate, List.length_replicate, Nat.add_zero] at count
      rw [List.length_append, List.length_replicate] at length
      have divided := Nat.div_add_mod units (10 ^ places)
      rw [← count] at divided
      have whole : (units : ℚ) = 10 ^ places * (units / 10 ^ places : ℕ) + 10 ^ n * number kept := by
        exact_mod_cast divided.symm
      rw [whole, ← length, pow_add]
      field_simp
    rw [text, dropFilling_pointed (isDigits_digitText _) digits last, value]
    split
    · next none =>
      rw [none]
      simpa [number] using Unfilled.whole (units / 10 ^ places)
    · next some => exact .pointed _ ⟨some, digits⟩ last

end Display

end InfixCalculator
