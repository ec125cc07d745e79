import InfixCalculator.Numeral
import Mathlib.Data.List.TakeWhile

namespace InfixCalculator

namespace Numeral

def IsDigits (t : Text) : Prop := t ≠ [] ∧ ∀ c ∈ t, c.isDigit = true

-- The language `(e[+-]?\d+)?`.
inductive IsExponent : Text → Prop
  | absent : IsExponent []
  | present : signed = [] ∨ signed = ['+'] ∨ signed = ['-'] → IsDigits magnitude →
      IsExponent ('e' :: signed ++ magnitude)

-- The language `\d*\.?\d+(e[+-]?\d+)?`.
inductive IsNumeral : Text → Prop
  | intro : (∀ c ∈ whole, c.isDigit = true) → point = [] ∨ point = ['.'] → IsDigits last →
      IsExponent power → IsNumeral (whole ++ point ++ last ++ power)

theorem digit_iff {c : Char} : c.isDigit = true ↔ 48 ≤ c.toNat ∧ c.toNat ≤ 57 :=
  Char.isDigit_iff_toNat

theorem digit_ne {c other : Char} (digit : c.isDigit = true) (plain : other.isDigit = false) :
    c ≠ other := by
  rintro rfl
  exact Bool.noConfusion (digit.symm.trans plain)

theorem IsDigits.isNumeral {t : Text} (grouped : IsDigits t) : IsNumeral t := by
  have numeral := @IsNumeral.intro [] [] t [] (by simp) (.inl rfl) grouped .absent
  simpa using numeral

theorem digits_append {rest : Text} (boundary : ∀ c ∈ rest.head?, c.isDigit = false) (t : Text) :
    digits (t ++ rest) = digits t := by
  induction t with
  | nil =>
    cases rest with
    | nil => rfl
    | cons c tail => simp [digits, boundary c rfl]
  | cons c t ih =>
    simp only [digits, List.cons_append, List.takeWhile_cons] at ih ⊢
    rw [ih]

theorem afterDigits_append {rest : Text} (boundary : ∀ c ∈ rest.head?, c.isDigit = false)
    (t : Text) : afterDigits (t ++ rest) = afterDigits t ++ rest := by
  induction t with
  | nil =>
    cases rest with
    | nil => rfl
    | cons c tail => simp [afterDigits, boundary c rfl]
  | cons c t ih =>
    simp only [afterDigits, List.cons_append, List.dropWhile_cons] at ih ⊢
    split
    · exact ih
    · rfl

theorem digits_of_inside {ds : Text} (inside : ∀ c ∈ ds, c.isDigit = true) : digits ds = ds :=
  List.takeWhile_eq_self_iff.mpr inside

theorem afterDigits_of_inside {ds : Text} (inside : ∀ c ∈ ds, c.isDigit = true) :
    afterDigits ds = [] :=
  List.dropWhile_eq_nil_iff.mpr inside

theorem fraction_isPrefix (t : Text) : fraction t <+: t := by
  unfold fraction
  split
  · split
    · exact List.nil_prefix
    · exact List.cons_prefix_cons.mpr ⟨rfl, List.takeWhile_prefix _⟩
  · exact List.nil_prefix

theorem sign_isPrefix (t : Text) : sign t <+: t := by
  unfold sign
  split <;> simp

theorem exponent_isPrefix (t : Text) : exponent t <+: t := by
  unfold exponent
  split
  · next rest =>
    dsimp only
    split
    · exact List.nil_prefix
    · have signed := List.prefix_iff_eq_append.mp (sign_isPrefix rest)
      have grouped : sign rest ++ digits (rest.drop (sign rest).length) <+: rest := by
        have inner : digits (rest.drop (sign rest).length) <+: rest.drop (sign rest).length :=
          List.takeWhile_prefix _
        simpa only [signed] using (List.prefix_append_right_inj (sign rest)).mpr inner
      exact List.cons_prefix_cons.mpr ⟨rfl, grouped⟩
  · exact List.nil_prefix

theorem parts_text_isPrefix (t : Text) : (parts t).text <+: t := by
  have whole : digits t ++ afterDigits t = t := List.takeWhile_append_dropWhile
  have pointed := List.prefix_iff_eq_append.mp (fraction_isPrefix (afterDigits t))
  have powered := exponent_isPrefix ((afterDigits t).drop (fraction (afterDigits t)).length)
  have behind : fraction (afterDigits t) ++
      exponent ((afterDigits t).drop (fraction (afterDigits t)).length) <+: afterDigits t := by
    simpa only [pointed] using (List.prefix_append_right_inj (fraction (afterDigits t))).mpr powered
  simpa only [whole, Parts.text, parts, List.append_assoc] using
    (List.prefix_append_right_inj (digits t)).mpr behind

theorem scan?_isPrefix {t text : Text} (found : scan? t = some text) : text <+: t := by
  unfold scan? at found
  split at found
  · cases found; exact parts_text_isPrefix t
  · cases found

theorem isExponent_head {t : Text} (written : IsExponent t) : ∀ c ∈ t.head?, c = 'e' := by
  cases written with
  | absent => simp
  | present => simp

theorem sign_signed {signed magnitude : Text} (which : signed = [] ∨ signed = ['+'] ∨ signed = ['-'])
    (grouped : IsDigits magnitude) (rest : Text) : sign (signed ++ (magnitude ++ rest)) = signed := by
  rcases which with unsigned | plus | minus
  · subst unsigned
    obtain ⟨d, ds, rfl⟩ := List.exists_cons_of_ne_nil grouped.1
    have digit := grouped.2 d List.mem_cons_self
    have notPlus : d ≠ '+' := digit_ne digit rfl
    have notMinus : d ≠ '-' := digit_ne digit rfl
    simp [sign, notPlus, notMinus]
  · subst plus
    rfl
  · subst minus
    rfl

theorem exponent_extends {power : Text} (written : IsExponent power) (rest : Text) :
    power <+: exponent (power ++ rest) := by
  cases written with
  | absent => exact List.nil_prefix
  | @present signed magnitude which grouped =>
    have signs := sign_signed which grouped rest
    have taken : digits (magnitude ++ rest) = magnitude ++ digits rest :=
      List.takeWhile_append_of_pos grouped.2
    have whole : exponent ('e' :: signed ++ magnitude ++ rest) =
        'e' :: signed ++ magnitude ++ digits rest := by
      simp [exponent, signs, taken, grouped.1]
    rw [whole]
    exact List.prefix_append _ _

theorem exponent_of_isExponent {t : Text} (written : IsExponent t) : exponent t = t := by
  have longer := exponent_extends written []
  rw [List.append_nil] at longer
  exact (exponent_isPrefix t).eq_of_length_le longer.length_le

theorem not_digit_of_isExponent {t : Text} (written : IsExponent t) :
    ∀ c ∈ t.head?, c.isDigit = false := by
  intro c member
  rw [isExponent_head written c member]
  decide

theorem parts_unpointed {ds power : Text} (inside : ∀ c ∈ ds, c.isDigit = true)
    (written : IsExponent power) : parts (ds ++ power) = ⟨ds, [], power⟩ := by
  have boundary := not_digit_of_isExponent written
  have unpointed : fraction power = [] := by
    unfold fraction
    split
    · exact absurd (isExponent_head written '.' (by simp)) (by decide)
    · rfl
  simp only [parts, digits_append boundary, digits_of_inside inside, afterDigits_append boundary,
    afterDigits_of_inside inside, List.nil_append, unpointed, List.length_nil, List.drop_zero,
    exponent_of_isExponent written]

theorem parts_pointed {whole last power : Text} (inside : ∀ c ∈ whole, c.isDigit = true)
    (grouped : IsDigits last) (written : IsExponent power) :
    parts (whole ++ '.' :: (last ++ power)) = ⟨whole, '.' :: last, power⟩ := by
  have stop : ∀ c ∈ ('.' :: (last ++ power)).head?, c.isDigit = false := by simp
  have pointed : fraction ('.' :: (last ++ power)) = '.' :: last := by
    simp [fraction, digits_append (not_digit_of_isExponent written), digits_of_inside grouped.2,
      grouped.1]
  simp only [parts, digits_append stop, digits_of_inside inside, afterDigits_append stop,
    afterDigits_of_inside inside, List.nil_append, pointed]
  simp [exponent_of_isExponent written]

theorem isDigits_digits {t : Text} (nonempty : digits t ≠ []) : IsDigits (digits t) :=
  ⟨nonempty, List.all_eq_true.mp List.all_takeWhile⟩

theorem fraction_cases (t : Text) :
    fraction t = [] ∨ ∃ last, IsDigits last ∧ fraction t = '.' :: last := by
  unfold fraction
  split
  · next rest =>
    split
    · exact .inl rfl
    · next some => exact .inr ⟨digits rest, isDigits_digits (by simpa using some), rfl⟩
  · exact .inl rfl

theorem sign_cases (t : Text) : sign t = [] ∨ sign t = ['+'] ∨ sign t = ['-'] := by
  unfold sign
  split <;> simp

theorem isExponent_exponent (t : Text) : IsExponent (exponent t) := by
  unfold exponent
  split
  · next rest =>
    dsimp only
    split
    · exact .absent
    · next some => exact .present (sign_cases rest) (isDigits_digits (by simpa using some))
  · exact .absent

theorem isNumeral_of_scan? {t text : Text} (found : scan? t = some text) : IsNumeral text := by
  unfold scan? at found
  split at found
  · next some =>
    cases found
    have power := isExponent_exponent ((afterDigits t).drop (fraction (afterDigits t)).length)
    have inside : ∀ c ∈ digits t, c.isDigit = true := List.all_eq_true.mp List.all_takeWhile
    rcases fraction_cases (afterDigits t) with unpointed | ⟨last, grouped, pointed⟩
    · have whole : digits t ≠ [] := by
        simpa [Parts.hasDigits, parts, unpointed] using some
      have numeral : IsNumeral ([] ++ [] ++ digits t ++ _) :=
        .intro (by simp) (.inl rfl) (isDigits_digits whole) power
      simpa [Parts.text, parts, unpointed] using numeral
    · have numeral : IsNumeral (digits t ++ ['.'] ++ last ++ _) := .intro inside (.inr rfl) grouped power
      simpa [Parts.text, parts, pointed] using numeral
  · cases found

theorem scan?_isSome {n t : Text} (written : IsNumeral n) (starts : n <+: t) :
    (scan? t).isSome = true := by
  have found (some : (parts t).hasDigits = true) : (scan? t).isSome = true := by simp [scan?, some]
  refine found ?_
  obtain ⟨rest, rfl⟩ := starts
  obtain @⟨whole, point, last, power, inside, pointed, ⟨nonempty, grouped⟩, _⟩ := written
  obtain ⟨d, ds, rfl⟩ := List.exists_cons_of_ne_nil nonempty
  have digit := grouped d List.mem_cons_self
  cases whole with
  | nil =>
    rcases pointed with rfl | rfl
    · simp [Parts.hasDigits, parts, digits, digit]
    · simp [Parts.hasDigits, parts, digits, afterDigits, fraction, digit]
  | cons c whole =>
    have first := inside c List.mem_cons_self
    simp [Parts.hasDigits, parts, digits, first]

theorem parts_inside_append {ds : Text} (inside : ∀ c ∈ ds, c.isDigit = true) (t : Text) :
    (parts (ds ++ t)).text = ds ++ (parts t).text := by
  have taken : digits (ds ++ t) = ds ++ digits t := List.takeWhile_append_of_pos inside
  have left : afterDigits (ds ++ t) = afterDigits t := List.dropWhile_append_of_pos inside
  simp only [parts, Parts.text, taken, left, List.append_assoc]

theorem parts_pointed_append {last : Text} (grouped : IsDigits last) (t : Text) :
    (parts ('.' :: (last ++ t))).text = '.' :: (last ++ (digits t ++ exponent (afterDigits t))) := by
  have taken : digits (last ++ t) = last ++ digits t := List.takeWhile_append_of_pos grouped.2
  have pointed : fraction ('.' :: (last ++ t)) = '.' :: (last ++ digits t) := by
    simp [fraction, taken, grouped.1]
  have whole : last ++ t = (last ++ digits t) ++ afterDigits t := by
    rw [List.append_assoc, digits, afterDigits, List.takeWhile_append_dropWhile]
  have behind : (last ++ t).drop (last ++ digits t).length = afterDigits t := by
    rw [whole, List.drop_left]
  have first : digits ('.' :: (last ++ t)) = [] ∧
      afterDigits ('.' :: (last ++ t)) = '.' :: (last ++ t) := by
    simp [digits, afterDigits]
  simp only [parts, Parts.text, first, pointed, List.length_cons, List.drop_succ_cons, behind,
    List.nil_append, List.cons_append, List.append_assoc]

theorem parts_exponent_append {power : Text} (written : IsExponent power) (rest : Text) :
    power <+: digits (power ++ rest) ++ exponent (afterDigits (power ++ rest)) ∧
      power <+: (parts (power ++ rest)).text := by
  have longer := exponent_extends written rest
  cases written with
  | absent => exact ⟨List.nil_prefix, List.nil_prefix⟩
  | present => simpa [parts, Parts.text, digits, afterDigits, fraction] using longer

-- A numeral that stands at the start is found with whatever goes on with it, and never
-- cut short.
theorem scan?_extends {n : Text} (written : IsNumeral n) (rest : Text) :
    ∃ more, scan? (n ++ rest) = some (n ++ more) := by
  have found := scan?_isSome written (List.prefix_append n rest)
  have longer : n <+: (parts (n ++ rest)).text := by
    obtain @⟨whole, point, last, power, inside, pointed, grouped, exponent⟩ := written
    obtain ⟨behind, alone⟩ := parts_exponent_append exponent rest
    simp only [List.append_assoc]
    rw [parts_inside_append inside, List.prefix_append_right_inj]
    rcases pointed with unpointed | pointed
    · subst unpointed
      rw [List.nil_append, List.nil_append, parts_inside_append grouped.2,
        List.prefix_append_right_inj]
      exact alone
    · subst pointed
      simp only [List.cons_append, List.nil_append]
      rw [parts_pointed_append grouped, List.cons_prefix_cons]
      exact ⟨rfl, (List.prefix_append_right_inj last).mpr behind⟩
  obtain ⟨more, same⟩ := longer
  refine ⟨more, ?_⟩
  unfold scan? at found ⊢
  split at found
  · next digits => rw [if_pos digits, same]
  · cases found

theorem scan?_of_isNumeral {t : Text} (written : IsNumeral t) : scan? t = some t := by
  obtain ⟨more, found⟩ := scan?_extends written []
  rw [List.append_nil] at found
  have short := (scan?_isPrefix found).length_le
  have none : more = [] := List.length_eq_zero_iff.mp (by rw [List.length_append] at short; omega)
  rw [found, none, List.append_nil]

theorem IsDigits.last {t : Text} (grouped : IsDigits t) :
    ∃ front d, t = front ++ [d] ∧ d.isDigit = true :=
  ⟨t.dropLast, t.getLast grouped.1, (List.dropLast_concat_getLast grouped.1).symm,
    grouped.2 _ (List.getLast_mem grouped.1)⟩

theorem IsNumeral.last {t : Text} (written : IsNumeral t) :
    ∃ front d, t = front ++ [d] ∧ d.isDigit = true := by
  obtain @⟨whole, point, last, power, _, _, grouped, power_written⟩ := written
  cases power_written with
  | absent =>
    obtain ⟨front, d, rfl, digit⟩ := grouped.last
    exact ⟨whole ++ point ++ front, d, by simp, digit⟩
  | @present signed magnitude _ exponent =>
    obtain ⟨front, d, rfl, digit⟩ := exponent.last
    exact ⟨whole ++ point ++ last ++ ('e' :: signed ++ front), d, by simp, digit⟩

end Numeral

end InfixCalculator
