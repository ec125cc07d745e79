import InfixCalculator.Proofs.ByteScan

namespace InfixCalculator

namespace Numeral

theorem isPrefix_of_scan? {t found text : Text} (scanned : scan? t = some found)
    (written : IsNumeral text) (starts : text <+: t) : text <+: found := by
  obtain ⟨rest, rfl⟩ := starts
  obtain ⟨more, longer⟩ := scan?_extends written rest
  cases scanned.symm.trans longer
  exact List.prefix_append text more

theorem IsNumeral.plain_inside {text : Text} (written : IsNumeral text) :
    ∀ c ∈ text, c.toNat < 128 ∧ c ≠ '#' := by
  intro c member
  have lexical : Lexeme.Lexical text := .number written
  refine ⟨lexical.ascii c member, ?_⟩
  rintro rfl
  rcases lexical.mem_letters '#' member with digit | letter
  · exact absurd digit (by decide)
  · exact absurd letter (by simp [Lexeme.letters])

end Numeral

namespace ByteScan

open Text

def IsNumeral (bs : List UInt8) : Prop := ∃ text, Numeral.IsNumeral text ∧ text.utf8 = bs

structure Longest (bs : List UInt8) (n : Nat) : Prop where
  inside : n ≤ bs.length
  numeral : IsNumeral (bs.take n)
  longest : ∀ m, m ≤ bs.length → IsNumeral (bs.take m) → m ≤ n

-- Bytes outside ASCII need not be those of a text. For the scan of a numeral each of them is as
-- good as any ASCII character that stands in no numeral.
def plain (b : UInt8) : Char := if b.toNat < 128 then Char.ofUInt8 b else '#'

theorem plain_ascii (b : UInt8) : (plain b).toNat < 128 := by
  unfold plain
  split
  · next low => exact low
  · decide

theorem utf8_plain (s : List UInt8) : utf8 (s.map plain) = s.map fun b => (plain b).toUInt8 := by
  induction s with
  | nil => rfl
  | cons b s ih => rw [List.map_cons, utf8_cons_ascii (plain_ascii b), ih, List.map_cons]

theorem byteLength_plain (s : List UInt8) : byteLength (s.map plain) = s.length := by
  rw [← utf8_length, utf8_plain, List.length_map]

theorem toUInt8_plain {b : UInt8} (low : b.toNat < 128) : (plain b).toUInt8 = b := by
  rw [plain, if_pos low]
  exact UInt8.toNat_inj.mp (toUInt8_toNat low)

theorem plain_test {p : UInt8 → Bool} {q : Char → Bool} (tests : Tests p q) (other : q '#' = false)
    (b : UInt8) : p (plain b).toUInt8 = p b := by
  by_cases low : b.toNat < 128
  · rw [toUInt8_plain low]
  · rw [plain, if_neg low, tests.high b (Nat.not_lt.mp low), tests.ascii '#' (by decide), other]

theorem digits_plain (s : List UInt8) (i : Nat) : digits (utf8 (s.map plain)) i = digits s i := by
  have same := plain_test tests_digit rfl
  rw [utf8_plain]
  simp only [digits, suffix, List.length_map]
  split
  · simp only [Option.map_some, ← List.map_drop, List.takeWhile_map, Function.comp_def, same,
      List.length_map]
  · rfl

theorem any_plain {p : UInt8 → Bool} {q : Char → Bool} (tests : Tests p q) (other : q '#' = false)
    (s : List UInt8) (i : Nat) : (utf8 (s.map plain))[i]?.any p = s[i]?.any p := by
  rw [utf8_plain, List.getElem?_map]
  cases s[i]? with
  | none => rfl
  | some b => exact plain_test tests other b

theorem numeralLength_plain (s : List UInt8) (i : Nat) :
    numeralLength (utf8 (s.map plain)) i = numeralLength s i := by
  have digit := any_plain tests_digit rfl s
  have mark (a : Char) (ascii : a.toNat < 128) (other : '#' ≠ a) :=
    any_plain (tests_char ascii) (beq_false_of_ne other) s
  have point := mark '.' (by decide) (by decide)
  have power := mark 'e' (by decide) (by decide)
  have plus := mark '+' (by decide) (by decide)
  have minus := mark '-' (by decide) (by decide)
  simp only [numeralLength, mantissaEnd, exponentEnd, digits_plain, digit, point, power, plus, minus]

theorem numeralLength_eq {s : List UInt8} {i : Nat} (inside : i ≤ s.length) :
    numeralLength s i = some ((Numeral.scan? ((s.drop i).map plain)).map byteLength) := by
  have parts : s.map plain = (s.take i).map plain ++ (s.drop i).map plain := by
    rw [← List.map_append, List.take_append_drop]
  have start : i = byteLength ((s.take i).map plain) := by
    rw [byteLength_plain, List.length_take_of_le inside]
  have found := numeralLength_utf8 ((s.take i).map plain) ((s.drop i).map plain)
  rwa [← parts, ← start, numeralLength_plain] at found

theorem map_plain_utf8 {text : Text} (ascii : text.IsAscii) : text.utf8.map plain = text := by
  induction text with
  | nil => rfl
  | cons c text ih =>
    have small := ascii c List.mem_cons_self
    have rest := ih fun d member => ascii d (List.mem_cons_of_mem _ member)
    have first : plain c.toUInt8 = c := by
      rw [plain, if_pos (toUInt8_toNat small ▸ small), ofUInt8_toUInt8 small]
    rw [utf8_cons_ascii small, List.map_cons, rest, first]

theorem isNumeral_iff {bs : List UInt8} : IsNumeral bs ↔ Numeral.IsNumeral (bs.map plain) := by
  constructor
  · rintro ⟨text, written, rfl⟩
    rwa [map_plain_utf8 fun c member => (written.plain_inside c member).1]
  · intro written
    refine ⟨_, written, ?_⟩
    have kept : ∀ b ∈ bs, (plain b).toUInt8 = b := by
      intro b member
      have inside := written.plain_inside (plain b) (List.mem_map_of_mem member)
      by_cases low : b.toNat < 128
      · exact toUInt8_plain low
      · exact absurd (if_neg low) inside.2
    rw [utf8_plain, List.map_congr_left kept, List.map_id']

theorem scan?_plain {bs : List UInt8} {found : Text}
    (scanned : Numeral.scan? (bs.map plain) = some found) :
    ∃ n ≤ bs.length, found = (bs.take n).map plain ∧ byteLength found = n := by
  have front := Numeral.scan?_isPrefix scanned
  have short := front.length_le
  rw [List.length_map] at short
  have taken : found = (bs.take found.length).map plain := by
    rw [List.map_take]
    exact List.prefix_iff_eq_take.mp front
  refine ⟨found.length, short, taken, ?_⟩
  rw [taken, byteLength_plain, ← taken, List.length_take_of_le short]

theorem front_plain (bs : List UInt8) (n : Nat) : (bs.take n).map plain <+: bs.map plain := by
  rw [List.map_take]
  exact List.take_prefix _ _

theorem longest_iff {bs : List UInt8} {n : Nat} :
    Longest bs n ↔ (Numeral.scan? (bs.map plain)).map byteLength = some n := by
  constructor
  · rintro ⟨inside, numeral, longest⟩
    have written := isNumeral_iff.mp numeral
    obtain ⟨found, scanned⟩ := Option.isSome_iff_exists.mp
      (Numeral.scan?_isSome written (front_plain bs n))
    obtain ⟨m, within, rfl, length⟩ := scan?_plain scanned
    have least := (Numeral.isPrefix_of_scan? scanned written (front_plain bs n)).length_le
    have most := longest m within (isNumeral_iff.mpr (Numeral.isNumeral_of_scan? scanned))
    simp only [List.length_map, List.length_take] at least
    rw [scanned, Option.map_some, length]
    congr 1
    omega
  · intro found
    obtain ⟨text, scanned, count⟩ := Option.map_eq_some_iff.mp found
    obtain ⟨m, within, rfl, length⟩ := scan?_plain scanned
    obtain rfl : m = n := length.symm.trans count
    refine ⟨within, isNumeral_iff.mpr (Numeral.isNumeral_of_scan? scanned), fun k short numeral => ?_⟩
    have inside := Numeral.isPrefix_of_scan? scanned (isNumeral_iff.mp numeral) (front_plain bs k)
    have least := inside.length_le
    simp only [List.length_map, List.length_take] at least
    omega

-- The length of the numeral at an index is that of the longest front of the bytes from there on which
-- is of the language. No byte out of range is read, whatever the bytes are.
theorem numeralLength_longest :
    (∀ (s : List UInt8) (i : Nat), i ≤ s.length → ∃ found, numeralLength s i = some found ∧
      (∀ n, found = some n ↔ Longest (s.drop i) n) ∧
      (found = none ↔ ∀ n, ¬IsNumeral ((s.drop i).take n))) ∧
      ∀ before after : Text, numeralLength (before ++ after).utf8 before.byteLength =
        some ((Numeral.scan? after).map byteLength) := by
  refine ⟨fun s i inside => ⟨_, numeralLength_eq inside, fun n => longest_iff.symm, ?_⟩,
    numeralLength_utf8⟩
  constructor
  · intro none n numeral
    have scanned := Numeral.scan?_isSome (isNumeral_iff.mp numeral) (front_plain (s.drop i) n)
    rw [Option.map_eq_none_iff.mp none] at scanned
    cases scanned
  · intro none
    cases found : (Numeral.scan? ((s.drop i).map plain)).map byteLength with
    | none => rfl
    | some n => exact absurd (longest_iff.mpr found).numeral (none n)

theorem numeralLength_longest_incomplete :
    1 ≤ ([0x78, 0x32, 0x65, 0x2B, 0xC3] : List UInt8).length ∧
      numeralLength [0x78, 0x32, 0x65, 0x2B, 0xC3] 1 = some (some 1) ∧
      Longest [0x32, 0x65, 0x2B, 0xC3] 1 := by
  have inside : 1 ≤ ([0x78, 0x32, 0x65, 0x2B, 0xC3] : List UInt8).length := by decide
  have read : numeralLength [0x78, 0x32, 0x65, 0x2B, 0xC3] 1 = some (some 1) := by decide
  obtain ⟨found, result, some, _⟩ := numeralLength_longest.1 _ 1 inside
  cases read.symm.trans result
  exact ⟨inside, read, (some 1).mp rfl⟩

end ByteScan

end InfixCalculator
