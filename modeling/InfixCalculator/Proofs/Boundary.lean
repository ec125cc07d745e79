import InfixCalculator.Proofs.Pieces
import Mathlib.Data.List.Find

namespace InfixCalculator

def Text.dividers : Text := [' ', '(', ')', '*', '/', '^', '%', 'x']

-- Nothing of the second text can be drawn into a lexeme of the first.
structure Text.Apart (t rest : Text) : Prop where
  divided : ∀ c ∈ rest.head?, c ∈ Text.dividers
  unspaced : t.getLast? = some ' ' → rest.head? ≠ some ' '

open Text (dividers)

theorem Text.Apart.suffix {a t rest : Text} (apart : (a ++ t).Apart rest) : t.Apart rest where
  divided := apart.divided
  unspaced last := apart.unspaced (by simp [List.getLast?_append, last])

theorem not_digit_of_divider : ∀ c ∈ dividers, c.isDigit = false := by simp [dividers]

theorem not_in_word_of_divider : ∀ c ∈ dividers, ∀ word ∈ Lexeme.words, c ∉ word.1 := by
  simp [dividers, Lexeme.words]

theorem not_digit_of_divided {rest : Text} (divided : ∀ c ∈ rest.head?, c ∈ dividers) :
    ∀ c ∈ rest.head?, c.isDigit = false := by
  intro c member
  exact not_digit_of_divider c (divided c member)

namespace Numeral

variable {rest : Text}

theorem fraction_append (divided : ∀ c ∈ rest.head?, c ∈ dividers) (t : Text) :
    fraction (t ++ rest) = fraction t := by
  have boundary := not_digit_of_divided divided
  rcases t with _ | ⟨c, t⟩
  · unfold fraction
    split
    · exact absurd (divided '.' (by simp_all)) (by decide)
    · rfl
  · by_cases point : c = '.'
    · simp [fraction, point, digits_append boundary]
    · simp [fraction, point]

theorem sign_append (divided : ∀ c ∈ rest.head?, c ∈ dividers) (t : Text) :
    sign (t ++ rest) = sign t := by
  rcases t with _ | ⟨c, t⟩
  · unfold sign
    split
    · exact absurd (divided '+' (by simp_all)) (by decide)
    · exact absurd (divided '-' (by simp_all)) (by decide)
    · rfl
  · by_cases plus : c = '+'
    · simp [sign, plus]
    · by_cases minus : c = '-'
      · simp [sign, minus]
      · simp [sign, plus, minus]

theorem exponent_append (divided : ∀ c ∈ rest.head?, c ∈ dividers) (t : Text) :
    exponent (t ++ rest) = exponent t := by
  have boundary := not_digit_of_divided divided
  rcases t with _ | ⟨c, t⟩
  · unfold exponent
    split
    · exact absurd (divided 'e' (by simp_all)) (by decide)
    · rfl
  · by_cases mark : c = 'e'
    · simp only [mark, List.cons_append, exponent, sign_append divided,
        List.drop_append_of_le_length ((sign_isPrefix t).length_le), digits_append boundary]
    · simp [exponent, mark]

theorem scan?_append (divided : ∀ c ∈ rest.head?, c ∈ dividers) (t : Text) :
    scan? (t ++ rest) = scan? t := by
  have boundary := not_digit_of_divided divided
  have same : parts (t ++ rest) = parts t := by
    simp only [parts, digits_append boundary, afterDigits_append boundary, fraction_append divided,
      List.drop_append_of_le_length (fraction_isPrefix _).length_le, exponent_append divided]
  simp only [scan?, same]

end Numeral

namespace Lexeme

variable {t rest : Text}

theorem isPrefixOf_append {word : Text} (outside : ∀ c ∈ rest.head?, c ∉ word) (t : Text) :
    word.isPrefixOf (t ++ rest) = word.isPrefixOf t := by
  induction word generalizing t with
  | nil => simp
  | cons a word ih =>
    cases t with
    | nil =>
      cases rest with
      | nil => rfl
      | cons c tail =>
        have other := outside c rfl
        simp only [List.mem_cons, not_or] at other
        simp [List.isPrefixOf, Ne.symm other.1]
    | cons b t =>
      have tail : ∀ c ∈ rest.head?, c ∉ word := by
        intro c member inside
        exact outside c member (List.mem_cons_of_mem _ inside)
      have inner := ih tail t
      simp only [List.cons_append, List.isPrefixOf_cons_cons, inner]

theorem word?_append (divided : ∀ c ∈ rest.head?, c ∈ dividers) (t : Text) :
    word? (t ++ rest) = word? t := by
  have same : ∀ word ∈ words, word.1.isPrefixOf (t ++ rest) = word.1.isPrefixOf t := by
    intro word listed
    refine isPrefixOf_append ?_ t
    intro c member
    exact not_in_word_of_divider c (divided c member) word listed
  unfold word?
  rw [List.find?_congr same]

theorem space?_append (apart : t.Apart rest) (nonempty : t ≠ []) : space? (t ++ rest) = space? t := by
  have run : (t ++ rest).takeWhile (· == ' ') = t.takeWhile (· == ' ') := by
    rw [List.takeWhile_append]
    split
    · next full =>
      have last : t.getLast? = some ' ' := by
        have spaces := List.takeWhile_eq_self_iff.mp
          ((List.takeWhile_prefix (· == ' ')).eq_of_length full)
        have equal := spaces (t.getLast nonempty) (List.getLast_mem nonempty)
        rw [List.getLast?_eq_some_getLast nonempty, beq_iff_eq.mp equal]
      have other := apart.unspaced last
      rw [(List.takeWhile_prefix (· == ' ')).eq_of_length full]
      cases rest with
      | nil => simp
      | cons c tail =>
        have different : c ≠ ' ' := by simpa using other
        simp [different]
    · rfl
  simp only [space?, run]

theorem first?_append (apart : t.Apart rest) (nonempty : t ≠ []) :
    first? (t ++ rest) = first? t := by
  have mark : mark? (t ++ rest) = mark? t := by
    cases t with
    | nil => contradiction
    | cons c tail => rfl
  simp only [first?, number?, Numeral.scan?_append apart.divided, mark, word?_append apart.divided,
    space?_append apart nonempty]

theorem first?_divider {c : Char} (divider : c ∈ dividers) (rest : Text) :
    (first? (c :: rest)).isSome = true := by
  have listed : ∀ c ∈ dividers, c = ' ' ∨ (mark c).isSome = true := by simp [dividers, mark]
  simp only [first?, Option.orElse_eq_orElse, Option.orElse_eq_or, Option.isSome_or]
  rcases listed c divider with rfl | marked
  · simp [space?]
  · simp [mark?, marked]

theorem hole_append (apart : t.Apart rest) : hole (t ++ rest) = hole t := by
  induction t with
  | nil =>
    cases rest with
    | nil => rfl
    | cons c tail => simp [hole, first?_divider (apart.divided c rfl) tail]
  | cons c t ih =>
    have same := first?_append apart (List.cons_ne_nil c t)
    simp only [List.cons_append] at same ⊢
    simp only [hole, same, ih (apart.suffix (a := [c]))]

end Lexeme

namespace Piece

variable {t rest : Text}

theorem next?_append (apart : t.Apart rest) (nonempty : t ≠ []) : next? (t ++ rest) = next? t := by
  have same := Lexeme.first?_append apart nonempty
  have hole := Lexeme.hole_append apart
  cases t with
  | nil => contradiction
  | cons c t =>
    simp only [List.cons_append] at same hole ⊢
    simp only [next?, same, hole]

theorem Cut.append (cut : Cut start t pieces) (apart : t.Apart rest)
    (tail : Cut (start + t.byteLength) rest others) : Cut start (t ++ rest) (pieces ++ others) := by
  induction cut with
  | nil => simpa [Text.byteLength] using tail
  | @cons taken behind l start pieces found cut ih =>
    have nonempty : taken ++ behind ≠ [] := by simp [next?_ne_nil found]
    rw [Text.byteLength_append, ← Nat.add_assoc] at tail
    have joined := ih apart.suffix tail
    rw [← next?_append apart nonempty, List.append_assoc] at found
    rw [List.append_assoc, List.cons_append]
    exact .cons found joined

theorem split_append (apart : t.Apart rest) (start : Nat) :
    split start (t ++ rest) = split start t ++ split (start + t.byteLength) rest :=
  ((split_cut start t).append apart (split_cut _ rest)).split_eq

end Piece

namespace Lexeme

theorem first?_spaces (rest : Text) :
    first? (' ' :: rest) = some (.space, ' ' :: rest.takeWhile (· == ' ')) := by
  have number : number? (' ' :: rest) = none := by
    simp [number?, Numeral.scan?, Numeral.parts, Numeral.Parts.hasDigits, Numeral.digits,
      Numeral.afterDigits, Numeral.fraction]
  have word : word? (' ' :: rest) = none := by simp [word?, words, List.isPrefixOf]
  simp [first?, number, word, mark?, mark, space?]

theorem first?_replicate {rest : Text} (other : rest.head? ≠ some ' ') (n : Nat) :
    first? (List.replicate (n + 1) ' ' ++ rest) = some (.space, List.replicate (n + 1) ' ') := by
  have stop : rest.takeWhile (· == ' ') = [] := by
    cases rest with
    | nil => rfl
    | cons c tail =>
      have different : c ≠ ' ' := by simpa using other
      simp [different]
  have run : (List.replicate n ' ' ++ rest).takeWhile (· == ' ') = List.replicate n ' ' := by
    rw [List.takeWhile_append_of_pos (by simp), stop, List.append_nil]
  rw [List.replicate_succ, List.cons_append, first?_spaces, run]

end Lexeme

namespace Token

variable {edge : Bool} {start : Nat} {t rest : Text} {tokens others : List Token}

theorem Reads.append (reads : Reads edge start t tokens) (apart : t.Apart rest)
    (tail : Reads (edgeAfter edge tokens) (start + t.byteLength) rest others) :
    Reads edge start (t ++ rest) (tokens ++ others) := by
  have joined := Piece.split_append apart start
  refine ⟨?_, ?_⟩
  · intro piece member
    rcases List.mem_append.mp (joined ▸ member) with left | right
    · exact reads.covered piece left
    · exact tail.covered piece right
  · rw [joined, ofPieces_append, reads.listed, tail.listed]

-- Where nothing is drawn across the joint, a text is read in two, the front as if it stood alone.
theorem Reads.apart (reads : Reads edge start (t ++ rest) tokens) (apart : t.Apart rest) :
    ∃ first last, tokens = first ++ last ∧ Reads edge start t first ∧
      Reads (edgeAfter edge first) (start + t.byteLength) rest last := by
  obtain ⟨covered, rfl⟩ := reads
  rw [Piece.split_append apart start] at covered ⊢
  refine ⟨_, _, ofPieces_append edge _ _, ⟨?_, rfl⟩, ⟨?_, rfl⟩⟩
  · exact fun piece member => covered piece (List.mem_append_left _ member)
  · exact fun piece member => covered piece (List.mem_append_right _ member)

theorem reads_nil_iff : Reads edge start [] tokens ↔ tokens = [] := by
  constructor
  · intro reads
    rw [← reads.listed, Piece.split_nil, ofPieces]
  · rintro rfl
    exact reads_nil

theorem reads_spaces_iff (other : rest.head? ≠ some ' ') (n : Nat) :
    Reads edge start (List.replicate n ' ' ++ rest) tokens ↔ Reads edge (start + n) rest tokens := by
  cases n with
  | zero => rfl
  | succ n => rw [reads_skip_iff (Lexeme.first?_replicate other n) rfl, Text.byteLength_spaces]

theorem reads_spaces_behind_iff (ending : t.getLast? ≠ some ' ') (n : Nat) :
    Reads edge start (t ++ List.replicate n ' ') tokens ↔ Reads edge start t tokens := by
  have apart : t.Apart (List.replicate n ' ') := by
    refine ⟨fun c first => ?_, fun last => absurd last ending⟩
    rw [List.eq_of_mem_replicate (List.mem_of_mem_head? first)]
    decide
  have none (edge : Bool) (start : Nat) (last : List Token) :
      Reads edge start (List.replicate n ' ') last ↔ last = [] := by
    have spaces := @reads_spaces_iff edge start [] last (by simp) n
    rwa [List.append_nil, reads_nil_iff] at spaces
  constructor
  · intro reads
    obtain ⟨first, last, rfl, front, behind⟩ := reads.apart apart
    rw [(none _ _ _).mp behind, List.append_nil]
    exact front
  · intro reads
    have whole := reads.append apart ((none _ _ _).mpr rfl)
    rwa [List.append_nil] at whole

theorem Reads.space (other : rest.head? ≠ some ' ') (reads : Reads edge (start + 1) rest tokens) :
    Reads edge start (' ' :: rest) tokens :=
  (reads_spaces_iff other 1).mpr reads

end Token

end InfixCalculator
