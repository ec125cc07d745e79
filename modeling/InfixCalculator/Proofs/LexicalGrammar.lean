import InfixCalculator.Proofs.Blame
import InfixCalculator.Proofs.Grammar

namespace InfixCalculator

namespace Lexeme

def marks : Text := ['(', ')', '+', '-', '*', '/', '^', '%', 'x']

def names : List Text :=
  [['c', 'o', 's'], ['s', 'i', 'n'], ['t', 'a', 'n'], ['c', 'o', 't'], ['c', 's', 'c'],
    ['s', 'e', 'c'], ['e'], ['p', 'i'], ['t', 'a', 'u']]

inductive Lexical : Text → Prop
  | number : Numeral.IsNumeral t → Lexical t
  | mark : c ∈ marks → Lexical [c]
  | name : t ∈ names → Lexical t
  | spaces : t ≠ [] → (∀ c ∈ t, c = ' ') → Lexical t

-- A text that is cut into lexemes in one way or another.
inductive Spelled : Text → Prop
  | nil : Spelled []
  | cons : Lexical lexeme → Spelled rest → Spelled (lexeme ++ rest)

theorem Lexical.spelled {t : Text} (lexical : Lexical t) : Spelled t := by
  have alone := Spelled.cons lexical .nil
  rwa [List.append_nil] at alone

theorem Spelled.append {first second : Text} (spelled : Spelled first) (behind : Spelled second) :
    Spelled (first ++ second) := by
  induction spelled with
  | nil => exact behind
  | cons lexical _ ih =>
    rw [List.append_assoc]
    exact .cons lexical ih

theorem mark_isSome_iff {c : Char} : (mark c).isSome = true ↔ c ∈ marks := by
  unfold mark
  split <;> simp_all [marks]

theorem words_names : words.map Prod.fst = names := rfl

theorem first?_lexical {t text : Text} {l : Lexeme} (found : first? t = some (l, text)) :
    Lexical text := by
  cases found_of_first? found with
  | number scanned => exact .number (Numeral.isNumeral_of_scan? scanned)
  | mark _ marked => exact .mark (mark_isSome_iff.mp (by rw [marked]; rfl))
  | word _ _ listed => exact .name (words_names ▸ List.mem_map_of_mem listed)
  | space run =>
    refine .spaces run fun c member => ?_
    simpa using List.all_eq_true.mp List.all_takeWhile c member

theorem mark_ne (c : Char) : mark c ≠ some .number ∧ mark c ≠ some .space := by
  unfold mark
  split <;> simp

theorem first?_number {t text : Text} (found : first? t = some (.number, text)) :
    Numeral.IsNumeral text := by
  cases found_of_first? found with
  | number scanned => exact Numeral.isNumeral_of_scan? scanned
  | mark _ marked => exact absurd marked (mark_ne _).1

theorem word?_isSome {t name : Text} (listed : name ∈ names) (starts : name <+: t) :
    (word? t).isSome = true := by
  rw [← words_names, List.mem_map] at listed
  obtain ⟨word, member, rfl⟩ := listed
  simp only [word?, Option.isSome_map, List.find?_isSome]
  exact ⟨word, member, List.isPrefixOf_iff_prefix.mpr starts⟩

theorem first?_isSome {t lexeme : Text} (lexical : Lexical lexeme) (starts : lexeme <+: t) :
    (first? t).isSome = true := by
  simp only [first?, Option.orElse_eq_orElse, Option.orElse_eq_or, Option.isSome_or]
  cases lexical with
  | number written => simp [number?, Numeral.scan?_isSome written starts]
  | mark listed =>
    obtain ⟨rest, rfl⟩ := starts
    simp [mark?, mark_isSome_iff.mpr listed]
  | name listed => simp [word?_isSome listed starts]
  | spaces nonempty all =>
    obtain ⟨rest, rfl⟩ := starts
    obtain ⟨c, tail, rfl⟩ := List.exists_cons_of_ne_nil nonempty
    simp [space?, all c List.mem_cons_self]

def IsPlain (c : Char) : Prop := c.isDigit = true ∨ c ∈ ['e', '+', '-']

theorem lexical_plain {c : Char} (plain : IsPlain c) : Lexical [c] := by
  rcases plain with digit | listed
  · exact .number (Numeral.IsDigits.isNumeral ⟨by simp, by simpa using digit⟩)
  · simp only [List.mem_cons, List.not_mem_nil, or_false] at listed
    rcases listed with rfl | rfl | rfl
    · exact .name (by decide)
    · exact .mark (by decide)
    · exact .mark (by decide)

theorem spelled_plain {t : Text} (plain : ∀ c ∈ t, IsPlain c) : Spelled t := by
  induction t with
  | nil => exact .nil
  | cons c t ih =>
    have behind := ih fun d member => plain d (List.mem_cons_of_mem _ member)
    exact .cons (lexical_plain (plain c List.mem_cons_self)) behind

theorem plain_exponent {t : Text} (written : Numeral.IsExponent t) : ∀ c ∈ t, IsPlain c := by
  cases written with
  | absent => simp
  | @present signed magnitude which grouped =>
    intro c member
    rcases List.mem_append.mp member with mark | digit
    · have listed : ∀ c ∈ 'e' :: signed, c ∈ ['e', '+', '-'] := by
        rcases which with rfl | rfl | rfl <;> simp
      exact .inr (listed c mark)
    · exact .inl (grouped.2 c digit)

theorem mem_numeral {n : Text} (written : Numeral.IsNumeral n) : ∀ c ∈ n, c = '.' ∨ IsPlain c := by
  obtain @⟨whole, point, last, power, inside, pointed, grouped, exponent⟩ := written
  have mark : ∀ c ∈ point, c = '.' := by rcases pointed with rfl | rfl <;> simp
  intro c member
  simp only [List.mem_append] at member
  rcases member with ((front | front) | digit) | behind
  · exact .inr (.inl (inside c front))
  · exact .inl (mark c front)
  · exact .inr (.inl (grouped.2 c digit))
  · exact .inr (plain_exponent exponent c behind)

-- The end of a numeral, wherever it is cut, can be cut into lexemes: all its
-- characters are plain but the point, which stands with the digits behind it.
theorem spelled_of_suffix {t last : Text} (written : Numeral.IsNumeral t) (ends : last <:+ t) :
    Spelled last := by
  obtain ⟨first, parts⟩ := ends
  obtain @⟨whole, point, digits, power, inside, pointed, grouped, exponent⟩ := written
  have plain : ∀ c ∈ digits ++ power, IsPlain c := by
    intro c member
    exact (List.mem_append.mp member).elim (fun digit => .inl (grouped.2 c digit)) (plain_exponent exponent c)
  rcases pointed with rfl | rfl
  · refine spelled_plain fun c member => ?_
    have somewhere : c ∈ whole ++ (digits ++ power) := by
      rw [← List.append_assoc, ← List.append_nil whole, ← parts]
      exact List.mem_append_right _ member
    exact (List.mem_append.mp somewhere).elim (fun digit => .inl (inside c digit)) (plain c)
  · have fraction : Numeral.IsNumeral ([] ++ ['.'] ++ digits ++ []) :=
      .intro (by simp) (.inr rfl) grouped .absent
    have point : Spelled ('.' :: (digits ++ power)) := by
      have cut := Spelled.cons (.number fraction) (spelled_plain (plain_exponent exponent))
      simpa using cut
    have same : first ++ last = whole ++ '.' :: (digits ++ power) := by simpa using parts
    rcases List.append_eq_append_iff.mp same with ⟨a, rfl, rfl⟩ | ⟨a, rfl, cut⟩
    · refine Spelled.append (spelled_plain fun c member => .inl (inside c ?_)) point
      exact List.mem_append_right _ member
    · rcases List.cons_eq_append_iff.mp cut with ⟨rfl, rfl⟩ | ⟨a, rfl, behind⟩
      · exact point
      · refine spelled_plain fun c member => plain c ?_
        rw [behind]
        exact List.mem_append_right _ member

theorem Lexical.of_digit {t : Text} (lexical : Lexical t) {d : Char} (member : d ∈ t)
    (digit : d.isDigit = true) : Numeral.IsNumeral t := by
  cases lexical with
  | number written => exact written
  | @mark c listed =>
    have other : ∀ c ∈ marks, c.isDigit = false := by simp [marks]
    cases List.mem_singleton.mp member
    rw [other d listed] at digit
    cases digit
  | name listed =>
    have other : ∀ name ∈ names, ∀ c ∈ name, c.isDigit = false := by simp [names]
    rw [other t listed d member] at digit
    cases digit
  | spaces _ all =>
    rw [all d member] at digit
    cases digit

theorem Lexical.of_space {t : Text} (lexical : Lexical t) (member : ' ' ∈ t) : ∀ c ∈ t, c = ' ' := by
  cases lexical with
  | number written => exact absurd (Numeral.visible_of_isNumeral written ' ' member) (by decide)
  | @mark c listed =>
    cases List.mem_singleton.mp member
    exact absurd listed (by decide)
  | name listed =>
    have other : ∀ name ∈ names, ' ' ∉ name := by decide
    exact absurd member (other t listed)
  | spaces _ all => exact all

def letters : Text :=
  ['.', ' ', '(', ')', '+', '-', '*', '/', '^', '%', 'x', 'c', 'o', 's', 'i', 'n', 't', 'a', 'e', 'p',
    'u']

theorem Lexical.mem_letters {t : Text} (lexical : Lexical t) :
    ∀ c ∈ t, c.isDigit = true ∨ c ∈ letters := by
  have plain (c : Char) (plain : IsPlain c) : c.isDigit = true ∨ c ∈ letters := by
    have listed : ∀ c ∈ ['e', '+', '-'], c ∈ letters := by simp [letters]
    exact plain.imp_right (listed c)
  intro c member
  cases lexical with
  | number written =>
    rcases mem_numeral written c member with rfl | among
    · exact .inr (by decide)
    · exact plain c among
  | @mark d listed =>
    have all : ∀ d ∈ marks, d ∈ letters := by simp [marks, letters]
    rw [List.mem_singleton.mp member]
    exact .inr (all d listed)
  | name listed =>
    have all : ∀ name ∈ names, ∀ c ∈ name, c ∈ letters := by simp [names, letters]
    exact .inr (all t listed c member)
  | spaces _ all => exact .inr (all c member ▸ by decide)

theorem Spelled.mem_letters {t : Text} (spelled : Spelled t) :
    ∀ c ∈ t, c.isDigit = true ∨ c ∈ letters := by
  induction spelled with
  | nil => simp
  | cons lexical _ ih =>
    intro c member
    exact (List.mem_append.mp member).elim (lexical.mem_letters c) (ih c)

theorem Lexical.lower {t : Text} (lexical : Lexical t) : t.map Char.toLower = t := by
  have small : ∀ c ∈ letters, c.toLower = c := by simp [letters]
  have kept : ∀ c ∈ t, c.toLower = id c := by
    intro c member
    rcases lexical.mem_letters c member with digit | listed
    · have bounds := Numeral.digit_iff.mp digit
      rcases Text.toLower_cases c with same | ⟨high, _⟩
      · exact same
      · omega
    · exact small c listed
  rw [List.map_congr_left kept, List.map_id]

-- A character behind which every lexeme can be cut.
def Loose (c : Char) : Prop := ∀ front behind, Lexical (front ++ c :: behind) → Spelled behind

theorem loose_digit {d : Char} (digit : d.isDigit = true) : Loose d := by
  intro front behind lexical
  exact spelled_of_suffix (lexical.of_digit (by simp) digit) ⟨front ++ [d], by simp⟩

theorem loose_space : Loose ' ' := by
  intro front behind lexical
  have all := lexical.of_space (by simp)
  cases behind with
  | nil => exact .nil
  | cons c behind =>
    refine (Lexical.spaces (by simp) fun d member => all d ?_).spelled
    exact List.mem_append_right _ (List.mem_cons_of_mem _ member)

theorem Spelled.behind {front behind : Text} {c : Char} (loose : Loose c)
    (spelled : Spelled (front ++ c :: behind)) : Spelled behind := by
  generalize whole : front ++ c :: behind = t at spelled
  induction spelled generalizing front with
  | nil => simp at whole
  | @cons lexeme rest lexical others ih =>
    rcases List.append_eq_append_iff.mp whole with ⟨a, rfl, same⟩ | ⟨a, rfl, same⟩
    · rcases List.cons_eq_append_iff.mp same with ⟨rfl, rfl⟩ | ⟨a, rfl, rfl⟩
      · exact ih (List.nil_append _)
      · exact (loose front a lexical).append others
    · exact ih same.symm

theorem names_prefix_free : ∀ first ∈ names, ∀ second ∈ names, first <+: second → first = second := by
  decide

theorem names_head : ∀ name ∈ names, ∃ d rest, name = d :: rest ∧ d ≠ ' ' ∧ d ∉ marks := by
  simp [names, marks]

theorem not_numeral {t lexeme : Text} (noNumber : number? t = none) (starts : lexeme <+: t) :
    ¬ Numeral.IsNumeral lexeme := by
  intro written
  have found := Numeral.scan?_isSome written starts
  simp only [number?, Option.map_eq_none_iff] at noNumber
  rw [noNumber] at found
  cases found

theorem mark_only {lexeme rest : Text} {c : Char} (lexical : Lexical lexeme)
    (starts : lexeme <+: c :: rest) (noNumber : number? (c :: rest) = none) (marked : c ∈ marks) :
    lexeme = [c] := by
  cases lexical with
  | number written => exact absurd written (not_numeral noNumber starts)
  | mark listed => rw [(List.cons_prefix_cons.mp starts).1]
  | name listed =>
    obtain ⟨d, tail, rfl, _, unmarked⟩ := names_head lexeme listed
    cases (List.cons_prefix_cons.mp starts).1
    exact absurd marked unmarked
  | spaces nonempty all =>
    obtain ⟨d, tail, rfl⟩ := List.exists_cons_of_ne_nil nonempty
    cases (List.cons_prefix_cons.mp starts).1
    rw [all c List.mem_cons_self] at marked
    exact absurd marked (by decide)

theorem name_only {t lexeme name : Text} (lexical : Lexical lexeme) (starts : lexeme <+: t)
    (noNumber : number? t = none) (noMark : mark? t = none) (listed : name ∈ names)
    (stands : name <+: t) : lexeme = name := by
  cases lexical with
  | number written => exact absurd written (not_numeral noNumber starts)
  | mark listed =>
    obtain ⟨rest, rfl⟩ := starts
    have marked := mark_isSome_iff.mpr listed
    simp only [List.singleton_append, mark?, Option.map_eq_none_iff] at noMark
    rw [noMark] at marked
    cases marked
  | name other =>
    rcases List.prefix_or_prefix_of_prefix starts stands with first | second
    · exact names_prefix_free _ other _ listed first
    · exact (names_prefix_free _ listed _ other second).symm
  | spaces nonempty all =>
    obtain ⟨d, tail, rfl, visible, _⟩ := names_head name listed
    obtain ⟨s, rest, rfl⟩ := List.exists_cons_of_ne_nil nonempty
    obtain ⟨behind, rfl⟩ := stands
    cases (List.cons_prefix_cons.mp starts).1
    exact absurd (all d List.mem_cons_self) visible

theorem Spelled.rest_of_only {taken rest : Text} (spelled : Spelled (taken ++ rest))
    (nonempty : taken ≠ [])
    (only : ∀ lexeme, Lexical lexeme → lexeme <+: taken ++ rest → lexeme = taken) : Spelled rest := by
  generalize whole : taken ++ rest = t at spelled only
  cases spelled with
  | nil => exact absurd (List.append_eq_nil_iff.mp whole).1 nonempty
  | cons lexical others =>
    cases only _ lexical (List.prefix_append _ _)
    exact List.append_cancel_left whole ▸ others

-- A numeral or a run of spaces may reach further than the lexeme that was meant, but ends in a loose
-- character; any other lexeme is the one that was meant.
theorem Spelled.rest {taken rest : Text} {l : Lexeme} (spelled : Spelled (taken ++ rest))
    (found : first? (taken ++ rest) = some (l, taken)) : Spelled rest := by
  have nonempty := first?_ne_nil found
  generalize whole : taken ++ rest = t at found
  cases found_of_first? found with
  | number scanned =>
    obtain ⟨front, d, rfl, digit⟩ := (Numeral.isNumeral_of_scan? scanned).last
    rw [List.append_assoc] at spelled
    exact spelled.behind (loose_digit digit)
  | mark noNumber marked =>
    have listed := mark_isSome_iff.mp (Option.isSome_iff_exists.mpr ⟨_, marked⟩)
    refine spelled.rest_of_only nonempty fun lexeme lexical starts => ?_
    exact mark_only lexical (whole ▸ starts) noNumber listed
  | word noNumber noMark member stands =>
    have listed := words_names ▸ List.mem_map_of_mem member
    refine spelled.rest_of_only nonempty fun lexeme lexical starts => ?_
    exact name_only lexical (whole ▸ starts) noNumber noMark listed
      (List.isPrefixOf_iff_prefix.mp stands)
  | space run =>
    have last := List.all_eq_true.mp List.all_takeWhile _ (List.getLast_mem run)
    rw [← List.dropLast_concat_getLast run, List.append_assoc, beq_iff_eq.mp last] at spelled
    exact spelled.behind loose_space

theorem hole_reaches (t : Text) :
    ∃ rest, t = hole t ++ rest ∧ (rest = [] ∨ (first? rest).isSome = true) ∧
      ∀ before after, hole t = before ++ after → after ≠ [] → first? (after ++ rest) = none := by
  induction t with
  | nil => exact ⟨[], rfl, .inl rfl, by simp [hole]⟩
  | cons c t ih =>
    unfold hole
    split
    · next starts => exact ⟨c :: t, rfl, .inr starts, by simp⟩
    · next stuck =>
      obtain ⟨rest, parts, ends, inside⟩ := ih
      refine ⟨rest, congrArg (c :: ·) parts, ends, ?_⟩
      intro before after cut some
      cases before with
      | nil =>
        cases cut
        rw [List.cons_append, ← parts]
        simpa using stuck
      | cons b before => exact inside before after (List.cons.inj cut).2 some

end Lexeme

open Lexeme (Lexical Spelled)

namespace Piece

variable {start : Nat} {t : Text} {pieces : List Piece} {piece : Piece}

theorem Cut.lexeme (cut : Cut start t pieces) (listed : piece ∈ pieces) {l : Lexeme}
    (found : piece.lexeme? = some l) :
    ∃ rest, Lexeme.first? (piece.text ++ rest) = some (l, piece.text) := by
  obtain ⟨first, last, rfl⟩ := List.append_of_mem listed
  obtain ⟨rest, rfl, behind⟩ := cut.behind
  cases behind with
  | @cons taken after _ _ _ scanned => exact ⟨after, next?_lexeme (scanned.trans (by rw [← found]))⟩

theorem Cut.lexical (cut : Cut start t pieces) (listed : piece ∈ pieces)
    (covered : piece.isHole = false) : Lexical piece.text := by
  obtain ⟨l, found⟩ := lexeme_of_covered covered
  obtain ⟨rest, first⟩ := cut.lexeme listed found
  exact Lexeme.first?_lexical first

theorem spelled_pieces (covered : ∀ piece ∈ pieces, Lexical piece.text) :
    Spelled (pieces.flatMap text) := by
  induction pieces with
  | nil => exact .nil
  | cons piece rest ih =>
    have others := ih fun other member => covered other (List.mem_cons_of_mem _ member)
    exact .cons (covered piece List.mem_cons_self) others

theorem Cut.spelled (cut : Cut start t pieces) (covered : ∀ piece ∈ pieces, piece.isHole = false) :
    Spelled t := by
  rw [← List.append_nil pieces] at cut
  obtain ⟨rest, rfl, none⟩ := cut.behind
  cases none
  rw [List.append_nil]
  exact spelled_pieces fun piece member =>
    cut.lexical (List.mem_append_left _ member) (covered piece member)

-- The scan never goes back, and yet finds no hole where some other split has none.
theorem Cut.covered (cut : Cut start t pieces) (spelled : Spelled t) :
    ∀ piece ∈ pieces, piece.isHole = false := by
  induction cut with
  | nil => simp
  | @cons taken rest l start others found _ ih =>
    obtain ⟨lexeme, rfl⟩ : ∃ lexeme, l = some lexeme := by
      generalize whole : taken ++ rest = t at spelled found
      cases spelled with
      | nil => cases found
      | @cons lexeme behind lexical _ =>
        cases l with
        | some lexeme => exact ⟨lexeme, rfl⟩
        | none =>
          have starts := Lexeme.first?_isSome lexical (List.prefix_append lexeme behind)
          rw [(next?_hole found).1] at starts
          cases starts
    intro piece member
    rcases List.mem_cons.mp member with rfl | later
    · rfl
    · exact ih (spelled.rest (next?_lexeme found)) piece later

theorem check_ok_iff_spelled : check t = .ok () ↔ Spelled t :=
  check_ok_iff.trans ⟨(split_cut 0 t).spelled, (split_cut 0 t).covered⟩

end Piece

def StartsAt (k : Nat) (t : Text) : Prop :=
  ∃ before lexeme after, t = before ++ (lexeme ++ after) ∧ before.byteLength = k ∧ Lexical lexeme

structure Gap (s : Span) (t : Text) : Prop where
  reached : ∃ before after, t = before ++ after ∧ before.byteLength = s.position ∧ Spelled before
  positive : 1 ≤ s.length
  inside : ∀ k, s.position ≤ k → k < s.stop → ¬ StartsAt k t
  ends : s.stop = t.byteLength ∨ StartsAt s.stop t

theorem not_startsAt_hole {before t : Text} {k : Nat} (from_start : before.byteLength ≤ k)
    (inside : k < before.byteLength + (Lexeme.hole t).byteLength) : ¬ StartsAt k (before ++ t) := by
  rintro ⟨front, lexeme, after, whole, rfl, lexical⟩
  obtain ⟨rest, parts, _, stuck⟩ := Lexeme.hole_reaches t
  obtain ⟨skipped, rfl, here⟩ := Text.append_eq_append_of_le whole from_start
  rw [Text.byteLength_append] at inside
  obtain ⟨left, cut, behind⟩ :=
    Text.append_eq_append_of_le (here.symm.trans parts) (by omega)
  have some : left ≠ [] := by
    rintro rfl
    rw [cut, List.append_nil] at inside
    omega
  have starts := Lexeme.first?_isSome lexical (List.prefix_append lexeme after)
  rw [behind, stuck skipped left cut some] at starts
  cases starts

theorem hole_ends (before t : Text) :
    before.byteLength + (Lexeme.hole t).byteLength = (before ++ t).byteLength ∨
      StartsAt (before.byteLength + (Lexeme.hole t).byteLength) (before ++ t) := by
  obtain ⟨rest, parts, ends, _⟩ := Lexeme.hole_reaches t
  rcases ends with rfl | starts
  · left
    rw [List.append_nil] at parts
    rw [Text.byteLength_append, ← parts]
  · right
    obtain ⟨⟨l, lexeme⟩, found⟩ := Option.isSome_iff_exists.mp starts
    obtain ⟨after, same⟩ := Lexeme.first?_isPrefix found
    refine ⟨before ++ Lexeme.hole t, lexeme, after, ?_, Text.byteLength_append _ _,
      Lexeme.first?_lexical found⟩
    rw [same, List.append_assoc, ← parts]

theorem gap_of_firstHole {t fragment : Text} {s : Span} (first : IsFirstHole t s fragment) :
    Gap s t := by
  obtain ⟨lexemes, hole, rest, parts, covered, isHole, rfl, rfl⟩ := first
  have cut := Piece.split_cut 0 t
  rw [parts] at cut
  obtain ⟨later, rfl, behind⟩ := cut.behind
  have spelled : Spelled (lexemes.flatMap Piece.text) :=
    Piece.spelled_pieces fun piece member =>
      cut.lexical (List.mem_append_left _ member) (covered piece member)
  rw [Nat.zero_add] at behind
  cases behind with
  | @cons taken after l _ _ found tail =>
    obtain rfl : l = none := by simpa [Piece.isHole] using isHole
    obtain ⟨_, same⟩ := Piece.next?_hole found
    have nonempty := Piece.next?_ne_nil found
    refine ⟨⟨_, taken ++ after, rfl, rfl, spelled⟩, Text.byteLength_pos nonempty, ?_, ?_⟩
    · intro k start stop
      refine not_startsAt_hole start ?_
      rw [← same]
      exact stop
    · have ends := hole_ends (lexemes.flatMap Piece.text) (taken ++ after)
      rw [← same] at ends
      exact ends

theorem tokenize_error_iff {t : Text} {s : Span} :
    Token.tokenize t = .error s ↔ Piece.check t = .error s := by
  unfold Token.tokenize
  cases Piece.check t <;> simp

theorem number_isNumeral {t : Text} {tokens : List Token} (read : Token.tokenize t = .ok tokens)
    {token : Token} (member : token ∈ tokens) {v : Float} (kind : token.kind = .number v) :
    Numeral.IsNumeral token.text := by
  obtain ⟨_, rfl⟩ := Token.tokenize_eq_ok_iff.mp read
  obtain ⟨piece, listed, text, _, edge, l, found, counts⟩ := Token.mem_ofPieces member
  obtain ⟨rest, first⟩ := (Piece.split_cut 0 t).lexeme listed found
  obtain rfl : l = .number := by
    rw [kind] at counts
    cases l <;> simp_all [Lexeme.kind?]
  rw [text]
  exact Lexeme.first?_number first

-- The check accepts what can be cut into lexemes in some way, and else stops at a gap behind such a
-- text. Tokens are refused there and nowhere else.
theorem check_decides_spelled (t : Text) :
    (Piece.check t = .ok () ↔ Spelled t) ∧
      (∀ s, Piece.check t = .error s → Gap s t) ∧
      (∀ s, Token.tokenize t = .error s ↔ Piece.check t = .error s) ∧
      ∀ tokens, Token.tokenize t = .ok tokens → ∀ token ∈ tokens, ∀ v, token.kind = .number v →
        Numeral.IsNumeral token.text := by
  refine ⟨Piece.check_ok_iff_spelled, fun s refused => ?_, fun s => tokenize_error_iff, ?_⟩
  · obtain ⟨fragment, first, _⟩ := tokenize_error (tokenize_error_iff.mpr refused)
    exact gap_of_firstHole first
  · intro tokens read token member v kind
    exact number_isNumeral read member kind

example : Piece.check ['2', 'e', '5', '.', '5'] = .ok () := by decide +kernel

example : Piece.check ['2', 'e', '.', '+'] = .error ⟨2, 1⟩ := by decide +kernel

end InfixCalculator
