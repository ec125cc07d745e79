import InfixCalculator.Proofs.LexicalGrammar

namespace InfixCalculator

namespace Lexeme

variable {t rest text : Text} {l : Lexeme}

theorem number?_front (noNumber : number? (t ++ rest) = none) : number? t = none := by
  cases found : Numeral.scan? t with
  | none => simp [number?, found]
  | some n =>
    have written := Numeral.isNumeral_of_scan? found
    have starts := (Numeral.scan?_isPrefix found).trans (List.prefix_append t rest)
    exact absurd written (not_numeral noNumber starts)

theorem scan?_front (found : Numeral.scan? (t ++ rest) = some text) (within : text <+: t) :
    Numeral.scan? t = some text := by
  have written := Numeral.isNumeral_of_scan? found
  obtain ⟨behind, rfl⟩ := within
  obtain ⟨more, shorter⟩ := Numeral.scan?_extends written behind
  obtain ⟨left, same⟩ := Numeral.scan?_isPrefix shorter
  obtain ⟨others, longer⟩ := Numeral.scan?_extends (Numeral.isNumeral_of_scan? shorter) (left ++ rest)
  rw [← List.append_assoc, same, found] at longer
  have none : more = [] ∧ others = [] := by simpa using longer
  rw [shorter, none.1, List.append_nil]

theorem word?_of_prefix {o : Operator} (listed : (text, o) ∈ words) (stands : text <+: t) :
    word? t = some (.fixed o, text) := by
  have alone : ∀ first ∈ words, ∀ second ∈ words, first.1 <+: second.1 → first = second := by decide
  have named : text ∈ names := words_names ▸ List.mem_map_of_mem listed
  obtain ⟨piece, found⟩ := Option.isSome_iff_exists.mp (word?_isSome named stands)
  rw [found]
  simp only [word?, Option.map_eq_some_iff] at found
  obtain ⟨word, found, rfl⟩ := found
  have member := List.mem_of_find?_eq_some found
  have starts := List.find?_some found
  have other := List.isPrefixOf_iff_prefix.mp starts
  rcases List.prefix_or_prefix_of_prefix stands other with first | second
  · rw [← alone _ listed _ member first]
  · rw [alone _ member _ listed second]

theorem takeWhile_front {p : Char → Bool} (within : (t ++ rest).takeWhile p <+: t) :
    t.takeWhile p = (t ++ rest).takeWhile p := by
  rw [List.takeWhile_append] at within ⊢
  split at within
  · next full =>
    have none := within.eq_of_length_le (by simp)
    rw [if_pos full, none]
    exact (List.takeWhile_prefix p).eq_of_length full
  · next part => rw [if_neg part]

-- What is found within the front of a text is found in the front alone: no lexeme becomes
-- longer when what follows it is cut off.
theorem first?_front (found : first? (t ++ rest) = some (l, text)) (within : text <+: t) :
    first? t = some (l, text) := by
  have nonempty := first?_ne_nil found
  obtain ⟨c, front, rfl⟩ : ∃ c front, t = c :: front := by
    cases t with
    | nil => exact absurd (List.prefix_nil.mp within) nonempty
    | cons c front => exact ⟨c, front, rfl⟩
  rw [List.cons_append] at found
  generalize whole : c :: (front ++ rest) = t at found
  cases found_of_first? found with
  | number scanned =>
    have alone := scan?_front (t := c :: front) (whole ▸ scanned) within
    simp [first?, number?, alone]
  | mark noNumber marked =>
    cases whole
    have unnumbered : number? (c :: front) = none := number?_front noNumber
    simp [first?, unnumbered, mark?, marked]
  | word noNumber noMark listed stands =>
    cases whole
    have unnumbered : number? (c :: front) = none := number?_front noNumber
    have unmarked : mark? (c :: front) = none := noMark
    simp [first?, unnumbered, unmarked, word?_of_prefix listed within]
  | space run =>
    cases whole
    have taken : (c :: front).takeWhile (· == ' ') = (c :: (front ++ rest)).takeWhile (· == ' ') :=
      takeWhile_front within
    have blank : c = ' ' := by
      by_contra other
      exact run (by simp [other])
    subst blank
    rw [first?_spaces, ← taken]
    rfl

theorem spaces_of_first? {t text : Text} (found : first? t = some (.space, text)) :
    ∀ c ∈ text, c = ' ' := by
  cases found_of_first? found with
  | mark _ marked => exact absurd marked (mark_ne _).2
  | space run =>
    intro c member
    simpa using List.all_eq_true.mp List.all_takeWhile c member

end Lexeme

namespace Piece

variable {start : Nat} {t : Text} {pieces first last : List Piece} {piece : Piece}

theorem Cut.front (cut : Cut start t (first ++ last))
    (covered : ∀ piece ∈ first, piece.isHole = false) : Cut start (first.flatMap text) first := by
  induction first generalizing start t with
  | nil => exact .nil
  | cons piece first ih =>
    have lexeme := lexeme_of_covered (covered piece List.mem_cons_self)
    have others : ∀ piece ∈ first, piece.isHole = false := by
      intro other member
      exact covered other (List.mem_cons_of_mem _ member)
    cases cut with
    | @cons taken rest l _ _ found tail =>
      obtain ⟨l, rfl⟩ := lexeme
      obtain ⟨behind, rfl, _⟩ := tail.behind
      have scanned := next?_lexeme found
      rw [← List.append_assoc] at scanned
      have alone := Lexeme.first?_front scanned (List.prefix_append _ _)
      exact .cons (next?_of_first? alone) (ih tail others)

theorem Cut.divide (cut : Cut start t pieces) {front behind : Text} (parts : t = front ++ behind)
    (whole : ∀ piece ∈ pieces, start + front.byteLength ≤ piece.position ∨
      piece.span.stop ≤ start + front.byteLength) :
    ∃ first last, pieces = first ++ last ∧ front = first.flatMap text := by
  induction cut generalizing front with
  | nil =>
    have empty := (List.append_eq_nil_iff.mp parts.symm).1
    exact ⟨[], [], rfl, empty⟩
  | @cons taken rest l start pieces found cut ih =>
    rcases List.append_eq_append_iff.mp parts with ⟨more, same, within⟩ | ⟨more, same, within⟩
    · subst same
      have others : ∀ piece ∈ pieces, start + taken.byteLength + Text.byteLength more ≤ piece.position ∨
          piece.span.stop ≤ start + taken.byteLength + Text.byteLength more := by
        intro piece member
        have apart := whole piece (List.mem_cons_of_mem _ member)
        rwa [Text.byteLength_append, ← Nat.add_assoc] at apart
      obtain ⟨first, last, cut, same⟩ := ih within others
      subst same
      exact ⟨_ :: first, last, congrArg _ cut, rfl⟩
    · have apart := whole _ List.mem_cons_self
      simp only [span, Span.stop, same, Text.byteLength_append] at apart
      rcases apart with before | behind
      · have empty : front = [] := Text.eq_nil_of_byteLength (by omega)
        exact ⟨[], _, rfl, empty⟩
      · have empty : more = [] := Text.eq_nil_of_byteLength (by omega)
        rw [empty, List.append_nil] at same
        exact ⟨[_], pieces, rfl, by simp [same]⟩

end Piece

namespace Token

variable {edge : Bool} {start : Nat} {t front behind : Text} {tokens : List Token} {pieces : List Piece}
  {piece : Piece}

theorem exists_token (edge : Bool) (listed : piece ∈ pieces) {l : Lexeme}
    (found : piece.lexeme? = some l) (counted : l ≠ .space) :
    ∃ token ∈ ofPieces edge pieces, token.text = piece.text ∧ token.span = piece.span := by
  obtain ⟨first, last, rfl⟩ := List.append_of_mem listed
  have counts (edge : Bool) : ∃ kind, l.kind? edge piece.text = some kind := by
    cases l <;> first | contradiction | exact ⟨_, rfl⟩
  obtain ⟨kind, counts⟩ := counts (edgeAfter edge (ofPieces edge first))
  refine ⟨⟨piece.text, piece.position, kind⟩, ?_, rfl, rfl⟩
  simp [ofPieces_append, ofPieces, found, counts]

def Outside (place : Nat) (tokens : List Token) : Prop :=
  ∀ token ∈ tokens, place ≤ token.position ∨ token.span.stop ≤ place

theorem Reads.outside_pieces (reads : Reads edge start (front ++ behind) tokens)
    (outside : Outside (start + front.byteLength) tokens) (ending : front.getLast? ≠ some ' ') :
    ∀ piece ∈ Piece.split start (front ++ behind),
      start + front.byteLength ≤ piece.position ∨ piece.span.stop ≤ start + front.byteLength := by
  intro piece member
  have cut := Piece.split_cut start (front ++ behind)
  obtain ⟨l, found⟩ := Piece.lexeme_of_covered (reads.covered piece member)
  by_cases space : l = .space
  · subst space
    obtain ⟨rest, scanned⟩ := cut.lexeme member found
    have blank := Lexeme.spaces_of_first? scanned
    by_contra inside
    obtain ⟨first, last, parts⟩ := List.append_of_mem member
    rw [parts] at cut
    obtain ⟨before, after, same, position⟩ := cut.located
    simp only [Piece.span, Span.stop, position] at inside
    rw [List.append_assoc] at same
    obtain ⟨more, within, tail⟩ := Text.append_eq_append_of_le same.symm (by omega)
    rw [within, Text.byteLength_append] at inside
    obtain ⟨others, text, _⟩ := Text.append_eq_append_of_le tail.symm (by omega)
    have nonempty : more ≠ [] := by
      rintro rfl
      simp only [Text.byteLength] at inside
      omega
    have last : more.getLast nonempty = ' ' :=
      blank _ (text ▸ List.mem_append_left others (List.getLast_mem nonempty))
    refine ending ?_
    rw [within, List.getLast?_append, List.getLast?_eq_some_getLast nonempty, last]
    rfl
  · obtain ⟨token, listed, _, span⟩ := exists_token edge member found space
    have apart := outside token (reads.listed ▸ listed)
    have position : token.position = piece.position := congrArg Span.position span
    rwa [position, span] at apart

-- A text that is cut between its tokens is read in two, the front as if it stood alone.
theorem Reads.divide (reads : Reads edge start (front ++ behind) tokens)
    (outside : Outside (start + front.byteLength) tokens) (ending : front.getLast? ≠ some ' ') :
    ∃ first last, tokens = first ++ last ∧ Reads edge start front first ∧
      Reads (edgeAfter edge first) (start + front.byteLength) behind last := by
  have cut := Piece.split_cut start (front ++ behind)
  have covered := reads.covered
  obtain ⟨first, last, parts, same⟩ := cut.divide rfl (reads.outside_pieces outside ending)
  rw [parts] at cut covered
  obtain ⟨rest, whole, tail⟩ := cut.behind
  rw [← same] at whole tail
  obtain rfl := List.append_cancel_left whole
  have alone := cut.front fun piece member => covered piece (List.mem_append_left _ member)
  rw [← same] at alone
  refine ⟨ofPieces edge first, ofPieces (edgeAfter edge (ofPieces edge first)) last, ?_, ⟨?_, ?_⟩, ⟨?_, ?_⟩⟩
  · rw [← reads.listed, parts, ofPieces_append]
  · rw [alone.split_eq]
    exact fun piece member => covered piece (List.mem_append_left _ member)
  · rw [alone.split_eq]
  · rw [tail.split_eq]
    exact fun piece member => covered piece (List.mem_append_right _ member)
  · rw [tail.split_eq]

end Token

end InfixCalculator
