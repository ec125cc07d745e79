import InfixCalculator.Proofs.ByteScan
import InfixCalculator.Proofs.Fronts
import InfixCalculator.Proofs.TokenWords

namespace InfixCalculator

inductive Contiguous : (start stop : Nat) → List Span → Prop
  | nil : Contiguous stop stop []
  | cons : 1 ≤ n → Contiguous (start + n) stop rest → Contiguous start stop (⟨start, n⟩ :: rest)

-- The pieces of a text, put together again, are the text. Each of them is cut between
-- characters, and a hole goes on to the next lexeme.
structure Tiling (t : Text) (pieces : List Piece) : Prop where
  whole : pieces.flatMap Piece.text = t
  contiguous : Contiguous 0 t.byteLength (pieces.map Piece.span)
  sliced : ∀ piece ∈ pieces, t.between? piece.position piece.span.stop = some piece.text
  apart : pieces.IsChain fun first second => first.isHole = true → second.isHole = false
  ascii : ∀ piece ∈ pieces, piece.isHole = false → piece.text.IsAscii

namespace Piece

variable {start : Nat} {t : Text} {pieces : List Piece} {piece : Piece}

theorem Cut.contiguous (cut : Cut start t pieces) :
    Contiguous start (start + t.byteLength) (pieces.map span) := by
  induction cut with
  | nil => exact .nil
  | @cons taken rest _ start _ found _ ih =>
    have nonempty := Text.byteLength_pos (next?_ne_nil found)
    rw [Text.byteLength_append, ← Nat.add_assoc]
    exact .cons nonempty ih

theorem Cut.apart (cut : Cut start t pieces) :
    pieces.IsChain fun first second => first.isHole = true → second.isHole = false := by
  induction cut with
  | nil => exact .nil
  | @cons taken rest l _ pieces found tail ih =>
    cases tail with
    | nil => exact .singleton _
    | @cons next rest other _ _ later _ =>
      refine .cons_cons (fun hole => ?_) ih
      obtain rfl : l = none := by simpa [isHole] using hole
      obtain ⟨_, same⟩ := next?_hole found
      obtain ⟨behind, parts, ends, _⟩ := Lexeme.hole_reaches (taken ++ (next ++ rest))
      rw [← same] at parts
      obtain rfl := List.append_cancel_left parts
      rcases ends with empty | starts
      · exact absurd (List.append_eq_nil_iff.mp empty).1 (next?_ne_nil later)
      · cases other with
        | some => rfl
        | none =>
          rw [(next?_hole later).1] at starts
          cases starts

theorem split_tiling (t : Text) : Tiling t (split 0 t) where
  whole := (split_cut 0 t).whole
  contiguous := by
    have cut := (split_cut 0 t).contiguous
    rwa [Nat.zero_add] at cut
  sliced piece listed := by
    obtain ⟨before, after, stands⟩ := piece_stands listed
    exact stands.sliced
  apart := (split_cut 0 t).apart
  ascii piece listed covered := ((split_cut 0 t).lexical listed covered).ascii

theorem cuts_iff (t : Text) (cuts : List (Option Lexeme × Span)) :
    ByteScan.Cuts t.utf8 0 cuts ↔ cuts = (split 0 t).map fun piece => (piece.lexeme?, piece.span) := by
  have scanned := (split_cut 0 t).cuts [] rfl
  rw [List.nil_append] at scanned
  constructor
  · intro others
    exact others.unique scanned
  · rintro rfl
    exact scanned

theorem Cut.holds_byte (cut : Cut start t pieces) {k : Nat} {b : UInt8} (read : t.utf8[k]? = some b) :
    ∃ piece ∈ pieces, piece.position ≤ start + k ∧ start + k < piece.span.stop ∧
      b ∈ piece.text.utf8 := by
  induction cut generalizing k with
  | nil => cases read
  | @cons taken rest l start pieces found _ ih =>
    rw [Text.utf8_append, List.getElem?_append, Text.utf8_length] at read
    split at read
    · next within =>
      exact ⟨_, List.mem_cons_self, Nat.le_add_right _ _, Nat.add_lt_add_left within _,
        List.mem_of_getElem? read⟩
    · next beyond =>
      obtain ⟨piece, listed, first, last, holds⟩ := ih read
      exact ⟨piece, List.mem_cons_of_mem _ listed, by omega, by omega, holds⟩

end Piece

namespace Token

def lay : (start stop : Nat) → List Token → Text
  | start, stop, [] => List.replicate (stop - start) ' '
  | start, stop, token :: rest =>
    List.replicate (token.position - start) ' ' ++ token.text ++ lay token.span.stop stop rest

structure Placed (t : Text) (tokens : List Token) : Prop where
  sliced : ∀ token ∈ tokens, t.between? token.position token.span.stop = some token.text
  ordered : tokens.Pairwise fun first second =>
    first.position < second.position ∧ first.span.stop ≤ second.position
  blank : ∀ k b, t.utf8[k]? = some b →
    (∀ token ∈ tokens, k < token.position ∨ token.span.stop ≤ k) → b = ' '.toUInt8
  rebuilt : lay 0 t.byteLength tokens = t
  signs : ∀ before token after, tokens = before ++ token :: after →
    (token.kind = .operator .plusSign ↔ token.text = ['+'] ∧ AtEdge before) ∧
      (token.kind = .operator .add ↔ token.text = ['+'] ∧ ¬ AtEdge before) ∧
      (token.kind = .operator .minusSign ↔ token.text = ['-'] ∧ AtEdge before) ∧
      (token.kind = .operator .subtract ↔ token.text = ['-'] ∧ ¬ AtEdge before)

variable {edge : Bool} {start stop : Nat} {t : Text} {pieces : List Piece} {tokens : List Token}

theorem start_le_ofPieces (cut : Piece.Cut start t pieces) :
    ∀ token ∈ ofPieces edge pieces, start ≤ token.position := by
  intro token member
  obtain ⟨piece, listed, _, position, _⟩ := mem_ofPieces member
  rw [position]
  exact cut.start_le listed

theorem ordered_ofPieces (cut : Piece.Cut start t pieces) (edge : Bool) :
    (ofPieces edge pieces).Pairwise fun first second =>
      first.position < second.position ∧ first.span.stop ≤ second.position := by
  induction cut generalizing edge with
  | nil => exact .nil
  | @cons taken rest l start pieces found tail ih =>
    have nonempty := Text.byteLength_pos (Piece.next?_ne_nil found)
    unfold ofPieces
    split
    · refine List.pairwise_cons.mpr ⟨fun token later => ?_, ih _⟩
      have behind := start_le_ofPieces tail token later
      exact ⟨Nat.lt_of_lt_of_le (Nat.lt_add_of_pos_right nonempty) behind, behind⟩
    · exact ih edge

theorem lay_skip {n : Nat} (inside : start + n ≤ stop)
    (behind : ∀ token ∈ tokens, start + n ≤ token.position) :
    lay start stop tokens = List.replicate n ' ' ++ lay (start + n) stop tokens := by
  cases tokens with
  | nil =>
    have width : stop - start = n + (stop - (start + n)) := by omega
    rw [lay, lay, width, ← List.replicate_append_replicate]
  | cons token rest =>
    have first := behind token List.mem_cons_self
    have width : token.position - start = n + (token.position - (start + n)) := by omega
    rw [lay, lay, width, ← List.replicate_append_replicate]
    simp only [List.append_assoc]

theorem replicate_of_spaces {t : Text} (spaces : ∀ c ∈ t, c = ' ') :
    t = List.replicate t.byteLength ' ' := by
  rw [List.eq_replicate_of_mem spaces, Text.byteLength_spaces]

theorem lay_ofPieces (cut : Piece.Cut start t pieces) (edge : Bool)
    (covered : ∀ piece ∈ pieces, piece.isHole = false) :
    lay start (start + t.byteLength) (ofPieces edge pieces) = t := by
  induction cut generalizing edge with
  | nil => simp [ofPieces, lay, Text.byteLength]
  | @cons taken rest l start pieces found tail ih =>
    have others (edge : Bool) := ih edge fun piece member => covered piece (List.mem_cons_of_mem _ member)
    obtain ⟨l, rfl⟩ := Piece.lexeme_of_covered (covered _ List.mem_cons_self)
    rw [Text.byteLength_append, ← Nat.add_assoc]
    cases counts : l.kind? edge taken with
    | some kind => simp [ofPieces, counts, lay, span, Span.stop, others]
    | none =>
      obtain rfl : l = .space := by cases l <;> first | rfl | cases counts
      have spaces := replicate_of_spaces (Lexeme.spaces_of_first? (Piece.next?_lexeme found))
      have passed : ofPieces edge (⟨start, taken, some .space⟩ :: pieces) = ofPieces edge pieces := by
        simp [ofPieces, counts]
      rw [passed, lay_skip (Nat.le_add_right _ _) (start_le_ofPieces tail), others, ← spaces]

theorem blank_outside (edge : Bool) (cut : Piece.Cut start t pieces)
    (covered : ∀ piece ∈ pieces, piece.isHole = false) {k : Nat} {b : UInt8} (read : t.utf8[k]? = some b)
    (outside : ∀ token ∈ ofPieces edge pieces,
      start + k < token.position ∨ token.span.stop ≤ start + k) : b = ' '.toUInt8 := by
  obtain ⟨piece, listed, first, last, holds⟩ := cut.holds_byte read
  obtain ⟨l, found⟩ := Piece.lexeme_of_covered (covered piece listed)
  by_cases space : l = .space
  · subst space
    obtain ⟨rest, scanned⟩ := cut.lexeme listed found
    obtain ⟨c, member, coded⟩ := List.mem_flatMap.mp holds
    rw [Lexeme.spaces_of_first? scanned c member] at coded
    exact List.mem_singleton.mp coded
  · obtain ⟨token, member, _, span⟩ := exists_token edge listed found space
    have apart := outside token member
    have position : token.position = piece.position := congrArg Span.position span
    rw [position, span] at apart
    omega

end Token

theorem Word.Proper.sign_iff {w : Word} {before : List Token}
    (proper : w.Proper (Token.edgeAfter true before)) (c : Char) (sign binary : Operator)
    (alike : sign.symbol = [c] ∧ binary.symbol = [c])
    (fits : ∀ edge, sign.fits edge = edge ∧ binary.fits edge = !edge) :
    (w.kind = .operator sign ↔ w.text = [c] ∧ Token.AtEdge before) ∧
      (w.kind = .operator binary ↔ w.text = [c] ∧ ¬ Token.AtEdge before) := by
  rw [proper.kind_iff, proper.kind_iff, Token.atEdge_iff, alike.1, alike.2, (fits _).1, (fits _).2]
  simp

theorem Token.Reads.placed {t : Text} {tokens : List Token} (reads : Reads true 0 t tokens) :
    Placed t tokens where
  sliced token member := by
    obtain ⟨before, after, stands⟩ := token_stands (tokenize_eq_ok_iff.mpr reads) member
    exact stands.sliced
  ordered := by
    rw [← reads.listed]
    exact ordered_ofPieces (Piece.split_cut 0 t) true
  blank k b read outside := by
    refine blank_outside true (Piece.split_cut 0 t) reads.covered read ?_
    rwa [reads.listed, Nat.zero_add]
  rebuilt := by
    have laid := lay_ofPieces (Piece.split_cut 0 t) true reads.covered
    rwa [reads.listed, Nat.zero_add] at laid
  signs before token after parts := by
    have proper := reads.proper parts
    obtain ⟨plus, add⟩ := proper.sign_iff '+' .plusSign .add ⟨rfl, rfl⟩ (by decide)
    obtain ⟨minus, subtract⟩ := proper.sign_iff '-' .minusSign .subtract ⟨rfl, rfl⟩ (by decide)
    exact ⟨plus, add, minus, subtract⟩

-- The pieces of a text cover its bytes, and the scan reads no byte out of range. What is lost between
-- the tokens are spaces, so that the tokens and their places give the text back.
theorem split_tiles (t : Text) :
    Tiling t (Piece.split 0 t) ∧
      (∀ cuts, ByteScan.Cuts t.utf8 0 cuts ↔
        cuts = (Piece.split 0 t).map fun piece => (piece.lexeme?, piece.span)) ∧
      ∀ tokens, Token.tokenize t = .ok tokens → Token.Placed t tokens := by
  refine ⟨Piece.split_tiling t, Piece.cuts_iff t, fun tokens read => ?_⟩
  exact (Token.tokenize_eq_ok_iff.mp read).placed

theorem split_tiles_signed :
    Token.tokenize ['-', ' ', '2', ' ', '-', ' ', 'e'] =
        .ok [Operator.minusSign.token 0, ⟨['2'], 2, .number (Numeral.value ['2'])⟩,
          Operator.subtract.token 4, Operator.euler.token 6] ∧
      Token.Placed ['-', ' ', '2', ' ', '-', ' ', 'e']
        [Operator.minusSign.token 0, ⟨['2'], 2, .number (Numeral.value ['2'])⟩,
          Operator.subtract.token 4, Operator.euler.token 6] := by
  have legible : Word.AllLegible true [Operator.minusSign.word, Numeral.word ['2'],
      Operator.subtract.word, Operator.euler.word] :=
    .cons (Word.legible_operator rfl) (.cons (Word.legible_digit '2' rfl _)
      (.cons (Word.legible_operator rfl) (.cons (Word.legible_operator rfl) .nil)))
  have read := Token.tokenize_eq_ok_iff.mpr (legible.reads 0)
  exact ⟨read, (split_tiles _).2.2 _ read⟩

end InfixCalculator
