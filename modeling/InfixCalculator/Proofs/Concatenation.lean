import InfixCalculator.Proofs.TokenWords

namespace InfixCalculator

namespace TokenKind

def binary : TokenKind → TokenKind
  | .operator .plusSign => .operator .add
  | .operator .minusSign => .operator .subtract
  | kind => kind

theorem leavesEdge_binary (kind : TokenKind) : kind.binary.leavesEdge = kind.leavesEdge := by
  cases kind with
  | number => rfl
  | operator o => cases o <;> rfl

theorem binary_of_fits {o : Operator} (fits : o.fits false = true) :
    binary (.operator o) = .operator o := by
  cases o <;> first | rfl | cases fits

end TokenKind

theorem Lexeme.kind?_false {t text : Text} {l : Lexeme} (found : first? t = some (l, text)) :
    l.kind? false text = (l.kind? true text).map TokenKind.binary := by
  cases l with
  | number | plus | minus | space => rfl
  | fixed o =>
    have proper : Word.Proper false ⟨text, .operator o⟩ := proper_of_first? found rfl
    have fits := ((proper.kind_iff o).mp rfl).2
    simp only [Lexeme.kind?, Option.map_some, TokenKind.binary_of_fits fits]

namespace Token

def binary (t : Token) : Token := { t with kind := t.kind.binary }

variable {start : Nat} {t : Text} {ts : List Token}

-- What stands on the left decides how the first token is read, and no later one.
theorem ofPieces_false {pieces : List Piece} (cut : Piece.Cut start t pieces) :
    ofPieces false pieces = (ofPieces true pieces).modifyHead binary := by
  induction cut with
  | nil => rfl
  | @cons taken rest l start pieces found _ ih =>
    cases l with
    | none => exact ih
    | some l =>
      have kinds := Lexeme.kind?_false (Piece.next?_lexeme found)
      cases counts : l.kind? true taken with
      | none =>
        rw [counts, Option.map_none] at kinds
        simp only [ofPieces, Option.bind_some, counts, kinds]
        exact ih
      | some kind =>
        rw [counts, Option.map_some] at kinds
        simp only [ofPieces, Option.bind_some, counts, kinds, TokenKind.leavesEdge_binary]
        rfl

theorem Reads.behind (reads : Reads true start t ts) (before : List Token) :
    Reads (edgeAfter true before) start t (if AtEdge before then ts else ts.modifyHead binary) := by
  obtain ⟨covered, rfl⟩ := reads
  refine ⟨covered, ?_⟩
  split
  · next edge => rw [(atEdge_iff before).mp edge]
  · next complete =>
    rw [Bool.eq_false_of_not_eq_true (mt (atEdge_iff before).mpr complete)]
    exact ofPieces_false (Piece.split_cut start t)

-- Two texts with a space between them are read one after the other. Only a sign at the
-- front of the second depends on the first.
theorem tokenize_concat {a b : Text} {as bs : List Token} (first : tokenize a = .ok as)
    (second : tokenize b = .ok bs) :
    tokenize (a ++ ' ' :: b) =
      .ok (as ++ if AtEdge as then bs.map (moved (a.byteLength + 1))
        else (bs.map (moved (a.byteLength + 1))).modifyHead binary) := by
  obtain ⟨stem, n, rfl, ending⟩ := Text.exists_before_replicate ' ' a
  obtain ⟨m, tail, rfl, beginning⟩ := Text.exists_behind_replicate ' ' b
  have front := (reads_spaces_behind_iff ending n).mp (tokenize_eq_ok_iff.mp first)
  have behind := (reads_spaces_iff beginning m).mp (tokenize_eq_ok_iff.mp second)
  have blanks : stem ++ List.replicate n ' ' ++ ' ' :: (List.replicate m ' ' ++ tail) =
      stem ++ (List.replicate (n + m + 1) ' ' ++ tail) := by
    rw [Nat.add_assoc, ← List.replicate_append_replicate, List.replicate_succ]
    simp only [List.append_assoc, List.cons_append]
  have apart : stem.Apart (List.replicate (n + m + 1) ' ' ++ tail) :=
    ⟨by simp [List.replicate_succ, Text.dividers], fun last => absurd last ending⟩
  have place : 0 + m + (stem.byteLength + n + 1) = 0 + stem.byteLength + (n + m + 1) := by omega
  have later := (behind.moved (stem.byteLength + n + 1)).behind as
  rw [place] at later
  rw [tokenize_eq_ok_iff, blanks, Text.byteLength_append, Text.byteLength_spaces]
  exact front.append apart ((reads_spaces_iff beginning _).mpr later)

theorem tokenize_concat_signs :
    tokenize ['2', ' ', '-', '-', 'e'] =
      .ok [⟨['2'], 0, .number (Numeral.value ['2'])⟩, Operator.subtract.token 2,
        Operator.minusSign.token 3, Operator.euler.token 4] := by
  have first : tokenize ['2'] = .ok [⟨['2'], 0, .number (Numeral.value ['2'])⟩] :=
    tokenize_eq_ok_iff.mpr (reads_lexeme rfl rfl)
  have minus (rest : Text) : Lexeme.first? (['-'] ++ rest) = some (.minus, ['-']) := rfl
  have constant (start : Nat) : Reads true start ['e'] [Operator.euler.token start] :=
    reads_lexeme rfl rfl
  have second : tokenize ['-', '-', 'e'] = .ok [Operator.minusSign.token 0,
      Operator.minusSign.token 1, Operator.euler.token 2] :=
    tokenize_eq_ok_iff.mpr (Reads.token (minus _) rfl (Reads.token (minus _) rfl (constant _)))
  exact tokenize_concat first second

end Token

end InfixCalculator
