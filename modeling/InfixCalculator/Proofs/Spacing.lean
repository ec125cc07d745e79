import InfixCalculator.Proofs.Correspondence
import InfixCalculator.Proofs.Fronts
import InfixCalculator.Proofs.TokenWords

namespace InfixCalculator

-- The texts that an expression becomes when blanks are put before, between or behind its
-- tokens and letters change their case.
inductive Respelled (t : Text) : Text → Prop
  | same : Respelled t t
  | blank : Respelled t (a ++ b) → Token.tokenize (a ++ b).normalise = .ok ts →
      Token.Outside a.normalise.byteLength ts → Text.isBlank c = true → Respelled t (a ++ c :: b)
  | letter : Respelled t (a ++ c :: b) → c.toLower = d.toLower → Respelled t (a ++ d :: b)

namespace Token

variable {edge : Bool} {start : Nat} {t : Text} {ts : List Token}

theorem Reads.spaced {front behind : Text} (reads : Reads edge start (front ++ behind) ts)
    (outside : Outside (start + front.byteLength) ts) (ending : front.getLast? ≠ some ' ')
    (beginning : behind.head? ≠ some ' ') :
    ∃ us, Reads edge start (front ++ ' ' :: behind) us ∧ us.map word = ts.map word := by
  obtain ⟨first, last, rfl, left, right⟩ := reads.divide outside ending
  have apart : front.Apart (' ' :: behind) :=
    ⟨by simp [Text.dividers], fun space => absurd space ending⟩
  refine ⟨first ++ last.map (Token.moved 1), left.append apart (Reads.space beginning (right.moved 1)), ?_⟩
  have words : (last.map (Token.moved 1)).map word = last.map word := by
    simp [Token.moved, word]
  rw [List.map_append, List.map_append, words]

theorem reads_respelled {u : Text} (respelled : Respelled t u) (read : tokenize t.normalise = .ok ts) :
    ∃ us, tokenize u.normalise = .ok us ∧ us.map word = ts.map word := by
  induction respelled with
  | same => exact ⟨ts, read, rfl⟩
  | @blank a b tokens c _ listed outside blank ih =>
    obtain ⟨us, again, words⟩ := ih
    cases listed.symm.trans again
    rcases Text.normalise_blank a b blank with same | ⟨rest, before, after, ending, beginning⟩
    · exact ⟨tokens, same ▸ listed, words⟩
    · have reads := tokenize_eq_ok_iff.mp listed
      rw [before] at reads
      rw [← Nat.zero_add a.normalise.byteLength] at outside
      obtain ⟨us, spaced, kept⟩ := reads.spaced outside ending beginning
      refine ⟨us, ?_, kept.trans words⟩
      rw [after]
      exact tokenize_eq_ok_iff.mpr spaced
  | @letter a c b d _ same ih =>
    obtain ⟨us, again, words⟩ := ih
    exact ⟨us, Text.normalise_letter a b same ▸ again, words⟩

theorem Reads.lower (reads : Reads edge start t ts) :
    ∀ w ∈ ts.map word, w.text.map Char.toLower = w.text := by
  intro w member
  obtain ⟨token, listed, rfl⟩ := List.mem_map.mp member
  obtain ⟨covered, rfl⟩ := reads
  obtain ⟨piece, inside, text, _⟩ := mem_ofPieces listed
  have lexical := (Piece.split_cut start t).lexical inside (covered piece inside)
  rw [word, text]
  exact lexical.lower

end Token

def Token.ReadAlike (ts : List Token) (t u : Text) : Prop :=
  ∃ us, tokenize u.normalise = .ok us ∧ us.map word = ts.map word ∧
    ∀ c, SameOutcome ts us (evaluate c t) (evaluate c u)

theorem Token.readAlike_of_words {t u : Text} {ts us : List Token}
    (read : tokenize t.normalise = .ok ts) (again : tokenize u.normalise = .ok us)
    (words : us.map word = ts.map word) : ReadAlike ts t u := by
  have kinds : ts.map kind = us.map kind := by
    have same := congrArg (List.map Word.kind) words.symm
    simpa [Function.comp_def, word] using same
  exact ⟨us, again, words, evaluate_of_kinds read again kinds⟩

-- Blanks between the tokens of an expression and the case of its letters do not matter,
-- nor does it when single spaces are put between its tokens and none elsewhere.
theorem spacing_is_free {t : Text} {ts : List Token} (read : Token.tokenize t.normalise = .ok ts) :
    (∀ u, Respelled t u → Token.ReadAlike ts t u) ∧
      Text.normalise ([' '].intercalate (ts.map Token.text)) = [' '].intercalate (ts.map Token.text) ∧
      Token.ReadAlike ts t ([' '].intercalate (ts.map Token.text)) := by
  have reads := Token.tokenize_eq_ok_iff.mp read
  have legible := reads.allLegible
  have joined : [' '].intercalate (ts.map Token.text) = Word.line (ts.map Token.word) := by
    rw [Word.line_eq_intercalate, List.map_map]
    rfl
  have plain : Text.normalise (Word.line (ts.map Token.word)) = Word.line (ts.map Token.word) := by
    by_cases empty : ts.map Token.word = []
    · rw [empty]
      rfl
    · exact (Word.written_line empty reads.lower).normalise legible.visible false
  rw [joined]
  refine ⟨fun u respelled => ?_, plain, ?_⟩
  · obtain ⟨us, again, words⟩ := Token.reads_respelled respelled read
    exact Token.readAlike_of_words read again words
  · have again := Token.tokenize_eq_ok_iff.mpr (legible.reads 0)
    rw [← plain] at again
    exact Token.readAlike_of_words read again (Word.place_words 0 _)

theorem spacing_is_free_tab :
    Token.tokenize (Text.normalise ['2', 'e']) =
        .ok [⟨['2'], 0, .number (Numeral.value ['2'])⟩, Operator.euler.token 1] ∧
      Respelled ['2', 'e'] ['2', '\t', 'E'] ∧
      Token.ReadAlike [⟨['2'], 0, .number (Numeral.value ['2'])⟩, Operator.euler.token 1]
        ['2', 'e'] ['2', '\t', 'E'] := by
  have number : Lexeme.first? (['2'] ++ ['e']) = some (.number, ['2']) := rfl
  have constant (start : Nat) : Token.Reads false start ['e'] [Operator.euler.token start] :=
    Token.reads_lexeme rfl rfl
  have read : Token.tokenize (Text.normalise ['2', 'e']) =
      .ok [⟨['2'], 0, .number (Numeral.value ['2'])⟩, Operator.euler.token 1] :=
    Token.tokenize_eq_ok_iff.mpr (Token.Reads.token number rfl (constant _))
  have outside : Token.Outside 1
      [⟨['2'], 0, .number (Numeral.value ['2'])⟩, Operator.euler.token 1] := by
    have width : '2'.utf8Size = 1 := rfl
    simp [Token.Outside, Operator.token, Token.span, Span.stop, Text.byteLength, width]
  have spaced : Respelled ['2', 'e'] ['2', '\t', 'e'] :=
    .blank (a := ['2']) (b := ['e']) .same read outside rfl
  have respelled : Respelled ['2', 'e'] ['2', '\t', 'E'] := .letter (a := ['2', '\t']) spaced rfl
  exact ⟨read, respelled, (spacing_is_free read).1 _ respelled⟩

end InfixCalculator
