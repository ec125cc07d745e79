import InfixCalculator.Proofs.LexicalGrammar

namespace InfixCalculator

def Token.word (t : Token) : Word := ⟨t.text, t.kind⟩

theorem Word.place_words (position : Nat) (words : List Word) :
    (place position words).map Token.word = words := by
  induction words generalizing position with
  | nil => rfl
  | cons w rest ih => simp only [place, List.map_cons, Token.word, ih]

-- The words that a text can hold behind an edge or behind an operand: numerals, and
-- operators as they are written, where they fit.
inductive Word.Proper (edge : Bool) : Word → Prop
  | number : Numeral.IsNumeral t → Proper edge (Numeral.word t)
  | operator : Operator.fits edge o = true → Proper edge (Operator.word o)

theorem Word.Proper.legible {edge : Bool} {w : Word} (proper : w.Proper edge) : w.Legible edge := by
  cases proper with
  | number written => exact Word.legible_number written edge
  | operator fits => exact Word.legible_operator fits

theorem Word.proper_symbol {edge : Bool} {text : Text} {o : Operator} (symbol : text = o.symbol)
    (fits : o.fits edge = true) : Word.Proper edge ⟨text, .operator o⟩ := by
  subst symbol
  exact .operator fits

theorem Word.Legible.unique {edge : Bool} {first second : Word} (legible : first.Legible edge)
    (other : second.Legible edge) (same : first.text = second.text) : first = second := by
  obtain ⟨text, kind⟩ := first
  obtain ⟨_, later⟩ := second
  cases same
  obtain ⟨l, found, counts⟩ := legible.lexeme
  obtain ⟨_, again, recounts⟩ := other.lexeme
  cases found.symm.trans again
  cases counts.symm.trans recounts
  rfl

theorem Word.Proper.kind_iff {edge : Bool} {w : Word} (proper : w.Proper edge) (o : Operator) :
    w.kind = .operator o ↔ w.text = o.symbol ∧ o.fits edge = true := by
  constructor
  · intro kind
    cases proper with
    | number => cases kind
    | operator fits => cases kind; exact ⟨rfl, fits⟩
  · rintro ⟨text, fits⟩
    rw [proper.legible.unique (Word.legible_operator fits) text]
    rfl

namespace Lexeme

theorem mark_proper {c : Char} {l : Lexeme} {edge : Bool} {kind : TokenKind} (marked : mark c = some l)
    (counts : l.kind? edge [c] = some kind) : Word.Proper edge ⟨[c], kind⟩ := by
  unfold mark at marked
  split at marked <;> cases marked <;> cases counts <;> cases edge <;>
    exact Word.proper_symbol rfl rfl

theorem word_proper {text : Text} {o : Operator} (listed : (text, o) ∈ words) (edge : Bool) :
    Word.Proper edge ⟨text, .operator o⟩ := by
  have written : ∀ word ∈ words, word.1 = word.2.symbol ∧ word.2.fits edge = true := by
    cases edge <;> decide
  obtain ⟨symbol, fits⟩ := written _ listed
  exact Word.proper_symbol symbol fits

theorem proper_of_first? {t text : Text} {l : Lexeme} {edge : Bool} {kind : TokenKind}
    (found : first? t = some (l, text)) (counts : l.kind? edge text = some kind) :
    Word.Proper edge ⟨text, kind⟩ := by
  cases found_of_first? found with
  | number scanned =>
    cases counts
    exact .number (Numeral.isNumeral_of_scan? scanned)
  | mark _ marked => exact mark_proper marked counts
  | word _ _ listed =>
    cases counts
    exact word_proper listed edge
  | space => cases counts

end Lexeme

namespace Token

variable {edge : Bool} {start : Nat} {t : Text} {tokens before after : List Token} {token : Token}

theorem Reads.proper (reads : Reads edge start t tokens) (parts : tokens = before ++ token :: after) :
    token.word.Proper (edgeAfter edge before) := by
  obtain ⟨piece, listed, text, _, l, found, counts⟩ := ofPieces_middle (reads.listed.trans parts)
  obtain ⟨rest, first⟩ := (Piece.split_cut start t).lexeme listed found
  rw [word, text]
  exact Lexeme.proper_of_first? first counts

theorem Reads.proper_of_mem (reads : Reads edge start t tokens) (member : token ∈ tokens) :
    ∃ left, token.word.Proper left := by
  obtain ⟨before, after, parts⟩ := List.append_of_mem member
  exact ⟨_, reads.proper parts⟩

theorem allLegible_of_proper
    (proper : ∀ before token after, tokens = before ++ token :: after →
      token.word.Proper (edgeAfter edge before)) : Word.AllLegible edge (tokens.map word) := by
  induction tokens generalizing edge with
  | nil => exact .nil
  | cons token tokens ih =>
    refine .cons (proper [] token tokens rfl).legible (ih fun before later after parts => ?_)
    have behind := proper (token :: before) later after (congrArg (token :: ·) parts)
    rwa [edgeAfter_cons] at behind

theorem Reads.allLegible (reads : Reads edge start t tokens) :
    Word.AllLegible edge (tokens.map word) :=
  allLegible_of_proper fun _ _ _ parts => reads.proper parts

end Token

end InfixCalculator
