import InfixCalculator.Desk.Keypad
import InfixCalculator.Proofs.Joints
import InfixCalculator.Proofs.Tiling

namespace InfixCalculator

def Trigonometric.operator : Trigonometric → Operator
  | sine => .sine
  | cosine => .cosine
  | tangent => .tangent
  | cosecant => .cosecant
  | secant => .secant
  | cotangent => .cotangent

-- What a key beside the entry writes, behind an edge or behind an operand. Digits, the
-- point and the exponent are no operators.
def Key.operators (edge : Bool) : Key → List Operator
  | openParen => [.openParen]
  | closeParen => [.closeParen]
  | add => [if edge then .plusSign else .add]
  | subtract => [if edge then .minusSign else .subtract]
  | multiply => [.multiply]
  | divide => [.divide]
  | power => [.power]
  | percentage => [.percentage]
  | times => [.times]
  | function f => [f.operator, .openParen]
  | pi => [.pi]
  | euler => [.euler]
  | tau => [.tau]
  | digit _ | point | exponent => []

def Operator.tokens : (position : Nat) → List Operator → List Token
  | _, [] => []
  | position, o :: rest => o.token position :: tokens (position + o.symbol.byteLength) rest

namespace Key

variable {key : Key}

theorem reads_text (listed : key ∈ row) (edge : Bool) (start : Nat) :
    Token.Reads edge start key.text (Operator.tokens start (key.operators edge)) := by
  cases key with
  | digit | point | exponent => simp [row, Trigonometric.all] at listed
  | function f =>
    have paren (edge : Bool) (start : Nat) : Token.Reads edge start ['('] [Operator.openParen.token start] :=
      Token.reads_lexeme rfl rfl
    have name : Lexeme.first? (f.operator.symbol ++ ['(']) = some (.fixed f.operator, f.operator.symbol) := by
      cases f <;> rfl
    have written : text (function f) = f.operator.symbol ++ ['('] := by cases f <;> rfl
    rw [written]
    exact Token.Reads.token name rfl (paren _ _)
  | add | subtract => cases edge <;> exact Token.reads_lexeme rfl rfl
  | _ => exact Token.reads_lexeme rfl rfl

structure Plain (key : Key) : Prop where
  visible : key.text.Visible
  lower : key.text.map Char.toLower = key.text
  begins : ∃ c tail, key.text = c :: tail ∧ c.isDigit = false ∧ c ≠ ' '

theorem plain (listed : key ∈ row) : key.Plain := by
  cases key with
  | digit | point | exponent => simp [row, Trigonometric.all] at listed
  | function f => cases f <;> exact ⟨by decide, rfl, _, _, rfl, rfl, by decide⟩
  | _ => exact ⟨by decide, rfl, _, _, rfl, rfl, by decide⟩

theorem Plain.head (plain : key.Plain) : ∀ c ∈ key.text.head?, c.isDigit = false ∧ c ≠ ' ' := by
  obtain ⟨c, tail, text, begins⟩ := plain.begins
  simpa [text] using begins

theorem Plain.normaliseFrom (plain : key.Plain) (afterBlank : Bool) :
    Text.normaliseFrom afterBlank key.text = key.text := by
  rw [Text.normaliseFrom_visible plain.visible, plain.lower]

theorem Plain.normaliseFrom_space (plain : key.Plain) (afterBlank : Bool) :
    Text.normaliseFrom afterBlank (key.text ++ [' ']) = key.text ++ [' '] := by
  obtain ⟨c, tail, text, _⟩ := plain.begins
  have nonempty : key.text ≠ [] := by simp [text]
  rw [Text.normaliseFrom_append, plain.normaliseFrom, Text.blankAfter_visible plain.visible nonempty]
  rfl

theorem closing_mark (closing : key.spacing = .closing) :
    ∀ c ∈ key.text.head?, c ∈ Lexeme.marks ∧ c ∉ ['+', '-'] := by
  cases key <;> first | contradiction | simp [text, Lexeme.marks]

end Key

namespace Text

variable {t : Text}

theorem tokenize_dropTrailingSpaces {ts : List Token} :
    Token.tokenize t.dropTrailingSpaces.normalise = .ok ts ↔ Token.tokenize t.normalise = .ok ts := by
  induction t using List.reverseRecOn with
  | nil => exact Iff.rfl
  | append_singleton t c ih =>
    by_cases space : c = ' '
    · subst space
      rw [dropTrailingSpaces, dropTrailing_append (by rfl), Token.tokenize_space]
      exact ih
    · rw [dropTrailingSpaces, dropTrailing_kept (by simpa using space)]

theorem isWhiteSpace_printable {c : Char} (low : 33 ≤ c.toNat) (high : c.toNat ≤ 126) :
    isWhiteSpace c = false := by
  simp only [isWhiteSpace, Bool.or_eq_false_iff, Bool.and_eq_false_iff, decide_eq_false_iff_not,
    beq_eq_false_iff_ne]
  omega

theorem isAlphanum_capital {c : Char} (low : 65 ≤ c.toNat) (high : c.toNat ≤ 90) :
    c.isAlphanum = true := by
  have upper : c.isUpper = true :=
    decide_eq_true ⟨UInt32.le_iff_toNat_le.mpr low, UInt32.le_iff_toNat_le.mpr high⟩
  have letter : c.isAlpha = true := Bool.or_eq_true_iff.mpr (.inl upper)
  exact Bool.or_eq_true_iff.mpr (.inl letter)

end Text

namespace Lexeme

theorem printable_of_letter {c : Char} (letter : c.toLower.isDigit = true ∨ c.toLower ∈ letters)
    (visible : Text.isBlank c = false) :
    Text.isWhiteSpace c = false ∧ (c.isAlphanum = false → c.toLower ∈ '.' :: marks) := by
  rcases Text.toLower_cases c with same | ⟨low, high, _⟩
  · rw [same] at letter ⊢
    rcases letter with digit | listed
    · have bounds := Numeral.digit_iff.mp digit
      refine ⟨Text.isWhiteSpace_printable (by omega) (by omega), fun other => ?_⟩
      simp [Char.isAlphanum, digit] at other
    · have all : ∀ c ∈ letters, c = ' ' ∨ (33 ≤ c.toNat ∧ c.toNat ≤ 126) ∧
          (c.isAlphanum = false → c ∈ '.' :: marks) := by
        simp [letters, marks]
      rcases all c listed with rfl | ⟨⟨low, high⟩, marked⟩
      · cases visible
      · exact ⟨Text.isWhiteSpace_printable low high, marked⟩
  · refine ⟨Text.isWhiteSpace_printable (by omega) (by omega), fun other => ?_⟩
    rw [Text.isAlphanum_capital low high] at other
    cases other

end Lexeme

namespace Text

variable {t : Text} {ts : List Token}

theorem printable_of_read (read : Token.tokenize t.normalise = .ok ts) {c : Char} (member : c ∈ t)
    (visible : isBlank c = false) :
    isWhiteSpace c = false ∧ (c.isAlphanum = false → c.toLower ∈ '.' :: Lexeme.marks) := by
  have reads := Token.tokenize_eq_ok_iff.mp read
  have spelled := (Piece.split_cut 0 t.normalise).spelled reads.covered
  have letter := spelled.mem_letters _ (mem_normaliseFrom member visible false)
  exact Lexeme.printable_of_letter letter visible

structure Receives (t : Text) (ts : List Token) (rest : Text) : Prop where
  read : Token.tokenize t.normalise = .ok ts
  parted : t.normalise.PartedFrom rest

variable {rest : Text}

theorem receives_blank (read : Token.tokenize t.normalise = .ok ts) (ends : blankAfter false t = true)
    (begins : ∀ d ∈ rest.head?, d ≠ ' ') : t.Receives ts rest := by
  refine ⟨read, fun c last d head => ?_⟩
  obtain ⟨stem, _, same⟩ := exists_stem t
  have space : c = ' ' := by simpa [same, ends] using last.symm
  exact Lexeme.parted_space (iff_of_true space (begins d head))

theorem receives_space (read : Token.tokenize t.normalise = .ok ts)
    (begins : ∀ d ∈ rest.head?, d ≠ ' ') : (t ++ [' ']).Receives ts rest :=
  receives_blank (Token.tokenize_space.mpr read) (blankAfter_space t) begins

theorem receives_white (read : Token.tokenize t.normalise = .ok ts) (ends : t.endsInWhiteSpace = true)
    (begins : ∀ d ∈ rest.head?, d ≠ ' ') : t.Receives ts rest := by
  refine receives_blank read ?_ begins
  cases t using List.reverseRecOn with
  | nil => cases ends
  | append_singleton front c =>
    by_contra visible
    have blank : isBlank c = false := by simpa [blankAfter] using visible
    obtain ⟨shown, _⟩ := printable_of_read read (by simp) blank
    simp [endsInWhiteSpace, shown] at ends

theorem receives_edge (read : Token.tokenize t.normalise = .ok ts) (ends : t.endsOperand = false)
    (begins : ∀ d ∈ rest.head?, d.isDigit = false ∧ d ≠ ' ') : t.Receives ts rest := by
  cases t using List.reverseRecOn with
  | nil => exact ⟨read, by simp [PartedFrom, normalise, normaliseFrom]⟩
  | append_singleton front c =>
    cases blank : isBlank c with
    | true => exact receives_blank read (by simp [blankAfter, blank]) fun d head => (begins d head).2
    | false =>
      obtain ⟨shown, marked⟩ := printable_of_read read (by simp) blank
      have visible : lastVisible? (front ++ [c]) = some c := by simp [lastVisible?, shown]
      have last : (normalise (front ++ [c])).getLast? = some c.toLower := by
        simp [normalise, normaliseFrom_append, normaliseFrom, blank]
      have other : c.isAlphanum = false := by
        simp only [endsOperand, visible, Option.any_some, Bool.or_eq_false_iff] at ends
        exact ends.1
      refine ⟨read, fun d ending e head => ?_⟩
      rw [last] at ending
      cases ending
      exact Lexeme.parted_behind_mark (marked other) (begins e head).1

theorem receives_mark (read : Token.tokenize t.normalise = .ok ts)
    (begins : ∀ d ∈ rest.head?, d ∈ Lexeme.marks ∧ d ∉ ['+', '-']) : t.Receives ts rest := by
  refine ⟨read, fun c _ d head => ?_⟩
  obtain ⟨mark, unsigned⟩ := begins d head
  exact Lexeme.parted_before_mark c mark unsigned

-- One rule of spacing after the other: the key is written behind a text that receives it.
theorem insert_received {key : Key} (listed : key ∈ Key.row)
    (read : Token.tokenize t.normalise = .ok ts) :
    ∃ u, u.Receives ts key.text ∧
      (t.insert key = u ++ key.text ∨ t.insert key = u ++ key.text ++ [' ']) := by
  have head := (Key.plain listed).head
  have begins : ∀ d ∈ key.text.head?, d ≠ ' ' := fun d member => (head d member).2
  cases spacing : key.spacing with
  | joined =>
    have other : ∀ key ∈ Key.row, key.spacing ≠ .joined := by decide
    exact absurd spacing (other key listed)
  | closing =>
    refine ⟨t.dropTrailingSpaces, receives_mark ?_ (Key.closing_mark spacing), .inl ?_⟩
    · exact tokenize_dropTrailingSpaces.mpr read
    · rw [insert, spacing]
  | opening =>
    cases ends : t.endsOperand with
    | true => exact ⟨t ++ [' '], receives_space read begins, .inl (by simp [insert, spacing, ends])⟩
    | false => exact ⟨t, receives_edge read ends head, .inl (by simp [insert, spacing, ends])⟩
  | word =>
    cases white : t.endsInWhiteSpace with
    | true => exact ⟨t, receives_white read white begins, .inl (by simp [insert, spacing, white])⟩
    | false =>
      cases ends : t.endsOperand with
      | true => exact ⟨t ++ [' '], receives_space read begins, .inl (by simp [insert, spacing, white, ends])⟩
      | false => exact ⟨t, receives_edge read ends head, .inl (by simp [insert, spacing, ends])⟩
  | surrounded =>
    have dropped := tokenize_dropTrailingSpaces.mpr read
    by_cases empty : t.dropTrailingSpaces = []
    · rw [empty] at dropped
      exact ⟨[], receives_edge dropped rfl head, .inr (by simp [insert, spacing, empty])⟩
    · exact ⟨_, receives_space dropped begins, .inr (by simp [insert, spacing, empty])⟩

end Text

-- A key beside the entry leaves the tokens of what was read before, and adds its own behind
-- them. Plus and minus are signs at an edge.
theorem key_appends_tokens {t : Text} {ts : List Token} {key : Key} (listed : key ∈ Key.row)
    (read : Token.tokenize t.normalise = .ok ts) :
    Token.tokenize key.text = .ok (Operator.tokens 0 (key.operators true)) ∧
      ∃ edge front back, (edge = true ↔ Token.AtEdge ts) ∧
        (t.insert key).normalise = front ++ key.text ++ back ∧
        Token.tokenize (t.insert key).normalise =
          .ok (ts ++ Operator.tokens front.byteLength (key.operators edge)) := by
  refine ⟨Token.tokenize_eq_ok_iff.mpr (Key.reads_text listed true 0), Token.edgeAfter true ts, ?_⟩
  obtain ⟨u, ⟨again, parted⟩, inserted⟩ := Text.insert_received listed read
  have plain := Key.plain listed
  have written : (u ++ key.text).normalise = u.normalise ++ key.text := by
    rw [Text.normalise, Text.normaliseFrom_append, plain.normaliseFrom]
    rfl
  have added : Token.tokenize (u ++ key.text).normalise =
      .ok (ts ++ Operator.tokens u.normalise.byteLength (key.operators (Token.edgeAfter true ts))) := by
    have reads := Token.tokenize_eq_ok_iff.mp again
    have whole := reads.joined parted (Key.reads_text listed _ _)
    rw [Nat.zero_add, ← written] at whole
    exact Token.tokenize_eq_ok_iff.mpr whole
  rcases inserted with same | same
  · refine ⟨u.normalise, [], (Token.atEdge_iff ts).symm, ?_, same ▸ added⟩
    rw [same, written, List.append_nil]
  · refine ⟨u.normalise, [' '], (Token.atEdge_iff ts).symm, ?_, same ▸ Token.tokenize_space.mpr added⟩
    rw [same, List.append_assoc, Text.normalise, Text.normaliseFrom_append, plain.normaliseFrom_space,
      List.append_assoc]
    rfl

theorem key_appends_tokens_exponent :
    Token.tokenize (Text.normalise ['2', 'E', '+']) =
        .ok [⟨['2'], 0, .number (Numeral.value ['2'])⟩, Operator.euler.token 1, Operator.plusSign.token 2] ∧
      Key.function .sine ∈ Key.row ∧
      ∃ edge front back,
        (edge = true ↔ Token.AtEdge [⟨['2'], 0, .number (Numeral.value ['2'])⟩,
          Operator.euler.token 1, Operator.plusSign.token 2]) ∧
        (Text.insert (.function .sine) ['2', 'E', '+']).normalise =
          front ++ ['s', 'i', 'n', '('] ++ back ∧
        Token.tokenize (Text.insert (.function .sine) ['2', 'E', '+']).normalise =
          .ok ([⟨['2'], 0, .number (Numeral.value ['2'])⟩, Operator.euler.token 1,
            Operator.plusSign.token 2] ++ Operator.tokens front.byteLength [.sine, .openParen]) := by
  have number : Lexeme.first? (['2'] ++ ['e', '+']) = some (.number, ['2']) := rfl
  have constant : Lexeme.first? (['e'] ++ ['+']) = some (.fixed .euler, ['e']) := rfl
  have sign (start : Nat) : Token.Reads true start ['+'] [Operator.plusSign.token start] :=
    Token.reads_lexeme rfl rfl
  have read : Token.tokenize (Text.normalise ['2', 'E', '+']) =
      .ok [⟨['2'], 0, .number (Numeral.value ['2'])⟩, Operator.euler.token 1,
        Operator.plusSign.token 2] :=
    Token.tokenize_eq_ok_iff.mpr (Token.Reads.token number rfl (Token.Reads.token constant rfl (sign _)))
  have listed : Key.function .sine ∈ Key.row := by decide
  exact ⟨read, listed, (key_appends_tokens listed read).2⟩

end InfixCalculator
