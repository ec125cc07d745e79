import InfixCalculator.Lexeme

namespace InfixCalculator

structure Piece where
  position : Nat
  text : Text
  lexeme? : Option Lexeme

namespace Piece

def span (p : Piece) : Span := ⟨p.position, p.text.byteLength⟩

def isHole (p : Piece) : Bool := p.lexeme?.isNone

def next? : Text → Option (Option Lexeme × Text)
  | [] => none
  | c :: rest =>
    match Lexeme.first? (c :: rest) with
    | some (lexeme, text) => some (some lexeme, text)
    | none => some (none, Lexeme.hole (c :: rest))

theorem next?_shortens {t text : Text} {l : Option Lexeme} (found : next? t = some (l, text)) :
    (t.drop text.length).length < t.length := by
  cases t with
  | nil => cases found
  | cons c rest =>
    have taken : text ≠ [] := by
      simp only [next?] at found
      split at found
      · next starts => cases found; exact Lexeme.first?_ne_nil starts
      · next stuck => cases found; simp [Lexeme.hole, stuck]
    have := List.length_pos_iff.mpr taken
    simp only [List.length_drop, List.length_cons]
    omega

def split (position : Nat) (t : Text) : List Piece :=
  match found : next? t with
  | none => []
  | some (lexeme?, text) =>
    have := next?_shortens found
    ⟨position, text, lexeme?⟩ :: split (position + text.byteLength) (t.drop text.length)
termination_by t.length
decreasing_by assumption

def firstHole? (t : Text) : Option Span := ((split 0 t).find? isHole).map span

def check (t : Text) : Except Span Unit :=
  match firstHole? t with
  | some hole => .error hole
  | none => .ok ()

end Piece

inductive TokenKind
  | number (value : Float)
  | operator (operator : Operator)

structure Token where
  text : Text
  position : Nat
  kind : TokenKind

-- What a lexeme with this text counts as; spaces do not count. At an edge, where
-- no operand is complete on the left, plus and minus are signs.
def Lexeme.kind? (edge : Bool) (text : Text) : Lexeme → Option TokenKind
  | number => some (.number (Numeral.value text))
  | plus => some (.operator (if edge then .plusSign else .add))
  | minus => some (.operator (if edge then .minusSign else .subtract))
  | fixed operator => some (.operator operator)
  | space => none

-- Only a number or a closing parenthesis completes an operand. A constant, `%` and
-- `x` do not: the sign after them is no binary operator.
def TokenKind.leavesEdge : TokenKind → Bool
  | number _ => false
  | operator o => o != .closeParen

namespace Token

def span (t : Token) : Span := ⟨t.position, t.text.byteLength⟩

def operator? (t : Token) : Option Operator :=
  match t.kind with
  | .number _ => none
  | .operator o => some o

def entry (t : Token) : Operator.Entry := (t.operator?.getD .unknown).entry

def ofPieces : (edge : Bool) → List Piece → List Token
  | _, [] => []
  | edge, piece :: rest =>
    match piece.lexeme?.bind (Lexeme.kind? edge piece.text) with
    | some kind => ⟨piece.text, piece.position, kind⟩ :: ofPieces kind.leavesEdge rest
    | none => ofPieces edge rest

def tokenize (t : Text) : Except Span (List Token) :=
  match Piece.check t with
  | .error hole => .error hole
  | .ok () => .ok (ofPieces true (Piece.split 0 t))

def label (t : Token) : Text :=
  match t.kind with
  | .number _ => t.text
  | .operator o => o.entry.name

def listing (ts : List Token) : Text := [' '].intercalate (ts.map label)

end Token

end InfixCalculator
