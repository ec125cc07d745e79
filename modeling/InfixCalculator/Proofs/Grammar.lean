import InfixCalculator.Calculation
import InfixCalculator.Proofs.Application
import InfixCalculator.Proofs.Words

namespace InfixCalculator

def Operator.symbol : Operator → Text
  | openParen => ['(']
  | closeParen => [')']
  | add | plusSign => ['+']
  | subtract | minusSign => ['-']
  | multiply => ['*']
  | divide => ['/']
  | percentage => ['%']
  | times => ['x']
  | sine => ['s', 'i', 'n']
  | cosine => ['c', 'o', 's']
  | tangent => ['t', 'a', 'n']
  | cosecant => ['c', 's', 'c']
  | secant => ['s', 'e', 'c']
  | cotangent => ['c', 'o', 't']
  | power => ['^']
  | euler => ['e']
  | pi => ['p', 'i']
  | tau => ['t', 'a', 'u']
  | unknown => []

def Operator.fits (edge : Bool) : Operator → Bool
  | add | subtract => !edge
  | plusSign | minusSign => edge
  | unknown => false
  | _ => true

def Operator.word (o : Operator) : Word := ⟨o.symbol, .operator o⟩

def Operator.token (o : Operator) (position : Nat) : Token := ⟨o.symbol, position, .operator o⟩

theorem Word.place_operator (o : Operator) (position : Nat) (rest : List Word) :
    place position (o.word :: rest) =
      o.token position :: place (position + breadth [o.word]) rest := rfl

def Numeral.word (t : Text) : Word := ⟨t, .number (Numeral.value t)⟩

inductive Expression
  | number (text : Text)
  | constant (operator : Operator)
  | enclosed (inner : Expression)
  | before (operator : Operator) (operand : Expression)
  | behind (operator : Operator) (operand : Expression)
  | between (operator : Operator) (left right : Expression)

inductive Level
  | sum
  | product
  | relative
  | function
  | power
  | sign
  | atom

def Level.operators : Level → List Operator
  | sum => [.add, .subtract]
  | product => [.multiply, .divide]
  | relative => [.percentage, .times]
  | function => [.sine, .cosine, .tangent, .cosecant, .secant, .cotangent]
  | power => [.power]
  | sign => [.plusSign, .minusSign]
  | atom => [.euler, .pi, .tau]

def Level.place : Level → Place
  | sum | product | power => .between
  | relative => .behind
  | function | sign => .before
  | atom => .alone

theorem Level.operator_place {level : Level} {o : Operator} (listed : o ∈ level.operators) :
    o.place? = some level.place := by
  revert o
  cases level <;> decide

theorem Level.not_parenthesis {level : Level} {o : Operator} (listed : o ∈ level.operators) :
    o ≠ .openParen ∧ o ≠ .closeParen :=
  Operator.not_parenthesis_of_place (Level.operator_place listed)

namespace Expression

-- Whether the last word completes an operand. Where it does not, plus and minus
-- would be signs.
def closed : Expression → Bool
  | number _ => true
  | constant _ => false
  | enclosed _ => true
  | before _ operand => operand.closed
  | behind _ _ => false
  | between _ _ right => right.closed

def words : Expression → List Word
  | number t => [Numeral.word t]
  | constant o => [o.word]
  | enclosed inner => Operator.openParen.word :: (inner.words ++ [Operator.closeParen.word])
  | before o operand => o.word :: operand.words
  | behind o operand => operand.words ++ [o.word]
  | between o left right => left.words ++ o.word :: right.words

def operate (c : Context) (o : Operator) (position : Nat) (operands : List Float) :
    Except Stop Float :=
  match o.entry.apply c operands with
  | .ok [value] => .ok value
  | .ok _ => .error ⟨.evaluation .unexpectedToken, some ⟨position, o.symbol.byteLength⟩⟩
  | .error refusal => .error ⟨.evaluation refusal.cause, some ⟨position, o.symbol.byteLength⟩⟩

-- Calculated from the leaves: the left operand, the right operand, then the operator. `position` is
-- where the first word starts.
def value (c : Context) : (position : Nat) → Expression → Except Stop Float
  | _, number t => .ok (Numeral.value t)
  | position, constant o => operate c o position []
  | position, enclosed inner => inner.value c (position + Word.breadth [Operator.openParen.word])
  | position, before o operand => do
    let v ← operand.value c (position + Word.breadth [o.word])
    operate c o position [v]
  | position, behind o operand => do
    let v ← operand.value c position
    operate c o (position + Word.breadth operand.words) [v]
  | position, between o left right => do
    let a ← left.value c position
    let b ← right.value c (position + Word.breadth left.words + Word.breadth [o.word])
    operate c o (position + Word.breadth left.words) [b, a]

end Expression

open Expression in
-- The grammar of the infix language. A binary plus or minus follows a number or a
-- parenthesis: after a constant, `%` or `x` it would be a sign.
inductive Derives : Level → Expression → Prop
  | sum : o ∈ Level.sum.operators → left.closed = true → Derives .sum left →
      Derives .product right → Derives .sum (between o left right)
  | ofProduct : Derives .product e → Derives .sum e
  | product : o ∈ Level.product.operators → Derives .product left → Derives .relative right →
      Derives .product (between o left right)
  | ofRelative : Derives .relative e → Derives .product e
  | relative : o ∈ Level.relative.operators → Derives .relative e → Derives .relative (behind o e)
  | ofFunction : Derives .function e → Derives .relative e
  | function : o ∈ Level.function.operators → Derives .function e → Derives .function (before o e)
  | ofPower : Derives .power e → Derives .function e
  | power : o ∈ Level.power.operators → Derives .sign left → Derives .power right →
      Derives .power (between o left right)
  | ofSign : Derives .sign e → Derives .power e
  | sign : o ∈ Level.sign.operators → Derives .sign e → Derives .sign (before o e)
  | ofAtom : Derives .atom e → Derives .sign e
  | number : Numeral.IsNumeral t → Derives .atom (number t)
  | constant : o ∈ Level.atom.operators → Derives .atom (constant o)
  | enclosed : Derives .sum e → Derives .atom (enclosed e)

namespace Numeral

theorem visible_of_digits {t : Text} (inside : ∀ c ∈ t, c.isDigit = true) : t.Visible := by
  have blank : ∀ b ∈ Text.blanks, b.isDigit = false := by simp [Text.blanks]
  intro c member
  cases shown : Text.isBlank c with
  | false => rfl
  | true =>
    have digit := inside c member
    rw [blank c (List.contains_iff_mem.mp shown)] at digit
    cases digit

theorem visible_of_isExponent {t : Text} (written : IsExponent t) : t.Visible := by
  cases written with
  | absent => simp [Text.Visible]
  | @present signed magnitude which grouped =>
    have signed : Text.Visible signed := by
      rcases which with rfl | rfl | rfl <;> decide
    have mark : Text.Visible ['e'] := by decide
    exact Text.visible_append (Text.visible_append mark signed)
      (visible_of_digits grouped.2)

theorem visible_of_isNumeral {t : Text} (written : IsNumeral t) : t.Visible := by
  obtain @⟨whole, point, last, power, inside, pointed, grouped, power⟩ := written
  have point : Text.Visible point := by
    rcases pointed with rfl | rfl <;> decide
  exact Text.visible_append (Text.visible_append (Text.visible_append (visible_of_digits inside)
    point) (visible_of_digits grouped.2)) (visible_of_isExponent power)

end Numeral

theorem Operator.visible_symbol (o : Operator) : o.symbol.Visible := by cases o <;> decide

namespace Word

theorem legible_number {t : Text} (written : Numeral.IsNumeral t) (edge : Bool) :
    (Numeral.word t).Legible edge where
  visible := Numeral.visible_of_isNumeral written
  lexeme := by
    refine ⟨.number, ?_, rfl⟩
    simp [Numeral.word, Lexeme.first?, Lexeme.number?, Numeral.scan?_of_isNumeral written]

theorem legible_digit (d : Char) (digit : d.isDigit = true) (edge : Bool) :
    (Numeral.word [d]).Legible edge :=
  legible_number (Numeral.IsDigits.isNumeral ⟨by simp, by simpa using digit⟩) edge

theorem legible_operator {o : Operator} {edge : Bool} (fits : o.fits edge = true) :
    o.word.Legible edge where
  visible := o.visible_symbol
  lexeme := by
    cases o with
    | unknown => cases fits
    | add | subtract => cases edge with
      | true => cases fits
      | false => exact ⟨_, rfl, rfl⟩
    | plusSign | minusSign => cases edge with
      | true => exact ⟨_, rfl, rfl⟩
      | false => cases fits
    | _ => exact ⟨_, rfl, rfl⟩

theorem AllLegible.operator {level : Level} {o : Operator} {edge : Bool} {rest : List Word}
    (listed : o ∈ level.operators) (fits : o.fits edge = true) (legible : AllLegible true rest) :
    AllLegible edge (o.word :: rest) := by
  have open_edge : ∀ o ∈ level.operators, (o != .closeParen) = true := by cases level <;> decide
  refine .cons (legible_operator fits) ?_
  rw [Operator.word, TokenKind.leavesEdge, open_edge o listed]
  exact legible

end Word

theorem Level.fits_edge {level : Level} {o : Operator} (listed : o ∈ level.operators)
    (other : level ≠ .sum) : o.fits true = true := by
  revert o
  cases level <;> first | contradiction | decide

theorem Level.fits_complete {level : Level} {o : Operator} (listed : o ∈ level.operators)
    (other : level ≠ .sign) : o.fits false = true := by
  revert o
  cases level <;> first | contradiction | decide

theorem Level.fits_both {level : Level} {o : Operator} (listed : o ∈ level.operators)
    (other : level ≠ .sum ∧ level ≠ .sign) (edge : Bool) : o.fits edge = true := by
  cases edge
  · exact fits_complete listed other.2
  · exact fits_edge listed other.1

theorem Derives.legible {level : Level} {e : Expression} (derived : Derives level e)
    {rest : List Word} (legible : Word.AllLegible (!e.closed) rest) :
    Word.AllLegible true (e.words ++ rest) := by
  induction derived generalizing rest with
  | ofProduct _ ih | ofRelative _ ih | ofFunction _ ih | ofPower _ ih | ofSign _ ih | ofAtom _ ih =>
    exact ih legible
  | number written => exact .cons (Word.legible_number written true) legible
  | constant listed => exact .operator listed (Level.fits_edge listed (by simp)) legible
  | function listed _ ih | sign listed _ ih =>
    exact .operator listed (Level.fits_edge listed (by simp)) (ih legible)
  | enclosed _ ih =>
    simp only [Expression.words, List.cons_append, List.append_assoc, List.nil_append]
    exact .cons (Word.legible_operator rfl) (ih (.cons (Word.legible_operator rfl) legible))
  | relative listed _ ih =>
    simp only [Expression.words, List.append_assoc, List.cons_append, List.nil_append]
    exact ih (.operator listed (Level.fits_both listed (by simp) _) legible)
  | sum listed closed _ _ before behind =>
    simp only [Expression.words, List.append_assoc, List.cons_append]
    refine before (.operator listed ?_ (behind legible))
    rw [closed]
    exact Level.fits_complete listed (by simp)
  | product listed _ _ before behind | power listed _ _ before behind =>
    simp only [Expression.words, List.append_assoc, List.cons_append]
    exact before (.operator listed (Level.fits_both listed (by simp) _) (behind legible))

end InfixCalculator
