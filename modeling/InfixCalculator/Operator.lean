import InfixCalculator.Text

namespace InfixCalculator

-- A sign and the binary operator written alike are two operators. Parentheses have a row in the
-- table but are never applied; `unknown` is what no text stands for.
inductive Operator
  | openParen
  | closeParen
  | add
  | subtract
  | multiply
  | divide
  | percentage
  | times
  | sine
  | cosine
  | tangent
  | cosecant
  | secant
  | cotangent
  | power
  | minusSign
  | plusSign
  | euler
  | pi
  | tau
  | unknown
deriving DecidableEq

inductive Associativity
  | none
  | left
  | right
deriving DecidableEq

namespace Operator

structure Entry where
  operator : Operator
  associativity : Associativity
  precedence : Int
  arity : Nat
  name : Text
deriving DecidableEq

def entry : Operator → Entry
  | openParen => ⟨openParen, .none, 0, 0, ['(']⟩
  | closeParen => ⟨closeParen, .none, 0, 0, [')']⟩
  | add => ⟨add, .left, 10, 2, ['a', 'd', 'd']⟩
  | subtract => ⟨subtract, .left, 10, 2, ['s', 'u', 'b']⟩
  | multiply => ⟨multiply, .left, 20, 2, ['m', 'u', 'l']⟩
  | divide => ⟨divide, .left, 20, 2, ['d', 'i', 'v']⟩
  | percentage => ⟨percentage, .left, 30, 1, ['%']⟩
  | times => ⟨times, .left, 30, 1, ['x']⟩
  | sine => ⟨sine, .right, 40, 1, ['s', 'i', 'n']⟩
  | cosine => ⟨cosine, .right, 40, 1, ['c', 'o', 's']⟩
  | tangent => ⟨tangent, .right, 40, 1, ['t', 'a', 'n']⟩
  | cosecant => ⟨cosecant, .right, 40, 1, ['c', 's', 'c']⟩
  | secant => ⟨secant, .right, 40, 1, ['s', 'e', 'c']⟩
  | cotangent => ⟨cotangent, .right, 40, 1, ['c', 'o', 't']⟩
  | power => ⟨power, .right, 90, 2, ['e', 'x', 'p']⟩
  | minusSign => ⟨minusSign, .right, 100, 1, ['n', 'e', 'g']⟩
  | plusSign => ⟨plusSign, .right, 100, 1, ['p', 'o', 's']⟩
  | euler => ⟨euler, .left, 200, 0, ['e']⟩
  | pi => ⟨pi, .left, 200, 0, ['p', 'i']⟩
  | tau => ⟨tau, .left, 200, 0, ['t', 'a', 'u']⟩
  | unknown => ⟨unknown, .none, -1, 0, ['?']⟩

def all : List Operator :=
  [openParen, closeParen, add, subtract, multiply, divide, percentage, times, sine, cosine, tangent,
    cosecant, secant, cotangent, power, minusSign, plusSign, euler, pi, tau, unknown]

def index (o : Operator) : Nat := all.idxOf o

-- Whether the operator that waits on top of the stack is applied before this one
-- is put there. Equals are applied from the left or from the right.
def Entry.releases (entering waiting : Entry) : Bool :=
  match entering.associativity with
  | .left => entering.precedence ≤ waiting.precedence
  | .right => entering.precedence < waiting.precedence
  | .none => false

end Operator

end InfixCalculator
