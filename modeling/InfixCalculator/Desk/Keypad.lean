import InfixCalculator.Desk.Basic

namespace InfixCalculator

inductive Key
  | openParen
  | closeParen
  | add
  | subtract
  | multiply
  | divide
  | power
  | percentage
  | times
  | function (f : Trigonometric)
  | pi
  | euler
  | tau
  | digit (d : Fin 10)
  | point
  | exponent
deriving DecidableEq

inductive Spacing
  | joined
  | word
  | opening
  | surrounded
  | closing
deriving DecidableEq

namespace Key

def text : Key → Text
  | openParen => ['(']
  | closeParen => [')']
  | add => ['+']
  | subtract => ['-']
  | multiply => ['*']
  | divide => ['/']
  | power => ['^']
  | percentage => ['%']
  | times => ['x']
  | function f => f.name ++ ['(']
  | pi => ['p', 'i']
  | euler => ['e']
  | tau => ['t', 'a', 'u']
  | digit d => [Nat.digitChar d]
  | point => ['.']
  | exponent => ['e']

def label : Key → Text
  | function f => f.name
  | pi => ['π']
  | tau => ['τ']
  | exponent => ['E']
  | key => key.text

def spacing : Key → Spacing
  | openParen => .opening
  | closeParen => .closing
  | add => .surrounded
  | subtract => .surrounded
  | multiply => .surrounded
  | divide => .surrounded
  | power => .surrounded
  | percentage => .closing
  | times => .closing
  | function _ => .opening
  | pi => .word
  | euler => .word
  | tau => .word
  | digit _ => .joined
  | point => .joined
  | exponent => .joined

def row : List Key :=
  [openParen, closeParen, add, subtract, multiply, divide, power, percentage, times] ++
    Trigonometric.all.map function ++ [pi, euler, tau]

end Key

namespace Text

def endsOperand (t : Text) : Bool := t.lastVisible?.any fun c => c.isAlphanum || c == ')'

def insert (key : Key) (t : Text) : Text :=
  match key.spacing with
  | .joined => t ++ key.text
  | .closing => t.dropTrailingSpaces ++ key.text
  | .opening => (if t.endsOperand then t ++ [' '] else t) ++ key.text
  | .word => (if !t.endsInWhiteSpace && t.endsOperand then t ++ [' '] else t) ++ key.text
  | .surrounded =>
    let before := t.dropTrailingSpaces
    (if before.isEmpty then before else before ++ [' ']) ++ key.text ++ [' ']

def deletedWhole : List Text :=
  Trigonometric.all.map (fun f => f.name ++ ['(']) ++ [['t', 'a', 'u'], ['p', 'i']]

def dropLastSymbol (t : Text) : Text :=
  match deletedWhole.find? fun whole => whole.isSuffixOf t with
  | some whole => t.take (t.length - whole.length)
  | none => t.dropLast

def deleteLast (t : Text) : Text := t.dropTrailingSpaces.dropLastSymbol.dropTrailingSpaces

end Text

namespace Desk

def press (key : Key) (d : Desk) : Desk := d.setEntry (d.entry.insert key)

def delete (d : Desk) : Desk := d.setEntry d.entry.deleteLast

end Desk

end InfixCalculator
