import InfixCalculator.Binary64
import InfixCalculator.Failure
import InfixCalculator.Operator

namespace InfixCalculator

namespace Constant

def euler : Float := Float.ofBits 0x4005BF0A8B145769

def pi : Float := Float.ofBits 0x400921FB54442D18

def tau : Float := Float.ofBits 0x401921FB54442D18

end Constant

inductive AngleUnit
  | degrees
  | radians
deriving DecidableEq

def AngleUnit.toRadians : AngleUnit → Float → Float
  | .degrees, angle => angle * (Constant.pi / 180)
  | .radians, angle => angle

inductive Trigonometric
  | sine
  | cosine
  | tangent
  | cosecant
  | secant
  | cotangent
deriving DecidableEq

namespace Trigonometric

def all : List Trigonometric := [sine, cosine, tangent, cosecant, secant, cotangent]

def name : Trigonometric → Text
  | sine => ['s', 'i', 'n']
  | cosine => ['c', 'o', 's']
  | tangent => ['t', 'a', 'n']
  | cosecant => ['c', 's', 'c']
  | secant => ['s', 'e', 'c']
  | cotangent => ['c', 'o', 't']

def apply : Trigonometric → Float → Float
  | sine, x => x.sin
  | cosine, x => x.cos
  | tangent, x => x.tan
  | cosecant, x => 1 / x.sin
  | secant, x => 1 / x.cos
  | cotangent, x => 1 / x.tan

end Trigonometric

structure Context where
  unit : AngleUnit := .degrees
  current : Option Float := none

-- A current value that is no number counts as absent.
def Context.currentValue (c : Context) : Except EvaluationCause Float :=
  match c.current with
  | some v => if Binary64.isNaN v then .error .currentValueExpected else .ok v
  | none => .error .currentValueExpected

def quotient (a b : Float) : Except EvaluationCause Float :=
  if b == 0 then .error .divisionByZero else .ok (a / b)

-- A negative base has no real power with a fractional exponent. An exponent that is
-- not finite has no fraction.
def realPower (a b : Float) : Except EvaluationCause Float :=
  if a < 0 && Binary64.isFinite b && Binary64.hasFraction b then .error .imaginaryNumber
  else .ok (a.pow b)

inductive Action
  | refused
  | constant (value : Float)
  | unary (f : Context → Float → Except EvaluationCause Float)
  | binary (f : Float → Float → Except EvaluationCause Float)

namespace Action

def function (f : Trigonometric) : Action :=
  .unary fun c v => .ok (f.apply (c.unit.toRadians v))

def operands : Action → Nat
  | refused => 0
  | constant _ => 0
  | unary _ => 1
  | binary _ => 2

end Action

namespace Operator

def action : Operator → Action
  | openParen => .refused
  | closeParen => .refused
  | add => .binary fun a b => .ok (a + b)
  | subtract => .binary fun a b => .ok (a - b)
  | multiply => .binary fun a b => .ok (a * b)
  | divide => .binary quotient
  | percentage => .unary fun c v => c.currentValue.map fun current => v * current / 100
  | times => .unary fun c v => c.currentValue.map fun current => v * current
  | sine => .function .sine
  | cosine => .function .cosine
  | tangent => .function .tangent
  | cosecant => .function .cosecant
  | secant => .function .secant
  | cotangent => .function .cotangent
  | power => .binary realPower
  | minusSign => .unary fun _ v => .ok (-v)
  | plusSign => .unary fun _ v => .ok v
  | euler => .constant Constant.euler
  | pi => .constant Constant.pi
  | tau => .constant Constant.tau
  | unknown => .refused

end Operator

structure Refusal where
  cause : EvaluationCause
  stack : List Float

namespace Action

-- The stack has its top first, so the right operand comes off before the left.
-- Operands that are taken off stay off when the operation then fails.
def apply (c : Context) : Action → List Float → Except Refusal (List Float)
  | refused, stack => .error ⟨.unexpectedToken, stack⟩
  | constant value, stack => .ok (value :: stack)
  | unary f, v :: below =>
    match f c v with
    | .ok result => .ok (result :: below)
    | .error cause => .error ⟨cause, below⟩
  | binary f, b :: a :: below =>
    match f a b with
    | .ok result => .ok (result :: below)
    | .error cause => .error ⟨cause, below⟩
  | unary _, [] => .error ⟨.missingArguments, []⟩
  | binary _, _ => .error ⟨.missingArguments, []⟩

end Action

def Operator.Entry.apply (e : Operator.Entry) (c : Context) (stack : List Float) :
    Except Refusal (List Float) :=
  if stack.length < e.arity then .error ⟨.missingArguments, stack⟩
  else e.operator.action.apply c stack

end InfixCalculator
