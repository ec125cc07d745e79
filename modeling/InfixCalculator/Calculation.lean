import InfixCalculator.Operator.Application
import InfixCalculator.Token

namespace InfixCalculator

structure Stop where
  cause : Cause
  span : Option Span
deriving DecidableEq

namespace Engine

-- Both stacks have their top first. On `pending` are the operators that are not
-- applied yet and the parentheses that are not closed yet.
structure State where
  values : List Float
  pending : List Token

def start : State := ⟨[], []⟩

def perform (c : Context) (t : Token) (values : List Float) : Except Stop (List Float) :=
  match t.entry.apply c values with
  | .ok values => .ok values
  | .error refusal => .error ⟨.evaluation refusal.cause, some t.span⟩

def release (c : Context) (entering : Operator.Entry) :
    List Float → List Token → Except Stop State
  | values, [] => .ok ⟨values, []⟩
  | values, top :: below =>
    if entering.releases top.entry then
      match perform c top values with
      | .ok values => release c entering values below
      | .error stop => .error stop
    else .ok ⟨values, top :: below⟩

def unmatched (t : Token) : Stop := ⟨.parsing .unmatchedParentheses, some t.span⟩

def close (c : Context) (closing : Token) : List Float → List Token → Except Stop State
  | _, [] => .error (unmatched closing)
  | values, top :: below =>
    if top.operator? = some .openParen then .ok ⟨values, below⟩
    else
      match perform c top values with
      | .ok values => close c closing values below
      | .error stop => .error stop

def drain (c : Context) : List Float → List Token → Except Stop (List Float)
  | values, [] => .ok values
  | values, top :: below =>
    if top.operator? = some .openParen then .error (unmatched top)
    else
      match perform c top values with
      | .ok values => drain c values below
      | .error stop => .error stop

def push (t : Token) (s : State) : State := { s with pending := t :: s.pending }

def step (c : Context) (s : State) (t : Token) : Except Stop State :=
  match t.kind with
  | .number value => .ok { s with values := value :: s.values }
  | .operator .openParen => .ok (push t s)
  | .operator .closeParen => close c t s.values s.pending
  | .operator o => (release c o.entry s.values s.pending).map (push t)

def steps (c : Context) : State → List Token → Except Stop State
  | s, [] => .ok s
  | s, t :: rest =>
    match step c s t with
    | .ok next => steps c next rest
    | .error stop => .error stop

def outcome : List Float → Except Stop Float
  | [] => .error ⟨.parsing .emptyExpression, none⟩
  | [value] => .ok value
  | _ => .error ⟨.parsing .malformed, none⟩

def finish (c : Context) (s : State) : Except Stop Float :=
  match drain c s.values s.pending with
  | .ok values => outcome values
  | .error stop => .error stop

-- Each operator is applied as soon as it leaves the stack, so the first thing that goes wrong on the
-- way is the one reported.
def execute (c : Context) (ts : List Token) : Except Stop Float :=
  match steps c start ts with
  | .ok s => finish c s
  | .error stop => .error stop

end Engine

structure Trace where
  normalised : Text := []
  listing : Text := []
deriving DecidableEq

structure Calculation where
  value : Float
  trace : Trace

namespace Failure

def ofHole (expression : Text) (hole : Span) : Failure :=
  ⟨.parsing .malformed, expression, some hole⟩

def ofStop (expression : Text) (stop : Stop) : Failure := ⟨stop.cause, expression, stop.span⟩

end Failure

def calculate (c : Context) (expression : Text) : Except Failure Calculation :=
  let normalised := expression.normalise
  match Token.tokenize normalised with
  | .error hole => .error (.ofHole normalised hole)
  | .ok tokens =>
    match Engine.execute c tokens with
    | .error stop => .error (.ofStop normalised stop)
    | .ok value => .ok ⟨value, normalised, Token.listing tokens⟩

def evaluate (c : Context) (expression : Text) : Except Failure Float :=
  (calculate c expression).map Calculation.value

def evaluateFrom (current : Float) (unit : AngleUnit) (expression : Text) : Except Failure Float :=
  evaluate ⟨unit, some current⟩ expression

def trace (expression : Text) : Except Failure Trace :=
  let normalised := expression.normalise
  match Token.tokenize normalised with
  | .error hole => .error (.ofHole normalised hole)
  | .ok tokens => .ok ⟨normalised, Token.listing tokens⟩

end InfixCalculator
