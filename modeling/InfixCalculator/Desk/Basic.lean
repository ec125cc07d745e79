import InfixCalculator.Calculation
import InfixCalculator.Display

namespace InfixCalculator

structure Notice where
  message : Text
  expression : Text
  underline : Text
deriving DecidableEq

def Notice.ofFailure (f : Failure) : Notice :=
  ⟨Display.failure f, f.expression, f.underline?.getD []⟩

-- The history has its oldest line first.
structure Desk where
  entry : Text := []
  result : Text := []
  notice : Option Notice := none
  current : Option Float := none
  trace : Trace := {}
  history : List Text := []
  unit : AngleUnit := .degrees

namespace Desk

def historyLimit : Nat := 50

def context (d : Desk) : Context := ⟨d.unit, d.current⟩

def setEntry (t : Text) (d : Desk) : Desk := { d with entry := t }

def clearEntry (d : Desk) : Desk := { d with entry := [] }

def clearResults (d : Desk) : Desk := { d with result := [], notice := none, trace := {} }

def clearAll (d : Desk) : Desk := { d.clearEntry.clearResults with current := none, history := [] }

def toggleUnit (d : Desk) : Desk :=
  { d with unit := match d.unit with
      | .degrees => .radians
      | .radians => .degrees }

def logLine (entry : Text) (r : Except Failure Float) : Text :=
  entry.trim ++ ' ' :: Display.outcome r

def latest (lines : List Text) : List Text := lines.drop (lines.length - historyLimit)

def log (r : Except Failure Float) (d : Desk) : Desk :=
  { d with history := latest (d.history ++ [logLine d.entry r]) }

def accept (c : Calculation) (d : Desk) : Desk :=
  { d.log (.ok c.value) with
    notice := none
    result := Display.value c.value
    current := some c.value
    trace := c.trace }

def refuse (f : Failure) (d : Desk) : Desk :=
  { d.log (.error f) with notice := some (.ofFailure f), trace := {} }

def evaluate (d : Desk) : Desk :=
  match calculate d.context d.entry with
  | .ok c => d.accept c
  | .error f => d.refuse f

end Desk

end InfixCalculator
