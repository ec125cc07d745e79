import InfixCalculator.Text

namespace InfixCalculator

inductive ParsingCause
  | emptyExpression
  | unmatchedParentheses
  | malformed
deriving DecidableEq

inductive EvaluationCause
  | divisionByZero
  | currentValueExpected
  | missingArguments
  | imaginaryNumber
  | unexpectedToken
deriving DecidableEq

inductive Cause
  | parsing (cause : ParsingCause)
  | evaluation (cause : EvaluationCause)
deriving DecidableEq

def ParsingCause.message : ParsingCause → Text
  | .emptyExpression => "expression vide".toList
  | .unmatchedParentheses => "parenthèses non appariées".toList
  | .malformed => "erreur de syntaxe".toList

def EvaluationCause.message : EvaluationCause → Text
  | .divisionByZero => "division par zéro".toList
  | .currentValueExpected => "valeur courante attendue".toList
  | .missingArguments => "arguments manquants".toList
  | .imaginaryNumber => "nombre imaginaire".toList
  | .unexpectedToken => "jeton inattendu".toList

def Cause.detail : Cause → Text
  | .parsing cause => cause.message
  | .evaluation cause => cause.message

def Cause.message : Cause → Text
  | .parsing cause => "erreur de parsing : ".toList ++ cause.message
  | .evaluation cause => "erreur d’évaluation : ".toList ++ cause.message

structure Failure where
  cause : Cause
  expression : Text
  span : Option Span
deriving DecidableEq

namespace Failure

def message (f : Failure) : Text := f.cause.message

def fragment? (f : Failure) : Option Text := f.span.bind fun span => span.fragment? f.expression

def underline? (f : Failure) : Option Text := f.span.map fun span => span.underline f.expression

end Failure

end InfixCalculator
