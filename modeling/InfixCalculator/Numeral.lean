import InfixCalculator.Binary64
import InfixCalculator.Text

namespace InfixCalculator

-- Decimal numerals: `digits* .? digits+ (e [+-]? digits+)?`. A point counts only
-- before a digit, and an exponent only when it is complete.
namespace Numeral

attribute [local instance (2000)] instPowNat

def digits (t : Text) : Text := t.takeWhile Char.isDigit

def afterDigits (t : Text) : Text := t.dropWhile Char.isDigit

def fraction : Text → Text
  | '.' :: rest => if (digits rest).isEmpty then [] else '.' :: digits rest
  | _ => []

def sign : Text → Text
  | '+' :: _ => ['+']
  | '-' :: _ => ['-']
  | _ => []

def exponent : Text → Text
  | 'e' :: rest =>
    let magnitude := digits (rest.drop (sign rest).length)
    if magnitude.isEmpty then [] else 'e' :: sign rest ++ magnitude
  | _ => []

structure Parts where
  whole : Text
  fraction : Text
  exponent : Text

def parts (t : Text) : Parts where
  whole := digits t
  fraction := fraction (afterDigits t)
  exponent := exponent ((afterDigits t).drop (fraction (afterDigits t)).length)

def number (digits : Text) : Nat := Nat.ofDigitChars 10 digits 0

namespace Parts

def text (p : Parts) : Text := p.whole ++ p.fraction ++ p.exponent

def hasDigits (p : Parts) : Bool := !(p.whole.isEmpty && p.fraction.isEmpty)

def significant (p : Parts) : Text := (p.whole ++ p.fraction.drop 1).dropWhile (· == '0')

def mantissa (p : Parts) : Nat := number p.significant

def power (p : Parts) : Int :=
  match p.exponent with
  | 'e' :: '-' :: digits => -(number digits : Int)
  | 'e' :: '+' :: digits => number digits
  | 'e' :: digits => number digits
  | _ => 0

def scale (p : Parts) : Int := p.power - (p.fraction.drop 1).length

end Parts

def scan? (t : Text) : Option Text :=
  if (parts t).hasDigits then some (parts t).text else none

-- From 10^310 on the nearest value is infinity, and below 10^-330 it is zero. The
-- bounds keep the powers of ten small, whatever exponent is written.
def highestPower : Int := 310
def lowestPower : Int := -330

def nearest (mantissa size : Nat) (scale : Int) : Float :=
  if mantissa = 0 then 0
  else if highestPower < size + scale then Binary64.infinity
  else if size + scale < lowestPower then 0
  else Binary64.nearest (mantissa * 10 ^ scale.toNat) (10 ^ (-scale).toNat)

def value (t : Text) : Float :=
  nearest (parts t).mantissa (parts t).significant.length (parts t).scale

end Numeral

end InfixCalculator
