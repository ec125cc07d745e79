import InfixCalculator.Binary64
import InfixCalculator.Failure

namespace InfixCalculator

-- Values are written with ten significant digits, without zeros that only fill up.
namespace Display

attribute [local instance (2000)] instPowNat

def significantDigits : Nat := 10

def lowestPositional : Int := -4

def decimalLength (n : Nat) : Nat := (Nat.toDigits 10 n).length

def decimalExponent (num den : Nat) : Int :=
  if den ≤ num then (decimalLength (num / den) - 1 : Nat) else -(decimalLength ((den - 1) / num) : Int)

def divScaled (num den : Nat) (places : Int) : Nat :=
  Binary64.divNearest (num * 10 ^ places.toNat) (den * 10 ^ (-places).toNat)

structure Rounded where
  digits : Nat
  exponent : Int
deriving DecidableEq

-- Nines that round up give one digit too many; the exponent is then one higher.
def Rounded.ofRatio (num den : Nat) : Rounded :=
  let exponent := decimalExponent num den
  let digits := divScaled num den (significantDigits - 1 - exponent)
  if digits < 10 ^ significantDigits then ⟨digits, exponent⟩ else ⟨digits / 10, exponent + 1⟩

def digitText (n : Nat) : Text := Nat.toDigits 10 n

def exponentText (e : Int) : Text := if e < 0 then '-' :: digitText e.natAbs else digitText e.natAbs

def fixedText (units places : Nat) : Text :=
  let whole := digitText (units / 10 ^ places)
  if places = 0 then whole
  else whole ++ '.' :: (digitText (units % 10 ^ places)).leftpad places '0'

def dropFilling (t : Text) : Text :=
  if t.contains '.' then Text.dropTrailing (· == '.') (Text.dropTrailing (· == '0') t) else t

-- The text of a positive magnitude. What is written out in full is rounded anew,
-- to as many decimals as the rounded exponent leaves.
def magnitudeText (units : Nat) : Text :=
  let one := 2 ^ Binary64.unitExponent
  let rounded := Rounded.ofRatio units one
  if rounded.exponent < lowestPositional || significantDigits ≤ rounded.exponent then
    dropFilling (fixedText rounded.digits (significantDigits - 1)) ++ 'e' :: exponentText rounded.exponent
  else
    let places := (significantDigits - 1 - rounded.exponent).toNat
    dropFilling (fixedText (divScaled units one places) places)

def value (v : Float) : Text :=
  if Binary64.isNaN v then ['N', 'a', 'N']
  else
    let sign : Text := if Binary64.isNegative v then ['-'] else []
    if Binary64.isInfinite v then sign ++ ['i', 'n', 'f']
    else if Binary64.units v = 0 then ['0']
    else sign ++ magnitudeText (Binary64.units v)

end Display

namespace Display

def failure (f : Failure) : Text :=
  let head := '<' :: f.message ++ ['>']
  match f.span, f.fragment? with
  | some span, some fragment =>
    head ++ " à la position ".toList ++ digitText span.position ++ " : \"".toList ++ fragment ++ ['"']
  | _, _ => head

def outcome : Except Failure Float → Text
  | .ok v => ['=', ' '] ++ value v
  | .error f => failure f

end Display

end InfixCalculator
