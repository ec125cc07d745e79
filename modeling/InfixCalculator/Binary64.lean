namespace InfixCalculator

-- Binary64 values as whole numbers. Every finite value is a whole number of units
-- of 2^-1074, the smallest positive value, so rounding needs no fractions.
namespace Binary64

-- Powers below are those of whole numbers, whatever else is imported.
attribute [local instance (2000)] instPowNat

def unitExponent : Nat := 1074

def mantissaBits : Nat := 52

def signPosition : Nat := 63

def infinityBits : Nat := 2047 * 2 ^ mantissaBits

def magnitudeBits (v : Float) : Nat := v.toBits.toNat % 2 ^ signPosition

def isFinite (v : Float) : Bool := magnitudeBits v < infinityBits

def isInfinite (v : Float) : Bool := magnitudeBits v == infinityBits

def isNaN (v : Float) : Bool := infinityBits < magnitudeBits v

def isNegative (v : Float) : Bool := 2 ^ signPosition ≤ v.toBits.toNat

def unitsOfBits (bits : Nat) : Nat :=
  if bits < 2 ^ mantissaBits then bits
  else (2 ^ mantissaBits + bits % 2 ^ mantissaBits) * 2 ^ (bits / 2 ^ mantissaBits - 1)

def units (v : Float) : Nat := unitsOfBits (magnitudeBits v)

def hasFraction (v : Float) : Bool := units v % 2 ^ unitExponent != 0

def divNearest (num den : Nat) : Nat :=
  let quotient := num / den
  let twice := 2 * (num % den)
  if twice < den then quotient
  else if den < twice then quotient + 1
  else if quotient % 2 = 0 then quotient
  else quotient + 1

-- The mantissa of `num / den` is cut to 53 bits. Rounded and added to the shift in the place of the
-- exponent field it gives the pattern: a leading bit, or one bit too many, raises the field.
def nearestBits (num den : Nat) : Nat :=
  let scaled := num * 2 ^ unitExponent
  let shift := (scaled / den).log2 - mantissaBits
  min infinityBits (shift * 2 ^ mantissaBits + divNearest scaled (den * 2 ^ shift))

def nearest (num den : Nat) : Float := Float.ofBits (UInt64.ofNat (nearestBits num den))

def infinity : Float := Float.ofBits (UInt64.ofNat infinityBits)

end Binary64

end InfixCalculator
