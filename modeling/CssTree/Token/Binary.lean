import CssTree.Token.Number

namespace CssTree

/-- The quotient rounded to the nearest integer, a half going to the even neighbour. -/
def roundQuotient (num den : Nat) : Nat :=
  let quotient := num / den
  let twice := 2 * (num % den)
  if twice < den ∨ twice = den ∧ quotient % 2 = 0 then quotient else quotient + 1

/-- The exponent of the largest power of two not above `num / den`. -/
def binaryExponent (num den : Nat) : Int :=
  let e : Int := (num.log2 : Int) - den.log2
  if num <<< (-e).toNat < den <<< e.toNat then e - 1 else e

/-- The bit that is set in the pattern of a negative number. -/
def signBit : Nat := 0x8000_0000_0000_0000

/-- The bits of positive infinity. -/
def infinityBits : Nat := 0x7ff0_0000_0000_0000

/-- The bits of the double nearest to the positive number `num / den`. A significand that rounds
up to the next power of two carries into the exponent. -/
def nearestBits (num den : Nat) : Nat :=
  let scale := max (binaryExponent num den - 52) (-1074)
  let significand := roundQuotient (num <<< (-scale).toNat) (den <<< scale.toNat)
  min ((scale + 1074).toNat <<< 52 + significand) infinityBits

namespace Decimal

/-- The bits of the double nearest to the magnitude of a decimal. Powers of ten far outside the
range of doubles are not computed. -/
def magnitudeBits (d : Decimal) : Nat :=
  if d.digits = 0 then 0
  else if 400 < d.exponent then infinityBits
  else if d.exponent + d.digits.log2 + 1 < -400 then 0
  else nearestBits (d.digits * Nat.pow 10 d.exponent.toNat) (Nat.pow 10 (-d.exponent).toNat)

/-- The bits of the double nearest to a decimal. -/
def bits (d : Decimal) : Nat :=
  if d.negative then signBit + d.magnitudeBits else d.magnitudeBits

end Decimal

end CssTree
