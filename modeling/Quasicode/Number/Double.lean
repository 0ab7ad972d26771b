/-!
Double-precision numbers as the 64 bits that represent them, with exact arithmetic on natural numbers
in place of machine arithmetic. A literal is read by `ofDecimal`, which rounds to the nearest double and
a tie to the even one; `truncate` goes back to the integers.
-/
namespace Quasicode

/-- A double by its bits: sign, eleven bits of exponent, 52 bits of fraction. -/
structure Double where
  bits : UInt64
deriving DecidableEq, Repr

namespace Double

/-- The number of bits of the fraction. -/
def fractionBits : Nat := 52

/-- Exponents that are all ones belong to the infinities. -/
def infiniteExponent : Nat := 2047

/-- The bits without the sign. -/
def magnitudeBits (d : Double) : Nat := d.bits.toNat % Nat.pow 2 63

def isNegative (d : Double) : Bool := d.bits.toNat / Nat.pow 2 63 = 1

def exponentField (d : Double) : Nat := d.magnitudeBits / Nat.pow 2 fractionBits

def fractionField (d : Double) : Nat := d.magnitudeBits % Nat.pow 2 fractionBits

def isFinite (d : Double) : Bool := d.exponentField < infiniteExponent

def isNaN (d : Double) : Bool := d.exponentField = infiniteExponent && d.fractionField != 0

/-- A finite magnitude is `significand * 2 ^ (scale - 1075)`; numbers below the normal range share the
least scale. -/
def significand (d : Double) : Nat :=
  if d.exponentField = 0 then d.fractionField else Nat.pow 2 fractionBits + d.fractionField

def scale (d : Double) : Nat := max 1 d.exponentField

/-- The power of two that scales every double to an integer. -/
def bias : Nat := 1075

/-- A finite magnitude as a quotient of natural numbers. -/
def ratio (d : Double) : Nat × Nat :=
  if bias ≤ d.scale then (d.significand * Nat.pow 2 (d.scale - bias), 1)
  else (d.significand, Nat.pow 2 (bias - d.scale))

/-- The quotient rounded to the nearest integer, and a half to the even neighbour. -/
def roundHalfEven (num den : Nat) : Nat :=
  let quotient := num / den
  let twice := 2 * (num % den)
  if den < twice || (twice == den && quotient % 2 == 1) then quotient + 1 else quotient

/-- The bits of infinity. -/
def infinityBits : Nat := infiniteExponent * Nat.pow 2 fractionBits

/-- The scale at which `num / den` has a significand of 53 bits, or the least scale if it has fewer
bits there. -/
def scaleOf (num den : Nat) : Nat :=
  let guess := num.log2 + bias - fractionBits - den.log2
  let significandBelow := num * Nat.pow 2 bias / (den * Nat.pow 2 guess) < Nat.pow 2 fractionBits
  max 1 (if significandBelow then guess - 1 else guess)

/-- The bits of the double nearest to `num / den`. A significand that rounds up to 54 bits carries into
the exponent, and a number past the greatest double becomes infinity. -/
def nearestBits (num den : Nat) : Nat :=
  if num = 0 then 0
  else
    let scale := scaleOf num den
    let significand := roundHalfEven (num * Nat.pow 2 bias) (den * Nat.pow 2 scale)
    min infinityBits ((scale - 1) * Nat.pow 2 fractionBits + significand)

/-- The double nearest to `digits / 10 ^ places`. -/
def ofDecimal (digits places : Nat) : Double :=
  ⟨UInt64.ofNat (nearestBits digits (Nat.pow 10 places))⟩

/-- The negated number. -/
def neg (d : Double) : Double := ⟨d.bits ^^^ 0x8000000000000000⟩

/-- An integer to which the order of the numbers corresponds; both zeros have the same key. -/
def orderKey (d : Double) : Int :=
  if d.isNegative then -(d.magnitudeBits : Int) else d.magnitudeBits

/-- The least value of a signed 64-bit integer, negated. -/
def wordHalf : Nat := Nat.pow 2 63

/-- The integer part, kept within the signed 64-bit integers; what is not a number counts as zero. -/
def truncate (d : Double) : Int :=
  if d.isNaN then 0
  else
    let whole := if d.isFinite then d.ratio.1 / d.ratio.2 else wordHalf
    if d.isNegative then -(min whole wordHalf : Nat) else (min whole (wordHalf - 1) : Nat)

end Double

end Quasicode
