import Quasicode.Number.Double

/-!
The shortest decimal that reads back as a given double. The reals that round to a double form an
interval around it. For one digit, two digits and so on, the two decimals of that many digits next to the
double are tried; the first that lie in the interval win, the nearer of two, and the greater of two that
are equally near.
-/
namespace Quasicode.Double

/-- The number `digits * 10 ^ exponent`. -/
structure Decimal where
  digits : Nat
  exponent : Int
deriving DecidableEq, Repr

/-- The reals that round to one double, as numerators over one denominator. -/
structure Neighbourhood where
  low : Nat
  value : Nat
  high : Nat
  den : Nat
  /-- Whether the two ends round to the double too. -/
  closed : Bool
deriving Repr

/-- Below a power of two the next double is half as far away as above it. -/
def neighbourhood (d : Double) : Neighbourhood :=
  let unit := Nat.pow 2 (d.scale - bias)
  let value := 4 * d.significand * unit
  let below := if d.fractionField = 0 && 1 < d.exponentField then unit else 2 * unit
  ⟨value - below, value, value + 2 * unit, 4 * Nat.pow 2 (bias - d.scale), d.fractionField % 2 == 0⟩

namespace Neighbourhood

/-- The number of decimal digits of a natural number. -/
def width (n : Nat) : Nat := (Nat.toDigits 10 n).length

/-- The exponent of the leading digit of `num / den`, for a positive quotient. -/
def leading (num den : Nat) : Int :=
  if den * Nat.pow 10 (width num) ≤ num * Nat.pow 10 (width den) then (width num : Int) - width den
  else (width num : Int) - width den - 1

/-- `digits * 10 ^ exponent` over the denominator `den`, both sides scaled to natural numbers: the
decimal and the factor by which a numerator has to be multiplied to be compared with it. -/
def scaled (den : Nat) (d : Decimal) : Nat × Nat :=
  if 0 ≤ d.exponent then (d.digits * Nat.pow 10 d.exponent.toNat * den, 1)
  else (d.digits * den, Nat.pow 10 (-d.exponent).toNat)

/-- Whether the decimal rounds to the double. -/
def contains (n : Neighbourhood) (d : Decimal) : Bool :=
  let (point, factor) := scaled n.den d
  if n.closed then n.low * factor ≤ point && point ≤ n.high * factor
  else n.low * factor < point && point < n.high * factor

/-- Twice the distance from the double to the decimal below it, against the width of the grid. -/
def upperIsNearer (n : Neighbourhood) (below : Decimal) : Bool :=
  let (point, factor) := scaled n.den below
  let (unit, _) := scaled n.den ⟨1, below.exponent⟩
  unit ≤ 2 * (n.value * factor - point)

/-- The decimal of `count` digits that rounds to the double and is nearest to it, if there is one. -/
def candidate (n : Neighbourhood) (count : Nat) : Option Decimal :=
  let exponent := leading n.value n.den + 1 - count
  let (unit, factor) := scaled n.den ⟨1, exponent⟩
  let below : Decimal := ⟨n.value * factor / unit, exponent⟩
  let above : Decimal := ⟨below.digits + 1, exponent⟩
  match n.contains below, n.contains above with
  | true, true => some (if n.upperIsNearer below then above else below)
  | true, false => some below
  | false, true => some above
  | false, false => none

end Neighbourhood

/-- No double needs more digits than this. -/
def mostDigits : Nat := 17

/-- The shortest decimal of a finite double other than zero. -/
def shortest (d : Double) : Decimal :=
  let n := d.neighbourhood
  (((List.range mostDigits).findSome? fun i => n.candidate (i + 1))).getD ⟨0, 0⟩

/-- Trailing zeros moved into the exponent, at most `limit` of them. -/
def Decimal.strip : Nat → Decimal → Decimal
  | 0, d => d
  | limit + 1, d =>
    if d.digits ≠ 0 ∧ d.digits % 10 = 0 then strip limit ⟨d.digits / 10, d.exponent + 1⟩ else d

/-- Digits without an exponent; a fraction only where there is one. -/
def Decimal.positional (d : Decimal) : String :=
  if 0 ≤ d.exponent then toString (d.digits * Nat.pow 10 d.exponent.toNat)
  else
    let places := (-d.exponent).toNat
    let fraction := Nat.toDigits 10 (d.digits % Nat.pow 10 places)
    toString (d.digits / Nat.pow 10 places) ++ "."
      ++ String.ofList (List.replicate (places - fraction.length) '0' ++ fraction)

/-- A double is written with the fewest digits that read back, never with an exponent, and a whole
number without a fraction. -/
def text (d : Double) : String :=
  let sign := if d.isNegative then "-" else ""
  if d.isNaN then "NaN"
  else if !d.isFinite then sign ++ "inf"
  else if d.significand = 0 then sign ++ "0"
  else sign ++ (d.shortest.strip mostDigits).positional

end Quasicode.Double
