import EdeLang.Double.Basic

/-!
# Rounding to binary64

The nearest binary64 number to an exact ratio of naturals, ties to even. A ratio beyond the
largest finite number rounds to infinity.
-/

namespace EdeLang.Double

/-- The quotient rounded to nearest, ties to even. -/
def divNearest (num den : Nat) : Nat :=
  let q := num / den
  let twice := 2 * (num % den)
  if den < twice then q + 1
  else if twice = den then q + q % 2
  else q

/-- Exponent of the highest binary digit of a positive ratio. -/
def ratioLog2 (num den : Nat) : Int :=
  let k : Int := (num.log2 : Int) - (den.log2 : Int)
  let reached := if 0 ≤ k then den <<< k.toNat ≤ num else den ≤ num <<< (-k).toNat
  if reached then k else k - 1

/-- Magnitude of the number nearest to a ratio. The significand has 53 digits, fewer below the
normal range, and its last digit has the weight two to the power `scale`. -/
def nearestMagnitude (num den : Nat) : Nat :=
  if num = 0 then 0
  else
    let scale : Int := max (ratioLog2 num den - 52) (-1074)
    let significand :=
      if 0 ≤ scale then divNearest num (den <<< scale.toNat)
      else divNearest (num <<< (-scale).toNat) den
    min ((scale + 1074).toNat * 0x10000000000000 + significand) infinityMagnitude

/-- The number nearest to a ratio, with a sign. -/
def ofRatio (negative : Bool) (num den : Nat) : Double :=
  ofSign negative (nearestMagnitude num den)

/-- The number nearest to an integer. -/
def ofInt (v : Int) : Double := ofRatio (decide (v < 0)) v.natAbs 1

/-- The number nearest to `digits` times ten to the power `exponent`. A decimal whose leading
digit is far outside the range of exponents is settled without its power of ten. -/
def ofDecimal (negative : Bool) (digits : Nat) (exponent : Int) : Double :=
  let lead : Int := exponent + (Nat.toDigits 10 digits).length
  if digits = 0 ∨ lead < -400 then ofSign negative 0
  else if 400 < lead then ofSign negative infinityMagnitude
  else if 0 ≤ exponent then ofRatio negative (digits * Nat.pow 10 exponent.toNat) 1
  else ofRatio negative digits (Nat.pow 10 (-exponent).toNat)

end EdeLang.Double
