import EdeLang.Double.Basic

/-!
# Shortest decimal text

The text of a finite number has the fewest significant digits that read back as the same
number, and among those the digits nearest to it. Formats differ in the range written without
an exponent, in the spelling of the exponent and of the values that are not finite, and in the
choice between two digit sequences that are equally near.
-/

namespace EdeLang.Double

/-- Significand and exponent of a finite number: it is the significand times two to the power
of the exponent. -/
def significand (d : Double) : Nat × Int :=
  let fraction : Nat := d.magnitude % 0x10000000000000
  let field : Nat := d.magnitude / 0x10000000000000
  if field = 0 then (fraction, -1074) else (0x10000000000000 + fraction, (field : Int) - 1075)

/-- The reals that round to a number, as multiples of a fourth of its last digit's weight. -/
structure Neighbourhood where
  low : Nat
  value : Nat
  high : Nat
  closed : Bool
deriving Repr

/-- The neighbourhood of a positive number. The gap below a power of two is half as wide. -/
def neighbourhood (d : Double) : Neighbourhood :=
  let m := d.significand.1
  let narrow := decide (m = 0x10000000000000) && decide (2 * 0x10000000000000 ≤ d.magnitude)
  ⟨4 * m - (if narrow then 1 else 2), 4 * m, 4 * m + 2, m % 2 == 0⟩

def Neighbourhood.contains (n : Neighbourhood) (num den : Nat) : Bool :=
  if n.closed then decide (n.low * den ≤ num ∧ num ≤ n.high * den)
  else decide (n.low * den < num ∧ num < n.high * den)

/-- What to do with two digit sequences that are equally near. -/
inductive Tie where
  | up
  | even
deriving DecidableEq, Repr

/-- The digits on the grid of spacing `spacingNum / spacingDen` quarter units that read back as
the number, nearest first. -/
def gridDigits (n : Neighbourhood) (tie : Tie) (spacingNum spacingDen : Nat) : Option Nat :=
  let below := n.value * spacingDen / spacingNum
  let rest := n.value * spacingDen % spacingNum
  let fits (k : Nat) : Bool := n.contains (k * spacingNum) spacingDen
  let preferBelow : Bool :=
    if 2 * rest < spacingNum then true
    else if spacingNum < 2 * rest then false
    else
      match tie with
      | .up => false
      | .even => below % 2 == 0
  match fits below && decide (0 < below), fits (below + 1) with
  | true, true => some (if preferBelow then below else below + 1)
  | true, false => some below
  | false, true => some (below + 1)
  | false, false => none

/-- A ratio of naturals that equals a power of ten times a power of two. -/
def powerRatio (ten two : Int) : Nat × Nat :=
  (Nat.pow 10 ten.toNat <<< two.toNat, Nat.pow 10 (-ten).toNat <<< (-two).toNat)

/-- Decimal exponent of the leading digit of a positive number. -/
def leadingExponent (d : Double) : Int :=
  let (m, e) := d.significand
  let scaled := powerRatio 0 e
  let num := m * scaled.1
  let den := scaled.2
  if den ≤ num then ((Nat.toDigits 10 (num / den)).length : Int) - 1
  else
    let guess : Int := ((Nat.toDigits 10 num).length : Int) - ((Nat.toDigits 10 den).length : Int)
    if den ≤ num * Nat.pow 10 (-guess).toNat then guess else guess - 1

/-- Digits without trailing zeros, and the exponent of ten of the last one. -/
def dropTrailingZeros : Nat → Nat → Int → Nat × Int
  | 0, digits, exponent => (digits, exponent)
  | fuel + 1, digits, exponent =>
    if digits ≠ 0 ∧ digits % 10 = 0 then dropTrailingZeros fuel (digits / 10) (exponent + 1)
    else (digits, exponent)

/-- The first grid, from coarse to fine, that holds digits which read back. -/
def shortestOn (n : Neighbourhood) (tie : Tie) (lead e : Int) : List Nat → Option (Nat × Int)
  | [] => none
  | count :: finer =>
    let exponent := lead - (count : Int) + 1
    let spacing := powerRatio exponent (2 - e)
    match gridDigits n tie spacing.1 spacing.2 with
    | some digits => some (digits, exponent)
    | none => shortestOn n tie lead e finer

/-- Shortest digits of a positive number and the exponent of ten of the last digit. -/
def shortest (tie : Tie) (d : Double) : Nat × Int :=
  let found := shortestOn d.neighbourhood tie d.leadingExponent d.significand.2
    ((List.range 17).map (· + 1))
  match found with
  | some (digits, exponent) => dropTrailingZeros 20 digits exponent
  | none => (0, 0)

/-- How numbers are spelled. -/
structure DecimalFormat where
  /-- Least exponent of the leading digit that is written without an exponent. -/
  plainFrom : Int
  /-- First exponent of the leading digit that is written with an exponent again. -/
  plainBelow : Int
  /-- Mark before an exponent that is not negative. -/
  plus : String
  tie : Tie
  infinity : String
  minusInfinity : String
  notANumber : String

/-- Digits with a point after the leading one, for the exponent form. -/
def pointAfterLead (digits : List Char) : String :=
  match digits with
  | [] => ""
  | [c] => String.singleton c
  | c :: rest => String.singleton c ++ "." ++ String.ofList rest

/-- Digits around the decimal point, with at least one digit on both sides. -/
def plainText (digits : List Char) (exponent : Int) : String :=
  if 0 ≤ exponent then
    String.ofList (digits ++ List.replicate exponent.toNat '0') ++ ".0"
  else
    let places := (-exponent).toNat
    let padded := List.replicate (places + 1 - digits.length) '0' ++ digits
    String.ofList (padded.take (padded.length - places)) ++ "." ++
      String.ofList (padded.drop (padded.length - places))

/-- The text of a number in a format. -/
def format (f : DecimalFormat) (d : Double) : String :=
  let sign := if d.negative then "-" else ""
  if d.isNaN then f.notANumber
  else if d.isInfinite then (if d.negative then f.minusInfinity else f.infinity)
  else if d.isZero then sign ++ "0.0"
  else
    let (digits, exponent) := d.shortest f.tie
    let text := Nat.toDigits 10 digits
    let lead := exponent + (text.length : Int) - 1
    if f.plainFrom ≤ lead ∧ lead < f.plainBelow then sign ++ plainText text exponent
    else
      sign ++ pointAfterLead text ++ "e" ++ (if 0 ≤ lead then f.plus else "") ++ toString lead

/-- Numbers in listings: no exponent from a ten-thousandth up to ten to the sixteenth. -/
def listingFormat : DecimalFormat where
  plainFrom := -4
  plainBelow := 16
  plus := ""
  tie := .up
  infinity := "inf"
  minusInfinity := "-inf"
  notANumber := "NaN"

/-- Numbers on the wire: one more place without an exponent, a sign on every exponent, and
`null` for what is not finite. -/
def wireFormat : DecimalFormat where
  plainFrom := -5
  plainBelow := 16
  plus := "+"
  tie := .even
  infinity := "null"
  minusInfinity := "null"
  notANumber := "null"

end EdeLang.Double
