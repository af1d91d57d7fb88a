/-!
# Binary64 numbers

A number is held as its 64 bits: equal bits are equal numbers, so a word of memory and the
number read from it carry the same information, and the payload of a NaN is never lost.
Arithmetic rounds to nearest even. An operand that is not a number is passed on with its quiet
bit set, the left operand first; an invalid operation yields the negative quiet NaN.
-/

namespace EdeLang

/-- A binary64 number given by its bits. -/
structure Double where
  bits : UInt64
deriving DecidableEq, Inhabited

namespace Double

/-- The number is negative, or a zero or NaN with its sign bit set. -/
def negative (d : Double) : Bool := decide (0x8000000000000000 ≤ d.bits.toNat)

/-- The bits below the sign. -/
def magnitude (d : Double) : Nat := d.bits.toNat % 0x8000000000000000

/-- Magnitude of the infinities. -/
def infinityMagnitude : Nat := 0x7ff0000000000000

def isNaN (d : Double) : Bool := decide (infinityMagnitude < d.magnitude)

def isInfinite (d : Double) : Bool := decide (d.magnitude = infinityMagnitude)

/-- Both zeros. -/
def isZero (d : Double) : Bool := decide (d.magnitude = 0)

/-- A number from its sign and magnitude. -/
def ofSign (negative : Bool) (magnitude : Nat) : Double :=
  ⟨UInt64.ofNat (if negative then 0x8000000000000000 + magnitude else magnitude)⟩

/-- The result of an invalid operation. -/
def invalid : Double := ⟨0xfff8000000000000⟩

/-- A NaN with its quiet bit set. -/
def quiet (d : Double) : Double := ⟨d.bits ||| 0x0008000000000000⟩

/-- A rounded operation on two operands. -/
def combine (op : Float → Float → Float) (l r : Double) : Double :=
  if l.isNaN then l.quiet
  else if r.isNaN then r.quiet
  else
    let result := op (Float.ofBits l.bits) (Float.ofBits r.bits)
    if result.isNaN then invalid else ⟨result.toBits⟩

def add : Double → Double → Double := combine (· + ·)
def sub : Double → Double → Double := combine (· - ·)
def mul : Double → Double → Double := combine (· * ·)
def div : Double → Double → Double := combine (· / ·)

end Double
end EdeLang
