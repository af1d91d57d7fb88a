import EdeLang.Double.Basic
import EdeLang.Text.Layout

/-!
# Machine words

A word is eight bytes, least significant first. It is read as a signed or unsigned integer, as
a truth value or as a binary64 number; which reading applies is up to the instruction.
-/

namespace EdeLang

/-- The `n` lowest bytes of a natural, least significant first. -/
def littleEndian : Nat → Nat → List UInt8
  | 0, _ => []
  | n + 1, v => UInt8.ofNat (v % 256) :: littleEndian n (v / 256)

/-- The natural spelled by bytes, least significant first. -/
def ofLittleEndian : List UInt8 → Nat
  | [] => 0
  | b :: bs => b.toNat + 256 * ofLittleEndian bs

/-- A cell of machine memory. -/
structure Word where
  bits : UInt64
deriving DecidableEq, Inhabited

namespace Word

/-- Bytes of a word. -/
def size : Nat := 8

def zero : Word := ⟨0⟩

def ofInt (v : Int64) : Word := ⟨v.toUInt64⟩

def toInt (w : Word) : Int64 := w.bits.toInt64

def ofNat (n : Nat) : Word := ⟨UInt64.ofNat n⟩

def toNat (w : Word) : Nat := w.bits.toNat

def ofDouble (d : Double) : Word := ⟨d.bits⟩

def toDouble (w : Word) : Double := ⟨w.bits⟩

/-- Truth is written as one, falsehood as zero. -/
def ofBool (b : Bool) : Word := if b then ⟨1⟩ else ⟨0⟩

/-- Every word but zero is true. -/
def toBool (w : Word) : Bool := w.bits != 0

/-- The bytes of a word in memory order. -/
def bytes (w : Word) : List UInt8 := littleEndian size w.bits.toNat

/-- The word in the first eight bytes, if there are as many. -/
def ofBytes? (bs : List UInt8) : Option Word :=
  if size ≤ bs.length then some (ofNat (ofLittleEndian (bs.take size))) else none

/-- The signed reading in decimal. -/
def text (w : Word) : String := toString w.toInt.toInt

/-- The bytes in memory order, as hexadecimal digits. -/
def hex (w : Word) : String := Text.hexBytes w.bytes

end Word
end EdeLang
