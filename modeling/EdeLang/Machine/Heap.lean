import EdeLang.Bytecode.Instruction

/-!
# The block heap

Blocks of words are addressed by handles. The first allocation gets handle one, every further
one the next number, and a handle is not used again after its block was freed. The words of all
live blocks together stay within a limit.
-/

namespace EdeLang

/-- What the host of the machine does not do. -/
inductive Panic where
  | index (i size : Nat)
  | difference
  | capacity
deriving DecidableEq, Inhabited

def Panic.message : Panic → String
  | .index i size =>
    "index out of bounds: the len is " ++ toString size ++ " but the index is " ++ toString i
  | .difference => "attempt to subtract with overflow"
  | .capacity => "capacity overflow"

/-- Why the machine cannot go on. A panic of the host ends it without a result; all other faults
are results of a step. -/
inductive Fault where
  | decode (e : DecodeError)
  | stackOverflow (limit : Nat)
  | stackUnderflow
  | slotOutOfBounds (slot : Nat)
  | divisionByZero
  | invalidHandle (handle : Int64)
  | heapExhausted (limit : Nat)
  | heapIndexOutOfBounds (handle index : Int64)
  | returnWithoutCall
  | panic (p : Panic)
deriving DecidableEq, Inhabited

namespace Fault

def message : Fault → String
  | .decode e => e.message
  | .stackOverflow limit => "Stack overflow (limit " ++ toString limit ++ ")"
  | .stackUnderflow => "Stack underflow"
  | .slotOutOfBounds slot => "Frame slot " ++ toString slot ++ " is out of bounds"
  | .divisionByZero => "Division by zero"
  | .invalidHandle handle => "Invalid heap handle: " ++ toString handle.toInt
  | .heapExhausted limit => "Heap exhausted (limit " ++ toString limit ++ " words)"
  | .heapIndexOutOfBounds handle index =>
    "Heap index " ++ toString index.toInt ++ " out of bounds for block " ++ toString handle.toInt
  | .returnWithoutCall => "RET without a matching CALL"
  | .panic p => p.message

/-- A division by zero is an outcome of the program; all other faults are those of its bytes. -/
def isException : Fault → Bool
  | .divisionByZero => true
  | _ => false

end Fault

/-- The difference of two sizes. The host has no negative ones. -/
def difference (a b : Nat) : Except Fault Nat :=
  if b ≤ a then .ok (a - b) else .error (.panic .difference)

theorem difference_of_le {a b : Nat} (h : b ≤ a) : difference a b = .ok (a - b) := if_pos h

/-- Blocks by handle, freed ones as `none`, with the number of words in live blocks. -/
structure Heap where
  blocks : Array (Option (Array Word))
  used : Nat
  limit : Nat
deriving Inhabited

namespace Heap

def empty (limit : Nat) : Heap := ⟨#[], 0, limit⟩

/-- The place of a handle among the blocks. -/
def index? (handle : Int64) : Option Nat :=
  if 1 ≤ handle.toInt then some (handle.toInt - 1).toNat else none

/-- The live block of a handle. -/
def block? (h : Heap) (handle : Int64) : Option (Array Word) :=
  match index? handle with
  | some i => (h.blocks[i]?).join
  | none => none

/-- Adds a block of `size` words, which is only built if there is room for it. -/
def allocWith (h : Heap) (size : Nat) (block : Unit → Array Word) : Except Fault (Heap × Int64) :=
  if h.used + size ≤ h.limit then
    .ok (⟨h.blocks.push (some (block ())), h.used + size, h.limit⟩,
      Int64.ofNat (h.blocks.size + 1))
  else .error (.heapExhausted h.limit)

/-- Adds a block and gives its handle. -/
def alloc (h : Heap) (block : Array Word) : Except Fault (Heap × Int64) :=
  h.allocWith block.size fun _ => block

/-- The host counts the bytes of a block with a signed word, so it has room for this many
words. -/
def maxBlock : Nat := 0xfffffffffffffff

/-- Adds a block of zeros and gives its handle. The limit is checked before the host is asked. -/
def allocZeroed (h : Heap) (count : Nat) : Except Fault (Heap × Int64) :=
  if h.used + count ≤ h.limit ∧ maxBlock < count then .error (.panic .capacity)
  else h.allocWith count fun _ => Array.replicate count Word.zero

/-- The words of a live block. -/
def get (h : Heap) (handle : Int64) : Except Fault (Array Word) :=
  match h.block? handle with
  | some block => .ok block
  | none => .error (.invalidHandle handle)

/-- Ends the life of a block. -/
def free (h : Heap) (handle : Int64) : Except Fault Heap :=
  match index? handle with
  | none => .error (.invalidHandle handle)
  | some i =>
    match (h.blocks[i]?).join with
    | none => .error (.invalidHandle handle)
    | some block =>
      match difference h.used block.size with
      | .error e => .error e
      | .ok used => .ok ⟨h.blocks.setIfInBounds i none, used, h.limit⟩

/-- The place of an index in a block. -/
def cell? (block : Array Word) (index : Int64) : Option Nat :=
  if 0 ≤ index.toInt ∧ index.toInt.toNat < block.size then some index.toInt.toNat else none

/-- A word of a block. -/
def load (h : Heap) (handle index : Int64) : Except Fault Word :=
  match h.get handle with
  | .error e => .error e
  | .ok block =>
    match cell? block index with
    | some k => .ok (block.getD k Word.zero)
    | none => .error (.heapIndexOutOfBounds handle index)

/-- Replaces a word of a block. -/
def store (h : Heap) (handle index : Int64) (value : Word) : Except Fault Heap :=
  match index? handle with
  | none => .error (.invalidHandle handle)
  | some i =>
    match (h.blocks[i]?).join with
    | none => .error (.invalidHandle handle)
    | some block =>
      match cell? block index with
      | none => .error (.heapIndexOutOfBounds handle index)
      | some k =>
        .ok ⟨h.blocks.modify i (fun b => b.map (·.setIfInBounds k value)), h.used, h.limit⟩

/-- Handles and words of the live blocks among some, of which the first has the given handle. -/
def liveFrom (handle : Nat) : List (Option (Array Word)) → List (Nat × Array Word)
  | [] => []
  | some block :: rest => (handle, block) :: liveFrom (handle + 1) rest
  | none :: rest => liveFrom (handle + 1) rest

/-- Live blocks with their handles, in the order of the handles. -/
def live (h : Heap) : List (Nat × Array Word) := liveFrom 1 h.blocks.toList

end Heap
end EdeLang
