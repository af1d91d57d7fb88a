import EdeLang.Machine.Heap

/-!
# The stack machine

The machine holds its program, the instruction pointer, a stack of words, the frames of the
calls that have not returned, and a heap. Actions on it may fail, and a failure keeps the state
that was reached.
-/

namespace EdeLang

/-- Bounds on the resources of a machine. -/
structure Limits where
  /-- Most words on the stack. -/
  stack : Nat
  /-- Most calls at a time. -/
  frames : Nat
  /-- Most words in live blocks. -/
  heap : Nat
deriving DecidableEq, Repr

/-- Bounds that apply when none are given. -/
def Limits.standard : Limits := ⟨65536, 4096, 1048576⟩

/-- What a call saves: where to return to, and the caller's frame base. -/
structure Frame where
  ret : Nat
  fp : Nat
deriving DecidableEq, Repr, Inhabited

/-- Whether a program has ended. -/
inductive Status where
  | running
  | exited (code : Int64)
deriving DecidableEq

def Status.text : Status → String
  | .running => "Running"
  | .exited code => "Exited(" ++ toString code.toInt ++ ")"

/-- The state of a machine. The stack and the frames grow at their ends. -/
structure Machine where
  program : Array UInt8
  ip : Nat
  fp : Nat
  stack : Array Word
  frames : Array Frame
  heap : Heap
  /-- Characters printed and not yet taken. -/
  output : String
  exit : Option Int64
  limits : Limits

/-- An action on a machine. -/
abbrev Exec := EStateM Fault Machine

namespace Machine

/-- Reaching the end of the program exactly is a normal end. -/
def settle (m : Machine) : Machine :=
  if m.exit.isNone ∧ m.ip = m.program.size then { m with exit := some 0 } else m

/-- A machine at the start of a program. -/
def load (program : Array UInt8) (limits : Limits) : Machine :=
  settle
    { program
      ip := 0
      fp := 0
      stack := #[]
      frames := #[]
      heap := Heap.empty limits.heap
      output := ""
      exit := none
      limits }

def status (m : Machine) : Status :=
  match m.exit with
  | some code => .exited code
  | none => .running

def isTerminated (m : Machine) : Bool := m.exit.isSome

/-- The printed characters, and the machine without them. -/
def takeOutput (m : Machine) : String × Machine := (m.output, { m with output := "" })

/-! ## Stack -/

def push (w : Word) : Exec Unit := fun m =>
  if m.stack.size < m.limits.stack then .ok () { m with stack := m.stack.push w }
  else .error (.stackOverflow m.limits.stack) m

def pop : Exec Word := fun m =>
  match m.stack.back? with
  | some w => .ok w { m with stack := m.stack.pop }
  | none => .error .stackUnderflow m

def popInt : Exec Int64 := do
  let w ← pop
  return w.toInt

def popDouble : Exec Double := do
  let w ← pop
  return w.toDouble

/-- The place of a frame slot on the stack. -/
def slot? (m : Machine) (k : Word) : Option Nat :=
  if m.fp + k.toNat < m.stack.size then some (m.fp + k.toNat) else none

/-- Pushes the word in a slot. -/
def loadSlot (k : Word) : Exec Unit := fun m =>
  match m.slot? k with
  | none => .error (.slotOutOfBounds k.toNat) m
  | some i =>
    match m.stack[i]? with
    | some w => push w m
    | none => .error (.panic (.index i m.stack.size)) m

/-- Puts a word into a slot. -/
def setSlot (k w : Word) : Exec Unit := fun m =>
  match m.slot? k with
  | none => .error (.slotOutOfBounds k.toNat) m
  | some i =>
    if i < m.stack.size then .ok () { m with stack := m.stack.setIfInBounds i w }
    else .error (.panic (.index i m.stack.size)) m

/-- Pops a word into a slot. -/
def storeSlot (k : Word) : Exec Unit := do
  let w ← pop
  setSlot k w

def jump (target : Word) : Exec Unit := modify fun m => { m with ip := target.toNat }

/-! ## Calls -/

/-- Enters a function with its last `count` words as the new frame. -/
def call (target count : Word) : Exec Unit := fun m =>
  if m.limits.frames ≤ m.frames.size then .error (.stackOverflow m.limits.frames) m
  else
    match difference m.stack.size (min m.fp m.stack.size) with
    | .error e => .error e m
    | .ok room =>
      if room < count.toNat then .error .stackUnderflow m
      else
        match difference m.stack.size count.toNat with
        | .error e => .error e m
        | .ok base =>
          .ok ()
            { m with
              frames := m.frames.push ⟨m.ip, m.fp⟩
              fp := base
              ip := target.toNat }

/-- Drops the innermost frame with its words and goes back to the caller. -/
def leave : Exec Unit := fun m =>
  match m.frames.back? with
  | none => .error .returnWithoutCall m
  | some frame =>
    .ok ()
      { m with
        frames := m.frames.pop
        stack := m.stack.shrink m.fp
        fp := frame.fp
        ip := frame.ret }

/-- Leaves a function: its result takes the place of its frame. -/
def ret : Exec Unit := do
  let w ← pop
  leave
  push w

/-! ## Heap -/

/-- Runs a heap operation that changes the heap. -/
def onHeap {α : Type} (op : Heap → Except Fault (Heap × α)) : Exec α := fun m =>
  match op m.heap with
  | .ok (heap, a) => .ok a { m with heap }
  | .error e => .error e m

/-- Runs a heap operation that only reads. -/
def fromHeap {α : Type} (op : Heap → Except Fault α) : Exec α := fun m =>
  match op m.heap with
  | .ok a => .ok a m
  | .error e => .error e m

/-- Takes the last `count` words off the stack. -/
def popBlock (count : Word) : Exec (Array Word) := fun m =>
  if m.stack.size < count.toNat then .error .stackUnderflow m
  else
    match difference m.stack.size count.toNat with
    | .error e => .error e m
    | .ok rest =>
      .ok (m.stack.extract rest m.stack.size) { m with stack := m.stack.shrink rest }

/-- Moves a block to the heap and pushes its handle. -/
def pushBlock (block : Array Word) : Exec Unit := do
  let handle ← onHeap fun h => h.alloc block
  push (.ofInt handle)

/-- The character with a code, or the replacement character if there is none. -/
def charOf (code : Int64) : Char :=
  if 0 ≤ code.toInt ∧ code.toInt.toNat.isValidChar then Char.ofNat code.toInt.toNat
  else '�'

def print (text : String) : Exec Unit := modify fun m => { m with output := m.output ++ text }

end Machine
end EdeLang
