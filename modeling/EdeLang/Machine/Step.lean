import EdeLang.Machine.Basic

/-!
# Steps and runs

A step fetches the instruction at the instruction pointer, moves the pointer behind it and
executes it. An instruction that fails has moved the pointer and popped what it popped; bytes
that are no instruction leave the machine as it was.
-/

namespace EdeLang.Machine

/-- Replaces two integers by the result of an operation. -/
def intOp (op : Int64 → Int64 → Exec Int64) : Exec Unit := do
  let r ← popInt
  let l ← popInt
  push (.ofInt (← op l r))

/-- Replaces two doubles by the result of an operation. -/
def doubleOp (op : Double → Double → Exec Double) : Exec Unit := do
  let r ← popDouble
  let l ← popDouble
  push (.ofDouble (← op l r))

/-- Replaces two words by the outcome of a comparison. -/
def compareOp (op : Word → Word → Bool) : Exec Unit := do
  let r ← pop
  let l ← pop
  push (.ofBool (op l r))

/-- Jumps if the popped word has the given truth value. -/
def jumpIf (expected : Bool) (target : Word) : Exec Unit := do
  let w ← pop
  if w.toBool == expected then jump target

def system : Syscall → Exec Unit
  | .exit => do
    let code ← popInt
    modify fun m => { m with exit := some code }
  | .printc => do
    let code ← popInt
    print (String.singleton (charOf code))
  | .prints => do
    let handle ← popInt
    let block ← fromHeap fun h => h.get handle
    print (String.ofList (block.toList.map fun w => charOf w.toInt))
  | .malloc => do
    let count ← popInt
    let handle ← onHeap fun h => h.allocZeroed count.toInt.toNat
    push (.ofInt handle)
  | .free => do
    let handle ← popInt
    onHeap fun h => (h.free handle).map (·, ())

def exec : Instruction → Exec Unit
  | .noop => pure ()
  | .push value => push value
  | .pop => do
    let _ ← pop
  | .iadd => intOp fun l r => pure (l + r)
  | .isub => intOp fun l r => pure (l - r)
  | .imul => intOp fun l r => pure (l * r)
  | .idiv => intOp fun l r => if r = 0 then throw .divisionByZero else pure (l / r)
  | .dadd => doubleOp fun l r => pure (l.add r)
  | .dsub => doubleOp fun l r => pure (l.sub r)
  | .dmul => doubleOp fun l r => pure (l.mul r)
  | .ddiv => doubleOp fun l r => if r.isZero then throw .divisionByZero else pure (l.div r)
  | .sload k => loadSlot k
  | .sstore k => storeSlot k
  | .eq => compareOp fun l r => l == r
  | .neq => compareOp fun l r => l != r
  | .jump target => jump target
  | .jumpz target => jumpIf false target
  | .jumpnz target => jumpIf true target
  | .syscall code => system code
  | .swap => do
    let r ← pop
    let l ← pop
    push r
    push l
  | .call target count => call target count
  | .ret => ret
  | .pack count => do
    let block ← popBlock count
    pushBlock block
  | .scat => do
    let r ← popInt
    let l ← popInt
    let left ← fromHeap fun h => h.get l
    let right ← fromHeap fun h => h.get r
    pushBlock (left ++ right)
  | .hload => do
    let index ← popInt
    let handle ← popInt
    let w ← fromHeap fun h => h.load handle index
    push w
  | .hstore => do
    let value ← pop
    let index ← popInt
    let handle ← popInt
    onHeap fun h => (h.store handle index value).map (·, ())

/-- Executes one instruction and gives it with its offset. -/
def step : Exec (Nat × Instruction) := fun m =>
  let offset := m.ip
  match Instruction.decode m.program offset with
  | .error e => .error (.decode e) m
  | .ok i =>
    match exec i { m with ip := offset + i.size } with
    | .error e m => .error e m
    | .ok () m => .ok (offset, i) m.settle

/-- Runs until the program ends, for at most the given number of instructions. -/
def run : Nat → Exec Status
  | 0 => fun m => .ok m.status m
  | budget + 1 => fun m =>
    if m.isTerminated then .ok m.status m
    else
      match step m with
      | .error e m => .error e m
      | .ok _ m => run budget m

end EdeLang.Machine
