import EdeLang.Assembly.Labels
import EdeLang.Bytecode.Instruction
import EdeLang.Double.Rounding

/-!
# Assembly

Assembly takes two passes. The layout gives every label the offset of the next instruction,
which is the sum of the sizes before it. Resolution then turns each instruction into its
executable form, with label operands replaced by their offsets.
-/

namespace EdeLang

/-- An assembled program with the labels it was made with. -/
structure Binary where
  bytes : Array UInt8
  labels : Labels

/-- The labels of code that starts at an offset, after those in the table. -/
def Code.layoutFrom (labels : Labels) (offset : Nat) : Code → Except AssemblyError Labels
  | [] => .ok labels
  | .label name :: rest =>
    match labels.insert name offset with
    | (labels, .ok ()) => layoutFrom labels offset rest
    | (_, .error e) => .error e
  | .inst i :: rest => layoutFrom labels (offset + i.size) rest

/-- The label table of a program. -/
def Code.layout (code : Code) : Except AssemblyError Labels := code.layoutFrom .empty 0

/-- The encoded form of an operand of a kind, if the operand has one there. An integer in the
place of a double stands for the double nearest to it. -/
def Operand.field? (labels : Labels) : Operand → Arg → Except AssemblyError (Option Field)
  | .syscall code, .syscall => .ok (some (.syscall code))
  | _, .syscall => .ok none
  | .syscall _, _ => .ok none
  | .int v, .double => .ok (some (.word (.ofDouble (Double.ofInt v.toInt))))
  | .int v, _ => .ok (some (.word (.ofInt v)))
  | .double d, _ => .ok (some (.word (.ofDouble d)))
  | .label name, _ =>
    match labels.get name with
    | .ok offset => .ok (some (.word (.ofNat offset)))
    | .error e => .error e

/-- The encoded forms of operands of the given kinds, from left to right. -/
def Operand.fields? (labels : Labels) :
    List Operand → List Arg → Except AssemblyError (Option (List Field))
  | [], [] => .ok (some [])
  | operand :: operands, arg :: args => do
    match ← operand.field? labels arg with
    | none => return none
    | some field =>
      match ← fields? labels operands args with
      | none => return none
      | some rest => return some (field :: rest)
  | _, _ => .ok none

/-- The executable form of an instruction. -/
def Inst.resolve (labels : Labels) (i : Inst) : Except AssemblyError Instruction := do
  match ← Operand.fields? labels i.args i.op.args with
  | none => .error (.signatureMismatch i.op)
  | some fields =>
    match Instruction.ofFields? i.op.concrete fields with
    | none => .error (.signatureMismatch i.op)
    | some instruction => .ok instruction

/-- The instructions of a program with labels replaced. A failure names the element. -/
def Code.resolveFrom (labels : Labels) (index : Nat) :
    Code → Except (Nat × AssemblyError) (List Instruction)
  | [] => .ok []
  | .label _ :: rest => resolveFrom labels (index + 1) rest
  | .inst i :: rest =>
    match i.resolve labels with
    | .error e => .error (index, e)
    | .ok instruction => do
      let more ← resolveFrom labels (index + 1) rest
      return instruction :: more

/-- Bytes of instructions one after the other. -/
def Instruction.encodeAll (instructions : List Instruction) : Array UInt8 :=
  (instructions.flatMap Instruction.encode).toArray

/-- Assembles a program. A failure of the second pass names the element it is about. -/
def Code.assembleLocated (code : Code) : Except (Option Nat × AssemblyError) Binary :=
  match code.layout with
  | .error e => .error (none, e)
  | .ok labels =>
    match code.resolveFrom labels 0 with
    | .error (index, e) => .error (some index, e)
    | .ok instructions => .ok ⟨Instruction.encodeAll instructions, labels⟩

/-- Assembles a program. -/
def Code.assemble (code : Code) : Except AssemblyError Binary :=
  match code.assembleLocated with
  | .ok binary => .ok binary
  | .error (_, e) => .error e

end EdeLang
