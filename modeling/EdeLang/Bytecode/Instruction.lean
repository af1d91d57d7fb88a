import EdeLang.Bytecode.Opcode
import EdeLang.Text.Style

/-!
# Instructions

An executable instruction is an opcode that is no placeholder together with its operands. Every
conversion goes through the opcode and the list of operand fields: encoding writes them one
after the other, decoding reads the fields that the opcode asks for.
-/

namespace EdeLang

/-- An executable instruction. -/
inductive Instruction where
  | noop
  | push (value : Word)
  | pop
  | iadd | isub | imul | idiv
  | dadd | dsub | dmul | ddiv
  | sload (slot : Word)
  | sstore (slot : Word)
  | eq | neq
  | jump (target : Word)
  | jumpz (target : Word)
  | jumpnz (target : Word)
  | syscall (code : Syscall)
  | swap
  | call (target : Word) (count : Word)
  | ret
  | pack (count : Word)
  | scat
  | hload | hstore
deriving DecidableEq, Inhabited

/-- An encoded operand. -/
inductive Field where
  | word (value : Word)
  | syscall (code : Syscall)
deriving DecidableEq, Inhabited

/-- Why bytes are no instruction. -/
inductive DecodeError where
  | outOfBounds (offset : Nat)
  | overflow (offset : Nat)
  | unknownOpcode (byte : UInt8)
  | unresolved (op : Opcode)
  | unknownSyscall (byte : UInt8)
deriving DecidableEq, Repr, Inhabited

def DecodeError.message : DecodeError → String
  | .outOfBounds offset => s!"Instruction pointer out of bounds: {offset}"
  | .overflow offset => s!"Instruction at {offset} overflows the program"
  | .unknownOpcode byte => "Unknown opcode: 0x" ++ Text.hexUpper 2 byte.toNat
  | .unresolved op => "Unresolved placeholder `" ++ op.name ++ "` in instruction stream"
  | .unknownSyscall byte => "Unknown syscall code: 0x" ++ Text.hexUpper 2 byte.toNat

namespace Field

def bytes : Field → List UInt8
  | .word value => value.bytes
  | .syscall code => [code.byte]

/-- The field of a kind in the bytes that spell it. -/
def read : Arg → List UInt8 → Except DecodeError Field
  | .syscall, bytes =>
    match bytes with
    | [] => .error (.unknownSyscall 0)
    | b :: _ =>
      match Syscall.ofByte? b with
      | some code => .ok (.syscall code)
      | none => .error (.unknownSyscall b)
  | _, bytes => .ok (.word (Word.ofNat (ofLittleEndian bytes)))

/-- Fields of the given kinds, one after the other. -/
def readAll : List Arg → List UInt8 → Except DecodeError (List Field)
  | [], _ => .ok []
  | arg :: args, bytes => do
    let field ← read arg (bytes.take arg.size)
    let rest ← readAll args (bytes.drop arg.size)
    return field :: rest

end Field

namespace Instruction

def op : Instruction → Opcode
  | .noop => .noop
  | .push _ => .push
  | .pop => .pop
  | .iadd => .iadd
  | .isub => .isub
  | .imul => .imul
  | .idiv => .idiv
  | .dadd => .dadd
  | .dsub => .dsub
  | .dmul => .dmul
  | .ddiv => .ddiv
  | .sload _ => .sload
  | .sstore _ => .sstore
  | .eq => .eq
  | .neq => .neq
  | .jump _ => .jump
  | .jumpz _ => .jumpz
  | .jumpnz _ => .jumpnz
  | .syscall _ => .syscall
  | .swap => .swap
  | .call _ _ => .call
  | .ret => .ret
  | .pack _ => .pack
  | .scat => .scat
  | .hload => .hload
  | .hstore => .hstore

def fields : Instruction → List Field
  | .push value => [.word value]
  | .sload slot | .sstore slot => [.word slot]
  | .jump target | .jumpz target | .jumpnz target => [.word target]
  | .syscall code => [.syscall code]
  | .call target count => [.word target, .word count]
  | .pack count => [.word count]
  | _ => []

/-- The instruction with an opcode and fields, if the fields are those the opcode takes. -/
def ofFields? : Opcode → List Field → Option Instruction
  | .noop, [] => some .noop
  | .push, [.word value] => some (.push value)
  | .pop, [] => some .pop
  | .iadd, [] => some .iadd
  | .isub, [] => some .isub
  | .imul, [] => some .imul
  | .idiv, [] => some .idiv
  | .dadd, [] => some .dadd
  | .dsub, [] => some .dsub
  | .dmul, [] => some .dmul
  | .ddiv, [] => some .ddiv
  | .sload, [.word slot] => some (.sload slot)
  | .sstore, [.word slot] => some (.sstore slot)
  | .eq, [] => some .eq
  | .neq, [] => some .neq
  | .jump, [.word target] => some (.jump target)
  | .jumpz, [.word target] => some (.jumpz target)
  | .jumpnz, [.word target] => some (.jumpnz target)
  | .syscall, [.syscall code] => some (.syscall code)
  | .swap, [] => some .swap
  | .call, [.word target, .word count] => some (.call target count)
  | .ret, [] => some .ret
  | .pack, [.word count] => some (.pack count)
  | .scat, [] => some .scat
  | .hload, [] => some .hload
  | .hstore, [] => some .hstore
  | _, _ => none

def size (i : Instruction) : Nat := i.op.size

/-- The bytes of an instruction. -/
def encode (i : Instruction) : List UInt8 := i.op.byte :: i.fields.flatMap Field.bytes

/-- The longest instruction, a call, takes this many bytes. -/
def maxSize : Nat := 17

/-- The instruction at the start of some bytes. The offset of the bytes in the program is for
the error only. -/
def decodeHead (offset : Nat) : List UInt8 → Except DecodeError Instruction
  | [] => .error (.outOfBounds offset)
  | tag :: body =>
    match Opcode.ofByte? tag with
    | none => .error (.unknownOpcode tag)
    | some op =>
      if op.isPlaceholder then .error (.unresolved op)
      else if body.length < op.size - 1 then .error (.overflow offset)
      else
        match Field.readAll op.args body with
        | .error e => .error e
        | .ok fields =>
          match ofFields? op fields with
          | some i => .ok i
          | none => .error (.unresolved op)

/-- The instruction at an offset of a program. -/
def decode (program : Array UInt8) (offset : Nat) : Except DecodeError Instruction :=
  decodeHead offset (program.extract offset (offset + maxSize)).toList

/-- The instructions of a stream of bytes with their offsets. The fuel bounds their number. -/
def decodeStream : Nat → Nat → List UInt8 → Except DecodeError (List (Nat × Instruction))
  | _, _, [] => .ok []
  | 0, offset, _ :: _ => .error (.outOfBounds offset)
  | fuel + 1, offset, b :: bytes => do
    let i ← decodeHead offset (b :: bytes)
    let rest ← decodeStream fuel (offset + i.size) ((b :: bytes).drop i.size)
    return (offset, i) :: rest

/-- All instructions of a program from its start, with their offsets. -/
def decodeAll (program : Array UInt8) : Except DecodeError (List (Nat × Instruction)) :=
  decodeStream program.size 0 program.toList

/-- Name column of a listing. -/
def nameColumn (op : Opcode) : String := Text.padRight 8 ' ' (Text.lowerName op.name)

/-- Addresses are written with at least four hexadecimal digits. -/
def addressText (target : Word) : String := "0x" ++ Text.hexUpper 4 target.toNat

/-- The instruction for a terminal: name in red, values in yellow, addresses in blue. -/
def styledText (i : Instruction) : String :=
  let name := (Text.Style.red, nameColumn i.op)
  match i with
  | .push value => Text.colourRun [name, (.yellow, value.text)]
  | .sload n | .sstore n | .pack n => Text.colourRun [name, (.yellow, toString n.toNat)]
  | .jump target | .jumpz target | .jumpnz target =>
    Text.colourRun [name, (.blue, addressText target)]
  | .syscall code => Text.colourRun [name, (.yellow, code.name)]
  | .call target count =>
    Text.colourRun [name, (.blue, addressText target)] ++ " " ++
      Text.styled [.yellow] (toString count.toNat)
  | _ => Text.styled [.red] (nameColumn i.op)

end Instruction
end EdeLang
