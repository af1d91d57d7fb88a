import EdeLang.Bytecode.Word
import EdeLang.Text.Characters

/-!
# Opcodes and system calls

The byte of an opcode is its place in `Opcode.all`. The last six are placeholders: they stand
in symbolic code only, and the assembler turns each into the opcode named by
`Opcode.concrete`, which takes as many bytes.
-/

namespace EdeLang

/-- Services of the machine's host. -/
inductive Syscall where
  | exit
  | printc
  | prints
  | malloc
  | free
deriving DecidableEq, Repr, Inhabited

namespace Syscall

/-- All system calls in the order of their codes. -/
def all : List Syscall := [.exit, .printc, .prints, .malloc, .free]

def name : Syscall → String
  | .exit => "EXIT"
  | .printc => "PRINTC"
  | .prints => "PRINTS"
  | .malloc => "MALLOC"
  | .free => "FREE"

def byte : Syscall → UInt8
  | .exit => 0
  | .printc => 1
  | .prints => 2
  | .malloc => 3
  | .free => 4

/-- The system call with a code. -/
def ofByte? (b : UInt8) : Option Syscall := all[b.toNat]?

/-- The system call with a name, in any case. -/
def ofName? (s : String) : Option Syscall :=
  all.find? fun call => call.name == Text.upperName s

end Syscall

/-- Instruction codes. -/
inductive Opcode where
  | noop | push | pop
  | iadd | isub | imul | idiv
  | dadd | dsub | dmul | ddiv
  | sload | sstore
  | eq | neq
  | jump | jumpz | jumpnz
  | syscall | swap | call | ret
  | pack | scat | hload | hstore
  | pushi | pushd | jumpl | jumpzl | jumpnzl | calll
deriving DecidableEq, Repr, Inhabited

/-- Kinds of operands. -/
inductive Arg where
  | word
  | int
  | double
  | slot
  | count
  | offset
  | label
  | syscall
deriving DecidableEq, Repr, Inhabited

namespace Arg

def name : Arg → String
  | .word => "Word"
  | .int => "Int"
  | .double => "Double"
  | .slot => "Slot"
  | .count => "Count"
  | .offset => "Offset"
  | .label => "Label"
  | .syscall => "Syscall"

/-- Bytes an operand takes: one for a system call, a word for all else. -/
def size : Arg → Nat
  | .syscall => 1
  | _ => Word.size

end Arg

namespace Opcode

/-- All opcodes in the order of their bytes. -/
def all : List Opcode :=
  [.noop, .push, .pop, .iadd, .isub, .imul, .idiv, .dadd, .dsub, .dmul, .ddiv, .sload, .sstore,
    .eq, .neq, .jump, .jumpz, .jumpnz, .syscall, .swap, .call, .ret, .pack, .scat, .hload,
    .hstore, .pushi, .pushd, .jumpl, .jumpzl, .jumpnzl, .calll]

def name : Opcode → String
  | .noop => "NOOP" | .push => "PUSH" | .pop => "POP"
  | .iadd => "IADD" | .isub => "ISUB" | .imul => "IMUL" | .idiv => "IDIV"
  | .dadd => "DADD" | .dsub => "DSUB" | .dmul => "DMUL" | .ddiv => "DDIV"
  | .sload => "SLOAD" | .sstore => "SSTORE"
  | .eq => "EQ" | .neq => "NEQ"
  | .jump => "JUMP" | .jumpz => "JUMPZ" | .jumpnz => "JUMPNZ"
  | .syscall => "SYSCALL" | .swap => "SWAP" | .call => "CALL" | .ret => "RET"
  | .pack => "PACK" | .scat => "SCAT" | .hload => "HLOAD" | .hstore => "HSTORE"
  | .pushi => "PUSHI" | .pushd => "PUSHD"
  | .jumpl => "JUMPL" | .jumpzl => "JUMPZL" | .jumpnzl => "JUMPNZL" | .calll => "CALLL"

def byte : Opcode → UInt8
  | .noop => 0 | .push => 1 | .pop => 2
  | .iadd => 3 | .isub => 4 | .imul => 5 | .idiv => 6
  | .dadd => 7 | .dsub => 8 | .dmul => 9 | .ddiv => 10
  | .sload => 11 | .sstore => 12
  | .eq => 13 | .neq => 14
  | .jump => 15 | .jumpz => 16 | .jumpnz => 17
  | .syscall => 18 | .swap => 19 | .call => 20 | .ret => 21
  | .pack => 22 | .scat => 23 | .hload => 24 | .hstore => 25
  | .pushi => 26 | .pushd => 27
  | .jumpl => 28 | .jumpzl => 29 | .jumpnzl => 30 | .calll => 31

/-- The opcode with a byte. -/
def ofByte? : UInt8 → Option Opcode
  | 0 => some .noop | 1 => some .push | 2 => some .pop
  | 3 => some .iadd | 4 => some .isub | 5 => some .imul | 6 => some .idiv
  | 7 => some .dadd | 8 => some .dsub | 9 => some .dmul | 10 => some .ddiv
  | 11 => some .sload | 12 => some .sstore
  | 13 => some .eq | 14 => some .neq
  | 15 => some .jump | 16 => some .jumpz | 17 => some .jumpnz
  | 18 => some .syscall | 19 => some .swap | 20 => some .call | 21 => some .ret
  | 22 => some .pack | 23 => some .scat | 24 => some .hload | 25 => some .hstore
  | 26 => some .pushi | 27 => some .pushd
  | 28 => some .jumpl | 29 => some .jumpzl | 30 => some .jumpnzl | 31 => some .calll
  | _ => none

/-- The opcode with a name, in any case. -/
def ofName? (s : String) : Option Opcode :=
  all.find? fun op => op.name == Text.upperName s

/-- Operand kinds an opcode takes, in order. -/
def args : Opcode → List Arg
  | .push => [.word]
  | .sload | .sstore => [.slot]
  | .jump | .jumpz | .jumpnz => [.offset]
  | .syscall => [.syscall]
  | .call => [.offset, .count]
  | .pack => [.count]
  | .pushi => [.int]
  | .pushd => [.double]
  | .jumpl | .jumpzl | .jumpnzl => [.label]
  | .calll => [.label, .count]
  | _ => []

/-- Bytes of an instruction: its opcode and its operands. -/
def size (op : Opcode) : Nat := op.args.foldr (fun arg size => arg.size + size) 1

/-- The opcode a placeholder stands for; every other opcode stands for itself. -/
def concrete : Opcode → Opcode
  | .pushi | .pushd => .push
  | .jumpl => .jump
  | .jumpzl => .jumpz
  | .jumpnzl => .jumpnz
  | .calll => .call
  | op => op

/-- Placeholders cannot be executed. -/
def isPlaceholder (op : Opcode) : Bool := op.concrete != op

end Opcode
end EdeLang
