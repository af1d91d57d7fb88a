import EdeLang.Bytecode.Opcode
import EdeLang.Double.Decimal
import EdeLang.Text.Style

/-!
# Symbolic code

Code is a flat list of labels and instructions whose operands may name labels. An operand list
has to match the operand kinds of its opcode: integers serve as words, integers or, where they
are not negative, as slots, counts and offsets; a double is expected where an integer may stand
in for it.
-/

namespace EdeLang

/-- An operand of a symbolic instruction. -/
inductive Operand where
  | int (v : Int64)
  | double (d : Double)
  | label (name : String)
  | syscall (code : Syscall)
deriving DecidableEq, Inhabited

/-- Why code cannot be assembled. -/
inductive AssemblyError where
  | signatureMismatch (op : Opcode)
  | undefinedLabel (name : String)
  | redefinedLabel (name : String)
deriving DecidableEq, Repr, Inhabited

/-- Operand kinds as a bracketed list. -/
def Arg.listText (args : List Arg) : String := "[" ++ Text.joined ", " (args.map Arg.name) ++ "]"

def AssemblyError.message : AssemblyError → String
  | .signatureMismatch op =>
    "Operands of `" ++ op.name ++ "` do not match its signature " ++ Arg.listText op.args
  | .undefinedLabel name => "Undefined label: `" ++ name ++ "`"
  | .redefinedLabel name => "Re-defined label: `" ++ name ++ "`"

namespace Operand

/-- The operand may stand for a kind. -/
def fits : Operand → Arg → Bool
  | .int _, .word | .double _, .word => true
  | .int _, .int => true
  | .int _, .double | .double _, .double => true
  | .int v, .slot | .int v, .count | .int v, .offset => decide (0 ≤ v)
  | .label _, .label => true
  | .syscall _, .syscall => true
  | _, _ => false

/-- The operands match the kinds one by one. -/
def fitAll : List Operand → List Arg → Bool
  | [], [] => true
  | operand :: operands, arg :: args => operand.fits arg && fitAll operands args
  | _, _ => false

def text : Operand → String
  | .int v => toString v.toInt
  | .double d => d.format Double.listingFormat
  | .label name => name
  | .syscall code => code.name

/-- The operand for a terminal: labels in green, all else in yellow. -/
def styledText : Operand → String
  | .label name => Text.styled [.green] name
  | operand => Text.styled [.yellow] operand.text

end Operand

/-- A symbolic instruction. -/
structure Inst where
  op : Opcode
  args : List Operand
deriving DecidableEq, Inhabited

namespace Inst

/-- The operands are those the opcode takes. -/
def wellFormed (i : Inst) : Bool := Operand.fitAll i.args i.op.args

/-- An instruction whose operands have been checked. -/
def make (op : Opcode) (args : List Operand) : Except AssemblyError Inst :=
  if wellFormed ⟨op, args⟩ then .ok ⟨op, args⟩ else .error (.signatureMismatch op)

/-- An instruction without operands, for an opcode that takes none. -/
def nullary? (op : Opcode) : Option Inst := if op.args.isEmpty then some ⟨op, []⟩ else none

/-- An instruction that consists of its opcode. -/
def plain (op : Opcode) : Inst := ⟨op, []⟩

def pushi (v : Int64) : Inst := ⟨.pushi, [.int v]⟩

def sload (slot : Nat) : Inst := ⟨.sload, [.int (Int64.ofNat slot)]⟩

def sstore (slot : Nat) : Inst := ⟨.sstore, [.int (Int64.ofNat slot)]⟩

def pack (count : Nat) : Inst := ⟨.pack, [.int (Int64.ofNat count)]⟩

def jumpl (label : String) : Inst := ⟨.jumpl, [.label label]⟩

def jumpzl (label : String) : Inst := ⟨.jumpzl, [.label label]⟩

def calll (label : String) (count : Nat) : Inst :=
  ⟨.calll, [.label label, .int (Int64.ofNat count)]⟩

def syscall (code : Syscall) : Inst := ⟨.syscall, [.syscall code]⟩

def size (i : Inst) : Nat := i.op.size

/-- Opcode and operands with single spaces between them. -/
def text (i : Inst) : String := Text.joined " " (i.op.name :: i.args.map Operand.text)

/-- The instruction for a terminal. -/
def styledText (i : Inst) : String :=
  Text.styled [.red] (Text.padRight 8 ' ' (Text.lowerName i.op.name)) ++
    Text.joined " " (i.args.map Operand.styledText)

end Inst

/-- A label or an instruction. -/
inductive Element where
  | label (name : String)
  | inst (i : Inst)
deriving DecidableEq, Inhabited

/-- A symbolic program. -/
abbrev Code := List Element

namespace Element

/-- Labels stand at the margin, instructions are indented. -/
def text : Element → String
  | .label name => name ++ ":"
  | .inst i => "    " ++ i.text

end Element

namespace Code

/-- One element on each line. -/
def text (code : Code) : String := String.join (code.map fun e => e.text ++ "\n")

end Code
end EdeLang
