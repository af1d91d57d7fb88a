import EdeLang.Assembly.Listing
import EdeLang.Assembly.Wire
import EdeLang.Command.Arguments
import EdeLang.Command.Report
import EdeLang.Command.Script

/-!
# The assembler command

Reads symbolic code from a file in wire form and writes its bytecode, with a listing if so
wished.
-/

namespace EdeLang.Assembler

def options : List OptionSpec := [⟨"output", some 'o', .text⟩, ⟨"dump", some 'd', .flag⟩]

def version : String := "ede-asm 0.1.0"

/-- Reports an error and gives up. -/
def fail (message file : String) (index : Option Nat) : Script :=
  .print (errorReport message file index) <| .exit 1

/-- Writes the bytecode of code. -/
def writeBinary (a : Arguments) (code : Code) (binary : Binary) : Script :=
  let output := (a.text? "output").getD "main.ebc"
  Script.printLine ("  > " ++ output) <|
    .write output binary.bytes fun
      | .error _ => fail ("Failed to write file: " ++ output) output none
      | .ok () =>
        Script.printIf (a.has "dump") (code.listing binary.bytes) <|
          Script.printLine
            (Report.success "Finished" ++ " " ++ toString binary.bytes.size ++
              " bytes, " ++ toString binary.labels.size ++ " labels") <| .exit 0

/-- Assembles code from a file. -/
def useCode (a : Arguments) (input : String) (code : Code) : Script :=
  Script.printLine "2. Resolve Label & Generate Binary" <|
    match code.assembleLocated with
    | .error (index, e) => fail e.message input index
    | .ok binary => writeBinary a code binary

/-- What the command does for its arguments. -/
def script (a : Arguments) : Script :=
  let input := a.operand.getD "main.ir.json"
  Script.printLine "Ede Assembler" <|
    Script.printLine "1. Read IR" <|
      Script.printLine ("  < " ++ input) <|
        .read input fun found =>
          match found.toOption.bind textOf? with
          | none => fail ("Failed to open file: " ++ input) input none
          | some text =>
            match Code.ofWire text with
            | .error e => fail ("Failed to parse IR: " ++ e.message) input none
            | .ok code => useCode a input code

end EdeLang.Assembler
