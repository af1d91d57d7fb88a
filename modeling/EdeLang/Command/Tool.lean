import EdeLang.Command.Assembler
import EdeLang.Command.Compiler
import EdeLang.Command.Emulator

/-!
# Tools

The three commands by name, and what each does for the words of its command line.
-/

namespace EdeLang

inductive Tool where
  | compiler
  | assembler
  | emulator
deriving DecidableEq, Repr

namespace Tool

def all : List Tool := [.compiler, .assembler, .emulator]

def name : Tool → String
  | .compiler => "ede"
  | .assembler => "edeasm"
  | .emulator => "edevm"

def ofName? (s : String) : Option Tool := all.find? fun t => t.name == s

def options : Tool → List OptionSpec
  | .compiler => Compiler.options
  | .assembler => Assembler.options
  | .emulator => Emulator.options

def version : Tool → String
  | .compiler => Compiler.version
  | .assembler => Assembler.version
  | .emulator => Emulator.version

/-- The spelling of an option. -/
def optionText (o : OptionSpec) : String :=
  "  " ++ (match o.letter with
    | some c => String.ofList ['-', c] ++ ", "
    | none => "    ") ++ "--" ++ o.long

/-- A summary of the options. -/
def help (t : Tool) : String :=
  "Usage: " ++ t.name ++ " [OPTIONS] [FILE]\n\nOptions:\n" ++
    String.join (t.options.map fun o => optionText o ++ "\n")

/-- What the tool does for arguments that have been read. -/
def act : Tool → Arguments → Script
  | .compiler => Compiler.script
  | .assembler => Assembler.script
  | .emulator => Emulator.script

/-- What the tool does for the words of its command line. A wrong command line does nothing. -/
def script (t : Tool) (words : List String) : Script :=
  match Arguments.ofWords t.options words with
  | .ok a => t.act a
  | .error .version => Script.printLine t.version <| .exit 0
  | .error .help => .print t.help <| .exit 0
  | .error .wrong => .exit 2

end Tool
end EdeLang
