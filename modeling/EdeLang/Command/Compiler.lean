import EdeLang.Command.Arguments
import EdeLang.Command.Report
import EdeLang.Command.Script
import EdeLang.Evaluation.Eval
import EdeLang.Machine.Console
import EdeLang.Program

/-!
# The compiler command

Reads a source file, reports what is wrong with it, and evaluates it or writes its bytecode,
which it may also run. On request it shows what it does and what it finds on the way.
-/

namespace EdeLang.Compiler

def options : List OptionSpec :=
  [⟨"output", some 'o', .text⟩, ⟨"ast", none, .flag⟩, ⟨"cfg", none, .flag⟩, ⟨"ir", none, .flag⟩,
    ⟨"check", some 'c', .flag⟩, ⟨"run", some 'r', .flag⟩, ⟨"eval", some 'e', .flag⟩,
    ⟨"tmax", some 't', .number⟩, ⟨"verbose", some 'v', .flag⟩]

def version : String := "ede 0.1.0"

/-- The file name without its last extension. A leading dot starts no extension. -/
def stem (name : String) : String :=
  let beforeDot := (name.toList.reverse.dropWhile (· != '.')).drop 1
  if beforeDot.isEmpty then name else String.ofList beforeDot.reverse

/-- The name of the module in a file. -/
def moduleName (path : String) : String :=
  match (Directory.parts path).getLast? with
  | some name => if name = ".." then "" else stem name
  | none => ""

/-- A line of the log. -/
def log (a : Arguments) (text : String) (next : Script) : Script :=
  Script.printIf (a.has "verbose") (text ++ "\n") next

/-- Runs bytecode and exits with its status. -/
def runBytes (a : Arguments) (bytes : Array UInt8) : Script :=
  let watched :=
    (Machine.load bytes Limits.standard).watch [Console.observer false] (a.numberOf? "tmax")
  .print (String.join watched.events.toList) <|
    match watched.result with
    | .ok (.exited code) =>
      log a ("Exited with status " ++ toString code.toInt) <| .exit code.toInt
    | .ok .running => Script.printLine (Report.stopped (a.numberOf? "tmax")) <| .exit 2
    | .error f => Script.printLine (Report.fault "exception" f watched.machine) <| .exit 1

/-- Writes bytecode to a file, and runs it if so wished. -/
def writeBytes (a : Arguments) (bytes : Array UInt8) : Script :=
  let output := (a.text? "output").getD "main.ebc"
  log a ("  > " ++ output) <|
    .write output bytes fun
      | .error e =>
        Script.printLine
          (Report.failure "error" ++ ": cannot write `" ++ output ++ "`: " ++ e.message) <| .exit 1
      | .ok () =>
        if a.has "run" then log a "7. Run" <| runBytes a bytes
        else
          Script.printLine (Report.success "Finished" ++ " " ++ toString bytes.size ++ " bytes") <| .exit 0

/-- Lowers and assembles a checked module. -/
def compile (a : Arguments) (m : Module) : Script :=
  log a "5. Build IR" <|
    match m.lower with
    | .error _ => .exit abortStatus
    | .ok code =>
      Script.printIf (a.has "ir") code.text <|
        log a "6. Assemble" <|
          match code.assemble with
          | .error _ => .exit abortStatus
          | .ok binary => writeBytes a binary.bytes

/-- Evaluates a checked module and exits with the status of its value. -/
def evaluate (a : Arguments) (input : String) (m : Module) : Script :=
  log a "*. Evaluate" <|
    match m.eval ampleFuel with
    | .ok v => Script.printLine (Report.success "Evaluated" ++ " " ++ v.text) <| .exit v.exitCode.toInt
    | .error (.divisionByZero pos) =>
      Script.printLine (Report.failure "exception" ++ ": " ++ input ++ ":" ++ Halt.divisionText pos) <|
        .exit 1
    | .error _ => .exit abortStatus

/-- Goes on with a module that has been checked. -/
def useModule (a : Arguments) (input : String) (m : Module) : Script :=
  Script.printIf (a.has "cfg") m.dot <|
    if a.has "check" then
      Script.printLine (Report.success "Finished" ++ " " ++ input ++ " checks clean") <| .exit 0
    else if a.has "eval" then evaluate a input m
    else compile a m

/-- Parses and checks tokens. -/
def parse (a : Arguments) (input source : String) (tokens : List Token) : Script :=
  log a "3. Parse" <|
    match Module.ofTokens (moduleName input) tokens with
    | .error (.diagnostic d) => .print (d.report input source) <| .exit 1
    | .error _ => .exit abortStatus
    | .ok m =>
      Script.printIf (a.has "ast") m.text <|
        log a "4. Type Check" <|
          match m.check with
          | ⟨m, .ok _⟩ => useModule a input m
          | ⟨_, .error (.diagnostic d)⟩ => .print (d.report input source) <| .exit 1
          | ⟨_, .error .typedTwice⟩ => .exit abortStatus

/-- Reads the text of a source file. -/
def useSource (a : Arguments) (input source : String) : Script :=
  log a "2. Tokenize" <|
    match tokenize source false with
    | .error d => .print (d.report input source) <| .exit 1
    | .ok tokens => parse a input source tokens

/-- The report that a source file cannot be read. -/
def unreadable (input reason : String) : Script :=
  Script.printLine (Report.failure "error" ++ ": cannot open `" ++ input ++ "`: " ++ reason) <| .exit 1

/-- What the command does for its arguments. -/
def script (a : Arguments) : Script :=
  let input := a.operand.getD "main.ede"
  log a "Ede Compiler" <|
    log a "1. Read Source" <|
      log a ("  < " ++ input) <|
        .read input fun
          | .error e => unreadable input e.message
          | .ok bytes =>
            match textOf? bytes with
            | none => unreadable input "stream did not contain valid UTF-8"
            | some source => useSource a input source

end EdeLang.Compiler
