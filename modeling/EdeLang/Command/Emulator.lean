import EdeLang.Command.Arguments
import EdeLang.Command.Report
import EdeLang.Command.Script
import EdeLang.Machine.Console
import EdeLang.Machine.DumpConfig

/-!
# The machine command

Runs a bytecode file with the console and, if so wished, dumps of the machine.
-/

namespace EdeLang.Emulator

def options : List OptionSpec :=
  [⟨"tmax", some 't', .number⟩, ⟨"dump-cfg", some 'd', .text⟩, ⟨"dump-all", some 'a', .flag⟩,
    ⟨"style", some 's', .flag⟩, ⟨"stack", none, .number⟩]

def version : String := "edevm 0.1.0"

/-- Reports that the machine cannot be set up. -/
def fail (e : LoadError) : Script :=
  Script.printLine (Report.failure "error" ++ ": " ++ e.message) <| .exit 1

/-- Reports how a run ended. -/
def conclude (a : Arguments) (w : Watched String) : Script :=
  match w.result with
  | .ok (.exited code) =>
    Script.printLine (Report.success "Exited" ++ " with status " ++ toString code.toInt) <|
      .exit code.toInt
  | .ok .running => Script.printLine (Report.stopped (a.numberOf? "tmax")) <| .exit 0
  | .error f =>
    if f.isException then Script.printLine (Report.fault "exception" f w.machine) <| .exit 1
    else Script.printLine (Report.fault "error" f w.machine) <| .exit 2

/-- Runs a machine under observation. -/
def runMachine (a : Arguments) (m : Machine) (dump : Dump.Settings) : Script :=
  let watched :=
    m.watch [Dump.observer dump, Console.observer (a.has "style")] (a.numberOf? "tmax")
  .print (String.join watched.events.toList) <|
    Script.printLine "" <|
      Script.printLine "=================================================" <| conclude a watched

/-- Reads what to dump and runs a machine. -/
def useMachine (a : Arguments) (m : Machine) : Script :=
  Script.printLine "[INIT]" <|
    match a.text? "dump-cfg" with
    | none => runMachine a m ⟨none, a.has "dump-all"⟩
    | some file =>
      .read file fun
        | .error .isADirectory => fail (.dumpConfig file)
        | .error _ => fail (.fileOpen file)
        | .ok bytes =>
          match Dump.Settings.ofFile file (textOf? bytes) (a.has "dump-all") with
          | .error e => fail e
          | .ok dump => runMachine a m dump

/-- The limits of the machine. -/
def limits (a : Arguments) : Limits :=
  { Limits.standard with stack := (a.numberOf? "stack").getD Limits.standard.stack }

/-- What the command does for its arguments. -/
def script (a : Arguments) : Script :=
  let input := a.operand.getD "main.ebc"
  let rule := "+-----------------------------------------------+"
  Script.printLine "Ede VM" <|
    Script.printLine rule <|
      Script.printLine ("| " ++ Text.padRight 45 ' ' input ++ " |") <|
        Script.printLine rule <|
          .read input fun
            | .error _ => fail (.fileOpen input)
            | .ok bytes => useMachine a (Machine.load bytes (limits a))

end EdeLang.Emulator
