import EdeLang.Command.Directory

/-!
# Scripts

A script is what a command does to the world around it: it prints, reads and writes files, and
exits with a status. It can be run on a directory, which gives all that there is to see of it.
-/

namespace EdeLang

/-- The remaining effects of a command. -/
inductive Script where
  | exit (status : Int)
  | print (text : String) (next : Script)
  | read (path : String) (next : Except FileError (Array UInt8) → Script)
  | write (path : String) (bytes : Array UInt8) (next : Except FileError Unit → Script)

/-- What is left of a command: its exit code, what it printed, and the directory. -/
structure Finished where
  code : Nat
  output : String
  directory : Directory

namespace Script

/-- The exit code that stands for a status: its lowest byte. -/
def exitCode (status : Int) : Nat := (status % 256).toNat

/-- Runs a script in a directory, after some output. -/
def runFrom (output : String) (d : Directory) : Script → Finished
  | .exit status => ⟨exitCode status, output, d⟩
  | .print text next => runFrom (output ++ text) d next
  | .read path next => runFrom output d (next (d.read path))
  | .write path bytes next =>
    match d.write path bytes with
    | .ok d => runFrom output d (next (.ok ()))
    | .error e => runFrom output d (next (.error e))

/-- Runs a script in a directory. -/
def run (s : Script) (d : Directory) : Finished := s.runFrom "" d

/-- Prints a line. -/
def printLine (text : String) (next : Script) : Script := .print (text ++ "\n") next

/-- Prints a text if a condition holds. -/
def printIf (condition : Bool) (text : String) (next : Script) : Script :=
  if condition then .print text next else next

end Script

/-- The text of bytes that are well-formed UTF-8. -/
def textOf? (bytes : Array UInt8) : Option String := String.fromUTF8? ⟨bytes⟩

/-- The status of a command that is given up on. -/
def abortStatus : Int := 101

end EdeLang
