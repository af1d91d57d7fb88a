import EdeLang.Command.Tool

/-!
# The command line

The first word names the tool, the others are its own.
-/

namespace EdeLang

/-- The cause of a failed file access. -/
def FileError.ofError : IO.Error → FileError
  | .inappropriateType _ code _ => if code = 21 then .isADirectory else .notADirectory
  | .invalidArgument _ code _ => if code = 36 then .nameTooLong else .notFound
  | _ => .notFound

/-- Performs the effects of a script. -/
def Script.perform : Script → IO UInt32
  | .exit status => return UInt32.ofNat (Script.exitCode status)
  | .print text next => do
    IO.print text
    next.perform
  | .read path next => do
    let found ← (IO.FS.readBinFile path).toBaseIO
    match found with
    | .ok bytes => (next (.ok bytes.data)).perform
    | .error e => (next (.error (.ofError e))).perform
  | .write path bytes next => do
    let written ← (IO.FS.writeBinFile path ⟨bytes⟩).toBaseIO
    match written with
    | .ok () => (next (.ok ())).perform
    | .error e => (next (.error (.ofError e))).perform

end EdeLang

def main (words : List String) : IO UInt32 :=
  match words with
  | [] => return 2
  | name :: words =>
    match EdeLang.Tool.ofName? name with
    | some tool => (tool.script words).perform
    | none => return 2
