import EdeLang.Assembly.Assemble
import EdeLang.Lowering.Lower
import EdeLang.Syntax.Grammar
import EdeLang.Typing.Check

/-!
# From source text to bytecode

A source text is read, checked, lowered and assembled.
-/

namespace EdeLang

/-- Why a source text has no bytecode. Only its reading and checking can fail by its own
fault. -/
inductive BuildError where
  | read (stop : Stop)
  | check (e : CheckError)
  | lower (e : LowerError)
  | assemble (e : AssemblyError)

/-- The message of a step that cannot fail on a checked module. -/
def AssemblyError.unencodable (e : AssemblyError) : String :=
  "compiler produced unencodable IR: " ++ e.message

def BuildError.message : BuildError → String
  | .read stop => stop.message
  | .check e => e.message
  | .lower e => e.message
  | .assemble e => e.unencodable

/-- The checked module of a source text. -/
def Module.checked (name source : String) : Except BuildError Module :=
  match Module.ofSource name source with
  | .error stop => .error (.read stop)
  | .ok m =>
    match m.check with
    | ⟨m, .ok _⟩ => .ok m
    | ⟨_, .error e⟩ => .error (.check e)

/-- The bytecode of a checked module. -/
def Module.build (m : Module) : Except BuildError Binary :=
  match m.lower with
  | .error e => .error (.lower e)
  | .ok code => code.assemble.mapError .assemble

/-- The bytecode of a source text. -/
def build (name source : String) : Except BuildError Binary := do
  let m ← Module.checked name source
  m.build

end EdeLang
