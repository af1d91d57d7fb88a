import EdeLang.Evaluation.Value

/-!
# Environments

Bindings of variables, one list for each open scope. The innermost scope and the latest binding
come first.
-/

namespace EdeLang

/-- Bindings in one scope. -/
abbrev Bindings := List (String × Value)

/-- Bindings in all open scopes. -/
abbrev Env := List Bindings

/-- Replaces the value of the first binding of a name. -/
def Bindings.set? (name : String) (value : Value) : Bindings → Option Bindings
  | [] => none
  | (n, v) :: rest =>
    if n == name then some ((n, value) :: rest) else (set? name value rest).map ((n, v) :: ·)

namespace Env

/-- A new innermost scope. -/
def enter (env : Env) : Env := [] :: env

/-- The scopes around the innermost one. -/
def leave (env : Env) : Env := env.tail

/-- A new binding in the innermost scope. -/
def bind (name : String) (value : Value) : Env → Env
  | [] => []
  | scope :: env => ((name, value) :: scope) :: env

/-- The value of a variable. -/
def get? (env : Env) (name : String) : Option Value :=
  env.findSome? fun scope => scope.lookup name

/-- Gives a variable another value. -/
def set? (name : String) (value : Value) : Env → Option Env
  | [] => none
  | scope :: env =>
    match Bindings.set? name value scope with
    | some scope => some (scope :: env)
    | none => (set? name value env).map (scope :: ·)

/-- The environment of a function body. -/
def ofArgs (params : List String) (args : List Value) : Env := [(params.zip args).reverse]

end Env
end EdeLang
