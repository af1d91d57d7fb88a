import EdeLang.Evaluation.Env

/-!
# Evaluation

A module is evaluated directly on its tree. Operands are evaluated from the right, all other
parts from the left. Expressions and statements are evaluated by recursion on the tree; calls of
functions and rounds of a loop are bounded by a fuel, and an evaluation that ends within some
fuel ends in the same way within more.
-/

namespace EdeLang

/-- What cannot be evaluated, and does not occur in a checked module. -/
inductive EvalFault where
  | unbound (name : String)
  | undefinedFunction (name : String)
  | noOperator (op : BinOp) (left right : Value)
  | untypedDeclaration (name : String)
  | notAnObject (type : Ty)
  | unchecked

def EvalFault.message : EvalFault → String
  | .unbound name => "unbound variable `" ++ name ++ "`"
  | .undefinedFunction name => "undefined function `" ++ name ++ "`"
  | .noOperator op left right =>
    "no operator `" ++ op.text ++ "` for " ++ left.text ++ " and " ++ right.text
  | .untypedDeclaration name => "declaration of `" ++ name ++ "` without type"
  | .notAnObject type => "object initializer of type `" ++ type.text ++ "`"
  | .unchecked => "node has not been type checked"

/-- Why an evaluation has no value. -/
inductive Halt where
  | divisionByZero (pos : Pos)
  | fault (f : EvalFault)
  | outOfFuel

/-- An exception for its reader. -/
def Halt.divisionText (pos : Pos) : String := pos.text ++ " division by zero"

/-- How a statement ends. -/
inductive Flow where
  | normal (v : Value)
  | returned (v : Value)

/-- The value of an operation at a place. -/
def BinOp.eval (op : BinOp) (left right : Value) (pos : Pos) : Except Halt Value :=
  match op, left, right with
  | .add, .string l, .string r => .ok (.string (l ++ r))
  | .add, .int l, .int r => .ok (.int (l + r))
  | .sub, .int l, .int r => .ok (.int (l - r))
  | .mul, .int l, .int r => .ok (.int (l * r))
  | .div, .int l, .int r => if r = 0 then .error (.divisionByZero pos) else .ok (.int (l / r))
  | op, l, r => .error (.fault (.noOperator op l r))

/-- The type that the checker gave a node. -/
def Info.type? (info : Info) : Except Halt Ty :=
  match info.type with
  | some type => .ok type
  | none => .error (.fault .unchecked)

/-- The value of a call, from the name of a function and the arguments. -/
abbrev Calls := String → List Value → Except Halt Value

/-- An action on an environment. -/
abbrev Action (α : Type) := Env → Except Halt (α × Env)

/-- The values of fields in the order of their declaration: that of the first initialiser of the
field, or else the default of its type. -/
def fieldValues (inits : List (String × Action Value)) :
    List (String × Ty) → Action (List (String × Value))
  | [], env => .ok ([], env)
  | (field, type) :: fields, env =>
    match (inits.lookup field).getD (fun env => .ok (.ofType type, env)) env with
    | .error h => .error h
    | .ok (v, env) => (fieldValues inits fields env).map fun (vs, env) => ((field, v) :: vs, env)

mutual

/-- The value of an expression, and the environment after it. -/
def Expr.eval (call : Calls) : Expr → Action Value
  | .literal _ value, env => .ok (.ofLiteral value, env)
  | .ident _ name, env =>
    match env.get? name with
    | some v => .ok (v, env)
    | none => .error (.fault (.unbound name))
  | .binop info op left right, env =>
    match Expr.eval call right env with
    | .error h => .error h
    | .ok (r, env) =>
      match Expr.eval call left env with
      | .error h => .error h
      | .ok (l, env) => (op.eval l r info.pos).map fun v => (v, env)
  | .assign _ name value, env =>
    match Expr.eval call value env with
    | .error h => .error h
    | .ok (v, env) =>
      match env.set? name v with
      | some env => .ok (v, env)
      | none => .error (.fault (.unbound name))
  | .array _ elems, env => (Expr.evalAll call elems env).map fun (vs, env) => (.array vs, env)
  | .tuple _ elems, env => (Expr.evalAll call elems env).map fun (vs, env) => (.tuple vs, env)
  | .object info name inits, env =>
    match info.type? with
    | .error h => .error h
    | .ok (.object _ fields) =>
      (fieldValues (Expr.evalInits call inits) fields env).map fun (vs, env) =>
        (.object name vs, env)
    | .ok type => .error (.fault (.notAnObject type))
  | .call _ name args, env =>
    match Expr.evalAll call args env with
    | .error h => .error h
    | .ok (vs, env) => (call name vs).map fun v => (v, env)
  | .default info _, env => info.type?.map fun type => (.ofType type, env)

/-- The values of expressions in order. -/
def Expr.evalAll (call : Calls) : List Expr → Action (List Value)
  | [], env => .ok ([], env)
  | e :: es, env =>
    match Expr.eval call e env with
    | .error h => .error h
    | .ok (v, env) => (Expr.evalAll call es env).map fun (vs, env) => (v :: vs, env)

/-- The evaluations of initialisers, none of which is done yet. -/
def Expr.evalInits (call : Calls) : List (String × Expr) → List (String × Action Value)
  | [] => []
  | (n, e) :: inits => (n, Expr.eval call e) :: Expr.evalInits call inits

end

/-- The truth of a condition. Only `true` holds. -/
def Expr.holds (call : Calls) (test : Expr) : Action Bool := fun env =>
  (test.eval call env).map fun (v, env) =>
    (match v with
     | .bool b => b
     | _ => false, env)

/-- Repeats a body while a condition holds, at most so many times. -/
def repeatWhile (test : Action Bool) (body : Action Flow) : Nat → Action Flow
  | 0, _ => .error .outOfFuel
  | rounds + 1, env =>
    match test env with
    | .error h => .error h
    | .ok (false, env) => .ok (.normal .unit, env)
    | .ok (true, env) =>
      match body env with
      | .error h => .error h
      | .ok (.returned v, env) => .ok (.returned v, env)
      | .ok (.normal _, env) => repeatWhile test body rounds env

/-- An action in a scope of its own. -/
def inScope (action : Action Flow) : Action Flow := fun env =>
  (action env.enter).map fun (flow, env) => (flow, env.leave)

/-- The initial value of a variable: that of an expression, or the default of its type. -/
def initialValue (call : Calls) (name : String) : Option TypeExpr → Option Expr → Action Value
  | _, some e, env => e.eval call env
  | some type, none, env => type.info.type?.map fun t => (.ofType t, env)
  | none, none, _ => .error (.fault (.untypedDeclaration name))

mutual

/-- Executes a statement. A loop runs for at most so many rounds. -/
def Stmt.exec (call : Calls) (rounds : Nat) : Stmt → Action Flow
  | .var _ name type init, env =>
    (initialValue call name type init env).map fun (v, env) => (.normal .unit, env.bind name v)
  | .expr _ e, env => (e.eval call env).map fun (v, env) => (.normal v, env)
  | .block _ stmts, env => inScope (Stmt.execAll call rounds .unit stmts) env
  | .cond _ test yes none, env =>
    match test.holds call env with
    | .error h => .error h
    | .ok (true, env) => inScope (Stmt.exec call rounds yes) env
    | .ok (false, env) => .ok (.normal .unit, env)
  | .cond _ test yes (some no), env =>
    match test.holds call env with
    | .error h => .error h
    | .ok (true, env) => inScope (Stmt.exec call rounds yes) env
    | .ok (false, env) => inScope (Stmt.exec call rounds no) env
  | .loop _ test body, env =>
    repeatWhile (test.holds call) (inScope (Stmt.exec call rounds body)) rounds env
  | .ret _ (some e), env => (e.eval call env).map fun (v, env) => (.returned v, env)
  | .ret _ none, env => .ok (.returned .unit, env)

/-- Executes statements in sequence up to a return. The value is that of the last one. -/
def Stmt.execAll (call : Calls) (rounds : Nat) (last : Value) : List Stmt → Action Flow
  | [], env => .ok (.normal last, env)
  | s :: ss, env =>
    match Stmt.exec call rounds s env with
    | .error h => .error h
    | .ok (.returned v, env) => .ok (.returned v, env)
    | .ok (.normal v, env) => Stmt.execAll call rounds v ss env

end

/-- The function with a name. Of several the last one counts. -/
def Module.func? (m : Module) (name : String) : Option Func :=
  m.funcs.reverse.find? fun f => f.name == name

/-- Executes the body of a function on its own environment. -/
def Func.apply (f : Func) (call : Calls) (rounds : Nat) (args : List Value) : Except Halt Value :=
  (f.body.exec call rounds (.ofArgs (f.params.map Item.name) args)).map fun (flow, _) =>
    match flow with
    | .returned v => v
    | .normal _ => .unit

/-- The calls of the functions of a module. Fuel bounds the depth of calls and the rounds of
their loops. -/
def Module.call (m : Module) : Nat → Calls
  | 0, _, _ => .error .outOfFuel
  | fuel + 1, name, args =>
    match m.func? name with
    | some f => f.apply (m.call fuel) fuel args
    | none => .error (.fault (.undefinedFunction name))

/-- The value that a statement gives a module it ends. -/
def Stmt.result : Stmt → Flow → Value
  | .expr _ _, .normal v => v
  | _, _ => .unit

/-- Executes the statements of a module. -/
def Stmt.execModule (call : Calls) (rounds : Nat) (last : Value) : List Stmt → Action Value
  | [], env => .ok (last, env)
  | s :: ss, env =>
    match s.exec call rounds env with
    | .error h => .error h
    | .ok (flow, env) => Stmt.execModule call rounds (s.result flow) ss env

/-- The value of a module: that of its last statement if it is an expression, else unit. -/
def Module.eval (m : Module) (fuel : Nat) : Except Halt Value :=
  (Stmt.execModule (m.call fuel) fuel .unit m.stmts (Env.enter [])).map Prod.fst

/-- Fuel that no evaluation uses up in practice. -/
def ampleFuel : Nat := 0x4000000000000000

end EdeLang
