import EdeLang.Evaluation.Eval

/-!
# Work of an evaluation

The work of an evaluation is a number of steps that it can be done in: one for each part of a
constant, each variable, operation and call, each decision of a branch or a loop and each variable
of a scope that closes. It is counted along the evaluation, so a part that is not evaluated does
not count, and each round of a loop counts anew.
-/

namespace EdeLang

/-- The work after a result, if there is one. -/
def workAfter {α : Type} (r : Except Halt α) (work : α → Nat) : Nat :=
  match r with
  | .ok a => work a
  | .error _ => 0

theorem workAfter_le {α : Type} {r : Except Halt α} {work : α → Nat} {n : Nat}
    (h : ∀ a, r = .ok a → work a ≤ n) : workAfter r work ≤ n := by
  cases r with
  | ok a => exact h a rfl
  | error e => exact Nat.zero_le n

namespace Value

mutual

/-- The number of parts, among them the characters of strings. -/
def size : Value → Nat
  | .unit | .int _ | .char _ | .bool _ => 1
  | .string s => s.toList.length + 1
  | .array elems | .tuple elems => sizeAll elems + 1
  | .object _ fields => sizeFields fields + 1

def sizeAll : List Value → Nat
  | [] => 0
  | v :: vs => size v + sizeAll vs

def sizeFields : List (String × Value) → Nat
  | [] => 0
  | (_, v) :: fields => size v + sizeFields fields

end

end Value

abbrev CallWork := String → List Value → Nat

abbrev ActionWork := Env → Nat

def fieldWork (inits : List (String × Action Value)) (works : List (String × ActionWork)) :
    List (String × Ty) → ActionWork
  | [], _ => 0
  | (field, type) :: fields, env =>
    (works.lookup field).getD (fun _ => (Value.ofType type).size) env +
      workAfter ((inits.lookup field).getD (fun env => .ok (.ofType type, env)) env) fun a =>
        fieldWork inits works fields a.2

mutual

/-- The work of the evaluation of an expression. -/
def Expr.work (call : Calls) (count : CallWork) : Expr → ActionWork
  | .literal _ value, _ => (Value.ofLiteral value).size
  | .ident _ _, _ => 1
  | .binop _ _ left right, env =>
    Expr.work call count right env +
      workAfter (Expr.eval call right env) fun r => Expr.work call count left r.2 + 2
  | .assign _ _ value, env => Expr.work call count value env + 2
  | .array _ elems, env | .tuple _ elems, env => Expr.workAll call count elems env + 1
  | .object info _ inits, env =>
    match info.type with
    | some (.object _ fields) =>
      fieldWork (Expr.evalInits call inits) (Expr.workInits call count inits) fields env + 1
    | _ => 0
  | .call _ name args, env =>
    Expr.workAll call count args env +
      workAfter (Expr.evalAll call args env) fun a => count name a.1
  | .default info _, _ => workAfter info.type? fun type => (Value.ofType type).size

def Expr.workAll (call : Calls) (count : CallWork) : List Expr → ActionWork
  | [], _ => 0
  | e :: es, env =>
    Expr.work call count e env +
      workAfter (Expr.eval call e env) fun a => Expr.workAll call count es a.2

def Expr.workInits (call : Calls) (count : CallWork) :
    List (String × Expr) → List (String × ActionWork)
  | [] => []
  | (n, e) :: inits => (n, Expr.work call count e) :: Expr.workInits call count inits

end

/-- The work after a statement that ends normally. -/
def Flow.workAfter : Flow → Nat → Nat
  | .normal _, work => work
  | .returned _, _ => 0

/-- A round of a loop is the test and, if it holds, the body and the way back. -/
def repeatWork (test : Action Bool) (testWork : ActionWork) (body : Action Flow)
    (bodyWork : ActionWork) : Nat → ActionWork
  | 0, _ => 0
  | rounds + 1, env =>
    testWork env + workAfter (test env) fun t =>
      1 + bif t.1 then
        bodyWork t.2 + workAfter (body t.2) fun a =>
          a.1.workAfter (1 + repeatWork test testWork body bodyWork rounds a.2)
      else 0

/-- The variables of a scope are dropped one by one where it closes. -/
def scopeWork (action : Action Flow) (work : ActionWork) : ActionWork := fun env =>
  work env.enter + workAfter (action env.enter) fun a => a.1.workAfter (a.2.headD []).length

def initialWork (call : Calls) (count : CallWork) : Option TypeExpr → Option Expr → ActionWork
  | _, some e, env => e.work call count env
  | some type, none, _ => workAfter type.info.type? fun t => (Value.ofType t).size
  | none, none, _ => 0

mutual

/-- The work of the execution of a statement. -/
def Stmt.work (call : Calls) (count : CallWork) (rounds : Nat) : Stmt → ActionWork
  | .var _ _ type init, env => initialWork call count type init env
  | .expr _ e, env => e.work call count env + 1
  | .block _ stmts, env =>
    scopeWork (Stmt.execAll call rounds .unit stmts) (Stmt.workAll call count rounds stmts) env
  | .cond _ test yes none, env =>
    test.work call count env + workAfter (test.holds call env) fun t =>
      1 + bif t.1 then
        scopeWork (Stmt.exec call rounds yes) (Stmt.work call count rounds yes) t.2 + 1
      else 0
  | .cond _ test yes (some no), env =>
    test.work call count env + workAfter (test.holds call env) fun t =>
      1 + bif t.1 then
        scopeWork (Stmt.exec call rounds yes) (Stmt.work call count rounds yes) t.2 + 1
      else scopeWork (Stmt.exec call rounds no) (Stmt.work call count rounds no) t.2
  | .loop _ test body, env =>
    repeatWork (test.holds call) (test.work call count) (inScope (Stmt.exec call rounds body))
      (scopeWork (Stmt.exec call rounds body) (Stmt.work call count rounds body)) rounds env
  | .ret _ (some e), env => e.work call count env
  | .ret _ none, _ => 1

def Stmt.workAll (call : Calls) (count : CallWork) (rounds : Nat) : List Stmt → ActionWork
  | [], _ => 0
  | s :: ss, env =>
    Stmt.work call count rounds s env + workAfter (Stmt.exec call rounds s env) fun a =>
      a.1.workAfter (Stmt.workAll call count rounds ss a.2)

end

def Func.work (f : Func) (call : Calls) (count : CallWork) (rounds : Nat) (args : List Value) :
    Nat :=
  f.body.work call count rounds (.ofArgs (f.params.map Item.name) args) + 1

/-- Calls of the functions of a module, with the same fuel as their evaluation. Entering and leaving
a function count. -/
def Module.callWork (m : Module) : Nat → CallWork
  | 0, _, _ => 0
  | fuel + 1, name, args =>
    match m.func? name with
    | some f => f.work (m.call fuel) (m.callWork fuel) fuel args + 2
    | none => 0

/-- The status of the last value is left in the end. -/
def Stmt.workModule (call : Calls) (count : CallWork) (rounds : Nat) : List Stmt → ActionWork
  | [], _ => 1
  | s :: ss, env =>
    s.work call count rounds env + workAfter (s.exec call rounds env) fun a =>
      Stmt.workModule call count rounds ss a.2

/-- The work of the evaluation of a module, with its start and its end. -/
def Module.work (m : Module) (fuel : Nat) : Nat :=
  Stmt.workModule (m.call fuel) (m.callWork fuel) fuel m.stmts (Env.enter []) + 2

end EdeLang
