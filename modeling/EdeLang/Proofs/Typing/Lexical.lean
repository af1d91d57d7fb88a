import EdeLang.Diagnostic
import EdeLang.Typing.FlowGraph
import EdeLang.Typing.Scope

/-!
# Lexical scoping

The typing rules over a stack of levels that is handed down the tree. A function body gets a level
with the function and its parameters on top of the definitions before it and the prelude. A block,
a branch or the body of a loop gets an empty level of its own, which is dropped after it.
-/

namespace EdeLang

namespace Lexical

/-- Declarations that end together. The level of a function knows its result type. -/
structure Level where
  entries : List (String × Entry)
  ret : Option Ty

structure Stack where
  top : Level
  below : List Level

namespace Stack

def levels (c : Stack) : List Level := c.top :: c.below

/-- What the innermost level that declares a name says about it. -/
def find? (c : Stack) (name : String) : Option Entry :=
  c.levels.findSome? fun level => level.entries.lookup name

def returnType? (c : Stack) : Option Ty := c.levels.findSome? Level.ret

def enter (c : Stack) (ret : Option Ty) : Stack := ⟨⟨[], ret⟩, c.levels⟩

/-- Declares a name in the level on top, if that has no declaration of it. -/
def declare (c : Stack) (name : String) (e : Entry) : Except Diagnostic Stack :=
  match c.top.entries.lookup name with
  | some earlier => .error ((TypeError.idConflict name earlier.pos).at e.pos)
  | none => .ok ⟨⟨(name, e) :: c.top.entries, c.top.ret⟩, c.below⟩

def var (c : Stack) (name : String) : Except TypeError Ty :=
  match c.find? name with
  | some ⟨.variable, type, _⟩ => .ok type
  | some _ => .error (.unknownVariable name)
  | none => .error (.unknownId name)

def typename (c : Stack) (name : String) : Except TypeError Ty :=
  match c.find? name with
  | some ⟨.typename, type, _⟩ => .ok type
  | some _ => .error (.unresolvableTypeName name)
  | none => .error (.unknownId name)

def signature (c : Stack) (name : String) : Except TypeError (List (String × Ty) × Ty) :=
  match c.find? name with
  | some ⟨.function, .func params ret, _⟩ => .ok (params, ret)
  | _ => .error (.undefinedFunction name)

def object (c : Stack) (name : String) : Except TypeError Ty :=
  match c.find? name with
  | some ⟨.typename, .object object fields, _⟩ => .ok (.object object fields)
  | _ => .error (.undefinedObject name)

end Stack

def located {α : Type} (pos : Pos) : Except TypeError α → Except Diagnostic α
  | .ok a => .ok a
  | .error e => .error (e.at pos)

/-- A condition of a rule, and the error if it fails. -/
def require (p : Prop) [Decidable p] (e : TypeError) (pos : Pos) : Except Diagnostic Unit :=
  if p then .ok () else .error (e.at pos)

def given (info : Info) (type : Ty) : Info := ⟨info.pos, some type⟩

mutual

def typeExpr (c : Stack) : TypeExpr → Except Diagnostic (TypeExpr × Ty)
  | .name info name => do
    let type ← located info.pos (c.typename name)
    return (.name (given info type) name, type)
  | .array info elem => do
    let (elem, type) ← typeExpr c elem
    return (.array (given info (.array type)) elem, .array type)
  | .tuple info elems => do
    let (elems, types) ← typeExprs c elems
    return (.tuple (given info (.tuple types)) elems, .tuple types)
  | .record info fields => do
    let (fields, types) ← items c fields
    return (.record (given info (.object "" types)) fields, .object "" types)

def typeExprs (c : Stack) : List TypeExpr → Except Diagnostic (List TypeExpr × List Ty)
  | [] => return ([], [])
  | t :: ts => do
    let (t, type) ← typeExpr c t
    let (ts, types) ← typeExprs c ts
    return (t :: ts, type :: types)

def items (c : Stack) :
    List (Item TypeExpr) → Except Diagnostic (List (Item TypeExpr) × List (String × Ty))
  | [] => return ([], [])
  | ⟨pos, name, t⟩ :: rest => do
    let (t, type) ← typeExpr c t
    let (rest, fields) ← items c rest
    return (⟨pos, name, t⟩ :: rest, (name, type) :: fields)

end

mutual

def expr (c : Stack) : Expr → Except Diagnostic (Expr × Ty)
  | .literal info value => return (.literal (given info value.type) value, value.type)
  | .ident info name => do
    let type ← located info.pos (c.var name)
    return (.ident (given info type) name, type)
  | .binop info op left right => do
    let (left, l) ← expr c left
    let (right, r) ← expr c right
    match op.resultType l r with
    | some type => return (.binop (given info type) op left right, type)
    | none => .error ((TypeError.invalidBinop op l r).at info.pos)
  | .assign info name value => do
    let expected ← located info.pos (c.var name)
    let (value, found) ← expr c value
    require (expected == found) (.invalidAssignment expected found) info.pos
    return (.assign (given info expected) name value, expected)
  | .array info [] => .error (TypeError.cannotDeduce.at info.pos)
  | .array info (first :: rest) => do
    let (first, type) ← expr c first
    let rest ← elems c type rest
    return (.array (given info (.array type)) (first :: rest), .array type)
  | .tuple info parts => do
    let (parts, types) ← exprs c parts
    return (.tuple (given info (.tuple types)) parts, .tuple types)
  | .object info name inits => do
    let type ← located info.pos (c.object name)
    let inits ← fields c type [] inits
    return (.object (given info type) name inits, type)
  | .call info name args => do
    let (params, ret) ← located info.pos (c.signature name)
    require (params.length = args.length) (.invalidArity name params.length args.length) info.pos
    let args ← arguments c args params
    return (.call (given info ret) name args, ret)
  | .default info type => do
    let (type, found) ← typeExpr c type
    return (.default (given info found) type, found)

def exprs (c : Stack) : List Expr → Except Diagnostic (List Expr × List Ty)
  | [] => return ([], [])
  | e :: es => do
    let (e, type) ← expr c e
    let (es, types) ← exprs c es
    return (e :: es, type :: types)

def elems (c : Stack) (type : Ty) : List Expr → Except Diagnostic (List Expr)
  | [] => return []
  | e :: es => do
    let (e, found) ← expr c e
    require (type == found) (.unexpectedType type found) e.pos
    let es ← elems c type es
    return e :: es

def arguments (c : Stack) : List Expr → List (String × Ty) → Except Diagnostic (List Expr)
  | e :: es, (_, expected) :: params => do
    let (e, found) ← expr c e
    require (found == expected) (.unexpectedType expected found) e.pos
    let es ← arguments c es params
    return e :: es
  | es, _ => return es

/-- Initial values of fields of a type, none of which has been seen. -/
def fields (c : Stack) (type : Ty) (seen : List String) :
    List (String × Expr) → Except Diagnostic (List (String × Expr))
  | [] => return []
  | (field, e) :: inits => do
    require (field ∉ seen) (.reinitialization field) e.pos
    match type.field? field with
    | none => .error ((TypeError.unexpectedInitialization field).at e.pos)
    | some expected =>
      let (e, found) ← expr c e
      require (found == expected) (.unexpectedType expected found) e.pos
      let inits ← fields c type (field :: seen) inits
      return (field, e) :: inits

end

def condition (c : Stack) (test : Expr) : Except Diagnostic Expr := do
  let (test, found) ← expr c test
  require (found == Ty.bool) (.unexpectedType .bool found) test.pos
  return test

def optional {α β : Type} (rule : α → Except Diagnostic (α × β)) :
    Option α → Except Diagnostic (Option α × Option β)
  | none => return (none, none)
  | some a => do
    let (a, b) ← rule a
    return (some a, some b)

/-- The type of a variable with a declared type and an initial value. -/
def variableType (pos : Pos) : Option Ty → Option Ty → Except Diagnostic Ty
  | some expected, some found => do
    require (expected == found) (.invalidAssignment expected found) pos
    return expected
  | some type, none => return type
  | none, some type => return type
  | none, none => .error (TypeError.cannotDeduce.at pos)

mutual

/-- The type of a statement, and the stack for the statement after it. -/
def stmt (c : Stack) : Stmt → Except Diagnostic (Stmt × Ty × Stack)
  | .var info name type init => do
    let (type, declared) ← optional (typeExpr c) type
    let (init, found) ← optional (expr c) init
    let declared ← variableType info.pos declared found
    let after ← c.declare name ⟨.variable, declared, info.pos⟩
    return (.var (given info .unit) name type init, .unit, after)
  | .expr info e => do
    let (e, type) ← expr c e
    return (.expr (given info type) e, type, c)
  | .block info body => do
    let (body, last, _) ← stmts (c.enter none) .unit body
    return (.block (given info last) body, last, c)
  | .cond info test yes none => do
    let test ← condition c test
    let (yes, type, _) ← stmt (c.enter none) yes
    return (.cond (given info type) test yes none, type, c)
  | .cond info test yes (some no) => do
    let test ← condition c test
    let (yes, yesType, _) ← stmt (c.enter none) yes
    let (no, noType, _) ← stmt (c.enter none) no
    require (yesType == noType) (.incompatibleIfElse yesType noType) no.pos
    return (.cond (given info yesType) test yes (some no), yesType, c)
  | .loop info test body => do
    let test ← condition c test
    let (body, _, _) ← stmt (c.enter none) body
    return (.loop (given info .unit) test body, .unit, c)
  | .ret info value =>
    match c.returnType? with
    | none => .error (TypeError.returnOutsideFunction.at info.pos)
    | some expected => do
      let (value, found) ← optional (expr c) value
      require (found.getD .unit == expected) (.unexpectedType expected (found.getD .unit))
        (value.elim info.pos Expr.pos)
      return (.ret (given info .unit) value, .unit, c)

def stmts (c : Stack) (last : Ty) : List Stmt → Except Diagnostic (List Stmt × Ty × Stack)
  | [] => return ([], last, c)
  | s :: ss => do
    let (s, type, after) ← stmt c s
    let (ss, result) ← stmts after type ss
    return (s :: ss, result)

end

/-- The stack outside functions: names that the module declares, in front of the primitive
types. -/
def outermost (declared : List (String × Entry)) : Stack :=
  ⟨⟨declared, none⟩, [⟨Primitive.all.map fun p => (p.name, ⟨.typename, .prim p, .builtin⟩), none⟩]⟩

/-- A definition takes a name that stands for nothing. -/
def unused (c : Stack) (name : String) (pos : Pos) : Except Diagnostic Unit :=
  match c.find? name with
  | some earlier => .error ((TypeError.idConflict name earlier.pos).at pos)
  | none => return ()

def parameters (c : Stack) : List (Item TypeExpr) → List (String × Ty) → Except Diagnostic Stack
  | item :: items, (name, type) :: types => do
    let c ← c.declare name ⟨.variable, type, item.pos⟩
    parameters c items types
  | _, _ => return c

def inside (outside : Stack) (pos : Pos) (f : Func) (types : List (String × Ty)) (result : Ty) :
    Except Diagnostic Stack := do
  let c ← (outside.enter (some result)).declare f.name ⟨.function, .func types result, pos⟩
  parameters c f.params types

/-- A function that returns a value does so on every way to its end. -/
def returns (f : Func) (result : Ty) : Except Diagnostic Unit :=
  match f.body.fallsOff? with
  | some exit => require (result == Ty.unit) (.missingReturn f.name) exit
  | none => return ()

/-- The type of a function that is defined after some definitions. Its body sees these, itself and
its parameters. -/
def func (declared : List (String × Entry)) (pos : Pos) (f : Func) :
    Except Diagnostic (Func × Ty) := do
  let outside := outermost declared
  unused outside f.name pos
  let (params, types) ← items outside f.params
  let (ret, result) ← typeExpr outside f.ret
  let c ← inside outside pos ⟨f.name, params, ret, f.body⟩ types result
  let (body, _, _) ← stmt c f.body
  returns ⟨f.name, params, ret, body⟩ result
  return (⟨f.name, params, ret, body⟩, .func types result)

def definition (declared : List (String × Entry)) : Def → Except Diagnostic (Def × String × Entry)
  | .object info name fields => do
    unused (outermost declared) name info.pos
    let (fields, types) ← items (outermost declared) fields
    let type := .object name types
    return (.object (given info type) name fields, name, ⟨.typename, type, info.pos⟩)
  | .func info f => do
    let (f, type) ← func declared info.pos f
    return (.func (given info type) f, f.name, ⟨.function, type, info.pos⟩)

def definitions (declared : List (String × Entry)) :
    List Def → Except Diagnostic (List Def × List (String × Entry))
  | [] => return ([], declared)
  | d :: ds => do
    let (d, entry) ← definition declared d
    let (ds, declared) ← definitions (entry :: declared) ds
    return (d :: ds, declared)

/-- The type of a module: all definitions come before the statements. -/
def module (m : Module) : Except Diagnostic (Module × Ty) := do
  let (defs, declared) ← definitions [] m.defs
  let (stmts, _) ← stmts (outermost declared) .unit m.stmts
  return (⟨m.name, defs, stmts, some .unit⟩, .unit)

end Lexical

end EdeLang
