import EdeLang.Assembly.Code
import EdeLang.Syntax.Basic

/-!
# Lowering

A checked module becomes symbolic code. The code of an expression leaves one word on the stack.
The code of a statement leaves the stack as it was, except that a declaration leaves the value
of its variable in the next slot, where it stays until the scope closes.
-/

namespace EdeLang

/-- What cannot be lowered, and does not occur in a checked module. -/
inductive LowerError where
  | duplicateLabel (name : String)
  | unbound (name : String)
  | untypedDeclaration (name : String)
  | notAnObject (type : Ty)
  | unchecked

def LowerError.message : LowerError → String
  | .duplicateLabel name => "duplicate label `" ++ name ++ "`"
  | .unbound name => "unbound variable `" ++ name ++ "`"
  | .untypedDeclaration name => "declaration of `" ++ name ++ "` without type"
  | .notAnObject type => "object initializer of type `" ++ type.text ++ "`"
  | .unchecked => "node has not been type checked"

namespace Lowering

/-- The label in front of the first instruction. -/
def startLabel : String := "__start"

/-- The label of the statements of a module. -/
def mainLabel : String := "__main"

/-- The label of a function. -/
def funcLabel (name : String) : String := "func." ++ name

/-- Labels of the parts of a conditional. -/
def elseLabel (id : Nat) : String := "if." ++ toString id ++ ".else"

def endIfLabel (id : Nat) : String := "if." ++ toString id ++ ".end"

/-- Labels of the parts of a loop. -/
def testLabel (id : Nat) : String := "while." ++ toString id ++ ".cond"

def endLoopLabel (id : Nat) : String := "while." ++ toString id ++ ".end"

/-- The variables in the slots of a frame, the last slot first. -/
abbrev Slots := List String

/-- The slot of the latest variable with a name. -/
def Slots.slot? : Slots → String → Option Nat
  | [], _ => none
  | n :: slots, name => if n == name then some slots.length else Slots.slot? slots name

/-- The slot of a variable that has to have one. -/
def slotOf (slots : Slots) (name : String) : Except LowerError Nat :=
  match Slots.slot? slots name with
  | some slot => .ok slot
  | none => .error (.unbound name)

/-- The type that the checker gave a node. -/
def typeOf (info : Info) : Except LowerError Ty :=
  match info.type with
  | some type => .ok type
  | none => .error .unchecked

/-- An instruction that consists of its opcode. -/
def op (opcode : Opcode) : Element := .inst (.plain opcode)

/-- Pushes a number. -/
def push (v : Int64) : Element := .inst (.pushi v)

/-- Makes a block of the topmost words. -/
def pack (count : Nat) : Element := .inst (.pack count)

/-! ## Expressions -/

mutual

/-- Pushes the default value of a type. -/
def pushDefault : Ty → Code
  | .prim .string | .array _ => [pack 0]
  | .prim _ | .func _ _ => [push 0]
  | .tuple elems => pushDefaults elems ++ [pack elems.length]
  | .object _ fields => pushFieldDefaults fields ++ [pack fields.length]

/-- Pushes default values in order. -/
def pushDefaults : List Ty → Code
  | [] => []
  | t :: ts => pushDefault t ++ pushDefaults ts

/-- Pushes default values of fields in order. -/
def pushFieldDefaults : List (String × Ty) → Code
  | [] => []
  | (_, t) :: fields => pushDefault t ++ pushFieldDefaults fields

end

/-- Pushes a literal. A string is a block of its characters. -/
def pushLiteral : Literal → Code
  | .unit => [push 0]
  | .int v => [push v]
  | .char c => [push (Int64.ofNat c.toNat)]
  | .bool b => [push (if b then 1 else 0)]
  | .string s =>
    (s.toList.map fun c => push (Int64.ofNat c.toNat)) ++ [pack s.toList.length]

/-- The instruction of an operator. Addition depends on the type of the left operand. -/
def operator (op : BinOp) (left : Ty) : Opcode :=
  match op with
  | .add => if left == Ty.string then .scat else .iadd
  | .sub => .isub
  | .mul => .imul
  | .div => .idiv

/-- Pushes the fields of an object in the order of their declaration, by default the default
values of their types. -/
def pushFields (inits : List (String × Except LowerError Code)) :
    List (String × Ty) → Except LowerError Code
  | [] => .ok []
  | (field, type) :: rest => do
    let first ← (inits.lookup field).getD (.ok (pushDefault type))
    let more ← pushFields inits rest
    return first ++ more

mutual

/-- Pushes the value of an expression. Operands are evaluated from the right. -/
def expr (slots : Slots) : Expr → Except LowerError Code
  | .literal _ value => .ok (pushLiteral value)
  | .ident _ name => do
    let slot ← slotOf slots name
    return [.inst (.sload slot)]
  | .binop _ o left right => do
    let r ← expr slots right
    let l ← expr slots left
    let type ← typeOf left.info
    return r ++ l ++ [op .swap, op (operator o type)]
  | .assign _ name value => do
    let v ← expr slots value
    let slot ← slotOf slots name
    return v ++ [.inst (.sstore slot), .inst (.sload slot)]
  | .array _ elems | .tuple _ elems => do
    let vs ← exprs slots elems
    return vs ++ [pack elems.length]
  | .object info _ inits => do
    match ← typeOf info with
    | .object _ declared =>
      let vs ← pushFields (initCodes slots inits) declared
      return vs ++ [pack declared.length]
    | type => .error (.notAnObject type)
  | .call _ name args => do
    let vs ← exprs slots args
    return vs ++ [.inst (.calll (funcLabel name) args.length)]
  | .default info _ => do
    let type ← typeOf info
    return pushDefault type

/-- Pushes the values of expressions in order. -/
def exprs (slots : Slots) : List Expr → Except LowerError Code
  | [] => .ok []
  | e :: es => do
    let first ← expr slots e
    let rest ← exprs slots es
    return first ++ rest

/-- The code of each initialiser. -/
def initCodes (slots : Slots) : List (String × Expr) → List (String × Except LowerError Code)
  | [] => []
  | (n, e) :: inits => (n, expr slots e) :: initCodes slots inits

end

/-! ## Statements -/

/-- What the code of a statement leaves: the code, the slots after it, and the last number that
was used in a label. -/
structure Lowered where
  code : Code
  slots : Slots
  lastId : Nat

/-- Takes the variables of a scope that closes from the stack. -/
def closed (outer : Slots) (inner : Lowered) : Lowered :=
  ⟨inner.code ++ List.replicate (inner.slots.length - outer.length) (op .pop), outer, inner.lastId⟩

/-- Pushes the initial value of a variable. -/
def initial (slots : Slots) (name : String) :
    Option TypeExpr → Option Expr → Except LowerError Code
  | _, some e => expr slots e
  | some type, none => (typeOf type.info).map pushDefault
  | none, none => .error (.untypedDeclaration name)

mutual

/-- The code of a statement after the given slots and label numbers. -/
def stmt (slots : Slots) (lastId : Nat) : Stmt → Except LowerError Lowered
  | .var _ name type init => do
    let v ← initial slots name type init
    return ⟨v, name :: slots, lastId⟩
  | .expr _ e => do
    let v ← expr slots e
    return ⟨v ++ [op .pop], slots, lastId⟩
  | .block _ body => do
    let inner ← stmts slots lastId body
    return closed slots inner
  | .cond _ test yes none => do
    let id := lastId + 1
    let t ← expr slots test
    let y ← stmt slots id yes
    let y := closed slots y
    return ⟨t ++ [.inst (.jumpzl (elseLabel id))] ++ y.code ++
      [.inst (.jumpl (endIfLabel id)), .label (elseLabel id), .label (endIfLabel id)],
      slots, y.lastId⟩
  | .cond _ test yes (some no) => do
    let id := lastId + 1
    let t ← expr slots test
    let y ← stmt slots id yes
    let y := closed slots y
    let n ← stmt slots y.lastId no
    let n := closed slots n
    return ⟨t ++ [.inst (.jumpzl (elseLabel id))] ++ y.code ++
      [.inst (.jumpl (endIfLabel id)), .label (elseLabel id)] ++ n.code ++
      [.label (endIfLabel id)], slots, n.lastId⟩
  | .loop _ test body => do
    let id := lastId + 1
    let t ← expr slots test
    let b ← stmt slots id body
    let b := closed slots b
    return ⟨.label (testLabel id) :: t ++ [.inst (.jumpzl (endLoopLabel id))] ++ b.code ++
      [.inst (.jumpl (testLabel id)), .label (endLoopLabel id)], slots, b.lastId⟩
  | .ret _ (some e) => do
    let v ← expr slots e
    return ⟨v ++ [op .ret], slots, lastId⟩
  | .ret _ none => .ok ⟨[push 0, op .ret], slots, lastId⟩

/-- The code of statements in sequence. -/
def stmts (slots : Slots) (lastId : Nat) : List Stmt → Except LowerError Lowered
  | [] => .ok ⟨[], slots, lastId⟩
  | s :: ss => do
    let first ← stmt slots lastId s
    let rest ← stmts first.slots first.lastId ss
    return ⟨first.code ++ rest.code, rest.slots, rest.lastId⟩

end

/-! ## Modules -/

/-- The code of a function, which returns zero if its body does not return. -/
def func (lastId : Nat) (f : Func) : Except LowerError (Code × Nat) := do
  let body ← stmt (f.params.map Item.name).reverse lastId f.body
  return (.label (funcLabel f.name) :: body.code ++ [push 0, op .ret], body.lastId)

/-- The code of functions, whose names must differ from each other and from those seen. -/
def funcs (seen : List String) (lastId : Nat) : List Func → Except LowerError (Code × Nat)
  | [] => .ok ([], lastId)
  | f :: fs => do
    if seen.contains f.name then throw (.duplicateLabel (funcLabel f.name))
    let (first, lastId) ← func lastId f
    let (rest, lastId) ← funcs (f.name :: seen) lastId fs
    return (first ++ rest, lastId)

/-- Pushes the exit status. The value of the last statement is the status if it is a scalar
expression; otherwise the status is zero. -/
def status (slots : Slots) (lastId : Nat) : Stmt → Except LowerError Code
  | .expr info e => do
    let type ← typeOf e.info
    if type.isScalar then expr slots e
    else
      let s ← stmt slots lastId (.expr info e)
      return s.code ++ [push 0]
  | last => do
    let s ← stmt slots lastId last
    return s.code ++ [push 0]

/-- The code of the statements of a module, which leaves the exit status on the stack. -/
def statements (slots : Slots) (lastId : Nat) : List Stmt → Except LowerError Code
  | [] => .ok [push 0]
  | [last] => status slots lastId last
  | s :: ss => do
    let first ← stmt slots lastId s
    let rest ← statements first.slots first.lastId ss
    return first.code ++ rest

end Lowering

/-- The code of a checked module: functions first, then its statements, then the exit. -/
def Module.lower (m : Module) : Except LowerError Code := do
  let (functions, lastId) ← Lowering.funcs [] 0 m.funcs
  let main ← Lowering.statements [] lastId m.stmts
  return [.label Lowering.startLabel, .inst (.jumpl Lowering.mainLabel)] ++ functions ++
    [.label Lowering.mainLabel] ++ main ++ [.inst (.syscall .exit)]

end EdeLang
