import EdeLang.Source.Lexeme
import EdeLang.Syntax.Basic
import EdeLang.Syntax.Cursor

/-!
# Grammar

Modules, definitions, statements, expressions and types are read by recursive descent with one
token of look-ahead, and binary operators by precedence climbing. Every rule gets fuel, a bound
on the depth of its recursion; a stream has enough for each of its tokens, so running out of it
means running out of tokens.
-/

namespace EdeLang.Grammar

open Cursor

/-- The tag of a symbol. -/
abbrev sym (s : Symbol) : Tag := .symbol s

/-- The tag of a keyword. -/
abbrev kw (k : Keyword) : Tag := .keyword k

/-- A name and its place. -/
def ident : Parse (String × Pos) := do
  let t ← expect .ident
  match t.kind with
  | .ident name => return (name, t.pos)
  | _ => failUnexpected

/-- The first item whose name an earlier one has. -/
def duplicate? (seen : List String) : List (Item TypeExpr) → Option (Item TypeExpr)
  | [] => none
  | item :: items =>
    if seen.contains item.name then some item else duplicate? (item.name :: seen) items

/-- Items must have different names. -/
def distinct (items : List (Item TypeExpr)) : Parse Unit :=
  match duplicate? [] items with
  | some item => fail ((ParseError.duplicateItem item.name).at item.pos)
  | none => pure ()

/-! ## Types -/

mutual

/-- `ident | "[" type "]" | "(" type "," type more ")" | "{" item more "}"` -/
def type : Nat → Parse TypeExpr
  | 0 => throw .pastEnd
  | fuel + 1 => do
    let pos := (← peek).pos
    if ← check .ident then
      let (name, _) ← ident
      return .name (.at pos) name
    if ← check (sym .lbracket) then
      let _ ← expect (sym .lbracket)
      let elem ← type fuel
      let _ ← expect (sym .rbracket)
      return .array (.at pos) elem
    if ← check (sym .lparen) then
      let _ ← expect (sym .lparen)
      let first ← type fuel
      let _ ← expect (sym .comma)
      let second ← type fuel
      let rest ← moreTypes fuel
      let _ ← expect (sym .rparen)
      return .tuple (.at pos) (first :: second :: rest)
    if ← check (sym .lcurly) then
      let _ ← expect (sym .lcurly)
      let first ← item fuel
      let rest ← moreItems fuel
      let _ ← expect (sym .rcurly)
      distinct (first :: rest)
      return .record (.at pos) (first :: rest)
    failUnexpected

/-- Further types, each after a comma. -/
def moreTypes : Nat → Parse (List TypeExpr)
  | 0 => throw .pastEnd
  | fuel + 1 => do
    match ← take? (sym .comma) with
    | none => return []
    | some _ =>
      let t ← type fuel
      let rest ← moreTypes fuel
      return t :: rest

/-- `ident ":" type` -/
def item : Nat → Parse (Item TypeExpr)
  | 0 => throw .pastEnd
  | fuel + 1 => do
    let (name, pos) ← ident
    let _ ← expect (sym .colon)
    let t ← type fuel
    return ⟨pos, name, t⟩

/-- Further items, each after a comma. -/
def moreItems : Nat → Parse (List (Item TypeExpr))
  | 0 => throw .pastEnd
  | fuel + 1 => do
    match ← take? (sym .comma) with
    | none => return []
    | some _ =>
      let i ← item fuel
      let rest ← moreItems fuel
      return i :: rest

end

/-- Items in front of a closing token, which stays. -/
def items (fuel : Nat) (close : Tag) : Parse (List (Item TypeExpr)) := do
  if ← check close then return []
  let first ← item fuel
  let rest ← moreItems fuel
  return first :: rest

/-! ## Expressions -/

/-- A binary operator. Assignment binds least and is grouped from the right. -/
inductive Operator where
  | assign
  | arith (op : BinOp)
deriving DecidableEq

namespace Operator

def precedence : Operator → Nat
  | .assign => 0
  | .arith op => op.precedence

/-- The least precedence of operators in the right operand. -/
def rightPrecedence : Operator → Nat
  | .assign => 0
  | .arith op => op.precedence + 1

end Operator

/-- The operator that the next token is, if it is one. -/
def peekOperator : Parse (Option Operator) := do
  if ← check (sym .equal) then return some .assign
  if ← check (sym .plus) then return some (.arith .add)
  if ← check (sym .minus) then return some (.arith .sub)
  if ← check (sym .star) then return some (.arith .mul)
  if ← check (sym .slash) then return some (.arith .div)
  return none

/-- The expression of an operator and its operands. The left side of an assignment is a name. -/
def combine (op : Operator) (opPos : Pos) (left right : Expr) : Parse Expr :=
  match op with
  | .arith op => pure (.binop (.at left.pos) op left right)
  | .assign =>
    match left with
    | .ident info name => pure (.assign (.at info.pos) name right)
    | _ => fail (ParseError.invalidOperator.at opPos)

/-- The next token starts a literal. -/
def checkLiteral : Parse Bool := do
  if ← check .integer then return true
  if ← check .text then return true
  if ← check .char then return true
  if ← check (kw .kTrue) then return true
  check (kw .kFalse)

/-- Takes a literal. -/
def literal : Parse Literal := do
  let t ← next
  match t.kind with
  | .integer v => return .int v
  | .text s => return .string s
  | .char c => return .char c
  | .keyword .kTrue => return .bool true
  | .keyword .kFalse => return .bool false
  | _ => failUnexpected

mutual

/-- Operands and operators of at least a precedence. -/
def climb : Nat → Nat → Parse Expr
  | 0, _ => throw .pastEnd
  | fuel + 1, least => do
    let left ← atom fuel
    climbRest fuel least left

/-- Operators of at least a precedence after a left operand. -/
def climbRest : Nat → Nat → Expr → Parse Expr
  | 0, _, _ => throw .pastEnd
  | fuel + 1, least, left => do
    match ← peekOperator with
    | none => return left
    | some op =>
      if op.precedence < least then return left
      let t ← next
      let right ← climb fuel op.rightPrecedence
      let whole ← combine op t.pos left right
      climbRest fuel least whole

/-- A literal, a parenthesised or bracketed form, a default value, or what starts with a name. -/
def atom : Nat → Parse Expr
  | 0 => throw .pastEnd
  | fuel + 1 => do
    let pos := (← peek).pos
    if ← checkLiteral then
      let value ← literal
      return .literal (.at pos) value
    if ← check (sym .lparen) then
      let _ ← expect (sym .lparen)
      if (← take? (sym .rparen)).isSome then return .literal (.at pos) .unit
      let first ← climb fuel 0
      if (← take? (sym .rparen)).isSome then return first
      let rest ← moreExprs fuel
      let _ ← expect (sym .rparen)
      return .tuple (.at pos) (first :: rest)
    if ← check (sym .lbracket) then
      let _ ← expect (sym .lbracket)
      let elems ← exprs fuel (sym .rbracket)
      let _ ← expect (sym .rbracket)
      return .array (.at pos) elems
    if ← check (kw .kDefault) then
      let _ ← expect (kw .kDefault)
      let _ ← expect (sym .lparen)
      let t ← type fuel
      let _ ← expect (sym .rparen)
      return .default (.at pos) t
    if ← check .ident then
      let (name, _) ← ident
      if ← check (sym .lparen) then
        let _ ← expect (sym .lparen)
        let args ← exprs fuel (sym .rparen)
        let _ ← expect (sym .rparen)
        return .call (.at pos) name args
      if ← check (sym .lcurly) then
        let _ ← expect (sym .lcurly)
        let inits ← inits fuel (sym .rcurly)
        let _ ← expect (sym .rcurly)
        return .object (.at pos) name inits
      return .ident (.at pos) name
    failUnexpected

/-- Expressions in front of a closing token, which stays. -/
def exprs : Nat → Tag → Parse (List Expr)
  | 0, _ => throw .pastEnd
  | fuel + 1, close => do
    if ← check close then return []
    let first ← climb fuel 0
    let rest ← moreExprs fuel
    return first :: rest

/-- Further expressions, each after a comma. -/
def moreExprs : Nat → Parse (List Expr)
  | 0 => throw .pastEnd
  | fuel + 1 => do
    match ← take? (sym .comma) with
    | none => return []
    | some _ =>
      let e ← climb fuel 0
      let rest ← moreExprs fuel
      return e :: rest

/-- Initialisers in front of a closing token, which stays. -/
def inits : Nat → Tag → Parse (List (String × Expr))
  | 0, _ => throw .pastEnd
  | fuel + 1, close => do
    if ← check close then return []
    let first ← init fuel
    let rest ← moreInits fuel
    return first :: rest

/-- Further initialisers, each after a comma. -/
def moreInits : Nat → Parse (List (String × Expr))
  | 0 => throw .pastEnd
  | fuel + 1 => do
    match ← take? (sym .comma) with
    | none => return []
    | some _ =>
      let first ← init fuel
      let rest ← moreInits fuel
      return first :: rest

/-- `ident "=" expr` -/
def init : Nat → Parse (String × Expr)
  | 0 => throw .pastEnd
  | fuel + 1 => do
    let (name, _) ← ident
    let _ ← expect (sym .equal)
    let e ← climb fuel 0
    return (name, e)

end

/-- An expression. -/
def expr (fuel : Nat) : Parse Expr := climb fuel 0

/-! ## Statements -/

/-- What a token introduces, if it is there. -/
def optional {α : Type} (tag : Tag) (following : Parse α) : Parse (Option α) := do
  if ← check tag then
    let _ ← expect tag
    let a ← following
    return some a
  return none

mutual

/-- A declaration, a conditional, a loop, a block, a return or an expression. -/
def stmt : Nat → Parse Stmt
  | 0 => throw .pastEnd
  | fuel + 1 => do
    let pos := (← peek).pos
    if ← check (kw .kLet) then
      let _ ← expect (kw .kLet)
      let (name, _) ← ident
      match ← optional (sym .colon) (type fuel) with
      | some t =>
        let init ← optional (sym .equal) (expr fuel)
        let _ ← expect (sym .semicolon)
        return .var (.at pos) name (some t) init
      | none =>
        let _ ← expect (sym .equal)
        let init ← expr fuel
        let _ ← expect (sym .semicolon)
        return .var (.at pos) name none (some init)
    if ← check (kw .kIf) then
      let _ ← expect (kw .kIf)
      let _ ← expect (sym .lparen)
      let test ← expr fuel
      let _ ← expect (sym .rparen)
      let yes ← stmt fuel
      if ← check (kw .kElse) then
        let _ ← expect (kw .kElse)
        let no ← stmt fuel
        return .cond (.at pos) test yes (some no)
      return .cond (.at pos) test yes none
    if ← check (kw .kWhile) then
      let _ ← expect (kw .kWhile)
      let _ ← expect (sym .lparen)
      let test ← expr fuel
      let _ ← expect (sym .rparen)
      let body ← stmt fuel
      return .loop (.at pos) test body
    if ← check (sym .lcurly) then block fuel
    else if ← check (kw .kReturn) then
      let _ ← expect (kw .kReturn)
      if ← check (sym .semicolon) then
        let _ ← expect (sym .semicolon)
        return .ret (.at pos) none
      let e ← expr fuel
      let _ ← expect (sym .semicolon)
      return .ret (.at pos) (some e)
    else
      let e ← expr fuel
      let _ ← expect (sym .semicolon)
      return .expr (.at pos) e

/-- Statements in braces. -/
def block : Nat → Parse Stmt
  | 0 => throw .pastEnd
  | fuel + 1 => do
    let open' ← expect (sym .lcurly)
    let body ← stmts fuel
    let _ ← expect (sym .rcurly)
    return .block (.at open'.pos) body

/-- Statements in front of a closing brace, which stays. -/
def stmts : Nat → Parse (List Stmt)
  | 0 => throw .pastEnd
  | fuel + 1 => do
    if ← check (sym .rcurly) then return []
    let s ← stmt fuel
    let rest ← stmts fuel
    return s :: rest

end

/-! ## Definitions and modules -/

/-- An object or a function. A function without a result type returns unit. -/
def definition (fuel : Nat) : Parse Def := do
  let pos := (← expect (kw .kDef)).pos
  if (← take? (kw .kObject)).isSome then
    let (name, _) ← ident
    let _ ← expect (sym .lcurly)
    let fields ← items fuel (sym .rcurly)
    let _ ← expect (sym .rcurly)
    distinct fields
    return .object (.at pos) name fields
  if (← take? (kw .kFunc)).isSome then
    let (name, namePos) ← ident
    let _ ← expect (sym .lparen)
    let params ← items fuel (sym .rparen)
    let _ ← expect (sym .rparen)
    distinct params
    let ret ← optional (sym .colon) (type fuel)
    let body ← block fuel
    return .func (.at pos) ⟨name, params, ret.getD (.name (.at namePos) "unit"), body⟩
  failUnexpected

/-- Definitions and statements up to the end, which stays. -/
def parts : Nat → Parse (List Def × List Stmt)
  | 0 => throw .pastEnd
  | fuel + 1 => do
    if ← check .eof then return ([], [])
    if ← check (kw .kDef) then
      let d ← definition fuel
      let (defs, stmts) ← parts fuel
      return (d :: defs, stmts)
    let s ← stmt fuel
    let (defs, stmts) ← parts fuel
    return (defs, s :: stmts)

/-- A module up to and with the end of the stream. -/
def module (fuel : Nat) (name : String) : Parse Module := do
  let (defs, stmts) ← parts fuel
  let _ ← expect .eof
  return ⟨name, defs, stmts, none⟩

/-- Fuel that suffices for a number of tokens. -/
def fuelFor (tokens : Nat) : Nat := 4 * tokens + 8

end EdeLang.Grammar

namespace EdeLang

/-- Reads an expression at a cursor. -/
def Cursor.parseExpr (c : Cursor) : EStateM.Result Stop Cursor Expr :=
  Grammar.expr (Grammar.fuelFor c.tokens.length) c

/-- Reads a module from a cursor to its end. -/
def Cursor.parseModule (name : String) (c : Cursor) : EStateM.Result Stop Cursor Module :=
  Grammar.module (Grammar.fuelFor c.tokens.length) name c

/-- The module that a token stream spells. -/
def Module.ofTokens (name : String) (tokens : List Token) : Except Stop Module :=
  match Cursor.ofTokens tokens with
  | .error e => .error (.stream e)
  | .ok c =>
    match c.parseModule name with
    | .ok m _ => .ok m
    | .error stop _ => .error stop

/-- The module that a source text spells. -/
def Module.ofSource (name source : String) : Except Stop Module :=
  match tokenize source false with
  | .error d => .error (.diagnostic d)
  | .ok tokens => Module.ofTokens name tokens

end EdeLang
