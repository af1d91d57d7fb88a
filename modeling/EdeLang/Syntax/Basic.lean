import EdeLang.Source.Position
import EdeLang.Typing.Ty

/-!
# Syntax trees

Type expressions, expressions, statements, definitions and modules. Every node but an item of a
list of names carries its place and, once it has been checked, its type.
-/

namespace EdeLang

/-- The place of a node, and its type once it is known. -/
structure Info where
  pos : Pos
  type : Option Ty
deriving Inhabited

/-- A node that has not been checked. -/
def Info.at (pos : Pos) : Info := ⟨pos, none⟩

/-- A name with what is declared about it. -/
structure Item (α : Type) where
  pos : Pos
  name : String
  type : α

/-- A type as it is written. -/
inductive TypeExpr where
  | name (info : Info) (name : String)
  | array (info : Info) (elem : TypeExpr)
  | tuple (info : Info) (elems : List TypeExpr)
  | record (info : Info) (items : List (Item TypeExpr))
deriving Inhabited

namespace TypeExpr

def info : TypeExpr → Info
  | .name info _ | .array info _ | .tuple info _ | .record info _ => info

end TypeExpr

/-- A literal. -/
inductive Literal where
  | unit
  | int (v : Int64)
  | string (s : String)
  | char (c : Char)
  | bool (b : Bool)
deriving DecidableEq, Inhabited

def Literal.type : Literal → Ty
  | .unit => .unit
  | .int _ => .int
  | .string _ => .string
  | .char _ => .char
  | .bool _ => .bool

/-- An expression. -/
inductive Expr where
  | literal (info : Info) (value : Literal)
  | ident (info : Info) (name : String)
  | binop (info : Info) (op : BinOp) (left right : Expr)
  | assign (info : Info) (name : String) (value : Expr)
  | array (info : Info) (elems : List Expr)
  | tuple (info : Info) (elems : List Expr)
  | object (info : Info) (name : String) (inits : List (String × Expr))
  | call (info : Info) (name : String) (args : List Expr)
  | default (info : Info) (type : TypeExpr)
deriving Inhabited

namespace Expr

def info : Expr → Info
  | .literal info _ | .ident info _ | .binop info _ _ _ | .assign info _ _ | .array info _
  | .tuple info _ | .object info _ _ | .call info _ _ | .default info _ => info

def pos (e : Expr) : Pos := e.info.pos

end Expr

/-- A statement. -/
inductive Stmt where
  | var (info : Info) (name : String) (type : Option TypeExpr) (init : Option Expr)
  | expr (info : Info) (e : Expr)
  | block (info : Info) (stmts : List Stmt)
  | cond (info : Info) (test : Expr) (yes : Stmt) (no : Option Stmt)
  | loop (info : Info) (test : Expr) (body : Stmt)
  | ret (info : Info) (value : Option Expr)
deriving Inhabited

namespace Stmt

def info : Stmt → Info
  | .var info _ _ _ | .expr info _ | .block info _ | .cond info _ _ _ | .loop info _ _
  | .ret info _ => info

def pos (s : Stmt) : Pos := s.info.pos

end Stmt

/-- A function: its name, parameters, result type and body. -/
structure Func where
  name : String
  params : List (Item TypeExpr)
  ret : TypeExpr
  body : Stmt

/-- A definition. -/
inductive Def where
  | object (info : Info) (name : String) (fields : List (Item TypeExpr))
  | func (info : Info) (f : Func)

namespace Def

def info : Def → Info
  | .object info _ _ | .func info _ => info

/-- The function that is defined, if it is one. -/
def func? : Def → Option Func
  | .func _ f => some f
  | .object _ _ _ => none

end Def

/-- A module: its definitions and then its statements. -/
structure Module where
  name : String
  defs : List Def
  stmts : List Stmt
  type : Option Ty

/-- The functions of a module in the order of their definition. -/
def Module.funcs (m : Module) : List Func := m.defs.filterMap Def.func?

end EdeLang
