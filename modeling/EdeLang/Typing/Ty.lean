import EdeLang.Text.Layout

/-!
# Types

Types are compared by structure. Parameter names of a function do not count; names and fields of
an object do, with their order. An object without a name is a record.
-/

namespace EdeLang

/-- Types without parts. -/
inductive Primitive where
  | unit | int | string | char | bool
deriving DecidableEq, Repr, Inhabited

namespace Primitive

def all : List Primitive := [.unit, .int, .string, .char, .bool]

def name : Primitive → String
  | .unit => "unit"
  | .int => "int"
  | .string => "string"
  | .char => "char"
  | .bool => "bool"

/-- The primitive type with a name. -/
def ofName? (s : String) : Option Primitive := all.find? fun p => p.name == s

end Primitive

/-- A resolved type. -/
inductive Ty where
  | prim (p : Primitive)
  | array (elem : Ty)
  | tuple (elems : List Ty)
  | object (name : String) (fields : List (String × Ty))
  | func (params : List (String × Ty)) (ret : Ty)
deriving Inhabited

namespace Ty

def unit : Ty := .prim .unit
def int : Ty := .prim .int
def string : Ty := .prim .string
def char : Ty := .prim .char
def bool : Ty := .prim .bool

mutual

/-- The types agree up to the names of function parameters. -/
def same : Ty → Ty → Bool
  | .prim p, .prim q => p == q
  | .array a, .array b => same a b
  | .tuple as, .tuple bs => sameAll as bs
  | .object m as, .object n bs => m == n && sameFields as bs
  | .func ps r, .func qs s => same r s && sameParams ps qs
  | _, _ => false
termination_by structural t => t

/-- The types agree one by one. -/
def sameAll : List Ty → List Ty → Bool
  | [], [] => true
  | a :: as, b :: bs => same a b && sameAll as bs
  | _, _ => false
termination_by structural ts => ts

/-- The fields agree one by one, with their names. -/
def sameFields : List (String × Ty) → List (String × Ty) → Bool
  | [], [] => true
  | (m, a) :: as, (n, b) :: bs => m == n && same a b && sameFields as bs
  | _, _ => false
termination_by structural fields => fields

/-- The parameters agree one by one, whatever their names. -/
def sameParams : List (String × Ty) → List (String × Ty) → Bool
  | [], [] => true
  | (_, a) :: as, (_, b) :: bs => same a b && sameParams as bs
  | _, _ => false
termination_by structural params => params

end

instance : BEq Ty := ⟨same⟩

/-- A value of the type is a single word that can serve as an exit status. -/
def isScalar : Ty → Bool
  | .prim .int | .prim .bool | .prim .char => true
  | _ => false

/-- The type of a field of an object. -/
def field? : Ty → String → Option Ty
  | .object _ fields, name => fields.lookup name
  | _, _ => none

mutual

def text : Ty → String
  | .prim p => p.name
  | .array elem => "[" ++ text elem ++ "]"
  | .tuple elems => "(" ++ Text.joined ", " (texts elems) ++ ")"
  | .object name fields =>
    if name.isEmpty then "\x7b" ++ Text.joined ", " (fieldTexts fields) ++ "\x7d" else name
  | .func params ret => "func(" ++ Text.joined ", " (fieldTexts params) ++ "): " ++ text ret

def texts : List Ty → List String
  | [] => []
  | t :: ts => text t :: texts ts

def fieldTexts : List (String × Ty) → List String
  | [] => []
  | (name, t) :: rest => (name ++ ": " ++ text t) :: fieldTexts rest

end

end Ty

/-- Arithmetic operators. -/
inductive BinOp where
  | add | sub | mul | div
deriving DecidableEq, Repr, Inhabited

namespace BinOp

def all : List BinOp := [.add, .sub, .mul, .div]

def text : BinOp → String
  | .add => "+"
  | .sub => "-"
  | .mul => "*"
  | .div => "/"

/-- Multiplication and division bind more tightly than addition and subtraction. -/
def precedence : BinOp → Nat
  | .add | .sub => 1
  | .mul | .div => 2

/-- The type of an operation: all four on integers, and addition of strings. -/
def resultType (op : BinOp) (left right : Ty) : Option Ty :=
  if left == Ty.int && right == Ty.int then some Ty.int
  else if op == .add && left == Ty.string && right == Ty.string then some Ty.string
  else none

end BinOp
end EdeLang
