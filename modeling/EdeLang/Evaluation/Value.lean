import EdeLang.Syntax.Printer

/-!
# Values

What expressions evaluate to. Every type has a default value, and every value a status with
which a program that ends in it exits.
-/

namespace EdeLang

/-- A value of the language. -/
inductive Value where
  | unit
  | int (v : Int64)
  | string (s : String)
  | char (c : Char)
  | bool (b : Bool)
  | array (elems : List Value)
  | tuple (elems : List Value)
  | object (name : String) (fields : List (String × Value))
deriving Inhabited

namespace Value

/-- The value of a literal. -/
def ofLiteral : Literal → Value
  | .unit => .unit
  | .int v => .int v
  | .string s => .string s
  | .char c => .char c
  | .bool b => .bool b

/-- The default value of a primitive type. -/
def ofPrimitive : Primitive → Value
  | .unit => .unit
  | .int => .int 0
  | .string => .string ""
  | .char => .char '\x00'
  | .bool => .bool false

mutual

/-- The default value of a type. Functions are no values, and unit stands for them. -/
def ofType : Ty → Value
  | .prim p => ofPrimitive p
  | .array _ => .array []
  | .tuple elems => .tuple (ofTypes elems)
  | .object n fields => .object n (ofFields fields)
  | .func _ _ => .unit

def ofTypes : List Ty → List Value
  | [] => []
  | t :: ts => ofType t :: ofTypes ts

def ofFields : List (String × Ty) → List (String × Value)
  | [] => []
  | (n, t) :: fields => (n, ofType t) :: ofFields fields

end

/-- The status with which a program ending in the value exits. -/
def exitCode : Value → Int64
  | .int v => v
  | .bool b => if b then 1 else 0
  | .char c => Int64.ofNat c.toNat
  | _ => 0

mutual

def text : Value → String
  | .unit => "()"
  | .int v => toString v.toInt
  | .string s => Text.quoted s
  | .char c => Text.quotedChar c
  | .bool b => if b then "true" else "false"
  | .array elems => "[" ++ Text.joined ", " (texts elems) ++ "]"
  | .tuple elems => "(" ++ Text.joined ", " (texts elems) ++ ")"
  | .object n fields => n ++ braced (Text.joined ", " (fieldTexts fields))

def texts : List Value → List String
  | [] => []
  | v :: vs => text v :: texts vs

def fieldTexts : List (String × Value) → List String
  | [] => []
  | (n, v) :: fields => (n ++ " = " ++ text v) :: fieldTexts fields

end

end Value
end EdeLang
