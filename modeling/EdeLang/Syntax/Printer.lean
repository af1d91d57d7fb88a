import EdeLang.Syntax.Basic
import EdeLang.Text.Layout

/-!
# Text of syntax trees

Expressions show their structure; statements are written one on a line, two spaces deeper inside
a block, a branch or a loop.
-/

namespace EdeLang

/-- Text in braces. -/
def braced (text : String) : String := "\x7b" ++ text ++ "\x7d"

namespace TypeExpr

mutual

def text : TypeExpr → String
  | .name _ n => n
  | .array _ elem => "[" ++ text elem ++ "]"
  | .tuple _ elems => "(" ++ Text.joined ", " (texts elems) ++ ")"
  | .record _ items => braced (Text.joined ", " (itemTexts items))

def texts : List TypeExpr → List String
  | [] => []
  | t :: ts => text t :: texts ts

def itemTexts : List (Item TypeExpr) → List String
  | [] => []
  | ⟨_, n, t⟩ :: items => (n ++ ": " ++ text t) :: itemTexts items

end

end TypeExpr

def Literal.text : Literal → String
  | .unit => "()"
  | .int v => toString v.toInt
  | .string s => Text.quoted s
  | .char c => Text.quotedChar c
  | .bool b => if b then "true" else "false"

namespace Expr

mutual

def text : Expr → String
  | .literal _ value => value.text
  | .ident _ name => name
  | .binop _ op left right => "Binop(" ++ op.text ++ ", " ++ text left ++ ", " ++ text right ++ ")"
  | .assign _ name value => "Assign(" ++ name ++ ", " ++ text value ++ ")"
  | .array _ elems => "[" ++ Text.joined ", " (texts elems) ++ "]"
  | .tuple _ elems => "(" ++ Text.joined ", " (texts elems) ++ ")"
  | .object _ name inits => name ++ braced (Text.joined ", " (initTexts inits))
  | .call _ name args => name ++ "(" ++ Text.joined ", " (texts args) ++ ")"
  | .default _ type => "default(" ++ type.text ++ ")"

def texts : List Expr → List String
  | [] => []
  | e :: es => text e :: texts es

def initTexts : List (String × Expr) → List String
  | [] => []
  | (name, value) :: inits => (name ++ " = " ++ text value) :: initTexts inits

end

end Expr

namespace Stmt

/-- Spaces in front of a statement. -/
def margin (depth : Nat) : String := Text.repeated (2 * depth) ' '

/-- A text on a line of its own. -/
def line (depth : Nat) (text : String) : String := margin depth ++ text ++ "\n"

mutual

/-- The lines of a statement at a depth. -/
def linesAt (depth : Nat) : Stmt → String
  | .var _ name type init =>
    line depth
      ("let " ++ name ++
        (match type with
         | some t => ": " ++ t.text
         | none => "") ++
        (match init with
         | some e => " = " ++ e.text
         | none => "") ++ ";")
  | .expr _ e => line depth (e.text ++ ";")
  | .block _ stmts => line depth "\x7b" ++ allLinesAt (depth + 1) stmts ++ line depth "\x7d"
  | .cond _ test yes no =>
    line depth ("if (" ++ test.text ++ ")") ++ linesAt (depth + 1) yes ++
      (match no with
       | some s => line depth "else" ++ linesAt (depth + 1) s
       | none => "")
  | .loop _ test body => line depth ("while (" ++ test.text ++ ")") ++ linesAt (depth + 1) body
  | .ret _ (some e) => line depth ("return " ++ e.text ++ ";")
  | .ret _ none => line depth "return;"

/-- The lines of statements at a depth. -/
def allLinesAt (depth : Nat) : List Stmt → String
  | [] => ""
  | s :: ss => linesAt depth s ++ allLinesAt depth ss

end

def text (s : Stmt) : String := linesAt 0 s

end Stmt

def Def.text : Def → String
  | .object _ name fields =>
    "def object " ++ name ++ " " ++ braced (Text.joined ", " (TypeExpr.itemTexts fields)) ++ "\n"
  | .func _ f =>
    "def func " ++ f.name ++ "(" ++ Text.joined ", " (TypeExpr.itemTexts f.params) ++ "): " ++
      f.ret.text ++ "\n" ++ f.body.text

def Module.text (m : Module) : String :=
  "module " ++ m.name ++ "\n" ++ String.join (m.defs.map Def.text) ++
    String.join (m.stmts.map Stmt.text)

end EdeLang
