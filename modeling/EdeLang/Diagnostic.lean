import EdeLang.Source.Token
import EdeLang.Text.Layout
import EdeLang.Text.Style
import EdeLang.Typing.Ty

/-!
# Diagnostics

What can be wrong with a source text, found while reading its lexemes, its grammar or its types,
together with the place it is about.
-/

namespace EdeLang

/-- A text that cannot be cut into lexemes. -/
inductive LexError where
  | invalidInteger (digits : String)
  | unterminatedText
  | invalidChar
  | invalidComment
deriving DecidableEq, Repr

namespace LexError

def kind : LexError → String
  | .invalidInteger _ => "INVALID_INT_LIT"
  | .unterminatedText => "UNEXPECTED_EOF"
  | .invalidChar => "INVALID_CHAR_LIT"
  | .invalidComment => "INVALID_COMMENT"

def message : LexError → String
  | .invalidInteger digits => "invalid integer literal `" ++ digits ++ "`"
  | .unterminatedText => "unexpected end of file in string literal"
  | .invalidChar => "character literal must hold exactly one character"
  | .invalidComment => "unterminated or unmatched block comment"

end LexError

/-- Tokens that do not form a module. -/
inductive ParseError where
  | unexpectedToken (found : TokenKind) (expected : List Tag)
  | invalidOperator
  | duplicateItem (name : String)
deriving DecidableEq

namespace ParseError

def kind : ParseError → String
  | .unexpectedToken _ _ => "UNEXPECTED_TOKEN"
  | .invalidOperator => "INVALID_OPERATOR"
  | .duplicateItem _ => "DUP_RECORD_ITEM_NAME"

def message : ParseError → String
  | .unexpectedToken found expected =>
    "found " ++ found.describe ++ " but expected one of \x7b" ++
      Text.joined ", " (expected.map Tag.name) ++ "\x7d"
  | .invalidOperator => "left side of `=` must be an identifier"
  | .duplicateItem name => "duplicate item name `" ++ name ++ "`"

end ParseError

/-- A module without a type. -/
inductive TypeError where
  | invalidBinop (op : BinOp) (left right : Ty)
  | unknownId (name : String)
  | unknownVariable (name : String)
  | invalidAssignment (expected found : Ty)
  | idConflict (name : String) (earlier : Pos)
  | unresolvableTypeName (name : String)
  | reinitialization (field : String)
  | unexpectedInitialization (field : String)
  | unexpectedType (expected found : Ty)
  | undefinedObject (name : String)
  | undefinedFunction (name : String)
  | invalidArity (name : String) (expected found : Nat)
  | missingReturn (name : String)
  | incompatibleIfElse (thenTy elseTy : Ty)
  | cannotDeduce
  | returnOutsideFunction

namespace TypeError

def kind : TypeError → String
  | .invalidBinop _ _ _ => "INVALID_BINOP"
  | .unknownId _ => "UNKNOWN_ID"
  | .unknownVariable _ => "UNKNOWN_VARIABLE"
  | .invalidAssignment _ _ => "INVALID_ASSIGNMENT"
  | .idConflict _ _ => "ID_CONFLICT"
  | .unresolvableTypeName _ => "UNRESOLVABLE_TYPE_NAME"
  | .reinitialization _ => "REINITIALIZATION"
  | .unexpectedInitialization _ => "UNEXPECTED_INITIALIZATION"
  | .unexpectedType _ _ => "UNEXPECTED_TYPE"
  | .undefinedObject _ => "UNDEFINED_OBJECT"
  | .undefinedFunction _ => "UNDEFINED_FUNCTION"
  | .invalidArity _ _ _ => "INVALID_ARITY"
  | .missingReturn _ => "MISSING_RETURN"
  | .incompatibleIfElse _ _ => "INCOMPATIBLE_IF_ELSE_CLAUSES"
  | .cannotDeduce => "CANNOT_DEDUCE_EXPR_TYPE"
  | .returnOutsideFunction => "RETURN_OUTSIDE_FUNCTION"

def message : TypeError → String
  | .invalidBinop op left right =>
    "no operator `" ++ op.text ++ "` for `" ++ left.text ++ "` and `" ++ right.text ++ "`"
  | .unknownId name => "unknown identifier `" ++ name ++ "`"
  | .unknownVariable name => "`" ++ name ++ "` is not a variable"
  | .invalidAssignment expected found =>
    "cannot assign `" ++ found.text ++ "` to `" ++ expected.text ++ "`"
  | .idConflict name earlier => "`" ++ name ++ "` is already defined at " ++ earlier.text
  | .unresolvableTypeName name => "`" ++ name ++ "` does not name a type"
  | .reinitialization field => "field `" ++ field ++ "` is initialized more than once"
  | .unexpectedInitialization field => "no field `" ++ field ++ "` on this object"
  | .unexpectedType expected found =>
    "expected `" ++ expected.text ++ "` but found `" ++ found.text ++ "`"
  | .undefinedObject name => "undefined object `" ++ name ++ "`"
  | .undefinedFunction name => "undefined function `" ++ name ++ "`"
  | .invalidArity name expected found =>
    "`" ++ name ++ "` takes " ++ toString expected ++ " arguments but " ++ toString found ++
      " were given"
  | .missingReturn name => "function `" ++ name ++ "` may exit without returning a value"
  | .incompatibleIfElse thenTy elseTy =>
    "if branch has type `" ++ thenTy.text ++ "` but else branch has type `" ++ elseTy.text ++ "`"
  | .cannotDeduce => "cannot deduce the type of this expression"
  | .returnOutsideFunction => "`return` outside of a function"

end TypeError

/-- What is wrong with a source text. -/
inductive SourceError where
  | lex (e : LexError)
  | parse (e : ParseError)
  | type (e : TypeError)

namespace SourceError

/-- The name of the kind of error, after its family. -/
def kind : SourceError → String
  | .lex e => "LEXING_" ++ e.kind
  | .parse e => "PARSING_" ++ e.kind
  | .type e => "TYPECHECKING_" ++ e.kind

def message : SourceError → String
  | .lex e => e.message
  | .parse e => e.message
  | .type e => e.message

end SourceError

/-- An error and its place. -/
structure Diagnostic where
  pos : Pos
  error : SourceError

def LexError.at (e : LexError) (pos : Pos) : Diagnostic := ⟨pos, .lex e⟩

def ParseError.at (e : ParseError) (pos : Pos) : Diagnostic := ⟨pos, .parse e⟩

def TypeError.at (e : TypeError) (pos : Pos) : Diagnostic := ⟨pos, .type e⟩

namespace Diagnostic

/-- Place, kind and message on one line. -/
def text (d : Diagnostic) : String :=
  d.pos.text ++ " " ++ d.error.kind ++ ": " ++ d.error.message

/-- The line of text after the name of its source. -/
def render (d : Diagnostic) (source : String) : String := source ++ ":" ++ d.text

/-- The line of a source text that a diagnostic is about. -/
def shownLine (d : Diagnostic) (source : String) : String :=
  (Text.lines source).getD (d.pos.line - 1) ""

/-- A report with the line and a caret under the place. -/
def report (d : Diagnostic) (name source : String) : String :=
  Text.styled [.red, .bold] "error" ++ ": " ++ d.error.kind ++ ": " ++ d.error.message ++ "\n" ++
    "     " ++ Text.styled [.blue] "-->" ++ " " ++
    Text.styled [.underline] (name ++ ":" ++ d.pos.text) ++ "\n" ++
    "      " ++ Text.styled [.blue] "|" ++ "\n" ++
    " " ++ Text.styled [.blue] (Text.padLeft 4 ' ' (toString d.pos.line) ++ " |") ++ " " ++
    d.shownLine source ++ "\n" ++
    "      " ++ Text.styled [.blue] "|" ++ " " ++ Text.repeated (d.pos.col - 1) ' ' ++
    Text.styled [.red, .bold] "^" ++ "\n"

end Diagnostic
end EdeLang
