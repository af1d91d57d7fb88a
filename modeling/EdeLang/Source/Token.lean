import EdeLang.Source.Position
import EdeLang.Text.Layout

/-!
# Tokens

A token is a symbol, a keyword, a name, a literal, a comment, a character that fits nowhere, or
the end of the text. Its tag is what the grammar looks at.
-/

namespace EdeLang

/-- Tokens of a single character. -/
inductive Symbol where
  | plus | minus | star | slash
  | semicolon | equal | colon | comma
  | lparen | rparen | lbracket | rbracket | lcurly | rcurly
deriving DecidableEq, Repr, Inhabited

namespace Symbol

/-- All symbols, in the order in which expected tokens are listed. -/
def all : List Symbol :=
  [.plus, .minus, .star, .slash, .semicolon, .equal, .colon, .comma, .lparen, .rparen, .lbracket,
    .rbracket, .lcurly, .rcurly]

def char : Symbol → Char
  | .plus => '+'
  | .minus => '-'
  | .star => '*'
  | .slash => '/'
  | .semicolon => ';'
  | .equal => '='
  | .colon => ':'
  | .comma => ','
  | .lparen => '('
  | .rparen => ')'
  | .lbracket => '['
  | .rbracket => ']'
  | .lcurly => '\x7b'
  | .rcurly => '\x7d'

/-- The symbol that a character is. -/
def ofChar? (c : Char) : Option Symbol := all.find? fun s => s.char == c

end Symbol

/-- Reserved words. -/
inductive Keyword where
  | kLet | kIf | kElse | kWhile | kTrue | kFalse
  | kObject | kEnum | kFunc | kDef | kDefault | kReturn
deriving DecidableEq, Repr, Inhabited

namespace Keyword

/-- All keywords, in the order in which expected tokens are listed. -/
def all : List Keyword :=
  [.kLet, .kIf, .kElse, .kWhile, .kTrue, .kFalse, .kObject, .kEnum, .kFunc, .kDef, .kDefault,
    .kReturn]

def text : Keyword → String
  | .kLet => "let"
  | .kIf => "if"
  | .kElse => "else"
  | .kWhile => "while"
  | .kTrue => "true"
  | .kFalse => "false"
  | .kObject => "object"
  | .kEnum => "enum"
  | .kFunc => "func"
  | .kDef => "def"
  | .kDefault => "default"
  | .kReturn => "return"

/-- The keyword that a word is. -/
def ofText? (s : String) : Option Keyword := all.find? fun k => k.text == s

end Keyword

/-- The content of a token. -/
inductive TokenKind where
  | symbol (s : Symbol)
  | keyword (k : Keyword)
  | ident (name : String)
  | integer (v : Int64)
  | text (s : String)
  | char (c : Char)
  | comment (body : String)
  | invalid (c : Char)
  | eof
deriving DecidableEq, Inhabited

/-- The class of a token. -/
inductive Tag where
  | symbol (s : Symbol)
  | keyword (k : Keyword)
  | ident
  | integer
  | text
  | char
  | comment
  | invalid
  | eof
deriving DecidableEq, Repr, Inhabited

namespace Tag

/-- All tags, in the order in which expected tokens are listed. -/
def all : List Tag :=
  Symbol.all.map .symbol ++ Keyword.all.map .keyword ++
    [.ident, .integer, .text, .char, .comment, .invalid, .eof]

def name : Tag → String
  | .symbol s => String.ofList ['\'', s.char, '\'']
  | .keyword k => "'" ++ k.text ++ "'"
  | .ident => "IDENTIFIER"
  | .integer => "INTEGER"
  | .text => "STRING"
  | .char => "CHAR"
  | .comment => "COMMENT"
  | .invalid => "INVALID"
  | .eof => "EOF"

end Tag

namespace TokenKind

def tag : TokenKind → Tag
  | .symbol s => .symbol s
  | .keyword k => .keyword k
  | .ident _ => .ident
  | .integer _ => .integer
  | .text _ => .text
  | .char _ => .char
  | .comment _ => .comment
  | .invalid _ => .invalid
  | .eof => .eof

/-- The tag, with the content of names and literals. -/
def describe (kind : TokenKind) : String :=
  match kind with
  | .ident name => kind.tag.name ++ "(" ++ name ++ ")"
  | .integer v => kind.tag.name ++ "(" ++ toString v.toInt ++ ")"
  | .text s => kind.tag.name ++ "(" ++ Text.quoted s ++ ")"
  | .char c | .invalid c => kind.tag.name ++ "(" ++ Text.quotedChar c ++ ")"
  | _ => kind.tag.name

def isComment : TokenKind → Bool
  | .comment _ => true
  | _ => false

end TokenKind

/-- A token and the place of its first character. -/
structure Token where
  kind : TokenKind
  pos : Pos
deriving DecidableEq, Inhabited

def Token.tag (t : Token) : Tag := t.kind.tag

end EdeLang
