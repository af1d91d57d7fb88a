import EdeLang.Diagnostic
import EdeLang.Text.Alphabetic
import EdeLang.Text.Characters
import EdeLang.Text.Numeric

/-!
# Lexemes

A source text is cut, from left to right, into blanks, comments and the spellings of tokens. The
lexemes of a text, joined, are the text again; the tokens are what the lexemes spell, followed
by the end of the text.
-/

namespace EdeLang

/-- A stretch of source text: its characters and the token they spell, if any. -/
structure Lexeme where
  chars : List Char
  kind : Option TokenKind

namespace Lexeme

/-- The character that an escape stands for. -/
def escape? : Char → Option Char
  | 't' => some '\t'
  | 'n' => some '\n'
  | '\\' => some '\\'
  | '0' => some '\x00'
  | '"' => some '"'
  | '\'' => some '\''
  | _ => none

/-- The body of a block comment and the text after its end. -/
def blockBody : List Char → Option (List Char × List Char)
  | [] => none
  | '*' :: '/' :: rest => some ([], rest)
  | c :: rest => (blockBody rest).map fun (body, rest) => (c :: body, rest)

/-- The characters of a string literal up to and with its closing quote, the characters they
stand for, and the text after them. An unknown escape stands for itself. -/
def textBody : List Char → Option (List Char × List Char × List Char)
  | [] => none
  | '"' :: rest => some (['"'], [], rest)
  | ['\\'] => none
  | '\\' :: c :: rest =>
    (textBody rest).map fun (raw, value, rest) =>
      ('\\' :: c :: raw,
        (match escape? c with
         | some e => e :: value
         | none => '\\' :: c :: value),
        rest)
  | c :: rest => (textBody rest).map fun (raw, value, rest) => (c :: raw, c :: value, rest)

/-- The characters of a character literal after its opening quote, the character they stand
for, and the text after them. -/
def charBody : List Char → Option (List Char × Char × List Char)
  | '\\' :: c :: '\'' :: rest => (escape? c).map fun e => (['\\', c, '\''], e, rest)
  | c :: '\'' :: rest =>
    if c = '\'' ∨ c = '\\' then none else some ([c, '\''], c, rest)
  | _ => none

/-- The value of decimal digits. -/
def digitsValue (digits : List Char) : Nat :=
  digits.foldl (fun n c => 10 * n + (c.toNat - 48)) 0

/-- An integer token. It has to fit a signed word. -/
def integer (digits : List Char) : Except LexError TokenKind :=
  if digitsValue digits < 0x8000000000000000 then .ok (.integer (Int64.ofNat (digitsValue digits)))
  else .error (.invalidInteger (String.ofList digits))

def isWordStart (c : Char) : Bool := Text.isAlphabetic c || c == '_'

def isWordPart (c : Char) : Bool := Text.isAlphabetic c || Text.isNumeric c || c == '_'

/-- A keyword or a name. -/
def word (chars : List Char) : TokenKind :=
  match Keyword.ofText? (String.ofList chars) with
  | some k => .keyword k
  | none => .ident (String.ofList chars)

/-- A comment token, without the white space around its body. -/
def comment (body : List Char) : TokenKind := .comment (String.ofList (Text.trimmed body))

/-- A lexeme that starts with the given character, and the text after it. -/
def scanOther (c : Char) (rest : List Char) : Except LexError (Lexeme × List Char) :=
  match Symbol.ofChar? c with
  | some s => .ok (⟨[c], some (.symbol s)⟩, rest)
  | none =>
    if c.isDigit then
      let digits := c :: rest.takeWhile Char.isDigit
      (integer digits).map fun kind => (⟨digits, some kind⟩, rest.dropWhile Char.isDigit)
    else if c = '\'' then
      match charBody rest with
      | some (raw, value, rest) => .ok (⟨c :: raw, some (.char value)⟩, rest)
      | none => .error .invalidChar
    else if c = '"' then
      match textBody rest with
      | some (raw, value, rest) => .ok (⟨c :: raw, some (.text (String.ofList value))⟩, rest)
      | none => .error .unterminatedText
    else if isWordStart c then
      let chars := c :: rest.takeWhile isWordPart
      .ok (⟨chars, some (word chars)⟩, rest.dropWhile isWordPart)
    else .ok (⟨[c], some (.invalid c)⟩, rest)

/-- The lexeme at the start of a text that is not empty, and the text after it. -/
def scan : Char → List Char → Except LexError (Lexeme × List Char)
  | '/', '/' :: rest =>
    let body := rest.takeWhile (· != '\n')
    .ok (⟨'/' :: '/' :: body, some (comment body)⟩, rest.dropWhile (· != '\n'))
  | '/', '*' :: rest =>
    match blockBody rest with
    | some (body, rest) => .ok (⟨'/' :: '*' :: body ++ ['*', '/'], some (comment body)⟩, rest)
    | none => .error .invalidComment
  | '*', '/' :: _ => .error .invalidComment
  | c, rest =>
    if Text.isWhitespace c then
      .ok (⟨c :: rest.takeWhile Text.isWhitespace, none⟩, rest.dropWhile Text.isWhitespace)
    else scanOther c rest

/-- The lexemes of a text that starts at a place, with their places. Fuel for each character
suffices. -/
def scanAll : Nat → Pos → List Char → Except Diagnostic (List (Pos × Lexeme))
  | _, _, [] => .ok []
  | 0, _, _ :: _ => .ok []
  | fuel + 1, pos, c :: cs =>
    match scan c cs with
    | .error e => .error (e.at pos)
    | .ok (lexeme, rest) =>
      match scanAll fuel (pos.advance lexeme.chars) rest with
      | .error d => .error d
      | .ok more => .ok ((pos, lexeme) :: more)

/-- The token of a lexeme at a place. Comments may be left out. -/
def token? (keepComments : Bool) (place : Pos × Lexeme) : Option Token :=
  match place.2.kind with
  | some kind => if kind.isComment && !keepComments then none else some ⟨kind, place.1⟩
  | none => none

end Lexeme

/-- The lexemes of a source text with their places. -/
def lexemes (source : String) : Except Diagnostic (List (Pos × Lexeme)) :=
  Lexeme.scanAll source.length .start source.toList

/-- The tokens of a source text, the last of which is its end. -/
def tokenize (source : String) (keepComments : Bool) : Except Diagnostic (List Token) :=
  match lexemes source with
  | .error d => .error d
  | .ok found =>
    .ok (found.filterMap (Lexeme.token? keepComments) ++
      [⟨.eof, Pos.start.advance source.toList⟩])

end EdeLang
