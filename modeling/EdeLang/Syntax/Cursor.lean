import EdeLang.Diagnostic

/-!
# The token cursor

A cursor stands in front of the tokens that are left and remembers which tags were asked for
since the last token was taken. Comments carry no grammar: every look at the next token goes past
those in front of it. Reading may stop with a diagnostic, or because there is no token left; the
cursor stays where it was.
-/

namespace EdeLang

/-- Tokens that are left, and the tags asked for at the first of them. -/
structure Cursor where
  tokens : List Token
  expected : List Tag

/-- Why a list of tokens is no token stream. -/
inductive StreamError where
  | missingEnd
  | severalEnds
deriving DecidableEq, Repr

def StreamError.message : StreamError → String
  | .missingEnd => "token stream must end with EOF"
  | .severalEnds => "assertion `left == right` failed: token stream must hold exactly one EOF"

/-- Why reading stopped: the tokens are wrong, are no stream, or are used up. -/
inductive Stop where
  | diagnostic (d : Diagnostic)
  | stream (e : StreamError)
  | pastEnd

def Stop.message : Stop → String
  | .diagnostic d => d.text
  | .stream e => e.message
  | .pastEnd => "read past EOF"

/-- An action on a cursor. -/
abbrev Parse := EStateM Stop Cursor

namespace Cursor

/-- A cursor at the start of a token stream, which ends in its only end token. -/
def ofTokens (tokens : List Token) : Except StreamError Cursor :=
  if (tokens.getLast?).map Token.tag ≠ some .eof then .error .missingEnd
  else if (tokens.filter fun t => t.tag == .eof).length ≠ 1 then .error .severalEnds
  else .ok ⟨tokens, []⟩

/-- The cursor past the comments in front of it. -/
def skip (c : Cursor) : Cursor := ⟨c.tokens.dropWhile fun t => t.kind.isComment, c.expected⟩

/-- The next token, which stays. -/
def peek : Parse Token := fun c =>
  match c.skip.tokens with
  | t :: _ => .ok t c.skip
  | [] => .error .pastEnd c.skip

/-- Takes the next token. -/
def next : Parse Token := fun c =>
  match c.skip.tokens with
  | t :: rest => .ok t ⟨rest, []⟩
  | [] => .error .pastEnd ⟨[], []⟩

/-- Remembers that a tag was asked for. -/
def ask (tag : Tag) : Parse Unit := fun c => .ok () ⟨c.tokens, tag :: c.expected⟩

/-- Asks for a tag: whether the next token has it. -/
def check (tag : Tag) : Parse Bool := do
  ask tag
  let t ← peek
  return t.tag == tag

/-- The tags asked for, each once and in their order. -/
def expectedTags (c : Cursor) : List Tag := Tag.all.filter fun tag => c.expected.contains tag

/-- The diagnostic that the next token is none of those asked for. -/
def unexpected : Parse Diagnostic := do
  let t ← peek
  let c ← get
  return (ParseError.unexpectedToken t.kind c.expectedTags).at t.pos

/-- Stops with a diagnostic. -/
def fail {α : Type} (d : Diagnostic) : Parse α := throw (.diagnostic d)

/-- Stops because of the next token. -/
def failUnexpected {α : Type} : Parse α := do
  let d ← unexpected
  fail d

/-- Takes the next token if it has a tag. -/
def take? (tag : Tag) : Parse (Option Token) := do
  if ← check tag then
    let t ← next
    return some t
  else return none

/-- Takes the next token, which must have a tag. -/
def expect (tag : Tag) : Parse Token := do
  match ← take? tag with
  | some t => return t
  | none => failUnexpected

end Cursor
end EdeLang
