import EdeLang.Yaml.Basic
import EdeLang.Yaml.Scalar

/-!
# Tokens

A text is read into tokens that show its structure: where block collections start and end, which
follows from indentation, and where keys start. A key is known by the colon after it, on the same
line and at most 1024 characters on, so its start is remembered until then.
-/

namespace EdeLang.Yaml

inductive Token where
  | version (major minor : Nat)
  | tagHandle (handle uri : String)
  | documentStart
  | documentEnd
  | blockListStart
  | blockMapStart
  | blockEnd
  | flowListStart
  | flowListEnd
  | flowMapStart
  | flowMapEnd
  | item
  | comma
  | key
  | value
  | alias (name : String)
  | anchor (name : String)
  | tag (handle suffix : String)
  | scalar (style : Style) (text : String)
deriving DecidableEq, Repr

/-! ## Names, tags and directives -/

/-- The character may stand in the name of an anchor, a handle or a directive. -/
def isNameChar (c : Char) : Bool := c.isAlphanum || c == '_' || c == '-'

/-- The character may stand in a tag. -/
def isTagChar (c : Char) : Bool :=
  isNameChar c || c ∈ [';', '/', '?', ':', '@', '&', '=', '+', '$', '.', '!', '~', '*', '\'', '(', ')', '%']

/-- The character may stand in the address of a tag. -/
def isUriChar (c : Char) : Bool := isTagChar c || c == ',' || c == '[' || c == ']'

/-- Every percent sign has two hexadecimal digits after it. -/
def percentPaired : List Char → Bool
  | [] => true
  | '%' :: a :: b :: cs => (hexDigit? a).isSome && (hexDigit? b).isSome && percentPaired cs
  | '%' :: _ => false
  | _ :: cs => percentPaired cs

/-- The name of an anchor. -/
def anchorName? (ps : List Place) : Option (String × List Place) :=
  let (name, rest) := spanChars isNameChar ps
  let closed := endsWord rest || rest.head?.any fun p => p.char ∈ ['?', ':', ',', ']', '\x7d', '%', '@', '\x60']
  if name.isEmpty || !closed then none else some (String.ofList name, rest)

/-- A handle: an exclamation mark, or a name between two of them or after one. -/
def handle (ps : List Place) : List Char × List Place :=
  let (name, rest) := spanChars isNameChar (ps.drop 1)
  if starts '!' rest then ('!' :: name ++ ['!'], rest.drop 1) else ('!' :: name, rest)

/-- A tag from its exclamation mark on. -/
def tag? (flow : Bool) (ps : List Place) : Option (Token × List Place) := do
  let (token, rest) ←
    if starts '<' (ps.drop 1) then
      let (uri, rest) := spanChars isUriChar (ps.drop 2)
      if uri.isEmpty || !percentPaired uri || !starts '>' rest then none
      else some (Token.tag "" (String.ofList uri), rest.drop 1)
    else
      let (name, rest) := handle ps
      let (suffix, rest) := spanChars isTagChar rest
      if !percentPaired suffix then none
      else if 2 ≤ name.length && name.getLast? == some '!' then
        if suffix.isEmpty then none
        else some (Token.tag (String.ofList name) (String.ofList suffix), rest)
      else
        let suffix := name.drop 1 ++ suffix
        if suffix.isEmpty then some (Token.tag "" "!", rest)
        else some (Token.tag "!" (String.ofList suffix), rest)
  if endsWord rest || flow && starts ',' rest then some (token, rest) else none

/-- A number of at most nine digits. -/
def versionNumber? (ps : List Place) : Option (Nat × List Place) :=
  let (digits, rest) := spanChars Char.isDigit ps
  if digits.isEmpty || decide (9 < digits.length) then none
  else some (digits.foldl (fun n c => 10 * n + (c.toNat - 48)) 0, rest)

def dropBlanks (ps : List Place) : List Place := ps.dropWhile fun p => isBlank p.char

/-- A directive after its percent sign, with the rest of its line. -/
def directive? (ps : List Place) : Option (Token × List Place) := do
  let (name, rest) := spanChars isNameChar ps
  if !endsWord rest then none
  else if name = ['Y', 'A', 'M', 'L'] then
    let (major, rest) ← versionNumber? (dropBlanks rest)
    if !starts '.' rest then none
    else
      let (minor, rest) ← versionNumber? (rest.drop 1)
      return (.version major minor, ← restOfLine? rest)
  else if name = ['T', 'A', 'G'] then
    let rest := dropBlanks rest
    let (handle, rest) := handle rest
    let spelled := handle.length = 1 || handle.getLast? == some '!'
    let (uri, after) := spanChars isUriChar (dropBlanks rest)
    if !starts '!' (dropBlanks (ps.drop 3)) || !spelled || !(rest.head?.any fun p => isBlank p.char) ||
        uri.isEmpty || !percentPaired uri || !endsWord after then none
    else return (.tagHandle (String.ofList handle) (String.ofList uri), ← restOfLine? after)
  else none

/-! ## Layout -/

/-- A token that may turn out to start a key. -/
structure Candidate where
  /-- How many tokens stand before it. -/
  position : Nat
  place : Place
  /-- Nothing but a key may stand there. -/
  required : Bool

/-- What was read so far. -/
structure Scan where
  /-- Tokens, latest first. -/
  tokens : List Token
  /-- How many tokens there are. -/
  size : Nat
  /-- The columns of the open block collections, innermost first. -/
  indents : List Nat
  /-- The candidate in the innermost flow collection. -/
  candidate : Option Candidate
  /-- The candidates around the open flow collections, innermost first. -/
  outer : List (Option Candidate)
  /-- A key may start here. -/
  keyAllowed : Bool

namespace Scan

def start : Scan := ⟨[], 0, [], none, [], true⟩

/-- Some flow collection is open. -/
def inFlow (s : Scan) : Bool := !s.outer.isEmpty

/-- The least column of what lies inside the innermost block collection. -/
def innerColumn (s : Scan) : Nat :=
  match s.indents with
  | [] => 0
  | column :: _ => column + 1

def push (t : Token) (s : Scan) : Scan :=
  { s with tokens := t :: s.tokens, size := s.size + 1 }

/-- Puts a token before those from a position on. -/
def insert (position : Nat) (t : Token) (s : Scan) : Scan :=
  let later := s.size - position
  { s with tokens := s.tokens.take later ++ t :: s.tokens.drop later, size := s.size + 1 }

/-- Opens a block collection at a column, unless one is open there. -/
def openBlock (column position : Nat) (t : Token) (s : Scan) : Scan :=
  if s.inFlow || decide (column < s.innerColumn) then s
  else { s.insert position t with indents := column :: s.indents }

/-- Closes the block collections that a test on their columns selects. -/
def closeBlocks (test : Nat → Bool) (s : Scan) : Scan :=
  if s.inFlow then s
  else
    let closed := (s.indents.takeWhile test).length
    { s with
      tokens := List.replicate closed .blockEnd ++ s.tokens
      size := s.size + closed
      indents := s.indents.drop closed }

/-- Gives up the candidate, which must not be required. -/
def dropCandidate? (s : Scan) : Option Scan :=
  if s.candidate.any (·.required) then none else some { s with candidate := none }

/-- Remembers the next token as a candidate if a key may start here. -/
def saveCandidate? (p : Place) (s : Scan) : Option Scan :=
  if s.keyAllowed then do
    let s ← s.dropCandidate?
    let required := !s.inFlow && s.indents.head? == some p.column
    return { s with candidate := some ⟨s.size, p, required⟩ }
  else some s

/-- The candidate is still near enough for a colon at the place. -/
def Candidate.isNear (p : Place) (c : Candidate) : Bool :=
  c.place.line == p.line && decide (p.index ≤ c.place.index + 1024)

/-- Gives up the candidates that are too far from a place, none of which may be required. -/
def dropFar? (p : Place) (s : Scan) : Option Scan :=
  let far (c : Candidate) : Bool := !Candidate.isNear p c
  if (s.candidate :: s.outer).any fun c => c.any fun c => far c && c.required then none
  else
    some { s with
      candidate := s.candidate.filter fun c => !far c
      outer := s.outer.map fun c => c.filter fun c => !far c }

/-! ## Reading -/

/-- Drops white space and comments. A tab may not stand where a key could start in a block. The
flag says whether a key may start after them. -/
def dropSpace (flow comment keyAllowed : Bool) : List Place → List Place × Bool
  | [] => ([], keyAllowed)
  | p :: ps =>
    if isBreak p.char then dropSpace flow false (keyAllowed || !flow) ps
    else if comment || p.char == ' ' || p.char == '\t' && (flow || !keyAllowed) ||
        p.char == '\ufeff' && p.column == 0 then
      dropSpace flow comment keyAllowed ps
    else if p.char == '#' then dropSpace flow true keyAllowed ps
    else (p :: ps, keyAllowed)

/-- Reads the start of a flow collection. -/
def openFlow? (p : Place) (t : Token) (s : Scan) : Option Scan := do
  let s ← s.saveCandidate? p
  return { s.push t with candidate := none, outer := s.candidate :: s.outer, keyAllowed := true }

/-- Reads the end of a flow collection. -/
def closeFlow? (t : Token) (s : Scan) : Option Scan :=
  match s.outer with
  | [] => none
  | candidate :: outer =>
    some { s.push t with candidate := candidate, outer := outer, keyAllowed := false }

/-- Reads a mark that ends what may be a key, after which one may start or not. -/
def mark? (t : Token) (keyAllowed : Bool) (s : Scan) : Option Scan := do
  let s ← s.dropCandidate?
  return { s.push t with keyAllowed := keyAllowed }

/-- Reads the mark of a list item. -/
def item? (p : Place) (s : Scan) : Option Scan :=
  if s.inFlow then s.mark? .item true
  else if s.keyAllowed then (s.openBlock p.column s.size .blockListStart).mark? .item true
  else none

/-- Reads the mark of a key. -/
def key? (p : Place) (s : Scan) : Option Scan :=
  if s.inFlow then s.mark? .key false
  else if s.keyAllowed then (s.openBlock p.column s.size .blockMapStart).mark? .key true
  else none

/-- Reads the colon before a value. The candidate, if there is one, was a key. -/
def value? (p : Place) (s : Scan) : Option Scan :=
  match s.candidate with
  | some c =>
    let s := (s.insert c.position .key).openBlock c.place.column c.position .blockMapStart
    some { s.push .value with candidate := none, keyAllowed := false }
  | none =>
    if s.inFlow then some { s.push .value with keyAllowed := false }
    else if s.keyAllowed then
      some { (s.openBlock p.column s.size .blockMapStart).push .value with keyAllowed := true }
    else none

/-- Reads a token that may start a key. -/
def keyStart? (p : Place) (t : Token) (s : Scan) : Option Scan := do
  let s ← s.saveCandidate? p
  return { s.push t with keyAllowed := false }

/-- Reads a directive or a mark between documents. -/
def divide? (t : Token) (s : Scan) : Option Scan :=
  (s.closeBlocks fun _ => true).mark? t false

/-- Reads a block scalar. -/
def blockScalar? (style : Style) (ps : List Place) (s : Scan) : Option (Scan × List Place) := do
  let outer := s.indents.headD 0
  let (text, rest) ← Yaml.blockScalar? (style == .folded) outer s.innerColumn ps
  return (← s.mark? (.scalar style text) true, rest)

/-- The character may start a plain scalar wherever it stands. -/
def startsPlain (c : Char) : Bool :=
  !(isBlank c || isBreak c || isFlowIndicator c ||
    c ∈ ['-', '?', ':', '#', '&', '*', '!', '|', '>', '\'', '"', '%', '@', '\x60'])

/-- Reads a plain scalar. -/
def plain? (p : Place) (ps : List Place) (s : Scan) : Option (Scan × List Place) := do
  let s' ← s.saveCandidate? p
  let scanned ← plainScalar? s.inFlow s.innerColumn [] (.blanks []) (p :: ps)
  return ({ s'.push (.scalar .plain scanned.text) with keyAllowed := scanned.crossesLine }, scanned.rest)

/-- Reads one token, which starts at the given place. -/
def token? (p : Place) (ps : List Place) (s : Scan) : Option (Scan × List Place) :=
  if p.column == 0 && p.char == '%' then do
    let (t, rest) ← directive? ps
    return (← s.divide? t, rest)
  else if isMarker '-' (p :: ps) then (s.divide? .documentStart).map (·, ps.drop 2)
  else if isMarker '.' (p :: ps) then (s.divide? .documentEnd).map (·, ps.drop 2)
  else
    match p.char with
    | '[' => (s.openFlow? p .flowListStart).map (·, ps)
    | '\x7b' => (s.openFlow? p .flowMapStart).map (·, ps)
    | ']' => (s.closeFlow? .flowListEnd).map (·, ps)
    | '\x7d' => (s.closeFlow? .flowMapEnd).map (·, ps)
    | ',' => (s.mark? .comma true).map (·, ps)
    | '-' => if endsWord ps then (s.item? p).map (·, ps) else s.plain? p ps
    | '?' =>
      if s.inFlow || endsWord ps then (s.key? p).map (·, ps) else s.plain? p ps
    | ':' =>
      if s.inFlow || endsWord ps then (s.value? p).map (·, ps) else s.plain? p ps
    | '*' => do
      let (name, rest) ← anchorName? ps
      return (← s.keyStart? p (.alias name), rest)
    | '&' => do
      let (name, rest) ← anchorName? ps
      return (← s.keyStart? p (.anchor name), rest)
    | '!' => do
      let (t, rest) ← tag? s.inFlow (p :: ps)
      return (← s.keyStart? p t, rest)
    | '|' => if s.inFlow then none else s.blockScalar? .literal ps
    | '>' => if s.inFlow then none else s.blockScalar? .folded ps
    | '\'' => do
      let (text, rest) ← singleQuoted? [] (.blanks []) ps
      return (← s.keyStart? p (.scalar .quoted text), rest)
    | '"' => do
      let (text, rest) ← doubleQuoted? none [] (.blanks []) ps
      return (← s.keyStart? p (.scalar .quoted text), rest)
    | c => if startsPlain c then s.plain? p ps else none

/-- Reads the tokens of a text. Each takes at least one character, so that the number of
characters bounds the number of steps. -/
def tokens? : Nat → Scan → List Place → Option (List Token)
  | 0, _, _ => none
  | steps + 1, s, ps =>
    let (ps, keyAllowed) := dropSpace s.inFlow false s.keyAllowed ps
    let s := { s with keyAllowed := keyAllowed }
    match ps with
    | [] =>
      if s.inFlow then none
      else ((s.closeBlocks fun _ => true).dropCandidate?).map fun s => s.tokens.reverse
    | p :: ps => do
      let s ← s.dropFar? p
      let (s, rest) ← (s.closeBlocks fun column => decide (p.column < column)).token? p ps
      tokens? steps s rest

end Scan

/-- The tokens of a text, if every character is allowed and the layout is well formed. -/
def tokens? (text : String) : Option (List Token) :=
  if text.toList.all isAllowed then
    let ps := places text
    Scan.tokens? (ps.length + 1) .start ps
  else none

end EdeLang.Yaml
