import EdeLang.Yaml.Place

/-!
# Scalars

A scalar may run over several lines. In plain and quoted scalars white space around the end of a
line is folded: one line end becomes a space, and of more the first is dropped. Block scalars keep
the lines that are indented below them.
-/

namespace EdeLang.Yaml

/-! ## White space inside a scalar -/

/-- White space between two characters of a scalar. Lists hold the latest character first. -/
inductive Gap where
  /-- Blanks on the same line. -/
  | blanks (cs : List Char)
  /-- At least one end of a line. The first is missing if it was escaped. -/
  | lines (first : Option Char) (more : List Char)

namespace Gap

def isEmpty : Gap → Bool
  | .blanks cs => cs.isEmpty
  | .lines _ _ => false

/-- Some line ends in the gap. -/
def crossesLine : Gap → Bool
  | .blanks _ => false
  | .lines _ _ => true

/-- A gap with one more character of white space. -/
def push (c : Char) : Gap → Gap
  | .blanks cs => if isBreak c then .lines (some c) [] else .blanks (c :: cs)
  | .lines first more => if isBreak c then .lines first (c :: more) else .lines first more

/-- What the gap adds to the scalar, latest character first. -/
def folded : Gap → List Char
  | .blanks cs => cs
  | .lines (some '\n') [] => [' ']
  | .lines (some '\n') more => more
  | .lines first more => more ++ first.toList

end Gap

/-! ## Plain scalars -/

/-- A scalar that was read. -/
structure Scanned where
  text : String
  rest : List Place
  /-- A line has ended after the scalar. -/
  crossesLine : Bool

/-- Reads on in a plain scalar, given its characters so far, latest first, and the white space
after them. In a block it has to stay indented. -/
def plainScalar? (flow : Bool) (indent : Nat) (seen : List Char) (gap : Gap) :
    List Place → Option Scanned
  | [] => some ⟨String.ofList seen.reverse, [], gap.crossesLine⟩
  | p :: ps =>
    if isBlank p.char || isBreak p.char then
      if p.char == '\t' && gap.crossesLine && decide (p.column < indent) then none
      else plainScalar? flow indent seen (gap.push p.char) ps
    else if !gap.isEmpty && (!flow && decide (p.column < indent) || isDocumentMarker (p :: ps) ||
        p.char == '#') then
      some ⟨String.ofList seen.reverse, p :: ps, gap.crossesLine⟩
    else if flow && p.char == ':' && (ps.head?.any fun q => isFlowIndicator q.char || q.char == '?')
    then none
    else if p.char == ':' && endsWord ps || flow && isFlowIndicator p.char then
      some ⟨String.ofList seen.reverse, p :: ps, gap.crossesLine⟩
    else plainScalar? flow indent (p.char :: (gap.folded ++ seen)) (.blanks []) ps

/-! ## Quoted scalars -/

/-- The value of a hexadecimal digit. -/
def hexDigit? (c : Char) : Option Nat :=
  if '0' ≤ c ∧ c ≤ '9' then some (c.toNat - 48)
  else if 'a' ≤ c ∧ c ≤ 'f' then some (c.toNat - 87)
  else if 'A' ≤ c ∧ c ≤ 'F' then some (c.toNat - 55)
  else none

/-- The character for one that stands after a backslash. -/
def escape? : Char → Option Char
  | '0' => some '\x00'
  | 'a' => some '\x07'
  | 'b' => some '\x08'
  | 't' | '\t' => some '\t'
  | 'n' => some '\n'
  | 'v' => some '\x0b'
  | 'f' => some '\x0c'
  | 'r' => some '\r'
  | 'e' => some '\x1b'
  | ' ' => some ' '
  | '"' => some '"'
  | '/' => some '/'
  | '\\' => some '\\'
  | 'N' => some '\u0085'
  | '_' => some '\u00a0'
  | 'L' => some '\u2028'
  | 'P' => some '\u2029'
  | _ => none

/-- How many digits follow the mark of a numeric escape. -/
def escapeWidth? : Char → Option Nat
  | 'x' => some 2
  | 'u' => some 4
  | 'U' => some 8
  | _ => none

/-- The character with a code point. -/
def charOf? (code : Nat) : Option Char :=
  if h : code.isValidChar then some (Char.ofNatAux code h) else none

/-- Reads on in a double-quoted scalar. The digits still missing from a numeric escape, and its
value so far, are given by `digits`. -/
def doubleQuoted? (digits : Option (Nat × Nat)) (seen : List Char) (gap : Gap) :
    List Place → Option (String × List Place)
  | [] => none
  | p :: ps =>
    match digits with
    | some (left, code) =>
      match hexDigit? p.char with
      | none => none
      | some d =>
        if left ≤ 1 then
          match charOf? (16 * code + d) with
          | none => none
          | some c => doubleQuoted? none (c :: seen) (.blanks []) ps
        else doubleQuoted? (some (left - 1, 16 * code + d)) seen gap ps
    | none =>
      if isBlank p.char || isBreak p.char then doubleQuoted? none seen (gap.push p.char) ps
      else if isDocumentMarker (p :: ps) then none
      else if p.char == '"' then some (String.ofList (gap.folded ++ seen).reverse, ps)
      else if p.char == '\\' then
        match ps with
        | [] => none
        | q :: qs =>
          if isBreak q.char then doubleQuoted? none (gap.folded ++ seen) (.lines none []) qs
          else
            match escape? q.char, escapeWidth? q.char with
            | some c, _ => doubleQuoted? none (c :: (gap.folded ++ seen)) (.blanks []) qs
            | none, some width =>
              doubleQuoted? (some (width, 0)) (gap.folded ++ seen) (.blanks []) qs
            | none, none => none
      else doubleQuoted? none (p.char :: (gap.folded ++ seen)) (.blanks []) ps

/-- Reads on in a single-quoted scalar, in which a quote is written twice. -/
def singleQuoted? (seen : List Char) (gap : Gap) : List Place → Option (String × List Place)
  | [] => none
  | p :: ps =>
    if isBlank p.char || isBreak p.char then singleQuoted? seen (gap.push p.char) ps
    else if isDocumentMarker (p :: ps) then none
    else if p.char == '\'' then
      match ps with
      | [] => some (String.ofList (gap.folded ++ seen).reverse, [])
      | q :: qs =>
        if q.char == '\'' then singleQuoted? ('\'' :: (gap.folded ++ seen)) (.blanks []) qs
        else some (String.ofList (gap.folded ++ seen).reverse, q :: qs)
    else singleQuoted? (p.char :: (gap.folded ++ seen)) (.blanks []) ps

/-! ## Block scalars -/

/-- What happens to the line ends after a block scalar. -/
inductive Chomping where
  | strip
  | clip
  | keep
deriving DecidableEq, Repr

def chomping? (c : Char) : Option Chomping :=
  if c = '-' then some .strip else if c = '+' then some .keep else none

/-- The digit of an indentation given by hand. -/
def indentDigit? (c : Char) : Option Nat :=
  if '1' ≤ c ∧ c ≤ '9' then some (c.toNat - 48) else none

/-- A chomping mark or none, and the places after it. -/
def takeChomping (ps : List Place) : Chomping × List Place :=
  match ps with
  | p :: rest =>
    match chomping? p.char with
    | some c => (c, rest)
    | none => (.clip, ps)
  | [] => (.clip, [])

/-- An indentation or none, and the places after it. -/
def takeIndent (ps : List Place) : Option Nat × List Place :=
  match ps with
  | p :: rest =>
    match indentDigit? p.char with
    | some n => (some n, rest)
    | none => (none, ps)
  | [] => (none, [])

/-- The places after the rest of a line that may hold only a comment. -/
def restOfLine? (ps : List Place) : Option (List Place) :=
  let ps := ps.dropWhile fun p => isBlank p.char
  let ps := if starts '#' ps then ps.dropWhile fun p => !isBreak p.char else ps
  if endsLine ps then some (ps.drop 1) else none

/-- What stands on the line that opens a block scalar, its mark apart: chomping and indentation
in either order. -/
def blockHeader? (ps : List Place) : Option (Chomping × Option Nat × List Place) :=
  let (indent, rest) := takeIndent ps
  match indent with
  | some n =>
    let (chomping, rest) := takeChomping rest
    (restOfLine? rest).map fun rest => (chomping, some n, rest)
  | none =>
    let (chomping, rest) := takeChomping ps
    let (indent, rest) := takeIndent rest
    (restOfLine? rest).map fun rest => (chomping, indent, rest)

/-- Lines with their ends. -/
def linesOf : List Place → List (List Place)
  | [] => []
  | p :: ps =>
    if isBreak p.char then [p] :: linesOf ps
    else
      match linesOf ps with
      | [] => [[p]]
      | line :: lines => (p :: line) :: lines

/-- The spaces at the start of a line. -/
def leadingSpaces (line : List Place) : Nat :=
  (line.takeWhile fun p => p.char == ' ').length

/-- The indentation that the first lines of a block scalar set: that of the first one that is not
blank, unless a blank line before it or the least value is greater. A tab sets none. -/
def firstIndent? (least : Nat) : List (List Place) → Option Nat
  | [] => some least
  | line :: lines =>
    let spaces := leadingSpaces line
    match line.drop spaces with
    | [] => some (max least spaces)
    | p :: _ =>
      if p.char == '\t' then none
      else if isBreak p.char then firstIndent? (max least spaces) lines
      else some (max least spaces)

/-- A block scalar as far as it was read. -/
structure BlockText where
  text : List Char
  /-- The end of the last line of text. -/
  lineEnd : List Char
  /-- The ends of the empty lines after it. -/
  emptyLines : List Char
  /-- The last line of text starts with a blank. -/
  startsBlank : Bool

namespace BlockText

/-- One more line of text. When folding, a line end between two lines that start with no blank
becomes a space, or nothing if empty lines stand between them. -/
def push (folding : Bool) (line : List Place) (b : BlockText) : BlockText :=
  let (content, rest) := spanChars (fun c => !isBreak c) line
  let startsBlank := content.head?.any isBlank
  let joint :=
    if folding && b.lineEnd == ['\n'] && !b.startsBlank && !startsBlank then
      if b.emptyLines.isEmpty then [' '] else []
    else b.lineEnd
  ⟨b.text ++ joint ++ b.emptyLines ++ content, rest.map (·.char), [], startsBlank⟩

/-- The scalar, its last line ends treated as the chomping says. -/
def chomped (chomping : Chomping) (b : BlockText) : String :=
  String.ofList <|
    match chomping with
    | .strip => b.text
    | .clip => b.text ++ b.lineEnd
    | .keep => b.text ++ b.lineEnd ++ b.emptyLines

end BlockText

/-- Reads the lines of a block scalar at an indentation. A line with less ends it. -/
def blockLines? (folding : Bool) (indent : Nat) (b : BlockText) :
    List (List Place) → Option (BlockText × List Place)
  | [] => some (b, [])
  | line :: lines =>
    let spaces := min indent (leadingSpaces line)
    match line.drop spaces with
    | [] => some (b, [])
    | p :: ps =>
      if spaces < indent && p.char == '\t' then none
      else if isBreak p.char then
        blockLines? folding indent { b with emptyLines := b.emptyLines ++ [p.char] } lines
      else if spaces < indent then some (b, p :: ps ++ lines.flatten)
      else blockLines? folding indent (b.push folding (p :: ps)) lines

/-- Reads a block scalar after its mark. Its lines are indented by at least `least`, or by what
its header says beyond `outer`. -/
def blockScalar? (folding : Bool) (outer least : Nat) (ps : List Place) :
    Option (String × List Place) := do
  let (chomping, indent, rest) ← blockHeader? ps
  let lines := linesOf rest
  let indent ←
    match indent with
    | some n => some (outer + n)
    | none => firstIndent? (max 1 least) lines
  let (b, rest) ← blockLines? folding indent ⟨[], [], [], false⟩ lines
  return (b.chomped chomping, rest)

end EdeLang.Yaml
