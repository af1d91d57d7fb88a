/-!
# Places in a text

Layout matters in YAML, so every character is read together with its line and column.
-/

namespace EdeLang.Yaml

/-- A character with its place in the text. Columns and lines count from zero. -/
structure Place where
  char : Char
  index : Nat
  line : Nat
  column : Nat

def isBlank (c : Char) : Bool := c == ' ' || c == '\t'

/-- The character ends a line. -/
def isBreak (c : Char) : Bool := c == '\n' || c == '\u2028' || c == '\u2029'

/-- The character may stand in a text: no control but the tab and the ends of lines. -/
def isAllowed (c : Char) : Bool :=
  c == '\t' || c == '\n' || c == '\r' || c == '\u0085' ||
    decide (0x20 ≤ c.toNat ∧ c.toNat ≤ 0x7e) ||
    decide (0xa0 ≤ c.toNat ∧ c.toNat ≠ 0xfffe ∧ c.toNat ≠ 0xffff)

/-- One spelling for the ends of lines. -/
def withNewlines : List Char → List Char
  | [] => []
  | '\r' :: '\n' :: cs => '\n' :: withNewlines cs
  | c :: cs => (if c = '\r' ∨ c = '\u0085' then '\n' else c) :: withNewlines cs

/-- Characters with their places, from the given place on. -/
def placesFrom (index line column : Nat) : List Char → List Place
  | [] => []
  | c :: cs =>
    ⟨c, index, line, column⟩ ::
      if isBreak c then placesFrom (index + 1) (line + 1) 0 cs
      else placesFrom (index + 1) line (column + 1) cs

/-- The characters of a text with their places. -/
def places (text : String) : List Place :=
  placesFrom 0 0 0 (withNewlines text.toList)

/-- The next character is the given one. -/
def starts (c : Char) : List Place → Bool
  | [] => false
  | p :: _ => p.char == c

/-- A word ends here: white space or the end of the text follows. -/
def endsWord : List Place → Bool
  | [] => true
  | p :: _ => isBlank p.char || isBreak p.char

/-- The line ends here. -/
def endsLine : List Place → Bool
  | [] => true
  | p :: _ => isBreak p.char

/-- Three times the character at the margin, and then the end of the word. -/
def isMarker (c : Char) : List Place → Bool
  | p₁ :: p₂ :: p₃ :: ps =>
    p₁.column == 0 && p₁.char == c && p₂.char == c && p₃.char == c && endsWord ps
  | _ => false

/-- The start or the end of a document is marked here. -/
def isDocumentMarker (ps : List Place) : Bool :=
  isMarker '-' ps || isMarker '.' ps

/-- The character opens, closes or divides flow collections. -/
def isFlowIndicator (c : Char) : Bool :=
  c == ',' || c == '[' || c == ']' || c == '\x7b' || c == '\x7d'

/-- The characters of the first places that satisfy a test, and the places after them. -/
def spanChars (test : Char → Bool) (ps : List Place) : List Char × List Place :=
  ((ps.takeWhile fun p => test p.char).map (·.char), ps.dropWhile fun p => test p.char)

end EdeLang.Yaml
