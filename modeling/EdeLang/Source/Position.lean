/-!
# Source positions

Lines and columns count from one, columns in characters. A line feed ends a line.
-/

namespace EdeLang

/-- A place in a source text. -/
structure Pos where
  line : Nat
  col : Nat
deriving DecidableEq, Repr, Inhabited

namespace Pos

/-- The place of the first character. -/
def start : Pos := ⟨1, 1⟩

/-- The place of what was there before any source text. -/
def builtin : Pos := ⟨0, 0⟩

/-- The place after a character. -/
def next (p : Pos) (c : Char) : Pos :=
  if c = '\n' then ⟨p.line + 1, 1⟩ else ⟨p.line, p.col + 1⟩

/-- The place after some characters. -/
def advance (p : Pos) (cs : List Char) : Pos := cs.foldl next p

def text (p : Pos) : String := toString p.line ++ ":" ++ toString p.col

end Pos
end EdeLang
