/-!
# Characters

Unicode properties beyond ASCII are given as lists of inclusive ranges of code points. Characters
with the property White_Space separate lexemes and are trimmed from comments.

Instruction and system call names are written in ASCII capitals and matched without regard to
case. A character matches by its upper-case form, which for some letters outside ASCII is
spelled in ASCII; every other character outside ASCII has no ASCII capital in any form, so it
can stay as it is.
-/

namespace EdeLang.Text

/-- Inclusive ranges of code points. -/
abbrev Ranges := List (Nat × Nat)

/-- A code point lies in one of the ranges. -/
def Ranges.contains (ranges : Ranges) (code : Nat) : Bool :=
  List.any ranges fun range => decide (range.1 ≤ code ∧ code ≤ range.2)

/-- White space beyond ASCII. -/
def whitespaceRanges : Ranges :=
  [(0x85, 0x85), (0xa0, 0xa0), (0x1680, 0x1680), (0x2000, 0x200a), (0x2028, 0x2029),
    (0x202f, 0x202f), (0x205f, 0x205f), (0x3000, 0x3000)]

/-- The character is white space. -/
def isWhitespace (c : Char) : Bool :=
  if c.toNat < 128 then c == ' ' || decide (9 ≤ c.toNat ∧ c.toNat ≤ 13)
  else whitespaceRanges.contains c.toNat

/-- Characters without white space at either end. -/
def trimmed (cs : List Char) : List Char :=
  ((cs.dropWhile isWhitespace).reverse.dropWhile isWhitespace).reverse

/-- Upper-case form of a character, as far as it is spelled in ASCII. -/
def upperForm (c : Char) : List Char :=
  match c with
  | 'ß' => ['S', 'S']
  | 'ı' => ['I']
  | 'ſ' => ['S']
  | 'ﬀ' => ['F', 'F']
  | 'ﬁ' => ['F', 'I']
  | 'ﬂ' => ['F', 'L']
  | 'ﬃ' => ['F', 'F', 'I']
  | 'ﬄ' => ['F', 'F', 'L']
  | 'ﬅ' => ['S', 'T']
  | 'ﬆ' => ['S', 'T']
  | c => [c.toUpper]

/-- Upper-case form of a name. -/
def upperName (s : String) : String := String.ofList (s.toList.flatMap upperForm)

/-- Lower-case form of a name in ASCII. -/
def lowerName (s : String) : String := String.ofList (s.toList.map Char.toLower)

end EdeLang.Text
