import EdeLang.Double.Decimal
import EdeLang.Json.Basic
import EdeLang.Text.Layout

/-!
# Writing JSON

Values over several lines, two spaces deeper on each level. Strings escape quotes, backslashes
and controls only.
-/

namespace EdeLang.Json

/-- A character of a string. -/
def escapedChar (c : Char) : List Char :=
  match c with
  | '"' => ['\\', '"']
  | '\\' => ['\\', '\\']
  | '\x08' => ['\\', 'b']
  | '\x0c' => ['\\', 'f']
  | '\n' => ['\\', 'n']
  | '\r' => ['\\', 'r']
  | '\t' => ['\\', 't']
  | c =>
    if c.toNat < 32 then
      ['\\', 'u'] ++ (Text.padLeft 4 '0' (Text.hexLower c.toNat)).toList
    else [c]

/-- A string in quotes. -/
def quoted (s : String) : List Char := '"' :: s.toList.flatMap escapedChar ++ ['"']

/-- A new line at a level of nesting. -/
def newLine (level : Nat) : List Char := '\n' :: List.replicate (2 * level) ' '

mutual

/-- The characters of a value at a level of nesting. -/
def pretty (level : Nat) : Json → List Char
  | .null => ['n', 'u', 'l', 'l']
  | .bool true => ['t', 'r', 'u', 'e']
  | .bool false => ['f', 'a', 'l', 's', 'e']
  | .integer v => (toString v).toList
  | .double d => (d.format Double.wireFormat).toList
  | .string s => quoted s
  | .array [] => ['[', ']']
  | .array (v :: vs) =>
    '[' :: newLine (level + 1) ++ pretty (level + 1) v ++ prettyElements (level + 1) vs ++
      newLine level ++ [']']
  | .object [] => ['\x7b', '\x7d']
  | .object ((key, v) :: members) =>
    '\x7b' :: newLine (level + 1) ++ quoted key ++ [':', ' '] ++ pretty (level + 1) v ++
      prettyMembers (level + 1) members ++ newLine level ++ ['\x7d']

/-- Further elements of a list, each on its line. -/
def prettyElements (level : Nat) : List Json → List Char
  | [] => []
  | v :: vs => ',' :: newLine level ++ pretty level v ++ prettyElements level vs

/-- Further members of an object, each on its line. -/
def prettyMembers (level : Nat) : List (String × Json) → List Char
  | [] => []
  | (key, v) :: members =>
    ',' :: newLine level ++ quoted key ++ [':', ' '] ++ pretty level v ++
      prettyMembers level members

end

/-- The text of a value. -/
def write (v : Json) : String := String.ofList (pretty 0 v)

end EdeLang.Json
