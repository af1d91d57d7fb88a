import EdeLang.Text.Printable

/-!
# Lines, columns and quotes

A line ends with a line feed, or with a carriage return and a line feed. The last line may lack
its end. Padded columns and hexadecimal numbers stand in listings, dumps and diagnostics. Texts
and characters in quotes have escapes for the quote itself, the backslash, the usual controls, and
every character that is not printable.
-/

namespace EdeLang.Text

/-- A line without the carriage return at its end. -/
def withoutReturn (line : List Char) : List Char :=
  match line.reverse with
  | '\r' :: rest => rest.reverse
  | _ => line

/-- The lines of a text of which `line`, in reverse, has been read already. -/
def linesFrom (line : List Char) : List Char → List (List Char)
  | [] => if line.isEmpty then [] else [line.reverse]
  | c :: cs =>
    if c = '\n' then withoutReturn line.reverse :: linesFrom [] cs else linesFrom (c :: line) cs

/-- The lines of a text. -/
def lines (s : String) : List String := (linesFrom [] s.toList).map String.ofList

/-- A run of `n` copies of a character. -/
def repeated (n : Nat) (c : Char) : String := String.ofList (List.replicate n c)

/-- Fills a text with `c` on its left up to `width` characters. -/
def padLeft (width : Nat) (c : Char) (s : String) : String :=
  repeated (width - s.length) c ++ s

/-- Fills a text with `c` on its right up to `width` characters. -/
def padRight (width : Nat) (c : Char) (s : String) : String :=
  s ++ repeated (width - s.length) c

/-- Lower-case hexadecimal digits without leading zeros. -/
def hexLower (n : Nat) : String := String.ofList (Nat.toDigits 16 n)

/-- Upper-case hexadecimal digits, filled with zeros up to `width`. -/
def hexUpper (width n : Nat) : String :=
  padLeft width '0' (String.ofList ((Nat.toDigits 16 n).map Char.toUpper))

/-- Two upper-case hexadecimal digits for each byte, in order. -/
def hexBytes (bytes : List UInt8) : String :=
  String.join (bytes.map fun b => hexUpper 2 b.toNat)

/-- Texts with a separator between neighbours. -/
def joined (separator : String) (parts : List String) : String := separator.intercalate parts

/-- A character inside the given quotes. -/
def escaped (quote c : Char) : List Char :=
  if c = quote then ['\\', c]
  else
    match c with
    | '\x00' => ['\\', '0']
    | '\t' => ['\\', 't']
    | '\n' => ['\\', 'n']
    | '\r' => ['\\', 'r']
    | '\\' => ['\\', '\\']
    | c =>
      if isPrintable c then [c]
      else ['\\', 'u', '\x7b'] ++ (hexLower c.toNat).toList ++ ['\x7d']

/-- A text in double quotes. -/
def quoted (s : String) : String :=
  String.ofList ('"' :: s.toList.flatMap (escaped '"') ++ ['"'])

/-- A character in single quotes. -/
def quotedChar (c : Char) : String :=
  String.ofList ('\'' :: escaped '\'' c ++ ['\''])

end EdeLang.Text
