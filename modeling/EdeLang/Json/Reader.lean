import EdeLang.Double.Rounding
import EdeLang.Json.Basic

/-!
# Reading JSON

Values are read from a list of characters and give back the characters after them. Lists and
objects may be nested to a depth of `maxDepth`. The recursion of values is bounded by fuel, of
which every character of the text supplies enough.
-/

namespace EdeLang.Json

/-- Deepest nesting of lists and objects. -/
def maxDepth : Nat := 127

def failAt {α : Type} (cause : Cause) (rest : List Char) : Except Failure α :=
  .error ⟨cause, rest, false⟩

def failAhead {α : Type} (cause : Cause) (rest : List Char) : Except Failure α :=
  .error ⟨cause, rest, true⟩

def isBlank (c : Char) : Bool := c == ' ' || c == '\n' || c == '\t' || c == '\r'

def skipBlanks (cs : List Char) : List Char := cs.dropWhile isBlank

/-- The rest of a word whose first character was read. -/
def readWord : List Char → List Char → Except Failure (List Char)
  | [], cs => .ok cs
  | _ :: _, [] => failAt .endInValue []
  | w :: ws, c :: cs => if c = w then readWord ws cs else failAt .expectedIdent cs

/-! ## Numbers -/

/-- A run of digits: its value after `start`, its length, and the rest. -/
def digits (start : Nat) : List Char → Nat × Nat × List Char
  | [] => (start, 0, [])
  | c :: cs =>
    if c.isDigit then
      let (value, count, rest) := digits (10 * start + (c.toNat - 48)) cs
      (value, count + 1, rest)
    else (start, 0, c :: cs)

/-- A binary64 number, if it is finite. -/
def finiteNumber (d : Double) (rest : List Char) : Except Failure (Json × List Char) :=
  if d.isInfinite then failAt .numberOutOfRange rest else .ok (.double d, rest)

/-- The integer of a sign and digits without fraction and exponent. Outside the words, and for
minus zero, it is binary64. -/
def wholeNumber (negative : Bool) (value : Nat) (rest : List Char) :
    Except Failure (Json × List Char) :=
  if negative then
    if 0 < value ∧ value ≤ 0x8000000000000000 then .ok (.integer (-(value : Int)), rest)
    else finiteNumber (Double.ofDecimal true value 0) rest
  else if value < 0x10000000000000000 then .ok (.integer value, rest)
  else finiteNumber (Double.ofDecimal false value 0) rest

/-- A number with a fraction or an exponent. -/
def fractionalNumber (negative : Bool) (value : Nat) (exponent : Int) (rest : List Char) :
    Except Failure (Json × List Char) :=
  finiteNumber (Double.ofDecimal negative value exponent) rest

/-- The digits of an exponent, after its mark and sign. -/
def exponentDigits (negative : Bool) (value : Nat) (exponent : Int) (minus : Bool)
    (cs : List Char) : Except Failure (Json × List Char) :=
  match cs with
  | [] => failAt .endInValue []
  | c :: after =>
    if c.isDigit then
      let (power, _, rest) := digits 0 cs
      let shift : Int := if minus then -(power : Int) else power
      fractionalNumber negative value (exponent + shift) rest
    else failAt .invalidNumber after

/-- An exponent after its mark. -/
def exponentPart (negative : Bool) (value : Nat) (exponent : Int) :
    List Char → Except Failure (Json × List Char)
  | '+' :: cs => exponentDigits negative value exponent false cs
  | '-' :: cs => exponentDigits negative value exponent true cs
  | cs => exponentDigits negative value exponent false cs

/-- What follows the whole part of a number. -/
def numberTail (negative : Bool) (value : Nat) (cs : List Char) :
    Except Failure (Json × List Char) :=
  match cs with
  | '.' :: fraction =>
    let (all, places, rest) := digits value fraction
    if places = 0 then
      match rest with
      | [] => failAhead .endInValue []
      | _ :: _ => failAhead .invalidNumber rest
    else
      match rest with
      | c :: after =>
        if c = 'e' ∨ c = 'E' then exponentPart negative all (-(places : Int)) after
        else fractionalNumber negative all (-(places : Int)) rest
      | [] => fractionalNumber negative all (-(places : Int)) []
  | c :: after =>
    if c = 'e' ∨ c = 'E' then exponentPart negative value 0 after
    else wholeNumber negative value cs
  | [] => wholeNumber negative value []

/-- A number after its sign. A leading zero stands alone. -/
def number (negative : Bool) : List Char → Except Failure (Json × List Char)
  | [] => failAt .endInValue []
  | '0' :: cs =>
    match cs with
    | c :: _ => if c.isDigit then failAhead .invalidNumber cs else numberTail negative 0 cs
    | [] => numberTail negative 0 []
  | c :: cs =>
    if c.isDigit then
      let (value, _, rest) := digits 0 (c :: cs)
      numberTail negative value rest
    else failAt .invalidNumber cs

/-! ## Strings -/

def hexValue? (c : Char) : Option Nat :=
  if '0' ≤ c ∧ c ≤ '9' then some (c.toNat - 48)
  else if 'a' ≤ c ∧ c ≤ 'f' then some (c.toNat - 87)
  else if 'A' ≤ c ∧ c ≤ 'F' then some (c.toNat - 55)
  else none

/-- Four hexadecimal digits. Less than four bytes are an end of the text, whatever they are. -/
def hexUnit (cs : List Char) : Except Failure (Nat × List Char) :=
  if cs.foldr (fun c size => c.utf8Size + size) 0 < 4 then failAt .endInString []
  else
    match cs with
    | a :: b :: c :: d :: rest =>
      match hexValue? a, hexValue? b, hexValue? c, hexValue? d with
      | some a, some b, some c, some d => .ok (((a * 16 + b) * 16 + c) * 16 + d, rest)
      | _, _, _, _ => failAt .invalidEscape rest
    | _ => failAt .invalidEscape []

/-- The second half of a surrogate pair. -/
def lowSurrogate (high : Nat) : List Char → Except Failure (Char × List Char)
  | [] => failAt .endInString []
  | '\\' :: 'u' :: cs => do
    let (low, rest) ← hexUnit cs
    if 0xdc00 ≤ low ∧ low ≤ 0xdfff then
      return (Char.ofNat (0x10000 + (high - 0xd800) * 0x400 + (low - 0xdc00)), rest)
    else failAt .loneSurrogate rest
  | ['\\'] => failAt .endInString []
  | '\\' :: _ :: cs => failAt .unfinishedSurrogate cs
  | _ :: cs => failAt .unfinishedSurrogate cs

/-- An escape after its backslash. -/
def escape : List Char → Except Failure (Char × List Char)
  | [] => failAt .endInString []
  | '"' :: cs => .ok ('"', cs)
  | '\\' :: cs => .ok ('\\', cs)
  | '/' :: cs => .ok ('/', cs)
  | 'b' :: cs => .ok ('\x08', cs)
  | 'f' :: cs => .ok ('\x0c', cs)
  | 'n' :: cs => .ok ('\n', cs)
  | 'r' :: cs => .ok ('\r', cs)
  | 't' :: cs => .ok ('\t', cs)
  | 'u' :: cs => do
    let (unit, rest) ← hexUnit cs
    if 0xdc00 ≤ unit ∧ unit ≤ 0xdfff then failAt .loneSurrogate rest
    else if 0xd800 ≤ unit ∧ unit ≤ 0xdbff then lowSurrogate unit rest
    else return (Char.ofNat unit, rest)
  | _ :: cs => failAt .invalidEscape cs

/-- The characters of a string after its opening quote. -/
def stringChars : Nat → List Char → Except Failure (List Char × List Char)
  | _, [] => failAt .endInString []
  | 0, cs => failAt .endInString cs
  | fuel + 1, c :: cs =>
    if c = '"' then .ok ([], cs)
    else if c = '\\' then do
      let (e, rest) ← escape cs
      let (more, rest) ← stringChars fuel rest
      return (e :: more, rest)
    else if c.toNat < 32 then failAt .controlInString cs
    else do
      let (more, rest) ← stringChars fuel cs
      return (c :: more, rest)

/-- A string after its opening quote. -/
def stringText (cs : List Char) : Except Failure (String × List Char) := do
  let (chars, rest) ← stringChars cs.length cs
  return (String.ofList chars, rest)

/-! ## Values -/

/-- Where the next element starts: after a comma, unless it is the first. -/
def nextElement (first : Bool) (text : List Char) : Except Failure (List Char) :=
  if first then .ok text
  else
    match text with
    | ',' :: cs =>
      match skipBlanks cs with
      | [] => failAhead .endInValue []
      | ']' :: rest => failAhead .trailingComma (']' :: rest)
      | rest => .ok rest
    | rest => failAhead .expectedListEnd rest

/-- The text after the opening quote of the next key. -/
def nextKey (first : Bool) (text : List Char) : Except Failure (List Char) :=
  if first then
    match text with
    | '"' :: cs => .ok cs
    | cs => failAhead .keyNotString cs
  else
    match text with
    | ',' :: cs =>
      match skipBlanks cs with
      | [] => failAhead .endInValue []
      | '"' :: rest => .ok rest
      | '\x7d' :: rest => failAhead .trailingComma ('\x7d' :: rest)
      | rest => failAhead .keyNotString rest
    | rest => failAhead .expectedObjectEnd rest

mutual

/-- A value, with at most `depth` levels of nesting. -/
def value : Nat → Nat → List Char → Except Failure (Json × List Char)
  | 0, _, cs => failAt .endInValue cs
  | fuel + 1, depth, text =>
    match skipBlanks text with
    | [] => failAhead .endInValue []
    | 'n' :: cs => do
      let rest ← readWord ['u', 'l', 'l'] cs
      return (.null, rest)
    | 't' :: cs => do
      let rest ← readWord ['r', 'u', 'e'] cs
      return (.bool true, rest)
    | 'f' :: cs => do
      let rest ← readWord ['a', 'l', 's', 'e'] cs
      return (.bool false, rest)
    | '-' :: cs => number true cs
    | '"' :: cs => do
      let (s, rest) ← stringText cs
      return (.string s, rest)
    | '[' :: cs =>
      match depth with
      | 0 => failAhead .tooDeep ('[' :: cs)
      | depth + 1 => do
        let (elements, rest) ← elements fuel depth true cs
        return (.array elements, rest)
    | '\x7b' :: cs =>
      match depth with
      | 0 => failAhead .tooDeep ('\x7b' :: cs)
      | depth + 1 => do
        let (members, rest) ← members fuel depth true cs
        return (.object members, rest)
    | c :: cs => if c.isDigit then number false (c :: cs) else failAhead .expectedValue (c :: cs)

/-- The elements of a list up to and with its closing bracket. -/
def elements : Nat → Nat → Bool → List Char → Except Failure (List Json × List Char)
  | 0, _, _, cs => failAt .endInList cs
  | fuel + 1, depth, first, text =>
    match skipBlanks text with
    | [] => failAhead .endInList []
    | ']' :: cs => .ok ([], cs)
    | c :: cs => do
      let start ← nextElement first (c :: cs)
      let (v, rest) ← value fuel depth start
      let (more, rest) ← elements fuel depth false rest
      return (v :: more, rest)

/-- The members of an object up to and with its closing brace. -/
def members : Nat → Nat → Bool → List Char → Except Failure (List (String × Json) × List Char)
  | 0, _, _, cs => failAt .endInObject cs
  | fuel + 1, depth, first, text =>
    match skipBlanks text with
    | [] => failAhead .endInObject []
    | '\x7d' :: cs => .ok ([], cs)
    | c :: cs => do
      let start ← nextKey first (c :: cs)
      let (key, rest) ← stringText start
      match skipBlanks rest with
      | [] => failAhead .endInObject []
      | ':' :: rest => do
        let (v, rest) ← value fuel depth rest
        let (more, rest) ← members fuel depth false rest
        return ((key, v) :: more, rest)
      | rest => failAhead .expectedColon rest

end

/-- Fuel that suffices for every value in a text. -/
def fuelFor (cs : List Char) : Nat := 2 * cs.length + 2

end EdeLang.Json
