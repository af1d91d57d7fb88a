/-!
# Command lines

A command takes at most one operand and some options. An option has a long name and may have a
letter. Letters may share a hyphen. The value of an option is the next word or is attached to it,
with or without an equals sign. No option is given twice. The words are read from the left, and
the first one that is wrong, or asks for help or the version, ends the reading.
-/

namespace EdeLang

/-- What an option takes. -/
inductive OptionKind where
  | flag
  | text
  | number
deriving DecidableEq, Repr

/-- An option of a command. -/
structure OptionSpec where
  long : String
  letter : Option Char
  kind : OptionKind

/-- Why a command line is not carried out. -/
inductive Usage where
  | wrong
  | version
  | help
deriving DecidableEq, Repr

/-- The options that were given, with their values, and the operand. -/
structure Arguments where
  options : List (String × String)
  operand : Option String

namespace Arguments

def empty : Arguments := ⟨[], none⟩

/-- Words up to this value are numbers. -/
def numberBound : Nat := 0x10000000000000000

/-- The value of decimal digits. -/
def digits? (cs : List Char) : Option Nat :=
  if cs.isEmpty ∨ !cs.all Char.isDigit then none
  else
    let v := cs.foldl (fun n c => 10 * n + (c.toNat - 48)) 0
    if v < numberBound then some v else none

/-- A number in decimal, with or without a plus sign. -/
def number? (s : String) : Option Nat :=
  match s.toList with
  | '+' :: cs => digits? cs
  | cs => digits? cs

/-- An option was given. -/
def has (a : Arguments) (long : String) : Bool := (a.options.lookup long).isSome

def text? (a : Arguments) (long : String) : Option String := a.options.lookup long

def numberOf? (a : Arguments) (long : String) : Option Nat := (a.options.lookup long).bind number?

/-- Notes an option with its value. -/
def add (a : Arguments) (spec : OptionSpec) (value : String) : Except Usage Arguments :=
  if a.has spec.long then .error .wrong
  else if spec.kind = .number ∧ (number? value).isNone then .error .wrong
  else .ok { a with options := (spec.long, value) :: a.options }

/-- Notes the operand. -/
def addOperand (a : Arguments) (value : String) : Except Usage Arguments :=
  match a.operand with
  | some _ => .error .wrong
  | none => .ok { a with operand := some value }

/-- The word cannot be the value of the option before it. -/
def looksLikeOption (word : String) : Bool :=
  match word.toList with
  | '-' :: _ :: _ => true
  | _ => false

/-- What a word of options leaves: the options so far, and one that still lacks its value. -/
abbrev Pending := Arguments × Option OptionSpec

/-- Letters after a hyphen. -/
def letters (specs : List OptionSpec) (a : Arguments) : List Char → Except Usage Pending
  | [] => .ok (a, none)
  | c :: cs =>
    match specs.find? fun s => s.letter == some c with
    | some spec =>
      if spec.kind = .flag then
        match a.add spec "" with
        | .error e => .error e
        | .ok a => letters specs a cs
      else
        match cs with
        | [] => .ok (a, some spec)
        | '=' :: value => (a.add spec (String.ofList value)).map fun a => (a, none)
        | value => (a.add spec (String.ofList value)).map fun a => (a, none)
    | none =>
      if c = 'V' then .error .version
      else if c = 'h' then .error .help
      else .error .wrong

/-- A long name after two hyphens, with the value after its equals sign. -/
def longOption (specs : List OptionSpec) (a : Arguments) (word : List Char) :
    Except Usage Pending :=
  let name := String.ofList (word.takeWhile (· != '='))
  let value? := match word.dropWhile (· != '=') with
    | [] => none
    | _ :: value => some (String.ofList value)
  match specs.find? fun s => s.long == name with
  | some spec =>
    match spec.kind, value? with
    | .flag, none => (a.add spec "").map fun a => (a, none)
    | .flag, some _ => .error .wrong
    | _, some value => (a.add spec value).map fun a => (a, none)
    | _, none => .ok (a, some spec)
  | none =>
    match value? with
    | some _ => .error .wrong
    | none =>
      if name = "version" then .error .version
      else if name = "help" then .error .help
      else .error .wrong

/-- Words that are no options. -/
def operands (a : Arguments) : List String → Except Usage Arguments
  | [] => .ok a
  | word :: words =>
    match a.addOperand word with
    | .error e => .error e
    | .ok a => operands a words

/-- Reads words, the first of which may have to be the value of an option. -/
def read (specs : List OptionSpec) :
    Arguments → Option OptionSpec → List String → Except Usage Arguments
  | a, none, [] => .ok a
  | _, some _, [] => .error .wrong
  | a, some spec, word :: words =>
    if looksLikeOption word then .error .wrong
    else
      match a.add spec word with
      | .error e => .error e
      | .ok a => read specs a none words
  | a, none, word :: words =>
    match word.toList with
    | ['-', '-'] => operands a words
    | '-' :: '-' :: name =>
      match longOption specs a name with
      | .error e => .error e
      | .ok (a, pending) => read specs a pending words
    | '-' :: c :: cs =>
      match letters specs a (c :: cs) with
      | .error e => .error e
      | .ok (a, pending) => read specs a pending words
    | _ =>
      match a.addOperand word with
      | .error e => .error e
      | .ok a => read specs a none words

/-- The arguments that the words of a command line stand for. -/
def ofWords (specs : List OptionSpec) (words : List String) : Except Usage Arguments :=
  read specs .empty none words

end Arguments
end EdeLang
