import EdeLang.Machine.Dump
import EdeLang.Yaml.Document

/-!
# Dump configurations

A configuration is a map from byte offsets to maps with the optional entries `stack`, a truth
value, and `heap`, a list of handles. Other entries mean nothing. A request may also be a list of
the two values.
-/

namespace EdeLang.Dump

/-- A decimal number without needless leading zeros. -/
def decimal? (cs : List Char) : Option Nat :=
  match cs with
  | [] => none
  | '0' :: _ :: _ => none
  | _ => if cs.all Char.isDigit then some (cs.foldl (fun n c => 10 * n + (c.toNat - 48)) 0) else none

/-- Digits of a number in a base. -/
def based? (base : Nat) (cs : List Char) : Option Nat :=
  let digit? (c : Char) : Option Nat :=
    let v :=
      if c.isDigit then c.toNat - 48
      else if 'a' ≤ c ∧ c ≤ 'f' then c.toNat - 87
      else if 'A' ≤ c ∧ c ≤ 'F' then c.toNat - 55
      else base
    if v < base then some v else none
  if cs.isEmpty then none
  else cs.foldl (fun n c => do return base * (← n) + (← digit? c)) (some 0)

/-- The magnitude of a number, in decimal or with a mark of its base. -/
def magnitude? : List Char → Option Nat
  | '0' :: 'x' :: cs => based? 16 cs
  | '0' :: 'o' :: cs => based? 8 cs
  | '0' :: 'b' :: cs => based? 2 cs
  | cs => decimal? cs

/-- A number without sign, or with one that changes nothing. -/
def unsigned? : List Char → Option Nat
  | '+' :: cs => magnitude? cs
  | cs => magnitude? cs

/-- A number with or without sign. -/
def signed? : List Char → Option Int
  | '-' :: cs => (magnitude? cs).map fun n => -(n : Int)
  | cs => (unsigned? cs).map fun n => (n : Int)

def integerTag : String := "tag:yaml.org,2002:int"

def truthTag : String := "tag:yaml.org,2002:bool"

/-- An offset: an unsigned word. -/
def offset? (y : Yaml) : Option Nat :=
  match (y.valueText? integerTag).bind fun text => unsigned? text.toList with
  | some v => if v < 0x10000000000000000 then some v else none
  | none => none

/-- A handle: a signed word. -/
def handle? (y : Yaml) : Option Int64 :=
  match (y.valueText? integerTag).bind fun text => signed? text.toList with
  | some v =>
    if -0x8000000000000000 ≤ v ∧ v < 0x8000000000000000 then some (Int64.ofInt v) else none
  | none => none

def truth? (y : Yaml) : Option Bool :=
  match y.valueText? truthTag with
  | some "true" | some "True" | some "TRUE" => some true
  | some "false" | some "False" | some "FALSE" => some false
  | _ => none

/-- A list of handles, which has none if nothing is written. -/
def handles? : Yaml → Option (List Int64)
  | .list items => items.mapM handle?
  | y => if y.isEmpty then some [] else none

/-- The entries of a map, which has none if nothing is written. From a request only the whole
configuration can be referred to as a node around it, and its keys name no entry of a request. -/
def entries? : Yaml → Option (List (Yaml × Yaml))
  | .map entries => some entries
  | .cycle => some []
  | y => if y.isEmpty then some [] else none

/-- A request from the entries of its map. Their names are scalars, and an entry may not be given
twice. -/
def request? : List (Yaml × Yaml) → Option Bool → Option (List Int64) → Option Request
  | [], stack, heap => some ⟨stack.getD false, heap.getD []⟩
  | (key, v) :: rest, stack, heap =>
    match key.text? with
    | none => none
    | some "stack" =>
      match stack, truth? v with
      | none, some b => request? rest (some b) heap
      | _, _ => none
    | some "heap" =>
      match heap, handles? v with
      | none, some hs => request? rest stack (some hs)
      | _, _ => none
    | some _ => request? rest stack heap

/-- A request: a map, or a list of what its entries hold in their order. -/
def requestOf? : Yaml → Option Request
  | .list [] => some ⟨false, []⟩
  | .list [stack] => do return ⟨← truth? stack, []⟩
  | .list [stack, heap] => do return ⟨← truth? stack, ← handles? heap⟩
  | .list _ => none
  | y => do request? (← entries? y) none none

/-- Requests by offset. A later request for the same offset replaces the earlier one. -/
def requests? : List (Yaml × Yaml) → Option Config
  | [] => some []
  | (key, v) :: rest => do
    let offset ← offset? key
    let request ← requestOf? v
    let config ← requests? rest
    return if config.any (·.1 == offset) then config else (offset, request) :: config

/-- A configuration from its text. -/
def Config.ofText? (text : String) : Option Config := do
  requests? (← entries? (← Yaml.ofText? text))

end EdeLang.Dump

namespace EdeLang

/-- Why a machine cannot be set up. -/
inductive LoadError where
  | fileOpen (name : String)
  | dumpConfig (name : String)
deriving DecidableEq, Repr

def LoadError.message : LoadError → String
  | .fileOpen name => "Failed to open file: " ++ name
  | .dumpConfig name => "Invalid dump config: " ++ name

/-- Dump settings with the configuration in a file, given the file's text if it can be read. -/
def Dump.Settings.ofFile (name : String) (text : Option String) (all : Bool) :
    Except LoadError Dump.Settings :=
  match text.bind Dump.Config.ofText? with
  | some config => .ok ⟨some (name, config), all⟩
  | none => .error (.dumpConfig name)

end EdeLang
