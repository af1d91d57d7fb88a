import EdeLang.Assembly.Code
import EdeLang.Json.Reader
import EdeLang.Json.Writer
import EdeLang.Text.Layout

/-!
# Wire form of symbolic code

On the wire a program is a JSON list. A label is a string; an instruction is a list of its
opcode name and its operands, in which labels and system calls are strings as well and are told
apart by the operand kind. Elements are read one after the other, and the first one that is no
JSON or has the wrong shape ends the reading.
-/

namespace EdeLang

/-- Why a JSON value is not symbolic code. -/
inductive ShapeError where
  | notAList (found : String)
  | noElement
  | noOpcode
  | unknownOperation (name : String)
  | unknownSyscall (name : String)
  | operands (e : AssemblyError)
deriving DecidableEq, Repr

def ShapeError.message : ShapeError → String
  | .notAList found => "invalid type: " ++ found ++ ", expected a sequence"
  | .noElement => "data did not match any variant of untagged enum RawElement"
  | .noOpcode => "Malformed IR element: instruction must start with an opcode name"
  | .unknownOperation name => "Unknown operation: `" ++ name ++ "`"
  | .unknownSyscall name => "Undefined syscall: " ++ name
  | .operands e => e.message

/-- What is wrong with the wire form of a program. -/
inductive WireCause where
  | json (cause : Json.Cause)
  | shape (e : ShapeError)
deriving DecidableEq, Repr

def WireCause.message : WireCause → String
  | .json cause => cause.message
  | .shape e => e.message

/-- A cause with the line and column, in bytes, that the reader had reached. -/
structure WireError where
  cause : WireCause
  line : Nat
  column : Nat

/-- The cause and its place. -/
def WireError.message (e : WireError) : String :=
  e.cause.message ++ " at line " ++ toString e.line ++ " column " ++ toString e.column

/-- An operand as it is spelled on the wire. -/
inductive WireOperand where
  | int (v : Int64)
  | double (d : Double)
  | string (s : String)

namespace WireOperand

/-- Numbers and strings are operands. An integer beyond the signed words is read as a double. -/
def ofJson? : Json → Option WireOperand
  | .integer v =>
    if -0x8000000000000000 ≤ v ∧ v < 0x8000000000000000 then some (.int (Int64.ofInt v))
    else some (.double (Double.ofInt v))
  | .double d => some (.double d)
  | .string s => some (.string s)
  | _ => none

/-- The operand meant in the place of a kind. -/
def operand (arg : Arg) : WireOperand → Except ShapeError Operand
  | .int v => .ok (.int v)
  | .double d => .ok (.double d)
  | .string s =>
    match arg with
    | .syscall =>
      match Syscall.ofName? s with
      | some code => .ok (.syscall code)
      | none => .error (.unknownSyscall s)
    | _ => .ok (.label s)

/-- The operands meant in the places of some kinds. -/
def operands : List Arg → List WireOperand → Except ShapeError (List Operand)
  | arg :: args, w :: ws => do
    let operand ← w.operand arg
    let rest ← operands args ws
    return operand :: rest
  | _, _ => .ok []

end WireOperand

/-- The instruction with the parts of a wire list. -/
def Inst.ofWire : List WireOperand → Except ShapeError Inst
  | .string name :: rest =>
    match Opcode.ofName? name with
    | none => .error (.unknownOperation name)
    | some op =>
      if rest.length ≠ op.args.length then .error (.operands (.signatureMismatch op))
      else do
        let args ← WireOperand.operands op.args rest
        match Inst.make op args with
        | .ok i => .ok i
        | .error e => .error (.operands e)
  | _ => .error .noOpcode

/-- The element a JSON value stands for. -/
def Element.ofJson : Json → Except ShapeError Element
  | .string name => .ok (.label name)
  | .array parts =>
    match parts.mapM WireOperand.ofJson? with
    | none => .error .noElement
    | some operands => do
      let i ← Inst.ofWire operands
      return .inst i
  | _ => .error .noElement

/-! ## Reading -/

/-- How far a reader got: what is left, and whether one more byte was looked at. -/
structure WireStop where
  cause : WireCause
  rest : List Char
  ahead : Bool

def WireStop.ofJson (e : Json.Failure) : WireStop := ⟨.json e.cause, e.rest, e.ahead⟩

/-- The rest of the text after the end of a list was looked for behind a rejected element. -/
def afterRejected (cs : List Char) : List Char :=
  match Json.skipBlanks cs with
  | ']' :: rest => rest
  | ',' :: rest => Json.skipBlanks rest
  | rest => rest

/-- Elements up to and with the closing bracket of the program. -/
def Code.readElements : Nat → Bool → List Char → Except WireStop (Code × List Char)
  | 0, _, cs => .error ⟨.json .endInList, cs, false⟩
  | fuel + 1, first, text =>
    match Json.skipBlanks text with
    | [] => .error ⟨.json .endInList, [], true⟩
    | ']' :: cs => .ok ([], cs)
    | c :: cs =>
      match Json.nextElement first (c :: cs) with
      | .error e => .error (.ofJson e)
      | .ok start =>
        match Json.value (Json.fuelFor start) (Json.maxDepth - 1) start with
        | .error e => .error (.ofJson e)
        | .ok (v, rest) =>
          match Element.ofJson v with
          | .error e => .error ⟨.shape e, afterRejected rest, false⟩
          | .ok element =>
            match readElements fuel false rest with
            | .error e => .error e
            | .ok (more, rest) => .ok (element :: more, rest)

/-- What a value that is no list is called. -/
def Json.kindText : Json → String
  | .null => "null"
  | .bool b => "boolean `" ++ toString b ++ "`"
  | .integer v => "integer `" ++ toString v ++ "`"
  | .double d => "floating point `" ++ d.format Double.wireFormat ++ "`"
  | .string s => "string " ++ Text.quoted s
  | .array _ => "sequence"
  | .object _ => "map"

/-- A program from the characters of its wire form. -/
def Code.readWire (text : List Char) : Except WireStop Code :=
  match Json.skipBlanks text with
  | '[' :: cs =>
    match readElements (cs.length + 1) true cs with
    | .error e => .error e
    | .ok (code, rest) =>
      match Json.skipBlanks rest with
      | [] => .ok code
      | rest => .error ⟨.json .trailingText, rest, true⟩
  | '\x7b' :: cs => .error ⟨.shape (.notAList (Json.object []).kindText), '\x7b' :: cs, false⟩
  | start =>
    match Json.value (Json.fuelFor start) Json.maxDepth start with
    | .error e => .error (.ofJson e)
    | .ok (v, rest) => .error ⟨.shape (.notAList v.kindText), rest, false⟩

/-- Line and column reached after some bytes. -/
def byteLocation (bytes : List UInt8) : Nat × Nat :=
  (1 + bytes.count 10, (bytes.reverse.takeWhile (· != 10)).length)

/-- The error at the place where a reader stopped. -/
def WireError.ofStop (text : String) (stop : WireStop) : WireError :=
  let bytes := text.toUTF8.toList
  let left : Nat := stop.rest.foldr (fun c size => c.utf8Size + size) 0
  let reached := bytes.length - left + (if stop.ahead && decide (0 < left) then 1 else 0)
  let location := byteLocation (bytes.take reached)
  ⟨stop.cause, location.1, location.2⟩

/-- A program from its wire form. -/
def Code.ofWire (text : String) : Except WireError Code :=
  match readWire text.toList with
  | .ok code => .ok code
  | .error stop => .error (.ofStop text stop)

/-! ## Writing -/

def Operand.toJson : Operand → Json
  | .int v => .integer v.toInt
  | .double d => .double d
  | .label name => .string name
  | .syscall code => .string code.name

def Element.toJson : Element → Json
  | .label name => .string name
  | .inst i => .array (.string i.op.name :: i.args.map Operand.toJson)

/-- The wire form of a program. -/
def Code.toWire (code : Code) : String := (Json.array (code.map Element.toJson)).write

end EdeLang
