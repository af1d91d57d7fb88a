import EdeLang.Machine.Observer
import EdeLang.Text.Layout

/-!
# Dumps

A dump shows registers, stack and heap blocks after chosen instructions, or registers and stack
after every one.
-/

namespace EdeLang.Dump

/-- What to show after the instruction at an offset, besides the registers. -/
structure Request where
  stack : Bool
  heap : List Int64
deriving Repr

/-- Requests by offset. -/
abbrev Config := List (Nat × Request)

/-- A dump: the name and content of its configuration, if it has one, and whether it covers
every instruction. -/
structure Settings where
  config : Option (String × Config)
  all : Bool

def rule : String := " +----------------------------------------------+\n"

/-- The executed instruction and the registers after it. -/
def registers (e : Executed) (m : Machine) : String :=
  rule ++
    " | #" ++ Text.padRight 8 ' ' (toString e.time) ++ " [" ++ Text.hexUpper 4 e.offset ++ "] " ++
    e.instruction.styledText ++ "\n" ++
    " | ip: " ++ Text.hexUpper 4 m.ip ++ " | fp: " ++ Text.hexUpper 4 m.fp ++
    " | sp: " ++ Text.hexUpper 4 m.stack.size ++
    " | frames: " ++ Text.padRight 3 ' ' (toString m.frames.size) ++ "\n" ++ rule

/-- A word of the stack on its line. -/
def stackLine (fp index : Nat) (w : Word) : String :=
  " | " ++ Text.hexUpper 4 index ++ " : " ++ w.hex ++ " " ++ Text.padLeft 20 ' ' w.text ++ " " ++
    (if index = fp then "<- fp" else "") ++ "\n"

/-- The stack from its top down. -/
def stackLines (m : Machine) : String :=
  String.join (m.stack.toList.zipIdx.reverse.map fun (w, index) => stackLine m.fp index w) ++ rule

/-- Heap blocks, or why there is none with a handle. -/
def heapLines (m : Machine) (handles : List Int64) : String :=
  String.join
      (handles.map fun handle =>
        " | #" ++ Text.padRight 4 ' ' (toString handle.toInt) ++ ": " ++
          (match m.heap.get handle with
           | .ok block => Text.joined " " (block.toList.map Word.text)
           | .error e => e.message) ++ "\n") ++
    rule

/-- What the dump shows after an instruction. -/
def report (s : Settings) (e : Executed) (m : Machine) : List String :=
  match s.config.bind (fun c => List.lookup e.offset c.2) with
  | some request =>
    [registers e m ++ (if request.stack then stackLines m else "") ++ heapLines m request.heap]
  | none => if s.all then [registers e m ++ stackLines m] else []

/-- What the dump announces. -/
def announcement (s : Settings) : List String :=
  (if s.all then [" * Dump all\n"] else []) ++
    (match s.config with
     | some (name, config) =>
       [" * Dump[" ++ toString config.length ++ "] " ++ Text.quoted name ++ "\n"]
     | none => [])

def observer (s : Settings) : Observer String where
  start m := (m, announcement s)
  executed e m := (m, report s e m)
  finish m := (m, [])

end EdeLang.Dump
