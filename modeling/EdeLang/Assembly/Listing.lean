import EdeLang.Assembly.Assemble

/-!
# Listings

The listing of an assembled program shows each instruction beside its offset and its first eight
bytes, with the labels between them.
-/

namespace EdeLang

/-- The bytes column of an instruction at an offset. -/
def bytesColumn (bytes : Array UInt8) (offset size : Nat) : String :=
  if offset + size ≤ bytes.size then
    Text.hexBytes ((bytes.extract offset (offset + size)).toList.take 8)
  else Text.styled [.red, .bold] "!!"

/-- Lines of a listing from an offset on. -/
def Code.listingFrom (bytes : Array UInt8) (offset : Nat) : Code → String
  | [] => ""
  | .label name :: rest =>
    Text.repeated 28 ' ' ++ "| " ++ Text.styled [.green] (name ++ ":") ++ "\n" ++
      listingFrom bytes offset rest
  | .inst i :: rest =>
    "[" ++ Text.hexUpper 4 offset ++ "] " ++
      Text.padRight 16 ' ' (bytesColumn bytes offset i.size) ++
      (if 8 < i.size then "+" else " ") ++ " |   " ++ i.styledText ++ "\n" ++
      listingFrom bytes (offset + i.size) rest

/-- The listing of a program and its bytes. -/
def Code.listing (code : Code) (bytes : Array UInt8) : String :=
  code.listingFrom bytes 0 ++
    "----------------------------+---------------------------------------\n"

/-- An error report for a file and, if it is known, the index of an element. -/
def errorReport (message file : String) (index : Option Nat) : String :=
  Text.styled [.red, .bold] "error" ++ ": " ++ message ++ "\n" ++
    "     " ++ Text.styled [.blue] "-->" ++ " " ++
    (match index with
     | some i => Text.styled [.underline] (file ++ "[" ++ toString i ++ "]")
     | none => Text.styled [.underline] file) ++ "\n"

end EdeLang
