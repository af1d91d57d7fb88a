import EdeLang.Double.Basic

/-!
# JSON values

An integer is kept exactly as long as it fits a signed or an unsigned word; every other number
is binary64. Members of an object keep their order.
-/

namespace EdeLang

/-- A JSON value. -/
inductive Json where
  | null
  | bool (b : Bool)
  | integer (v : Int)
  | double (d : Double)
  | string (s : String)
  | array (elements : List Json)
  | object (members : List (String × Json))
deriving Inhabited

namespace Json

/-- Ways in which a text can fail to be JSON. -/
inductive Cause where
  | endInList
  | endInObject
  | endInString
  | endInValue
  | expectedColon
  | expectedListEnd
  | expectedObjectEnd
  | expectedIdent
  | expectedValue
  | invalidEscape
  | invalidNumber
  | numberOutOfRange
  | controlInString
  | keyNotString
  | loneSurrogate
  | trailingComma
  | trailingText
  | unfinishedSurrogate
  | tooDeep
deriving DecidableEq, Repr

/-- The text ended before the value did. -/
def Cause.isEnd : Cause → Bool
  | .endInList | .endInObject | .endInString | .endInValue => true
  | _ => false

def Cause.message : Cause → String
  | .endInList => "EOF while parsing a list"
  | .endInObject => "EOF while parsing an object"
  | .endInString => "EOF while parsing a string"
  | .endInValue => "EOF while parsing a value"
  | .expectedColon => "expected `:`"
  | .expectedListEnd => "expected `,` or `]`"
  | .expectedObjectEnd => "expected `,` or `\x7d`"
  | .expectedIdent => "expected ident"
  | .expectedValue => "expected value"
  | .invalidEscape => "invalid escape"
  | .invalidNumber => "invalid number"
  | .numberOutOfRange => "number out of range"
  | .controlInString => "control character (\\u0000-\\u001F) found while parsing a string"
  | .keyNotString => "key must be a string"
  | .loneSurrogate => "lone leading surrogate in hex escape"
  | .trailingComma => "trailing comma"
  | .trailingText => "trailing characters"
  | .unfinishedSurrogate => "unexpected end of hex escape"
  | .tooDeep => "recursion limit exceeded"

/-- A failure and where it was noticed: in front of `rest`, or one byte further if the next
character was only looked at. -/
structure Failure where
  cause : Cause
  rest : List Char
  ahead : Bool

end Json
end EdeLang
