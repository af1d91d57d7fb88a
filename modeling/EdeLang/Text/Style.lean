/-!
# Terminal styles

Escape sequences for coloured, bold and underlined text. Closing a colour restores the default
foreground; weight and underline are closed on their own.
-/

namespace EdeLang.Text

/-- A display attribute of terminal text. -/
inductive Style where
  | red
  | green
  | yellow
  | blue
  | bold
  | underline
deriving DecidableEq, Repr

/-- The escape sequence with a numeric parameter. -/
def escapeSequence (code : String) : String := "\x1b[" ++ code ++ "m"

/-- The sequence that turns a style on. -/
def Style.start : Style → String
  | .red => escapeSequence "31"
  | .green => escapeSequence "32"
  | .yellow => escapeSequence "33"
  | .blue => escapeSequence "34"
  | .bold => escapeSequence "1"
  | .underline => escapeSequence "4"

/-- The sequence that turns a style off. -/
def Style.stop : Style → String
  | .red | .green | .yellow | .blue => escapeSequence "39"
  | .bold => escapeSequence "22"
  | .underline => escapeSequence "24"

/-- Text between the starts and the stops of some styles, both in the order given. -/
def styled (styles : List Style) (text : String) : String :=
  String.join (styles.map Style.start) ++ text ++ String.join (styles.map Style.stop)

/-- Adjacent stretches of coloured text: a change of colour needs no stop in between. -/
def colourRun (parts : List (Style × String)) : String :=
  String.join (parts.map fun p => p.1.start ++ p.2) ++
    (match parts.getLast? with
     | some p => p.1.stop
     | none => "")

end EdeLang.Text
