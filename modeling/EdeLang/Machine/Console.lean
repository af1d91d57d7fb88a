import EdeLang.Machine.Observer
import EdeLang.Text.Style

/-!
# The console

The console shows what a program prints as soon as it is printed, highlighted if so wished.
-/

namespace EdeLang.Console

/-- The characters printed so far, taken from the machine. -/
def flush (highlight : Bool) (m : Machine) : Machine × List String :=
  if m.output.isEmpty then (m, [])
  else
    let (text, m) := m.takeOutput
    (m, [if highlight then Text.styled [.red, .bold] text else text])

def observer (highlight : Bool) : Observer String where
  start m := (m, if highlight then [" * Console: styled\n"] else [])
  executed _ m := flush highlight m
  finish m := flush highlight m

end EdeLang.Console
