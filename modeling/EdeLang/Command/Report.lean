import EdeLang.Machine.Basic
import EdeLang.Text.Style

/-!
# Reports

How the commands say that they succeeded or failed, and how a run of the machine ended.
-/

namespace EdeLang.Report

def success (word : String) : String := Text.styled [.green, .bold] word

def failure (word : String) : String := Text.styled [.red, .bold] word

/-- A budget of steps that may be missing. -/
def budget : Option Nat → String
  | some n => "Some(" ++ toString n ++ ")"
  | none => "None"

/-- The report that a run used up its budget. -/
def stopped (steps : Option Nat) : String :=
  Text.styled [.yellow, .bold] "Stopped" ++ " after " ++ budget steps ++ " steps"

/-- The report of a fault, with the offset that the machine had reached. -/
def fault (word : String) (f : Fault) (m : Machine) : String :=
  failure word ++ ": " ++ f.message ++ " at ip " ++ Text.hexUpper 4 m.ip

end EdeLang.Report
