import EdeLang.Machine.Step

/-!
# Observed runs

Observers accompany a run: at its start, after every instruction, and once when it stops,
whether the program ended, failed or used up its budget. They may take the printed characters
from the machine and report events.
-/

namespace EdeLang

/-- An executed instruction: how many were executed before it, its offset, and itself. -/
structure Executed where
  time : Nat
  offset : Nat
  instruction : Instruction

/-- Reactions to the phases of a run, with the events they report. -/
structure Observer (ε : Type) where
  start : Machine → Machine × List ε
  executed : Executed → Machine → Machine × List ε
  finish : Machine → Machine × List ε

namespace Observer

/-- Renames the events of an observer. -/
def map {ε δ : Type} (f : ε → δ) (o : Observer ε) : Observer δ where
  start m := ((o.start m).1, (o.start m).2.map f)
  executed e m := ((o.executed e m).1, (o.executed e m).2.map f)
  finish m := ((o.finish m).1, (o.finish m).2.map f)

/-- One reaction of every observer, in order. -/
def each {ε : Type} (react : Observer ε → Machine → Machine × List ε) :
    List (Observer ε) → Machine → Array ε → Machine × Array ε
  | [], m, events => (m, events)
  | o :: os, m, events =>
    let (m, reported) := react o m
    each react os m (events ++ reported)

end Observer

/-- How an observed run ended. -/
structure Watched (ε : Type) where
  machine : Machine
  result : Except Fault Status
  events : Array ε

namespace Machine

/-- The finish of an observed run. -/
def finishWatch {ε : Type} (observers : List (Observer ε)) (m : Machine) (events : Array ε)
    (result : Machine → Except Fault Status) : Watched ε :=
  let (m, events) := Observer.each Observer.finish observers m events
  ⟨m, result m, events⟩

/-- Runs the machine under observation from an instant on. -/
def watchFrom {ε : Type} (observers : List (Observer ε)) :
    Nat → Nat → Machine → Array ε → Watched ε
  | 0, _, m, events => finishWatch observers m events fun m => .ok m.status
  | budget + 1, time, m, events =>
    if m.isTerminated then finishWatch observers m events fun m => .ok m.status
    else
      match step m with
      | .error e m => finishWatch observers m events fun _ => .error e
      | .ok (offset, instruction) m =>
        let (m, events) :=
          Observer.each (fun o => o.executed ⟨time, offset, instruction⟩) observers m events
        watchFrom observers budget (time + 1) m events

/-- Most instructions of a run without a budget. -/
def unbounded : Nat := 0x10000000000000000 - 1

/-- Runs the machine under observation, for at most the given number of instructions. -/
def watch {ε : Type} (observers : List (Observer ε)) (budget : Option Nat) (m : Machine) :
    Watched ε :=
  let (m, events) := Observer.each Observer.start observers m #[]
  watchFrom observers (budget.getD unbounded) 0 m events

end Machine
end EdeLang
