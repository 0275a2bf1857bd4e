import StepCalc.Machine.Step
import StepCalc.Text.Blank
import StepCalc.Text.Column

/-!
# Runs

`Program.run?` runs a program to its end, with an optional budget of steps and an optional history.
The history takes part in nothing: it records the initial state and then what the machine emits
(`trace`), up to its limit.

A run is given a number of moves. With a budget it always ends within them; without one it may not
end at all, and then there is no result.
-/

namespace StepCalc

structure RunLimits where
  /-- The byte limit of the history; none records nothing. -/
  history : Option Nat := none
  /-- The most steps that may be charged. -/
  steps : Option Nat := none
deriving DecidableEq, Repr

/-- The history limit of the step viewer: 256 MiB. -/
def defaultHistoryLimit : Nat := 256 * 1024 * 1024

/-- The outcome of a run. -/
structure Run where
  state : State
  status : Status
  steps : Nat
  history : Option History

namespace Machine

/-- Makes up to `moves` moves; the result is there if the program has ended by then. -/
def run? (budget : Option Nat) : Nat → Machine → Option History → Option Run
  | 0, _, _ => none
  | moves + 1, m, history =>
    match m.step budget with
    | .done status => some ⟨m.state, status, m.steps, history.map History.rewind⟩
    | .next m none => run? budget moves m history
    | .next m (some snapshot) =>
      run? budget moves m (history.map fun h => h.record snapshot)

/-- The snapshots that up to `moves` moves emit. -/
def trace (budget : Option Nat) : Nat → Machine → List Snapshot
  | 0, _ => []
  | moves + 1, m =>
    match m.step budget with
    | .done _ => []
    | .next m none => trace budget moves m
    | .next m (some snapshot) => snapshot :: trace budget moves m

/-- The moves given to a run: more than it can make within its budget or, without one, within any
count of steps that has 64 bits. -/
def movesFor (budget : Option Nat) : Nat := 3 * budget.getD maxCount + 6

end Machine

/-- The snapshot before the first statement. -/
def Snapshot.initial (input : List String) : Snapshot := ⟨none, .initial input, .ongoing⟩

/-- Runs a program on input words. -/
def Program.runOn? (program : Program) (input : List String) (limits : RunLimits) : Option Run :=
  let history := limits.history.map fun limit => (History.empty limit).record (.initial input)
  (Machine.initial program input).run? limits.steps (Machine.movesFor limits.steps) history

/-- Runs a program on the words of a text. -/
def Program.run? (program : Program) (input : String) (limits : RunLimits) : Option Run :=
  program.runOn? (words input) limits

namespace Run

variable (r : Run)

/-- Whether there was no runtime error. -/
def succeeded : Bool := r.status != .failed

/-- The variables that were never read, if the run succeeded. -/
def unused : List String := if r.succeeded then r.state.memory.unused else []

/-- The output words on one line and, after a run that succeeded, the unused variables on
another. -/
def render : String :=
  separated " " r.state.output ++ "\n"
    ++ if r.succeeded then
      "warning: unused variables:" ++ String.join (r.unused.map (" " ++ ·)) ++ "\n"
    else ""

end Run

end StepCalc
