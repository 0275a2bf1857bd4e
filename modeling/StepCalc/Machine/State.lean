import StepCalc.Machine.Evaluation
import StepCalc.Program.Statement

/-!
# States and simple statements

A state holds the memory, the input words not read yet and the output words. A simple statement,
one without a body, turns a state into another and says how the run goes on. An error adds its
message to the output.
-/

namespace StepCalc

/-- How a statement, or a list of them, has ended. -/
inductive Status where
  /-- The run goes on with what comes next. -/
  | ongoing
  /-- A runtime error; its message is the last output word. -/
  | failed
  /-- A check failed; the nearest loop around it ends. -/
  | exited
deriving DecidableEq, Repr

/-- What statements read and change. -/
structure State where
  memory : Memory
  input : List String
  output : List String
deriving DecidableEq

namespace State

/-- The state before the first statement, with the given input words. -/
def initial (input : List String) : State := ⟨∅, input, []⟩

/-- The state after an error. -/
def fail (s : State) (error : RuntimeError) : Status × State :=
  (.failed, { s with output := s.output ++ [error.message] })

/-- The value of an expression, and the state afterwards. -/
def evaluate (s : State) (e : Expr) : Except RuntimeError Int64 × State :=
  let result := e.evaluate s.memory
  (result.1, { s with memory := result.2 })

/-- Evaluates an expression and goes on with its value, or fails. -/
def withValue (s : State) (e : Expr) (next : Int64 → State → Status × State) : Status × State :=
  match s.evaluate e with
  | (.ok value, s) => next value s
  | (.error error, s) => s.fail error

/-- Reads one input word into a variable. The word is taken even if it is no number. -/
def readInto (s : State) (name : String) : Status × State :=
  match s.input with
  | [] => s.fail .endOfInput
  | word :: input =>
    let s := { s with input }
    match readInt64? word with
    | some value => (.ongoing, { s with memory := s.memory.bind name value })
    | none => s.fail (.nonNumeric word)

end State

/-- What a statement without a body does to a state. One with a body does nothing by itself. -/
def Statement.perform (statement : Statement) (s : State) : Status × State :=
  match statement with
  | .assign name e =>
    s.withValue e fun value s => (.ongoing, { s with memory := s.memory.bind name value })
  | .read name => s.readInto name
  | .write e =>
    s.withValue e fun value s => (.ongoing, { s with output := s.output ++ [showInt64 value] })
  | .check e => s.withValue e fun value s => (if value = 0 then .exited else .ongoing, s)
  | .erroneous => s.fail .erroneousTree
  | .branch _ _ | .loop _ => (.ongoing, s)

end StepCalc
