import StepCalc.Machine.History

/-!
# The machine

A machine runs a program in small steps. Its control is either about to run a list of statements
or has just ended one; its frames are the statements whose bodies are running, innermost first.
Every statement, and every repetition of a loop body, is charged one step against the budget. When
a statement ends, the machine emits a snapshot.

* A branch ends as its body does.
* A loop runs its body again when the body ends normally; a failed check ends the loop, and the
  run goes on after it; an error ends the loop too, and everything around it.
-/

namespace StepCalc

/-- What the machine does next. -/
inductive Control where
  /-- Run the statements; the first has the given id. -/
  | enter (statements : List Statement) (id : Nat)
  /-- A list of statements has ended. -/
  | leave (status : Status)

/-- A statement whose body is running, with the statements after it and the id of the first of
these. -/
inductive Frame where
  | branch (id : Nat) (rest : List Statement) (next : Nat)
  | loop (id : Nat) (body rest : List Statement) (next : Nat)

/-- The state of a run. -/
structure Machine where
  state : State
  /-- The steps charged so far. -/
  steps : Nat
  control : Control
  frames : List Frame

inductive Transition where
  /-- The machine after the move, and what it emitted. -/
  | next (m : Machine) (emitted : Option Snapshot)
  /-- The program has ended. -/
  | done (status : Status)

namespace Machine

def initial (program : Program) (input : List String) : Machine :=
  ⟨.initial input, 0, .enter program.statements 0, []⟩

/-- What goes on after a statement has ended: the rest of its list, or the end of the list. -/
def resume (status : Status) (rest : List Statement) (next : Nat) : Control :=
  match status with
  | .ongoing => .enter rest next
  | status => .leave status

/-- Whether one more step is beyond the budget. -/
def exhausted (m : Machine) (budget : Option Nat) : Bool :=
  match budget with
  | some limit => limit < m.steps + 1
  | none => false

def charged (m : Machine) : Machine := { m with steps := m.steps + 1 }

/-- Ends the statement `id`: emits its snapshot and goes on in the list it belongs to. -/
def finish (m : Machine) (id : Nat) (result : Status × State) (rest : List Statement)
    (next : Nat) : Transition :=
  .next { m with state := result.2, control := resume result.1 rest next }
    (some ⟨some id, result.2, result.1⟩)

/-- Starts the statement `id`, whose step is already charged. -/
def start (m : Machine) (statement : Statement) (id : Nat) (rest : List Statement) :
    Transition :=
  let next := id + statement.size
  match statement with
  | .branch condition body =>
    match m.state.evaluate condition with
    | (.error error, s) => m.finish id (s.fail error) rest next
    | (.ok value, s) =>
      if value = 0 then m.finish id (.ongoing, s) rest next
      else
        .next { m with
          state := s
          control := .enter body (id + 1)
          frames := .branch id rest next :: m.frames } none
  | .loop body =>
    .next { m with
      control := .enter body (id + 1)
      frames := .loop id body rest next :: m.frames } none
  | _ => m.finish id (statement.perform m.state) rest next

/-- One move of the machine. -/
def step (budget : Option Nat) (m : Machine) : Transition :=
  match m.control with
  | .enter [] _ => .next { m with control := .leave .ongoing } none
  | .enter (statement :: rest) id =>
    if m.exhausted budget then
      m.charged.finish id (m.state.fail .stepLimit) rest (id + statement.size)
    else m.charged.start statement id rest
  | .leave status =>
    match m.frames with
    | [] => .done status
    | .branch id rest next :: frames =>
      { m with frames }.finish id (status, m.state) rest next
    | .loop id body rest next :: frames =>
      match status with
      | .ongoing =>
        if m.exhausted budget then
          { m.charged with frames }.finish id (m.state.fail .stepLimit) rest next
        else .next { m.charged with control := .enter body (id + 1) } none
      | .exited => { m with frames }.finish id (.ongoing, m.state) rest next
      | .failed => { m with frames }.finish id (.failed, m.state) rest next

end Machine

end StepCalc
