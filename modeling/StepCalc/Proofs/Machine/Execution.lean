import StepCalc.Proofs.Machine.Moves

/-!
# Execution of whole statements

The machine runs a program in small steps, with a stack of frames. `Executes` says the same by
recursion on the program: a statement, a list of statements or the repetitions of a loop body leads
from one state to another, with all the steps that are charged on the way, and every statement adds
one snapshot to the trace when it ends. The two agree:

1. a machine follows every execution, whatever frames are below it (`exists_path_of_executes`);
2. a list of statements that a machine gets to the end of has an execution (`accomplishes`).

So a list of statements executes to exactly what a machine makes of it (`executes_iff_path`).
-/

namespace StepCalc

/-- What can be executed. -/
inductive Task where
  /-- One statement with its id. -/
  | statement (s : Statement) (id : Nat)
  /-- Some statements, with the id of the first. -/
  | list (statements : List Statement) (id : Nat)
  /-- The body of the loop with the given id, over and over. -/
  | repetition (body : List Statement) (id : Nat)

/-- How an execution has ended, with the snapshots of the statements that ended on the way. -/
structure Outcome where
  trace : List Snapshot
  status : Status
  state : State
  steps : Nat

/-- The outcome with one more snapshot, that of the statement `id`. -/
def Outcome.emit (o : Outcome) (id : Nat) : Outcome :=
  { o with trace := o.trace ++ [⟨some id, o.state, o.status⟩] }

/-- The outcome with an earlier trace before its own. -/
def Outcome.after (o : Outcome) (trace : List Snapshot) : Outcome :=
  { o with trace := trace ++ o.trace }

open Machine (Affords)

/-- A task leads from a state, with some steps charged already, to an outcome. -/
inductive Executes (budget : Option Nat) : Task → State → Nat → Outcome → Prop
  | refused {s : Statement} {id n : Nat} {st : State} (hbudget : ¬ Affords budget n) :
      Executes budget (.statement s id) st n (Outcome.emit ⟨[], .failed, st.limited, n + 1⟩ id)
  | concluded {s : Statement} {id n : Nat} {st : State} {result : Status × State}
      (hbudget : Affords budget n) (hresult : s.Concludes st result) :
      Executes budget (.statement s id) st n (Outcome.emit ⟨[], result.1, result.2, n + 1⟩ id)
  | branch {condition : Expr} {body : List Statement} {id n : Nat} {st st' : State} {value : Int64}
      {o : Outcome} (hbudget : Affords budget n) (hvalue : st.evaluate condition = (.ok value, st'))
      (hne : value ≠ 0) (hbody : Executes budget (.list body (id + 1)) st' (n + 1) o) :
      Executes budget (.statement (.branch condition body) id) st n (o.emit id)
  | loop {body : List Statement} {id n : Nat} {st : State} {o : Outcome}
      (hbudget : Affords budget n)
      (hbody : Executes budget (.repetition body id) st (n + 1) o) :
      Executes budget (.statement (.loop body) id) st n (o.emit id)
  | nil {id n : Nat} {st : State} : Executes budget (.list [] id) st n ⟨[], .ongoing, st, n⟩
  /-- A check that fails, or an error, ends the list. -/
  | leave {s : Statement} {rest : List Statement} {id n : Nat} {st : State} {o : Outcome}
      (hfirst : Executes budget (.statement s id) st n o) (hstatus : o.status ≠ .ongoing) :
      Executes budget (.list (s :: rest) id) st n o
  | cons {s : Statement} {rest : List Statement} {id n : Nat} {st : State} {o o' : Outcome}
      (hfirst : Executes budget (.statement s id) st n o) (hstatus : o.status = .ongoing)
      (hrest : Executes budget (.list rest (id + s.size)) o.state o.steps o') :
      Executes budget (.list (s :: rest) id) st n (o'.after o.trace)
  | broken {body : List Statement} {id n : Nat} {st : State} {o : Outcome}
      (hbody : Executes budget (.list body (id + 1)) st n o) (hstatus : o.status ≠ .ongoing) :
      Executes budget (.repetition body id) st n { o with status := o.status.afterLoop }
  | stopped {body : List Statement} {id n : Nat} {st : State} {o : Outcome}
      (hbody : Executes budget (.list body (id + 1)) st n o) (hstatus : o.status = .ongoing)
      (hbudget : ¬ Affords budget o.steps) :
      Executes budget (.repetition body id) st n ⟨o.trace, .failed, o.state.limited, o.steps + 1⟩
  | again {body : List Statement} {id n : Nat} {st : State} {o o' : Outcome}
      (hbody : Executes budget (.list body (id + 1)) st n o) (hstatus : o.status = .ongoing)
      (hbudget : Affords budget o.steps)
      (hrest : Executes budget (.repetition body id) o.state (o.steps + 1) o') :
      Executes budget (.repetition body id) st n (o'.after o.trace)

/-- The snapshot of a statement is the last of its execution. -/
theorem Executes.exists_emit {budget : Option Nat} {s : Statement} {id n : Nat} {st : State}
    {o : Outcome} (h : Executes budget (.statement s id) st n o) :
    ∃ inner : Outcome, o = inner.emit id := by
  cases h with
  | refused _ => exact ⟨_, rfl⟩
  | concluded _ _ => exact ⟨_, rfl⟩
  | branch _ _ _ _ => exact ⟨_, rfl⟩
  | loop _ _ => exact ⟨_, rfl⟩

/-- The last snapshot of an execution shows how the execution ends; without snapshots nothing has
happened. -/
theorem Executes.last_snapshot {budget : Option Nat} {statements : List Statement} {id n : Nat}
    {st : State} {o : Outcome} (h : Executes budget (.list statements id) st n o) :
    o = ⟨[], .ongoing, st, n⟩ ∨
      ∃ before last, o.trace = before ++ [last] ∧ last.state = o.state ∧
        last.status = o.status := by
  induction statements generalizing id n st o with
  | nil =>
    cases h
    exact Or.inl rfl
  | cons s rest ih =>
    cases h with
    | leave hfirst _ =>
      obtain ⟨inner, rfl⟩ := hfirst.exists_emit
      exact Or.inr ⟨inner.trace, _, rfl, rfl, rfl⟩
    | @cons _ _ _ _ _ o o' hfirst hstatus hrest =>
      rcases ih hrest with rfl | ⟨before, last, htrace, hstate, hlast⟩
      · obtain ⟨inner, rfl⟩ := hfirst.exists_emit
        exact Or.inr ⟨inner.trace, ⟨some id, inner.state, inner.status⟩, List.append_nil _, rfl,
          hstatus⟩
      · refine Or.inr ⟨o.trace ++ before, last, ?_, hstate, hlast⟩
        rw [Outcome.after, htrace, List.append_assoc]

namespace Machine

variable {budget : Option Nat}

/-! ## Tasks of a machine -/

/-- What is around a task: the statements after it with the id of the first, and the frames. -/
structure Surroundings where
  rest : List Statement
  next : Nat
  frames : List Frame

/-- The machine that is about to do a task. -/
def entry (st : State) (n : Nat) (around : Surroundings) : Task → Machine
  | .statement s id => ⟨st, n, .enter (s :: around.rest) id, around.frames⟩
  | .list statements id => ⟨st, n, .enter statements id, around.frames⟩
  | .repetition body id =>
    ⟨st, n, .enter body (id + 1), .loop id body around.rest around.next :: around.frames⟩

/-- The machine that has done a task. -/
def exit (o : Outcome) (around : Surroundings) : Task → Machine
  | .statement s id => ⟨o.state, o.steps, resume o.status around.rest (id + s.size), around.frames⟩
  | .list _ _ => ⟨o.state, o.steps, .leave o.status, around.frames⟩
  | .repetition _ _ => ⟨o.state, o.steps, resume o.status around.rest around.next, around.frames⟩

/-- What a machine emits while it does a task; with the last repetition a loop ends. -/
def emissions (o : Outcome) : Task → List Snapshot
  | .repetition _ id => (o.emit id).trace
  | _ => o.trace

theorem emissions_after (o : Outcome) (trace : List Snapshot) (task : Task) :
    emissions (o.after trace) task = trace ++ emissions o task := by
  cases task with
  | statement s id => rfl
  | list statements id => rfl
  | repetition body id => exact List.append_assoc trace o.trace _

theorem resume_of_ne {status : Status} (h : status ≠ .ongoing) (rest : List Statement)
    (next : Nat) : resume status rest next = .leave status := by
  cases status with
  | ongoing => exact absurd rfl h
  | failed => rfl
  | exited => rfl

theorem exit_of_ongoing {o : Outcome} (h : o.status = .ongoing) (around : Surroundings)
    (s : Statement) (id : Nat) :
    exit o around (.statement s id) =
      entry o.state o.steps around (.list around.rest (id + s.size)) := by
  unfold exit
  rw [h]
  rfl

theorem exit_of_ne {o : Outcome} (h : o.status ≠ .ongoing) (around : Surroundings) (s : Statement)
    (id : Nat) (statements : List Statement) :
    exit o around (.statement s id) = exit o around (.list statements id) := by
  simp only [exit, resume_of_ne h]

/-- The surroundings of a body that runs. -/
def Surroundings.inside (around : Surroundings) (frame : Frame) : Surroundings :=
  ⟨[], 0, frame :: around.frames⟩

/-! ## From executions to moves -/

/-- A machine follows every execution, whatever is around the task. -/
theorem exists_path_of_executes {task : Task} {st : State} {n : Nat} {o : Outcome}
    (h : Executes budget task st n o) (around : Surroundings) :
    ∃ k, Path budget k (entry st n around task) (emissions o task) (exit o around task) := by
  induction h generalizing around with
  | refused hbudget => exact ⟨1, .single (.refused hbudget)⟩
  | concluded hbudget hresult => exact ⟨1, .single (.concluded hbudget hresult)⟩
  | @branch condition body id n st st' value o hbudget hvalue hne _ ih =>
    obtain ⟨k, hbody⟩ := ih (around.inside (.branch id around.rest
      (id + (Statement.branch condition body).size)))
    exact ⟨_, .move (.branched hbudget hvalue hne) (hbody.trans (.single .closed))⟩
  | @loop body id n st o hbudget _ ih =>
    obtain ⟨k, hbody⟩ := ih { around with next := id + (Statement.loop body).size }
    exact ⟨_, .move (.looped hbudget) hbody⟩
  | nil => exact ⟨1, .single .ended⟩
  | @leave s rest id n st o _ hstatus ih =>
    obtain ⟨k, hfirst⟩ := ih { around with rest }
    rw [exit_of_ne hstatus _ s id (s :: rest)] at hfirst
    exact ⟨k, hfirst⟩
  | @cons s rest id n st o o' _ hstatus _ ih₁ ih₂ =>
    obtain ⟨j, hfirst⟩ := ih₁ { around with rest }
    obtain ⟨k, hrest⟩ := ih₂ around
    rw [exit_of_ongoing hstatus] at hfirst
    exact ⟨j + k, hfirst.trans hrest⟩
  | @broken body id n st o _ hstatus ih =>
    obtain ⟨k, hbody⟩ := ih (around.inside (.loop id body around.rest around.next))
    exact ⟨_, hbody.trans (.single (.broken hstatus))⟩
  | @stopped body id n st o _ hstatus hbudget ih =>
    obtain ⟨k, hbody⟩ := ih (around.inside (.loop id body around.rest around.next))
    unfold exit at hbody
    rw [hstatus] at hbody
    exact ⟨_, hbody.trans (.single (.stopped hbudget))⟩
  | @again body id n st o o' _ hstatus hbudget _ ih₁ ih₂ =>
    obtain ⟨j, hbody⟩ := ih₁ (around.inside (.loop id body around.rest around.next))
    obtain ⟨k, hrest⟩ := ih₂ around
    unfold exit at hbody
    rw [hstatus] at hbody
    refine ⟨j + (k + 1), ?_⟩
    rw [emissions_after]
    exact hbody.trans (.move (.repeated hbudget) hrest)

/-! ## From moves to executions -/

/-- If a machine that is about to do the task gets to the end of the program in `k` moves, it first
does the task, as an execution says. -/
def Accomplishes (budget : Option Nat) (k : Nat) (task : Task) : Prop :=
  ∀ (around : Surroundings) {st : State} {n : Nat} {trace : List Snapshot} {last : Machine}
    {status : Status}, Path budget k (entry st n around task) trace last → last.Ended status →
    ∃ o j trace', j < k ∧ Executes budget task st n o ∧
      Path budget j (exit o around task) trace' last ∧ trace = emissions o task ++ trace'

theorem accomplishes_statement {k : Nat} (ih : ∀ j < k, ∀ task, Accomplishes budget j task)
    (s : Statement) (id : Nat) : Accomplishes budget k (.statement s id) := by
  intro around st n trace last status hpath hend
  generalize hm : entry st n around (.statement s id) = m at hpath
  cases hpath with
  | here =>
    subst hm
    cases hend.1
  | @move k _ m' _ emitted trace hmove hrest =>
    subst hm
    have hk : k < k + 1 := Nat.lt_succ_self k
    cases hmove with
    | refused hbudget => exact ⟨_, k, trace, hk, .refused hbudget, hrest, rfl⟩
    | concluded hbudget hresult => exact ⟨_, k, trace, hk, .concluded hbudget hresult, hrest, rfl⟩
    | @branched _ st' _ _ condition body _ _ value hbudget hvalue hne =>
      obtain ⟨o, j, trace', hj, hbody, hleave, rfl⟩ :=
        ih k hk (.list body (id + 1)) (around.inside _) hrest hend
      obtain ⟨j', trace'', rfl, hexit, rfl⟩ := hleave.of_move hend .closed
      refine ⟨o.emit id, j', trace'', by omega, .branch hbudget hvalue hne hbody, hexit, ?_⟩
      exact (List.append_assoc o.trace [⟨some id, o.state, o.status⟩] trace'').symm
    | @looped _ _ _ body _ _ hbudget =>
      obtain ⟨o, j, trace', hj, hbody, hexit, rfl⟩ :=
        ih k hk (.repetition body id) { around with next := id + (Statement.loop body).size }
          hrest hend
      exact ⟨o.emit id, j, trace', by omega, .loop hbudget hbody, hexit, rfl⟩

theorem accomplishes_list {k : Nat} (ih : ∀ j < k, ∀ task, Accomplishes budget j task)
    (statements : List Statement) (id : Nat) : Accomplishes budget k (.list statements id) := by
  intro around st n trace last status hpath hend
  cases statements with
  | nil =>
    obtain ⟨j, trace', rfl, hleave, htrace⟩ := hpath.of_move hend .ended
    exact ⟨_, j, trace', Nat.lt_succ_self j, .nil, hleave, htrace⟩
  | cons s rest =>
    obtain ⟨o, j, trace', hj, hfirst, hexit, rfl⟩ :=
      accomplishes_statement ih s id { around with rest } hpath hend
    by_cases hstatus : o.status = .ongoing
    · rw [exit_of_ongoing hstatus] at hexit
      obtain ⟨o', j', trace'', hj', hrest, hleave, rfl⟩ :=
        ih j hj (.list rest (id + s.size)) around hexit hend
      refine ⟨o'.after o.trace, j', trace'', by omega, .cons hfirst hstatus hrest, hleave, ?_⟩
      rw [emissions_after, List.append_assoc]
      rfl
    · rw [exit_of_ne hstatus _ s id (s :: rest)] at hexit
      exact ⟨o, j, trace', hj, .leave hfirst hstatus, hexit, rfl⟩

theorem accomplishes_repetition {k : Nat} (ih : ∀ j < k, ∀ task, Accomplishes budget j task)
    (body : List Statement) (id : Nat) : Accomplishes budget k (.repetition body id) := by
  intro around st n trace last status hpath hend
  obtain ⟨o, j, trace', hj, hbody, hleave, rfl⟩ := accomplishes_list ih body (id + 1)
    (around.inside (.loop id body around.rest around.next)) hpath hend
  unfold exit at hleave
  by_cases hstatus : o.status = .ongoing
  · rw [hstatus] at hleave
    by_cases hbudget : Affords budget o.steps
    · obtain ⟨j', trace'', rfl, hagain, rfl⟩ := hleave.of_move hend (.repeated hbudget)
      obtain ⟨o', j'', trace₃, hj', hrest, hexit, rfl⟩ :=
        ih j' (by omega) (.repetition body id) around hagain hend
      refine ⟨o'.after o.trace, j'', trace₃, by omega, .again hbody hstatus hbudget hrest, hexit,
        ?_⟩
      rw [emissions_after, List.append_assoc]
      rfl
    · obtain ⟨j', trace'', rfl, hexit, rfl⟩ := hleave.of_move hend (.stopped hbudget)
      refine ⟨_, j', trace'', by omega, .stopped hbody hstatus hbudget, hexit, ?_⟩
      exact (List.append_assoc _ _ _).symm
  · obtain ⟨j', trace'', rfl, hexit, rfl⟩ := hleave.of_move hend (.broken hstatus)
    refine ⟨_, j', trace'', by omega, .broken hbody hstatus, hexit, ?_⟩
    exact (List.append_assoc _ _ _).symm

theorem accomplishes (budget : Option Nat) (k : Nat) (task : Task) :
    Accomplishes budget k task := by
  -- the parts of a task are done in fewer moves, also where they are no parts of the program
  induction k using Nat.strongRecOn generalizing task with
  | ind k ih =>
    cases task with
    | statement s id => exact accomplishes_statement ih s id
    | list statements id => exact accomplishes_list ih statements id
    | repetition body id => exact accomplishes_repetition ih body id

/-- **Execution is what the machine does.** -/
theorem executes_iff_path {statements : List Statement} {id n : Nat} {st : State} {o : Outcome} :
    Executes budget (.list statements id) st n o ↔
      ∃ k, Path budget k ⟨st, n, .enter statements id, []⟩ o.trace
        ⟨o.state, o.steps, .leave o.status, []⟩ := by
  constructor
  · intro h
    exact exists_path_of_executes h ⟨[], 0, []⟩
  · rintro ⟨k, hpath⟩
    have hend : Ended ⟨o.state, o.steps, .leave o.status, []⟩ o.status := ⟨rfl, rfl⟩
    obtain ⟨o', j, trace', _, h, hleave, htrace⟩ :=
      accomplishes budget k (.list statements id) ⟨[], 0, []⟩ hpath hend
    obtain ⟨rfl, hlast⟩ := hleave.unique hend (.here _) ⟨rfl, rfl⟩
    rw [List.append_nil] at htrace
    obtain ⟨trace, status, state, steps⟩ := o
    obtain ⟨trace', status', state', steps'⟩ := o'
    cases hlast
    cases htrace
    exact h

/-- A list of statements has at most one outcome. -/
theorem executes_unique {statements : List Statement} {id n : Nat} {st : State} {o o' : Outcome}
    (h : Executes budget (.list statements id) st n o)
    (h' : Executes budget (.list statements id) st n o') : o = o' := by
  obtain ⟨k, hpath⟩ := executes_iff_path.mp h
  obtain ⟨k', hpath'⟩ := executes_iff_path.mp h'
  obtain ⟨htrace, hlast⟩ := hpath.unique ⟨rfl, rfl⟩ hpath' ⟨rfl, rfl⟩
  obtain ⟨trace, status, state, steps⟩ := o
  obtain ⟨trace', status', state', steps'⟩ := o'
  cases htrace
  cases hlast
  rfl

end Machine

end StepCalc
