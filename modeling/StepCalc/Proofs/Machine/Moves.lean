import Mathlib.Data.List.Basic
import StepCalc.Machine.Run

/-!
# Moves of the machine

`Machine.Move` says what one move can do: one case for each way in which a list of statements goes
on, with what is emitted. It is the step function as a relation (`step_eq_next_iff`), and the other
facts about machines are proved from it.

`Machine.Path` is a number of moves in a row with all that they emit. A run has a result exactly if
such a path leads to the end of the program (`run?_eq_some_iff`); the history of the run is fed with
what is emitted and has no part in anything else.
-/

namespace StepCalc

/-! ## Single statements -/

def Statement.isSimple : Statement → Bool
  | branch _ _ | loop _ => false
  | _ => true

/-- The statement ends at once with the given result, without running a body. -/
inductive Statement.Concludes : Statement → State → Status × State → Prop
  | simple {s : Statement} {st : State} (h : s.isSimple = true) : Concludes s st (s.perform st)
  | undecided {condition : Expr} {body : List Statement} {st st' : State} {error : RuntimeError}
      (h : st.evaluate condition = (.error error, st')) :
      Concludes (.branch condition body) st (st'.fail error)
  | skipped {condition : Expr} {body : List Statement} {st st' : State}
      (h : st.evaluate condition = (.ok 0, st')) :
      Concludes (.branch condition body) st (.ongoing, st')

/-- The state after a step that is beyond the budget. -/
def State.limited (st : State) : State := (st.fail .stepLimit).2

/-- How a loop ends when its body ends with a status other than `ongoing`. -/
def Status.afterLoop : Status → Status
  | exited => ongoing
  | status => status

def Control.status : Control → Status
  | enter _ _ => .ongoing
  | leave status => status

theorem Control.eq_leave_of_status {control : Control} {status : Status}
    (h : control.status = status) (hne : status ≠ .ongoing) : control = .leave status := by
  cases control with
  | enter _ _ => exact absurd h.symm hne
  | leave _ => exact congrArg leave h

namespace Machine

theorem status_resume (status : Status) (rest : List Statement) (next : Nat) :
    (resume status rest next).status = status := by
  cases status with
  | ongoing | failed | exited => rfl

/-- One more step is within the budget. -/
def Affords (budget : Option Nat) (steps : Nat) : Prop := ∀ limit ∈ budget, steps < limit

instance (budget : Option Nat) (steps : Nat) : Decidable (Affords budget steps) :=
  inferInstanceAs (Decidable (∀ limit ∈ budget, steps < limit))

theorem affords_some_iff {limit steps : Nat} : Affords (some limit) steps ↔ steps < limit := by
  simp [Affords]

theorem exhausted_eq_true_iff {budget : Option Nat} {m : Machine} :
    m.exhausted budget = true ↔ ¬ Affords budget m.steps := by
  cases budget with
  | none => simp [exhausted, Affords]
  | some limit =>
    simp only [exhausted, Affords, Option.mem_some_iff, forall_eq', decide_eq_true_eq]
    omega

theorem not_exhausted_iff {budget : Option Nat} {m : Machine} :
    ¬ m.exhausted budget = true ↔ Affords budget m.steps := by
  rw [exhausted_eq_true_iff, not_not]

/-! ## One move -/

/-- One move of the machine, with what it emits. -/
inductive Move (budget : Option Nat) : Machine → Option Snapshot → Machine → Prop
  /-- A list of statements is at its end. -/
  | ended {st : State} {n id : Nat} {frames : List Frame} :
      Move budget ⟨st, n, .enter [] id, frames⟩ none ⟨st, n, .leave .ongoing, frames⟩
  /-- The step of a statement is beyond the budget. -/
  | refused {st : State} {n id : Nat} {s : Statement} {rest : List Statement} {frames : List Frame}
      (hbudget : ¬ Affords budget n) :
      Move budget ⟨st, n, .enter (s :: rest) id, frames⟩ (some ⟨some id, st.limited, .failed⟩)
        ⟨st.limited, n + 1, .leave .failed, frames⟩
  | concluded {st : State} {n id : Nat} {s : Statement} {rest : List Statement}
      {frames : List Frame} {result : Status × State} (hbudget : Affords budget n)
      (hresult : s.Concludes st result) :
      Move budget ⟨st, n, .enter (s :: rest) id, frames⟩ (some ⟨some id, result.2, result.1⟩)
        ⟨result.2, n + 1, resume result.1 rest (id + s.size), frames⟩
  | branched {st st' : State} {n id : Nat} {condition : Expr} {body rest : List Statement}
      {frames : List Frame} {value : Int64} (hbudget : Affords budget n)
      (hvalue : st.evaluate condition = (.ok value, st')) (hne : value ≠ 0) :
      Move budget ⟨st, n, .enter (.branch condition body :: rest) id, frames⟩ none
        ⟨st', n + 1, .enter body (id + 1),
          .branch id rest (id + (Statement.branch condition body).size) :: frames⟩
  | looped {st : State} {n id : Nat} {body rest : List Statement} {frames : List Frame}
      (hbudget : Affords budget n) :
      Move budget ⟨st, n, .enter (.loop body :: rest) id, frames⟩ none
        ⟨st, n + 1, .enter body (id + 1),
          .loop id body rest (id + (Statement.loop body).size) :: frames⟩
  /-- A branch ends as its body does. -/
  | closed {st : State} {n id next : Nat} {status : Status} {rest : List Statement}
      {frames : List Frame} :
      Move budget ⟨st, n, .leave status, .branch id rest next :: frames⟩
        (some ⟨some id, st, status⟩) ⟨st, n, resume status rest next, frames⟩
  /-- A check or an error in its body ends a loop. -/
  | broken {st : State} {n id next : Nat} {status : Status} {body rest : List Statement}
      {frames : List Frame} (hstatus : status ≠ .ongoing) :
      Move budget ⟨st, n, .leave status, .loop id body rest next :: frames⟩
        (some ⟨some id, st, status.afterLoop⟩)
        ⟨st, n, resume status.afterLoop rest next, frames⟩
  /-- The step of a repetition is beyond the budget. -/
  | stopped {st : State} {n id next : Nat} {body rest : List Statement} {frames : List Frame}
      (hbudget : ¬ Affords budget n) :
      Move budget ⟨st, n, .leave .ongoing, .loop id body rest next :: frames⟩
        (some ⟨some id, st.limited, .failed⟩) ⟨st.limited, n + 1, .leave .failed, frames⟩
  | repeated {st : State} {n id next : Nat} {body rest : List Statement} {frames : List Frame}
      (hbudget : Affords budget n) :
      Move budget ⟨st, n, .leave .ongoing, .loop id body rest next :: frames⟩ none
        ⟨st, n + 1, .enter body (id + 1), .loop id body rest next :: frames⟩

variable {budget : Option Nat} {m m' : Machine} {emitted : Option Snapshot}

theorem step_of_move (h : Move budget m emitted m') : m.step budget = .next m' emitted := by
  cases h with
  | ended => rfl
  | refused hbudget =>
    unfold step
    simp only
    rw [if_pos (exhausted_eq_true_iff.mpr hbudget)]
    rfl
  | @concluded st n id s rest frames result hbudget hresult =>
    unfold step
    simp only
    rw [if_neg (not_exhausted_iff.mpr hbudget)]
    cases hresult with
    | simple hsimple =>
      cases s with
      | branch _ _ => cases hsimple
      | loop _ => cases hsimple
      | _ => rfl
    | undecided hvalue =>
      unfold start charged
      simp only
      rw [hvalue]
      rfl
    | skipped hvalue =>
      unfold start charged
      simp only
      rw [hvalue]
      rfl
  | branched hbudget hvalue hne =>
    unfold step
    simp only
    rw [if_neg (not_exhausted_iff.mpr hbudget)]
    unfold start charged
    simp only
    rw [hvalue]
    simp only
    rw [if_neg hne]
  | looped hbudget =>
    unfold step
    simp only
    rw [if_neg (not_exhausted_iff.mpr hbudget)]
    rfl
  | closed => rfl
  | @broken st n id next status body rest frames hstatus =>
    cases status with
    | ongoing => exact absurd rfl hstatus
    | failed => rfl
    | exited => rfl
  | stopped hbudget =>
    unfold step
    simp only
    rw [if_pos (exhausted_eq_true_iff.mpr hbudget)]
    rfl
  | repeated hbudget =>
    unfold step
    simp only
    rw [if_neg (not_exhausted_iff.mpr hbudget)]
    rfl

/-- What is emitted shows the machine after the move. -/
theorem Move.of_emitted {snapshot : Snapshot} (h : Move budget m (some snapshot) m') :
    m'.state = snapshot.state ∧ m'.control.status = snapshot.status := by
  cases h with
  | refused _ | stopped _ => exact ⟨rfl, rfl⟩
  | concluded _ _ | closed | broken _ => exact ⟨rfl, status_resume _ _ _⟩

/-- The program has ended with the given status. -/
def Ended (m : Machine) (status : Status) : Prop := m.control = .leave status ∧ m.frames = []

theorem Ended.eq {status : Status} (h : m.Ended status) :
    m = ⟨m.state, m.steps, .leave status, []⟩ := by
  obtain ⟨st, n, control, frames⟩ := m
  obtain ⟨rfl, rfl⟩ := h
  rfl

theorem Ended.unique {status status' : Status} (h : m.Ended status) (h' : m.Ended status') :
    status = status' := by
  have hcontrol := h.1
  rw [h'.1] at hcontrol
  cases hcontrol
  rfl

theorem step_of_ended {status : Status} (h : m.Ended status) : m.step budget = .done status := by
  obtain ⟨hcontrol, hframes⟩ := h
  unfold step
  rw [hcontrol, hframes]

/-- A statement within the budget can be started. -/
theorem exists_move_of_affords (st : State) {n : Nat} (s : Statement) (rest : List Statement)
    (id : Nat) (frames : List Frame) (hbudget : Affords budget n) :
    ∃ emitted m', Move budget ⟨st, n, .enter (s :: rest) id, frames⟩ emitted m' := by
  match s with
  | .assign _ _ | .read _ | .write _ | .check _ | .erroneous =>
    exact ⟨_, _, .concluded hbudget (.simple rfl)⟩
  | .loop body => exact ⟨_, _, .looped hbudget⟩
  | .branch condition body =>
    match hvalue : st.evaluate condition with
    | (.error error, st') => exact ⟨_, _, .concluded hbudget (.undecided hvalue)⟩
    | (.ok value, st') =>
      by_cases hzero : value = 0
      · rw [hzero] at hvalue
        exact ⟨_, _, .concluded hbudget (.skipped hvalue)⟩
      · exact ⟨_, _, .branched hbudget hvalue hzero⟩

/-- A machine can move until the program has ended. -/
theorem exists_move_or_ended (budget : Option Nat) (m : Machine) :
    (∃ emitted m', Move budget m emitted m') ∨ ∃ status, m.Ended status := by
  obtain ⟨st, n, control, frames⟩ := m
  match control, frames with
  | .enter [] id, _ => exact Or.inl ⟨_, _, .ended⟩
  | .enter (s :: rest) id, frames =>
    by_cases hbudget : Affords budget n
    · exact Or.inl (exists_move_of_affords st s rest id frames hbudget)
    · exact Or.inl ⟨_, _, .refused hbudget⟩
  | .leave status, [] => exact Or.inr ⟨status, rfl, rfl⟩
  | .leave status, .branch id rest next :: frames => exact Or.inl ⟨_, _, .closed⟩
  | .leave status, .loop id body rest next :: frames =>
    by_cases hstatus : status = .ongoing
    · subst hstatus
      by_cases hbudget : Affords budget n
      · exact Or.inl ⟨_, _, .repeated hbudget⟩
      · exact Or.inl ⟨_, _, .stopped hbudget⟩
    · exact Or.inl ⟨_, _, .broken hstatus⟩

/-- The step function makes exactly the moves. -/
theorem step_eq_next_iff : m.step budget = .next m' emitted ↔ Move budget m emitted m' := by
  constructor
  · intro h
    rcases exists_move_or_ended budget m with ⟨emitted', m'', hmove⟩ | ⟨status, hend⟩
    · rw [step_of_move hmove] at h
      cases h
      exact hmove
    · rw [step_of_ended hend] at h
      cases h
  · exact step_of_move

theorem Ended.not_move {status : Status} (h : m.Ended status) : ¬ Move budget m emitted m' := by
  intro hmove
  have hstep : m.step budget = .done status := step_of_ended h
  rw [step_of_move hmove] at hstep
  cases hstep

theorem Move.unique {emitted' : Option Snapshot} {m'' : Machine} (h : Move budget m emitted m')
    (h' : Move budget m emitted' m'') : emitted = emitted' ∧ m' = m'' := by
  have hstep := step_of_move h
  rw [step_of_move h'] at hstep
  cases hstep
  exact ⟨rfl, rfl⟩

/-! ## Moves in a row -/

/-- A number of moves in a row, with all that they emit. -/
inductive Path (budget : Option Nat) : Nat → Machine → List Snapshot → Machine → Prop
  | here (m : Machine) : Path budget 0 m [] m
  | move {k : Nat} {m m' last : Machine} {emitted : Option Snapshot} {trace : List Snapshot}
      (hmove : Move budget m emitted m') (hrest : Path budget k m' trace last) :
      Path budget (k + 1) m (emitted.toList ++ trace) last

variable {j k moves : Nat} {last : Machine} {trace : List Snapshot} {status : Status}

theorem Path.trans {trace' : List Snapshot} (h : Path budget j m trace m')
    (h' : Path budget k m' trace' last) : Path budget (j + k) m (trace ++ trace') last := by
  induction h with
  | here m =>
    rw [Nat.zero_add]
    exact h'
  | move hmove _ ih =>
    rw [Nat.add_right_comm, List.append_assoc]
    exact .move hmove (ih h')

theorem Path.single (h : Move budget m emitted m') : Path budget 1 m emitted.toList m' := by
  have := Path.move h (.here m')
  rwa [List.append_nil] at this

/-- What every move keeps is kept on the way. -/
theorem Path.preserves {P : Machine → Prop}
    (hmove : ∀ {m m' : Machine} {emitted : Option Snapshot}, Move budget m emitted m' → P m → P m')
    (h : Path budget k m trace last) (hm : P m) : P last := by
  induction h with
  | here m => exact hm
  | move hfirst _ ih => exact ih (hmove hfirst hm)

/-- Every snapshot on the way is what one of the moves emits. -/
theorem Path.exists_emits {before after : List Snapshot} {snapshot : Snapshot}
    (h : Path budget k m trace last) (htrace : trace = before ++ snapshot :: after) :
    ∃ i j m₁ m₂, Path budget i m before m₁ ∧ Move budget m₁ (some snapshot) m₂ ∧
      Path budget j m₂ after last := by
  induction h generalizing before with
  | here m => simp at htrace
  | @move k m m' last emitted trace hmove hrest ih =>
    cases emitted with
    | none =>
      obtain ⟨i, j, m₁, m₂, hbefore, hemits, hafter⟩ := ih htrace
      exact ⟨i + 1, j, m₁, m₂, .move hmove hbefore, hemits, hafter⟩
    | some first =>
      cases before with
      | nil =>
        obtain ⟨rfl, rfl⟩ := List.cons.inj htrace
        exact ⟨0, k, m, m', .here m, hmove, hrest⟩
      | cons head before =>
        obtain ⟨rfl, hlater⟩ := List.cons.inj htrace
        obtain ⟨i, j, m₁, m₂, hbefore, hemits, hafter⟩ := ih hlater
        exact ⟨i + 1, j, m₁, m₂, .move hmove hbefore, hemits, hafter⟩

/-- A path to the end begins with the move that can be made. -/
theorem Path.of_move (h : Path budget k m trace last) (hend : last.Ended status)
    (hmove : Move budget m emitted m') :
    ∃ j trace', k = j + 1 ∧ Path budget j m' trace' last ∧ trace = emitted.toList ++ trace' := by
  cases h with
  | here => exact absurd hmove hend.not_move
  | @move j _ _ _ _ trace' hfirst hrest =>
    obtain ⟨rfl, rfl⟩ := hmove.unique hfirst
    exact ⟨j, trace', rfl, hrest, rfl⟩

/-- There is only one way to the end. -/
theorem Path.unique {trace' : List Snapshot} {last' : Machine} {status' : Status}
    (h : Path budget j m trace last) (hend : last.Ended status) (h' : Path budget k m trace' last')
    (hend' : last'.Ended status') : trace = trace' ∧ last = last' := by
  induction h generalizing k trace' with
  | here m =>
    cases h' with
    | here => exact ⟨rfl, rfl⟩
    | move hmove' _ => exact absurd hmove' hend.not_move
  | move hmove _ ih =>
    obtain ⟨j', rest', _, hrest', rfl⟩ := h'.of_move hend' hmove
    obtain ⟨rfl, rfl⟩ := ih hend hrest'
    exact ⟨rfl, rfl⟩

/-! ## Runs -/

theorem run?_of_move (h : Move budget m emitted m') (history : Option History) :
    m.run? budget (moves + 1) history =
      m'.run? budget moves (history.map fun h => emitted.toList.foldl History.record h) := by
  rw [run?, step_of_move h]
  cases emitted with
  | none =>
    simp only [Option.toList_none, List.foldl_nil, Option.map_id']
  | some snapshot => rfl

theorem run?_of_ended (h : m.Ended status) (history : Option History) :
    m.run? budget (moves + 1) history =
      some ⟨m.state, status, m.steps, history.map History.rewind⟩ := by
  rw [run?, step_of_ended h]

/-- The result of a run is where a path to the end leads, and its history has recorded what is
emitted on the way. -/
theorem run?_eq_some_iff {history : Option History} {r : Run} :
    m.run? budget moves history = some r ↔
      ∃ k trace last status, k < moves ∧ Path budget k m trace last ∧ last.Ended status ∧
        r = ⟨last.state, status, last.steps,
          history.map fun h => (trace.foldl History.record h).rewind⟩ := by
  induction moves generalizing m history with
  | zero =>
    constructor
    · intro h
      cases h
    · rintro ⟨k, _, _, _, hk, _⟩
      exact absurd hk (Nat.not_lt_zero k)
  | succ moves ih =>
    rcases exists_move_or_ended budget m with ⟨emitted, m', hmove⟩ | ⟨status, hend⟩
    · rw [run?_of_move hmove, ih]
      constructor
      · rintro ⟨k, trace, last, status, hk, hpath, hend, rfl⟩
        refine ⟨k + 1, emitted.toList ++ trace, last, status, Nat.succ_lt_succ hk,
          .move hmove hpath, hend, ?_⟩
        simp only [Option.map_map, Function.comp_def, List.foldl_append]
      · rintro ⟨k, trace, last, status, hk, hpath, hend, rfl⟩
        obtain ⟨j, rest, rfl, hrest, rfl⟩ := hpath.of_move hend hmove
        refine ⟨j, rest, last, status, Nat.lt_of_succ_lt_succ hk, hrest, hend, ?_⟩
        simp only [Option.map_map, Function.comp_def, List.foldl_append]
    · rw [run?_of_ended hend]
      constructor
      · intro h
        cases h
        exact ⟨0, [], m, status, Nat.succ_pos moves, .here m, hend, rfl⟩
      · rintro ⟨k, trace, last, status', _, hpath, hlast, rfl⟩
        obtain ⟨rfl, rfl⟩ := hpath.unique hlast (.here m) hend
        rw [hlast.unique hend]
        rfl

theorem trace_of_move (h : Move budget m emitted m') (moves : Nat) :
    m.trace budget (moves + 1) = emitted.toList ++ m'.trace budget moves := by
  rw [Machine.trace, step_of_move h]
  cases emitted with
  | none => rfl
  | some snapshot => rfl

theorem trace_of_ended (h : m.Ended status) (moves : Nat) : m.trace budget moves = [] := by
  cases moves with
  | zero => rfl
  | succ moves => rw [Machine.trace, step_of_ended h]

/-- A trace is what is emitted on the way, as far as the moves lead. -/
theorem exists_path_trace (budget : Option Nat) (moves : Nat) (m : Machine) :
    ∃ k last, Path budget k m (m.trace budget moves) last := by
  induction moves generalizing m with
  | zero => exact ⟨0, m, .here m⟩
  | succ moves ih =>
    rcases exists_move_or_ended budget m with ⟨emitted, m', hmove⟩ | ⟨status, hend⟩
    · obtain ⟨k, last, hrest⟩ := ih m'
      rw [trace_of_move hmove]
      exact ⟨k + 1, last, .move hmove hrest⟩
    · rw [trace_of_ended hend]
      exact ⟨0, m, .here m⟩

/-- The trace of a run that ends is all that is emitted on the way. -/
theorem trace_of_path (h : Path budget k m trace last) (hend : last.Ended status)
    (hmoves : k < moves) : m.trace budget moves = trace := by
  induction h generalizing moves with
  | here m => exact trace_of_ended hend moves
  | @move k m m' last emitted trace hmove _ ih =>
    obtain ⟨moves, rfl⟩ := Nat.exists_eq_succ_of_ne_zero (Nat.ne_of_gt (Nat.zero_lt_of_lt hmoves))
    rw [trace_of_move hmove, ih hend (Nat.lt_of_succ_lt_succ hmoves)]

/-! ## Calls -/

/-- A statement that a machine starts, with its id. -/
structure Call where
  statement : Statement
  id : Nat
deriving DecidableEq

/-- The call that the next move makes. -/
def call? (m : Machine) : Option Call :=
  match m.control with
  | .enter (s :: _) id => some ⟨s, id⟩
  | _ => none

/-- The calls that up to `moves` moves make, in order; one that is refused for lack of budget is
made as well. -/
def calls (budget : Option Nat) : Nat → Machine → List Call
  | 0, _ => []
  | moves + 1, m =>
    m.call?.toList ++
      match m.step budget with
      | .done _ => []
      | .next m' _ => calls budget moves m'

theorem calls_of_move (h : Move budget m emitted m') (moves : Nat) :
    m.calls budget (moves + 1) = m.call?.toList ++ m'.calls budget moves := by
  rw [calls, step_of_move h]

theorem calls_of_ended (h : m.Ended status) (moves : Nat) : m.calls budget moves = [] := by
  cases moves with
  | zero => rfl
  | succ moves =>
    rw [calls, step_of_ended h, call?, h.1]
    rfl

/-- A move makes a call, or ends one, or does both or neither; the calls that have not ended are the
frames. -/
theorem Move.length_frames (h : Move budget m emitted m') :
    m.call?.toList.length + m.frames.length = emitted.toList.length + m'.frames.length := by
  cases h with
  | ended | refused _ | concluded _ _ | repeated _ => rfl
  | branched _ _ _ | looped _ | closed | broken _ | stopped _ =>
    simp only [call?, Option.toList_none, Option.toList_some, List.length_cons, List.length_nil]
    omega

/-- Each call of a run that ends has emitted one snapshot. -/
theorem length_calls_of_path (h : Path budget k m trace last) (hend : last.Ended status)
    (hmoves : k < moves) : (m.calls budget moves).length + m.frames.length = trace.length := by
  induction h generalizing moves with
  | here m =>
    rw [calls_of_ended hend, hend.2]
    rfl
  | @move k m m' last emitted trace hmove _ ih =>
    obtain ⟨moves, rfl⟩ := Nat.exists_eq_succ_of_ne_zero (Nat.ne_of_gt (Nat.zero_lt_of_lt hmoves))
    have hcount := hmove.length_frames
    have hrest := ih hend (Nat.lt_of_succ_lt_succ hmoves)
    rw [calls_of_move hmove, List.length_append, List.length_append]
    omega

end Machine

end StepCalc
