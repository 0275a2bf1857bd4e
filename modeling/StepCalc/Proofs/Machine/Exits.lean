import StepCalc.Proofs.Machine.Calls
import StepCalc.Proofs.Machine.Effects

/-!
# Where a failed check leads

A failed check ends the branches around it, one after the other, up to the nearest loop; there the
run goes on. Which statements are around another is a matter of the program: `Program.enclosing`
lists them, innermost first. The frames of a machine are the statements around what it is about to
run (`Machine.Nested`), and a machine that leaves a failed check takes its frames away one by one
(`Path.unwinds`). So the trace shows the branches up to the nearest loop and then this loop; only
a check that is in no loop ends the run (`failed_check_leaves_nearest_loop`).
-/

namespace StepCalc

/-! ## The statements around a statement -/

/-- A statement with a body, by its number, as seen from inside the body. -/
inductive Enclosure where
  | branch (id : Nat)
  | loop (id : Nat)
deriving DecidableEq

namespace Statement

mutual

/-- The statements around the one with the number `target`, innermost first, as far as they belong
to the statement with the number `id`. -/
def enclosing (target id : Nat) : Statement → List Enclosure
  | branch _ body =>
    if target = id then [] else enclosingInAll target (id + 1) body ++ [.branch id]
  | loop body =>
    if target = id then [] else enclosingInAll target (id + 1) body ++ [.loop id]
  | _ => []

/-- The same in a list of statements, the first of which has the number `id`. -/
def enclosingInAll (target id : Nat) : List Statement → List Enclosure
  | [] => []
  | s :: rest =>
    if target < id + s.size then s.enclosing target id
    else enclosingInAll target (id + s.size) rest

end

theorem enclosing_self (id : Nat) (s : Statement) : s.enclosing id id = [] := by
  cases s <;> simp [enclosing]

theorem size_pos (s : Statement) : 0 < s.size := by
  cases s <;> simp only [size] <;> omega

end Statement

namespace Program

/-- The statements around the one with the number `target`, innermost first. -/
def enclosing (program : Program) (target : Nat) : List Enclosure :=
  Statement.enclosingInAll target 0 program.statements

/-- The statements, the first of which has the number `id`, stand side by side inside `around`. -/
def Surrounds (program : Program) (around : List Enclosure) (statements : List Statement)
    (id : Nat) : Prop :=
  ∀ target, id ≤ target → target < id + Statement.sizeOfAll statements →
    program.enclosing target = Statement.enclosingInAll target id statements ++ around

theorem surrounds_statements (program : Program) : program.Surrounds [] program.statements 0 :=
  fun _ _ _ => (List.append_nil _).symm

variable {program : Program} {around : List Enclosure} {s : Statement} {rest body : List Statement}
  {condition : Expr} {id : Nat}

theorem Surrounds.head (h : program.Surrounds around (s :: rest) id) :
    program.enclosing id = around := by
  have hpos := s.size_pos
  have hid := h id (Nat.le_refl id) (by simp only [Statement.sizeOfAll]; omega)
  rw [Statement.enclosingInAll, if_pos (by omega), Statement.enclosing_self] at hid
  exact hid

theorem Surrounds.tail (h : program.Surrounds around (s :: rest) id) :
    program.Surrounds around rest (id + s.size) := by
  intro target hle hlt
  have htarget := h target (by omega) (by simp only [Statement.sizeOfAll]; omega)
  rw [Statement.enclosingInAll, if_neg (by omega)] at htarget
  exact htarget

theorem Surrounds.inner {enclosure : Enclosure} (h : program.Surrounds around (s :: rest) id)
    (hsize : s.size = 1 + Statement.sizeOfAll body)
    (hinside : ∀ target, target ≠ id →
      s.enclosing target id = Statement.enclosingInAll target (id + 1) body ++ [enclosure]) :
    program.Surrounds (enclosure :: around) body (id + 1) := by
  intro target hle hlt
  have htarget := h target (by omega) (by simp only [Statement.sizeOfAll]; omega)
  rw [Statement.enclosingInAll, if_pos (by omega), hinside target (by omega),
    List.append_assoc] at htarget
  exact htarget

theorem Surrounds.branch (h : program.Surrounds around (.branch condition body :: rest) id) :
    program.Surrounds (.branch id :: around) body (id + 1) := by
  apply h.inner
  · rw [Statement.size]
  · intro target hne
    rw [Statement.enclosing, if_neg hne]

theorem Surrounds.loop (h : program.Surrounds around (.loop body :: rest) id) :
    program.Surrounds (.loop id :: around) body (id + 1) := by
  apply h.inner
  · rw [Statement.size]
  · intro target hne
    rw [Statement.enclosing, if_neg hne]

end Program

/-! ## Frames are the statements around -/

/-- The statement whose body is running, as seen from inside. -/
def Frame.enclosure : Frame → Enclosure
  | .branch id _ _ => .branch id
  | .loop id _ _ _ => .loop id

/-- What is about to run stands inside `around`. -/
def Control.Inside (program : Program) (around : List Enclosure) : Control → Prop
  | .enter statements id => program.Surrounds around statements id
  | .leave _ => True

/-- The statement of the frame, and what it goes on with, stand inside `around`. -/
structure Frame.Inside (program : Program) (around : List Enclosure) (frame : Frame) : Prop where
  self : program.enclosing frame.id = around
  rest : match frame with
    | .branch _ rest next => program.Surrounds around rest next
    | .loop id body rest next =>
      program.Surrounds (.loop id :: around) body (id + 1) ∧ program.Surrounds around rest next

namespace Machine

variable {program : Program} {budget : Option Nat} {k : Nat} {m m' last : Machine}
  {emitted : Option Snapshot} {trace : List Snapshot} {status : Status}

/-- Each frame stands inside those below it. -/
def NestedFrames (program : Program) : List Frame → Prop
  | [] => True
  | frame :: frames =>
    frame.Inside program (frames.map Frame.enclosure) ∧ NestedFrames program frames

/-- The frames are the statements around what is about to run. -/
structure Nested (program : Program) (m : Machine) : Prop where
  control : m.control.Inside program (m.frames.map Frame.enclosure)
  frames : NestedFrames program m.frames

theorem nested_initial (program : Program) (input : List String) :
    (initial program input).Nested program where
  control := program.surrounds_statements
  frames := trivial

theorem inside_resume {around : List Enclosure} {rest : List Statement} {next : Nat}
    (h : program.Surrounds around rest next) (status : Status) :
    (resume status rest next).Inside program around := by
  cases status with
  | ongoing => exact h
  | failed => trivial
  | exited => trivial

theorem Move.nested (h : Move budget m emitted m') (hm : m.Nested program) :
    m'.Nested program := by
  obtain ⟨hcontrol, hframes⟩ := hm
  cases h with
  | ended | refused _ => exact ⟨trivial, hframes⟩
  | concluded _ _ => exact ⟨inside_resume (Program.Surrounds.tail hcontrol) _, hframes⟩
  | branched _ _ _ =>
    have hself := Program.Surrounds.head hcontrol
    have hrest := Program.Surrounds.tail hcontrol
    exact ⟨Program.Surrounds.branch hcontrol, ⟨hself, hrest⟩, hframes⟩
  | looped _ =>
    have hself := Program.Surrounds.head hcontrol
    have hbody := Program.Surrounds.loop hcontrol
    have hrest := Program.Surrounds.tail hcontrol
    exact ⟨hbody, ⟨hself, hbody, hrest⟩, hframes⟩
  | closed => exact ⟨inside_resume hframes.1.rest _, hframes.2⟩
  | broken _ => exact ⟨inside_resume hframes.1.rest.2 _, hframes.2⟩
  | stopped _ => exact ⟨trivial, hframes.2⟩
  | repeated _ => exact ⟨hframes.1.rest.1, hframes⟩

/-- A statement that is left was inside what is still open. -/
theorem Move.enclosing_of_exited {snapshot : Snapshot} (h : Move budget m (some snapshot) m')
    (hm : m.Nested program) (hstatus : snapshot.status = .exited) :
    ∃ id, snapshot.statement = some id ∧
      program.enclosing id = m'.frames.map Frame.enclosure := by
  cases h with
  | refused _ | stopped _ => cases hstatus
  | concluded _ _ => exact ⟨_, rfl, Program.Surrounds.head hm.control⟩
  | closed => exact ⟨_, rfl, hm.frames.1.self⟩
  | broken _ => exact ⟨_, rfl, hm.frames.1.self⟩

/-! ## Leaving a failed check -/

/-- What comes after a failed check inside `around`: the branches end, up to the nearest loop, which
ends as well. -/
def unwinding (st : State) : List Enclosure → List Snapshot
  | [] => []
  | .branch id :: around => ⟨some id, st, .exited⟩ :: unwinding st around
  | .loop id :: _ => [⟨some id, st, .ongoing⟩]

theorem Path.unwinds {st : State} {n : Nat} {frames : List Frame}
    (h : Path budget k ⟨st, n, .leave .exited, frames⟩ trace last) (hend : last.Ended status) :
    unwinding st (frames.map Frame.enclosure) <+: trace ∧
      ((∀ id, .loop id ∉ frames.map Frame.enclosure) →
        trace = unwinding st (frames.map Frame.enclosure) ∧ status = .exited) := by
  induction frames generalizing k trace with
  | nil =>
    have hdone : Ended ⟨st, n, .leave .exited, []⟩ .exited := ⟨rfl, rfl⟩
    obtain ⟨rfl, rfl⟩ := h.unique hend (.here _) hdone
    exact ⟨List.nil_prefix, fun _ => ⟨rfl, hend.unique hdone⟩⟩
  | cons frame frames ih =>
    cases frame with
    | branch id rest next =>
      obtain ⟨j, later, rfl, hrest, rfl⟩ := h.of_move hend .closed
      obtain ⟨hbranches, hall⟩ := ih hrest
      refine ⟨(List.prefix_append_right_inj [_]).mpr hbranches, fun hloop => ?_⟩
      obtain ⟨rfl, hstatus⟩ := hall fun loop hmem => hloop loop (List.mem_cons_of_mem _ hmem)
      exact ⟨rfl, hstatus⟩
    | loop id body rest next =>
      obtain ⟨j, later, rfl, _, rfl⟩ := h.of_move hend (.broken nofun)
      exact ⟨List.prefix_append _ _, fun hloop => absurd List.mem_cons_self (hloop id)⟩

/-- While a failed check is being left, it is one of the program, and only branches have ended. -/
def LeavesCheck (program : Program) (m : Machine) : Prop :=
  m.control = .leave .exited →
    ∃ id condition ended, program.preorder[id]? = some (.check condition) ∧
      program.enclosing id = List.map Enclosure.branch ended ++ m.frames.map Frame.enclosure

theorem status_of_resume_eq {rest : List Statement} {next : Nat} {status' : Status}
    (h : resume status rest next = .leave status') : status = status' := by
  rw [← status_resume status rest next, h]
  rfl

theorem Move.leavesCheck (h : Move budget m emitted m') (hplaced : m.Placed program)
    (hnested : m.Nested program) (hm : m.LeavesCheck program) : m'.LeavesCheck program := by
  intro hexit
  cases h with
  | ended | refused _ | branched _ _ _ | looped _ | stopped _ | repeated _ => cases hexit
  | @concluded st n id s rest frames result hbudget hresult =>
    obtain ⟨condition, rfl⟩ := hresult.effect.exists_check (status_of_resume_eq hexit)
    exact ⟨id, condition, [], (Program.Occurs.cons hplaced.control).1,
      Program.Surrounds.head hnested.control⟩
  | @closed st n id next status rest frames =>
    cases status_of_resume_eq hexit
    obtain ⟨check, condition, ended, hcheck, henclosing⟩ := hm rfl
    refine ⟨check, condition, ended ++ [id], hcheck, ?_⟩
    rw [henclosing, List.map_append, List.append_assoc]
    rfl
  | @broken st n id next status body rest frames hstatus =>
    have hafter := status_of_resume_eq hexit
    cases status with
    | ongoing | failed | exited => cases hafter

end Machine

namespace Program

variable {program : Program} {input : List String} {limits : RunLimits} {r : Run}

/-- Every check of the program is in some loop. -/
def ChecksInLoops (program : Program) : Prop :=
  ∀ id condition, program.preorder[id]? = some (.check condition) →
    ∃ loop, .loop loop ∈ program.enclosing id

/-- What comes after an exit in the whole trace. -/
theorem unwinds_of_runOn? (h : program.runOn? input limits = some r)
    {before after : List Snapshot} {s : Snapshot}
    (hsplit : program.traceOn input limits.steps = before ++ s :: after)
    (hstatus : s.status = .exited) :
    ∃ id, s.statement = some id ∧
      Machine.unwinding s.state (program.enclosing id) <+: after ∧
      ((∀ loop, .loop loop ∉ program.enclosing id) →
        after = Machine.unwinding s.state (program.enclosing id) ∧ r.status = .exited) := by
  obtain ⟨k, last, hpath, hend, _, _⟩ := path_of_runOn? h
  obtain ⟨i, j, m, m', hbefore, hemits, hafter⟩ := hpath.exists_emits hsplit
  have hnested := hbefore.preserves Machine.Move.nested (Machine.nested_initial program input)
  obtain ⟨id, hid, henclosing⟩ := hemits.enclosing_of_exited hnested hstatus
  obtain ⟨hstate, hcontrol⟩ := hemits.of_emitted
  have hexit := Control.eq_leave_of_status (hcontrol.trans hstatus) nofun
  obtain ⟨st, n, control, frames⟩ := m'
  cases hexit
  refine ⟨id, hid, ?_⟩
  rw [henclosing, ← hstate]
  exact hafter.unwinds hend

theorem status_ne_exited (hchecks : program.ChecksInLoops)
    (h : program.runOn? input limits = some r) : r.status ≠ .exited := by
  intro hexited
  obtain ⟨k, last, hpath, hend, _, _⟩ := path_of_runOn? h
  obtain ⟨_, _, hleaves⟩ := hpath.preserves
    (P := fun m => m.Placed program ∧ m.Nested program ∧ m.LeavesCheck program)
    (fun hmove hm => ⟨hmove.placed hm.1, hmove.nested hm.2.1,
      hmove.leavesCheck hm.1 hm.2.1 hm.2.2⟩)
    ⟨Machine.placed_initial program input, Machine.nested_initial program input, nofun⟩
  obtain ⟨id, condition, ended, hcheck, henclosing⟩ := hleaves (hexited ▸ hend.1)
  obtain ⟨loop, hloop⟩ := hchecks id condition hcheck
  rw [henclosing, hend.2, List.map_nil, List.append_nil] at hloop
  simp at hloop

/-- **A failed check leaves its nearest loop.** In a history that holds everything, the snapshot of
a failed check is followed at once by those of the branches around it, innermost first, up to the
nearest loop, and by that of this loop, after which the run goes on, all in the state of the check.
If the check is in no loop, the history ends with the branches around it, and the run has ended as
the check did. So the run of a program whose checks are all in loops never ends in this way. -/
theorem failed_check_leaves_nearest_loop (program : Program) (input : List String)
    (limits : RunLimits) (r : Run) (hrun : program.runOn? input limits = some r) :
    (∀ history, r.history = some history → history.truncated = false →
      ∀ before s after id condition, history.snapshots.toList = before ++ s :: after →
        s.statement = some id → program.preorder[id]? = some (.check condition) →
        s.status = .exited →
        Machine.unwinding s.state (program.enclosing id) <+: after ∧
        ((∀ loop, .loop loop ∉ program.enclosing id) →
          after = Machine.unwinding s.state (program.enclosing id) ∧ r.status = .exited)) ∧
    (program.ChecksInLoops → r.status ≠ .exited) := by
  refine ⟨fun history hhistory hopen before s after id condition hsplit hid _ hstatus => ?_,
    fun hchecks => status_ne_exited hchecks hrun⟩
  have hwhole := (beginning_of_recorded hrun hhistory).2 hopen
  rw [hsplit] at hwhole
  cases before with
  | nil =>
    -- the initial snapshot is that of no statement
    obtain ⟨rfl, _⟩ := List.cons.inj hwhole
    cases hid
  | cons first before =>
    obtain ⟨_, htrace⟩ := List.cons.inj hwhole
    obtain ⟨id', hid', hunwinds⟩ := unwinds_of_runOn? hrun htrace.symm hstatus
    cases hid.symm.trans hid'
    exact hunwinds

/-- Leaves a loop from a branch in a branch, and then ends in a branch that is in no loop. -/
def leaving : Program :=
  ⟨[.loop [.branch (.number "1") [.branch (.number "1") [.check (.number "0")],
      .write (.number "8")], .write (.number "9")],
    .branch (.number "1") [.check (.number "0")],
    .write (.number "7")]⟩

/-- The snapshots of `leaving`: no number is written. -/
def leavingSnapshots : List Snapshot :=
  .initial [] :: [(3, .exited), (2, .exited), (1, .exited), (0, .ongoing), (7, .exited),
    (6, .exited)].map fun (id, status) => ⟨some id, .initial [], status⟩

def leavingRun : Run where
  state := .initial []
  status := .exited
  steps := 6
  history := some ⟨leavingSnapshots.toArray, 5000, 728, false, 0⟩

theorem checksInLoops_untilZero : untilZero.ChecksInLoops := by
  intro id condition hcheck
  rcases id with _ | _ | _ | id
  · cases hcheck
  · cases hcheck
  · exact ⟨0, by decide⟩
  · cases hcheck

/-- The first check that fails is in two branches and a loop, the second in one branch only. -/
theorem failed_check_leaves_nearest_loop_leaving :
    leaving.runOn? [] ⟨some 5000, some 9⟩ = some leavingRun ∧
    leaving.enclosing 3 = [.branch 2, .branch 1, .loop 0] ∧
    Machine.unwinding (.initial []) (leaving.enclosing 3) <+: leavingSnapshots.drop 2 ∧
    leaving.enclosing 7 = [.branch 6] ∧
    leavingSnapshots.drop 6 = Machine.unwinding (.initial []) (leaving.enclosing 7) ∧
    untilZero.runOn? ["5", "0"] ⟨some 480, some 9⟩ = some untilZeroRun ∧
    untilZeroRun.status ≠ .exited := by
  have hleaving : leaving.runOn? [] ⟨some 5000, some 9⟩ = some leavingRun := by
    with_unfolding_all rfl
  have huntil : untilZero.runOn? ["5", "0"] ⟨some 480, some 9⟩ = some untilZeroRun := by
    with_unfolding_all rfl
  have hchecks := (failed_check_leaves_nearest_loop leaving _ _ _ hleaving).1 _ rfl rfl
  have hinner := hchecks (leavingSnapshots.take 1) _ (leavingSnapshots.drop 2) 3 (.number "0")
    rfl rfl rfl rfl
  have houter := hchecks (leavingSnapshots.take 5) _ (leavingSnapshots.drop 6) 7 (.number "0")
    rfl rfl rfl rfl
  have hnone : ∀ loop, .loop loop ∉ leaving.enclosing 7 := by
    intro loop hmem
    cases hmem with
    | tail _ hmem => cases hmem
  exact ⟨hleaving, by decide, hinner.1, by decide, (houter.2 hnone).1, huntil,
    (failed_check_leaves_nearest_loop untilZero _ _ _ huntil).2 checksInLoops_untilZero⟩

end Program

end StepCalc
