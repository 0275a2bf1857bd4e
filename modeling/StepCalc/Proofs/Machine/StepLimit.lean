import StepCalc.Proofs.Machine.Budget
import StepCalc.Proofs.Machine.Effects
import StepCalc.Proofs.Text.Words

/-!
# The step limit

A machine with the budget `n` is within it and no step was refused, or it has charged `n + 1` steps,
the last of which was refused, and only ends what is open (`Machine.Metered`). Which of the two it
is shows in the output, since nothing but a refused step writes its message. So a run charges at
most `n + 1` steps, and `n + 1` exactly if it ends with this message (`budget_bounds_run`).
-/

namespace StepCalc

/-! ## The message -/

theorem head?_toList_append {a : String} {c : Char} (h : a.toList.head? = some c) (b : String) :
    (a ++ b).toList.head? = some c := by
  rw [String.toList_append, List.head?_append, h]
  rfl

theorem RuntimeError.eq_stepLimit_of_message {error : RuntimeError}
    (h : error.message = stepLimit.message) : error = stepLimit := by
  have hlimit : error.message.toList.head? = some 's' := by
    rw [h]
    rfl
  cases error with
  | undeclared name =>
    have hhead : (undeclared name).message.toList.head? = some 'v' :=
      head?_toList_append (head?_toList_append (by decide) name) _
    rw [hhead] at hlimit
    exact absurd hlimit (by decide)
  | nonInteger text =>
    have hhead : (nonInteger text).message.toList.head? = some 'n' :=
      head?_toList_append (by decide) text
    rw [hhead] at hlimit
    exact absurd hlimit (by decide)
  | stepLimit => rfl
  | nonNumeric word =>
    change "non-numeric input" = "step limit exceeded" at h
    exact absurd h (by decide)
  | endOfInput | divideByZero | overflow | erroneousTree => exact absurd h (by decide +kernel)

theorem showInt64_ne_stepLimit (v : Int64) : showInt64 v ≠ RuntimeError.stepLimit.message := by
  intro h
  have hmem : 's' ∈ (showInt64 v).toList := by
    rw [h]
    decide
  rcases mem_showInt64 hmem with hdigit | hsign
  · exact absurd hdigit (by decide)
  · exact absurd hsign (by decide)

/-- A statement that ends at once does not write the message of a refused step. -/
theorem Statement.Effect.stepLimit_not_mem {statement : Statement} {s : State}
    {result : Status × State} (h : statement.Effect s result)
    (hs : RuntimeError.stepLimit.message ∉ s.output) :
    RuntimeError.stepLimit.message ∉ result.2.output := by
  rcases h.output_cases with ⟨_, hsame | ⟨v, hnumber⟩⟩ | ⟨_, error, hne, hmessage⟩
  · rw [hsame]
    exact hs
  · rw [hnumber, List.mem_append, List.mem_singleton]
    rintro (hbefore | hlast)
    · exact hs hbefore
    · exact showInt64_ne_stepLimit v hlast.symm
  · rw [hmessage, List.mem_append, List.mem_singleton]
    rintro (hbefore | hlast)
    · exact hs hbefore
    · exact hne (RuntimeError.eq_stepLimit_of_message hlast.symm)

/-! ## Steps and the budget -/

namespace Machine

variable {n k : Nat} {m m' : Machine} {emitted : Option Snapshot}

/-- How the steps of a machine stand to its budget. -/
inductive Metered (n : Nat) (m : Machine) : Prop
  /-- No step was refused. -/
  | within (hsteps : m.steps ≤ n)
      (houtput : RuntimeError.stepLimit.message ∉ m.state.output) : Metered n m
  /-- A step was refused, and the machine only ends what is open. -/
  | spent (hsteps : m.steps = n + 1) (hcontrol : m.control = .leave .failed)
      (houtput : m.state.output.getLast? = some RuntimeError.stepLimit.message) : Metered n m

theorem Metered.steps_le (h : m.Metered n) : m.steps ≤ n + 1 := by
  cases h with
  | within hsteps _ => omega
  | spent hsteps _ _ => omega

/-- The last step beyond the budget shows in the output. -/
theorem Metered.steps_eq_iff (h : m.Metered n) :
    m.steps = n + 1 ↔ m.control = .leave .failed ∧
      m.state.output.getLast? = some RuntimeError.stepLimit.message := by
  cases h with
  | within hsteps houtput =>
    constructor
    · intro hlast
      omega
    · rintro ⟨_, hmessage⟩
      exact absurd (List.mem_of_getLast? hmessage) houtput
  | spent hsteps hcontrol hmessage => exact ⟨fun _ => ⟨hcontrol, hmessage⟩, fun _ => hsteps⟩

theorem metered_initial (program : Program) (input : List String) (n : Nat) :
    (initial program input).Metered n :=
  .within (Nat.zero_le n) List.not_mem_nil

/-- The machine after a step that is refused with all of the budget charged. -/
theorem metered_of_refused {st : State} {steps : Nat} {frames : List Frame} (hsteps : steps ≤ n)
    (hbudget : ¬ Affords (some n) steps) :
    Metered n ⟨st.limited, steps + 1, .leave .failed, frames⟩ := by
  rw [affords_some_iff] at hbudget
  refine .spent ?_ rfl List.getLast?_concat
  show steps + 1 = n + 1
  omega

theorem Move.metered (h : Move (some n) m emitted m') (hm : m.Metered n) : m'.Metered n := by
  cases hm with
  | spent hsteps hcontrol houtput =>
    obtain ⟨hstate, hsteps', hcontrol'⟩ := h.of_failed hcontrol
    exact .spent (hsteps'.trans hsteps) hcontrol' (hstate ▸ houtput)
  | within hsteps houtput =>
    cases h with
    | ended | closed | broken _ => exact .within hsteps houtput
    | refused hbudget | stopped hbudget => exact metered_of_refused hsteps hbudget
    | concluded hbudget hresult =>
      exact .within (affords_some_iff.mp hbudget) (hresult.effect.stepLimit_not_mem houtput)
    | branched hbudget hvalue _ =>
      obtain ⟨memory, _, rfl⟩ := State.exists_memory_of_evaluate hvalue
      exact .within (affords_some_iff.mp hbudget) houtput
    | looped hbudget | repeated hbudget => exact .within (affords_some_iff.mp hbudget) houtput

end Machine

namespace Program

/-- **A budget bounds every run.** A run with the budget `n` ends and charges at most `n + 1` steps;
it charges `n + 1` exactly if it ends with the error of a refused step. No step is charged after
that one: a machine that has charged `n + 1` steps keeps them, and its state, to the end. -/
theorem budget_bounds_run (program : Program) (input : List String) (n : Nat)
    (limit : Option Nat) :
    ∃ r, program.runOn? input ⟨limit, some n⟩ = some r ∧ r.steps ≤ n + 1 ∧
      (r.steps = n + 1 ↔
        r.status = .failed ∧ r.state.output.getLast? = some "step limit exceeded") ∧
      ∀ k trace m, Machine.Path (some n) k (.initial program input) trace m → m.steps = n + 1 →
        m.control = .leave .failed ∧ r.steps = m.steps ∧ r.state = m.state := by
  obtain ⟨r, hrun⟩ := exists_runOn?_some program input n limit
  obtain ⟨k, last, hpath, hend, hstate, hsteps⟩ := path_of_runOn? hrun
  have hmetered : ∀ {k trace m}, Machine.Path (some n) k (.initial program input) trace m →
      m.Metered n :=
    fun hway => hway.preserves Machine.Move.metered (Machine.metered_initial program input n)
  refine ⟨r, hrun, hsteps ▸ (hmetered hpath).steps_le, ?_, fun k' trace m hway hm => ?_⟩
  · rw [← hsteps, ← hstate, (hmetered hpath).steps_eq_iff, hend.1, Control.leave.injEq]
    rfl
  · obtain ⟨hcontrol, _⟩ := (hmetered hway).steps_eq_iff.mp hm
    obtain ⟨_, _, hrest⟩ := hway.rest hpath hend
    obtain ⟨hstate', hsteps', _⟩ := hrest.of_failed hcontrol
    exact ⟨hcontrol, hsteps.symm.trans hsteps', hstate.symm.trans hstate'⟩

/-- Repeats an empty body for ever, inside a branch of another loop. -/
def idle : Program := ⟨[.loop [.branch (.number "1") [.loop [], .write (.number "7")]]]⟩

/-- The run of `idle` with the budget 6: the fourth repetition of the empty body is refused, and the
branch and the outer loop end as well. -/
def idleRun : Run := ⟨⟨∅, [], ["step limit exceeded"]⟩, .failed, 7, none⟩

/-- `idle` is stopped by its budget, with one step beyond it and no more. -/
theorem budget_bounds_run_idle :
    idle.runOn? [] ⟨none, some 6⟩ = some idleRun ∧ idleRun.steps = 6 + 1 ∧
      idleRun.status = .failed ∧
      idleRun.state.output.getLast? = some "step limit exceeded" ∧
      ∃ k trace m, Machine.Path (some 6) k (.initial idle []) trace m ∧ m.steps = 6 + 1 ∧
        m.control = .leave .failed ∧ idleRun.state = m.state := by
  have hrun : idle.runOn? [] ⟨none, some 6⟩ = some idleRun := by with_unfolding_all rfl
  obtain ⟨k, last, hpath, _, _, hsteps⟩ := path_of_runOn? hrun
  obtain ⟨r, hr, _, hlimit, hway⟩ := budget_bounds_run idle [] 6 none
  cases hrun.symm.trans hr
  obtain ⟨hstatus, hmessage⟩ := hlimit.mp rfl
  obtain ⟨hcontrol, _, hstate⟩ := hway k _ last hpath hsteps
  exact ⟨hrun, rfl, hstatus, hmessage, k, _, last, hpath, hsteps, hcontrol, hstate⟩

end Program

end StepCalc
