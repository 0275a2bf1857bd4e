import StepCalc.Proofs.Machine.Budget
import StepCalc.Proofs.Machine.Effects
import StepCalc.Proofs.Text.Words

/-!
# What a run writes

While a run goes on it writes numbers; an error adds its message, and then the run only ends what is
open. `State.Shows` says this of the output of a state, and every move keeps it (`Move.shows`).
After an error all that is emitted shows the same state (`Path.pairwise_staysFailed`). So the
message of an error is the last word of a run, and the words of a run without error can be read back
from the line they are printed on (`errors_are_final`).
-/

namespace StepCalc

/-- All words of the output are decimals, but for the message of an error at the end. -/
def State.Shows (st : State) : Status → Prop
  | .failed => ∃ (numbers : List String) (error : RuntimeError),
      st.output = numbers ++ [error.message] ∧ ∀ word ∈ numbers, IsDecimal word
  | _ => ∀ word ∈ st.output, IsDecimal word

theorem State.shows_iff_of_ne {st : State} {status : Status} (h : status ≠ .failed) :
    st.Shows status ↔ ∀ word ∈ st.output, IsDecimal word := by
  cases status with
  | failed => exact absurd rfl h
  | ongoing | exited => exact Iff.rfl

theorem State.Shows.fail {st : State} (h : st.Shows .ongoing) (error : RuntimeError) :
    (st.fail error).2.Shows .failed :=
  ⟨st.output, error, rfl, h⟩

theorem Statement.Effect.shows {statement : Statement} {s : State} {result : Status × State}
    (h : statement.Effect s result) (hs : s.Shows .ongoing) : result.2.Shows result.1 := by
  rcases h.output_cases with ⟨hstatus, houtput⟩ | ⟨hstatus, error, _, houtput⟩
  · rw [State.shows_iff_of_ne hstatus]
    rcases houtput with hsame | ⟨v, hnumber⟩
    · rw [hsame]
      exact hs
    · rw [hnumber, List.forall_mem_append]
      exact ⟨hs, List.forall_mem_singleton.mpr (isDecimal_showInt64 v)⟩
  · rw [hstatus]
    exact ⟨s.output, error, houtput, hs⟩

/-- If the first snapshot shows an error, the second one shows the same. -/
def Snapshot.StaysFailed (s s' : Snapshot) : Prop :=
  s.status = .failed → s'.status = .failed ∧ s'.state = s.state

namespace Machine

variable {budget : Option Nat} {k : Nat} {m m' last : Machine} {emitted : Option Snapshot}
  {trace : List Snapshot}

/-! ## Numbers and messages -/

theorem Move.shows (h : Move budget m emitted m') (hm : m.state.Shows m.control.status) :
    m'.state.Shows m'.control.status := by
  cases h with
  | ended | looped _ | repeated _ => exact hm
  | refused _ | stopped _ => exact State.Shows.fail hm .stepLimit
  | concluded _ hresult =>
    rw [status_resume]
    exact hresult.effect.shows hm
  | branched _ hvalue _ =>
    obtain ⟨memory, _, rfl⟩ := State.exists_memory_of_evaluate hvalue
    exact hm
  | closed =>
    rw [status_resume]
    exact hm
  | @broken _ _ _ _ status _ _ _ hstatus =>
    rw [status_resume]
    cases status with
    | ongoing => exact absurd rfl hstatus
    | failed => exact hm
    | exited => exact hm

/-! ## After an error -/

theorem Path.emits_of_failed (h : Path budget k m trace last)
    (hfailed : m.control = .leave .failed) :
    ∀ s ∈ trace, s.status = .failed ∧ s.state = m.state := by
  induction h with
  | here m => exact fun s hs => absurd hs List.not_mem_nil
  | @move k m m' last emitted trace hmove hrest ih =>
    obtain ⟨hstate, _, hcontrol⟩ := hmove.of_failed hfailed
    intro s hs
    rcases List.mem_append.mp hs with hnow | hlater
    · rw [Option.mem_toList.mp hnow] at hmove
      obtain ⟨hemitted, hstatus⟩ := hmove.of_emitted
      rw [hcontrol] at hstatus
      exact ⟨hstatus.symm, hemitted.symm.trans hstate⟩
    · obtain ⟨hstatus, hlast⟩ := ih hcontrol s hlater
      exact ⟨hstatus, hlast.trans hstate⟩

/-- After the first error nothing changes any more. -/
theorem Path.pairwise_staysFailed (h : Path budget k m trace last) :
    trace.Pairwise Snapshot.StaysFailed := by
  induction h with
  | here m => exact List.Pairwise.nil
  | @move k m m' last emitted trace hmove hrest ih =>
    cases emitted with
    | none => exact ih
    | some snapshot =>
      refine List.pairwise_cons.mpr ⟨fun s hs hfailed => ?_, ih⟩
      obtain ⟨hstate, hstatus⟩ := hmove.of_emitted
      have hcontrol := Control.eq_leave_of_status (hstatus.trans hfailed) nofun
      obtain ⟨hs', hsame⟩ := hrest.emits_of_failed hcontrol s hs
      exact ⟨hs', hsame.trans hstate⟩

end Machine

/-! ## Printing -/

/-- Decimals on the first line of a printed run can be read back. -/
theorem Run.words_firstLine_render {r : Run} (h : ∀ word ∈ r.state.output, IsDecimal word) :
    words (firstLine r.render) = r.state.output := by
  have hwhole : ∀ word ∈ r.state.output, IsWhole word := fun word hword => (h word hword).isWhole
  rw [render, firstLine_append (ne_newline_of_mem_separated hwhole), words_separated hwhole]

namespace Program

variable {program : Program} {input : List String} {limits : RunLimits} {r : Run}

theorem shows_of_runOn? (h : program.runOn? input limits = some r) : r.state.Shows r.status := by
  obtain ⟨k, last, hpath, hend, hstate, _⟩ := path_of_runOn? h
  have hlast : last.state.Shows last.control.status :=
    hpath.preserves (P := fun m => m.state.Shows m.control.status) Machine.Move.shows
      fun word hword => absurd hword List.not_mem_nil
  rw [hend.1, hstate] at hlast
  exact hlast

/-- **Errors are final.** A run that ends without an error has written decimals only, and reading
the first line of what is printed gives back these words. A run that ends with an error has written
decimals and then the message of the error. In a history, whatever comes after a snapshot of an
error shows the same error and the same state. -/
theorem errors_are_final (h : program.runOn? input limits = some r) :
    (r.status ≠ .failed → (∀ word ∈ r.state.output, IsDecimal word) ∧
      words (firstLine r.render) = r.state.output) ∧
    (r.status = .failed → ∃ (numbers : List String) (error : RuntimeError),
      r.state.output = numbers ++ [error.message] ∧ ∀ word ∈ numbers, IsDecimal word) ∧
    ∀ history, r.history = some history →
      history.snapshots.toList.Pairwise Snapshot.StaysFailed := by
  have hshows := shows_of_runOn? h
  refine ⟨fun hstatus => ?_, fun hstatus => ?_, fun history hhistory => ?_⟩
  · rw [State.shows_iff_of_ne hstatus] at hshows
    exact ⟨hshows, Run.words_firstLine_render hshows⟩
  · rw [hstatus] at hshows
    exact hshows
  · obtain ⟨k, last, hpath, _⟩ := path_of_runOn? h
    have htrace := hpath.pairwise_staysFailed
    have hbeginning := (beginning_of_recorded h hhistory).1
    refine List.Pairwise.sublist hbeginning.sublist (List.pairwise_cons.mpr ⟨?_, htrace⟩)
    intro s _ hfailed
    cases hfailed

/-- Divides six by what it reads less two. -/
def quotients : Program :=
  ⟨[.loop [.read "x", .branch (.number "1")
    [.write (.binary .div (.number "6") (.binary .sub (.ident "x") (.number "2")))]]]⟩

/-- Writes a negative number and another one. -/
def fixedWords : Program :=
  ⟨[.write (.binary .sub (.number "3") (.number "8")), .write (.number "007")]⟩

def fixedWordsRun : Run := ⟨⟨∅, [], ["-5", "7"]⟩, .ongoing, 2, none⟩

/-- `quotients` fails at the third word, and the branch and the loop around the failing statement
show the same error; `fixedWords` prints words that can be read back. -/
theorem errors_are_final_quotients :
    (∃ r history, quotients.runOn? ["4", "1", "2"] ⟨some 5000, some 40⟩ = some r ∧
      r.status = .failed ∧ r.history = some history ∧
      history.snapshots.toList.map Snapshot.status =
        List.replicate 8 .ongoing ++ List.replicate 3 .failed ∧
      history.snapshots.toList.Pairwise Snapshot.StaysFailed ∧
      ∃ (numbers : List String) (error : RuntimeError),
        r.state.output = numbers ++ [error.message] ∧ ∀ word ∈ numbers, IsDecimal word) ∧
    fixedWords.runOn? [] ⟨none, some 2⟩ = some fixedWordsRun ∧
      fixedWordsRun.status ≠ .failed ∧ IsDecimal "-5" ∧ IsDecimal "7" ∧
      words (firstLine fixedWordsRun.render) = ["-5", "7"] := by
  have hfacts : ((quotients.runOn? ["4", "1", "2"] ⟨some 5000, some 40⟩).bind fun r =>
      r.history.map fun history => (r.status, history.snapshots.toList.map Snapshot.status)) =
      some (.failed, List.replicate 8 .ongoing ++ List.replicate 3 .failed) := by
    decide +kernel
  have hfixed : fixedWords.runOn? [] ⟨none, some 2⟩ = some fixedWordsRun := by
    with_unfolding_all rfl
  obtain ⟨r, hrun, hrecorded⟩ := Option.bind_eq_some_iff.mp hfacts
  obtain ⟨history, hhistory, hpair⟩ := Option.map_eq_some_iff.mp hrecorded
  obtain ⟨hstatus, hstatuses⟩ := Prod.mk.inj hpair
  obtain ⟨_, hmessage, hfinal⟩ := errors_are_final hrun
  obtain ⟨hdecimals, hread⟩ := (errors_are_final hfixed).1 nofun
  exact ⟨⟨r, history, hrun, hstatus, hhistory, hstatuses, hfinal history hhistory,
    hmessage hstatus⟩, hfixed, nofun, hdecimals _ (.head _), hdecimals _ (.tail _ (.head _)), hread⟩

end Program

end StepCalc
