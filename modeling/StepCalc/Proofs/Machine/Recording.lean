import StepCalc.Proofs.Machine.Execution

/-!
# Recording a run

A history takes the initial state and then what the machine emits, until the first snapshot that
does not fit. So it holds the longest beginning of the whole trace that fits its limit
(`exists_longestFitting`), and it makes no difference to the run whether one is kept, and with which
limit (`recording_changes_nothing`).
-/

namespace StepCalc

def bytesOfSnapshots (snapshots : List Snapshot) : Nat := total (snapshots.map Snapshot.byteSize)

theorem bytesOfSnapshots_append (snapshots others : List Snapshot) :
    bytesOfSnapshots (snapshots ++ others) =
      bytesOfSnapshots snapshots + bytesOfSnapshots others := by
  rw [bytesOfSnapshots, List.map_append, total_append]
  rfl

/-- `kept` is the longest beginning of `snapshots` that takes up at most `room` bytes. -/
structure LongestFitting (room : Nat) (snapshots kept : List Snapshot) : Prop where
  beginning : kept <+: snapshots
  fits : bytesOfSnapshots kept ≤ room
  longest : ∀ other, other <+: snapshots → bytesOfSnapshots other ≤ room →
    other.length ≤ kept.length

theorem longestFitting_nil (room : Nat) : LongestFitting room [] [] where
  beginning := List.nil_prefix
  fits := Nat.zero_le room
  longest := fun _ h _ => h.length_le

/-- If the first snapshot does not fit, nothing does. -/
theorem longestFitting_of_lt {room : Nat} {s : Snapshot} (h : room < s.byteSize)
    (snapshots : List Snapshot) : LongestFitting room (s :: snapshots) [] where
  beginning := List.nil_prefix
  fits := Nat.zero_le room
  longest := by
    intro other hother hfits
    rcases List.prefix_cons_iff.mp hother with rfl | ⟨rest, rfl, _⟩
    · exact Nat.le_refl _
    · simp only [bytesOfSnapshots, List.map_cons, total] at hfits
      omega

theorem LongestFitting.cons {room : Nat} {s : Snapshot} {snapshots kept : List Snapshot}
    (h : LongestFitting (room - s.byteSize) snapshots kept) (hs : s.byteSize ≤ room) :
    LongestFitting room (s :: snapshots) (s :: kept) where
  beginning := List.cons_prefix_cons.mpr ⟨rfl, h.beginning⟩
  fits := by
    have hfits := h.fits
    simp only [bytesOfSnapshots, List.map_cons, total] at hfits ⊢
    omega
  longest := by
    intro other hother hfits
    rcases List.prefix_cons_iff.mp hother with rfl | ⟨rest, rfl, hrest⟩
    · exact Nat.zero_le _
    · simp only [bytesOfSnapshots, List.map_cons, total] at hfits
      have hle := h.longest rest hrest (by unfold bytesOfSnapshots; omega)
      exact Nat.succ_le_succ hle

theorem LongestFitting.bytes_le {room : Nat} {snapshots kept : List Snapshot}
    (h : LongestFitting room snapshots kept) :
    bytesOfSnapshots kept ≤ bytesOfSnapshots snapshots := by
  obtain ⟨others, rfl⟩ := h.beginning
  rw [bytesOfSnapshots_append]
  omega

namespace History

theorem record_of_truncated {h : History} (hclosed : h.truncated = true) (s : Snapshot) :
    h.record s = h := by
  rw [record, if_pos hclosed]

theorem foldl_record_of_truncated {h : History} (hclosed : h.truncated = true)
    (snapshots : List Snapshot) : snapshots.foldl record h = h := by
  induction snapshots with
  | nil => rfl
  | cons s snapshots ih => rw [List.foldl_cons, record_of_truncated hclosed, ih]

theorem record_of_fits {h : History} (hopen : h.truncated = false) {s : Snapshot}
    (hfits : h.usage + s.byteSize ≤ h.limit) :
    h.record s =
      { h with snapshots := h.snapshots.push s, usage := h.usage + s.byteSize } := by
  rw [record_eq_push, push, if_neg]
  simp only [hopen, Bool.false_or, decide_eq_true_eq]
  omega

theorem record_of_excess {h : History} {s : Snapshot} (hexcess : h.limit < h.usage + s.byteSize) :
    h.record s = { h with truncated := true } := by
  rw [record_eq_push, push, if_pos]
  simp only [hexcess, decide_true, Bool.or_true]

/-- An open history that is given some snapshots keeps the longest beginning of them that fits into
the room that is left, and is closed if that is not all of them. -/
theorem exists_longestFitting {h : History} (hopen : h.truncated = false)
    (hroom : h.usage ≤ h.limit) (snapshots : List Snapshot) :
    ∃ kept, LongestFitting (h.limit - h.usage) snapshots kept ∧
      (snapshots.foldl record h).snapshots.toList = h.snapshots.toList ++ kept ∧
      (snapshots.foldl record h).usage = h.usage + bytesOfSnapshots kept ∧
      ((snapshots.foldl record h).truncated = true ↔ kept ≠ snapshots) := by
  induction snapshots generalizing h with
  | nil => exact ⟨[], longestFitting_nil _, (List.append_nil _).symm, rfl, by simp [hopen]⟩
  | cons s snapshots ih =>
    rw [List.foldl_cons]
    by_cases hfits : h.usage + s.byteSize ≤ h.limit
    · rw [record_of_fits hopen hfits]
      obtain ⟨kept, hkept, hsnapshots, husage, htruncated⟩ :=
        ih (h := { h with snapshots := h.snapshots.push s, usage := h.usage + s.byteSize })
          hopen hfits
      refine ⟨s :: kept, .cons ?_ (by omega), ?_, ?_, ?_⟩
      · rw [Nat.sub_sub]
        exact hkept
      · rw [hsnapshots, Array.toList_push, List.append_assoc]
        rfl
      · rw [husage, Nat.add_assoc]
        rfl
      · rw [htruncated]
        simp
    · have hexcess : h.limit < h.usage + s.byteSize := Nat.lt_of_not_le hfits
      rw [record_of_excess hexcess, foldl_record_of_truncated rfl]
      refine ⟨[], longestFitting_of_lt (by omega) snapshots, ?_, rfl, ?_⟩
      · rw [List.append_nil]
      · simp

/-- A new history that is given some snapshots keeps the longest beginning of them that fits. -/
theorem longestFitting_foldl_record (limit : Nat) (snapshots : List Snapshot) :
    let h := snapshots.foldl record (.empty limit)
    LongestFitting limit snapshots h.snapshots.toList ∧
      h.usage = bytesOfSnapshots h.snapshots.toList ∧
      (h.truncated = true ↔ h.snapshots.toList ≠ snapshots) := by
  obtain ⟨kept, hkept, hsnapshots, husage, htruncated⟩ :=
    exists_longestFitting (h := .empty limit) rfl (Nat.zero_le limit) snapshots
  replace hsnapshots : (snapshots.foldl record (.empty limit)).snapshots.toList = kept := hsnapshots
  rw [← hsnapshots] at hkept husage htruncated
  exact ⟨hkept, husage.trans (Nat.zero_add _), htruncated⟩

end History

/-! ## Runs with a history -/

/-- What a run has brought about, apart from its history. -/
def Run.outcome (r : Run) : State × Status × Nat := (r.state, r.status, r.steps)

namespace Machine

variable {budget : Option Nat} {m : Machine} {moves : Nat}

/-- A run with a history is the run without one, and the history has recorded the trace. -/
theorem run?_eq_map (history : Option History) :
    m.run? budget moves history = (m.run? budget moves none).map fun r =>
      { r with history := history.map fun h =>
        ((m.trace budget moves).foldl History.record h).rewind } := by
  cases hplain : m.run? budget moves none with
  | none =>
    refine Option.eq_none_iff_forall_ne_some.mpr fun r hr => ?_
    obtain ⟨k, trace, last, status, hk, hpath, hend, _⟩ := run?_eq_some_iff.mp hr
    have hsome : m.run? budget moves none = some _ :=
      run?_eq_some_iff.mpr ⟨k, trace, last, status, hk, hpath, hend, rfl⟩
    rw [hplain] at hsome
    cases hsome
  | some r =>
    obtain ⟨k, trace, last, status, hk, hpath, hend, rfl⟩ := run?_eq_some_iff.mp hplain
    rw [trace_of_path hpath hend hk]
    exact run?_eq_some_iff.mpr ⟨k, trace, last, status, hk, hpath, hend, rfl⟩

end Machine

namespace Program

def traceOn (program : Program) (input : List String) (budget : Option Nat) : List Snapshot :=
  (Machine.initial program input).trace budget (Machine.movesFor budget)

def callsOn (program : Program) (input : List String) (budget : Option Nat) : List Machine.Call :=
  (Machine.initial program input).calls budget (Machine.movesFor budget)

variable {program : Program} {input : List String} {budget : Option Nat} {limit : Nat} {r : Run}

theorem map_outcome_runOn? (program : Program) (input : List String) (budget : Option Nat)
    (limit : Nat) :
    (program.runOn? input ⟨some limit, budget⟩).map Run.outcome =
      (program.runOn? input ⟨none, budget⟩).map Run.outcome := by
  unfold runOn?
  simp only [Option.map_some, Option.map_none]
  rw [Machine.run?_eq_map, Option.map_map]
  rfl

/-- The history of a run has recorded the initial state and all that the machine emits. -/
theorem history_of_runOn? (h : program.runOn? input ⟨some limit, budget⟩ = some r) :
    r.history = some ((.initial input :: program.traceOn input budget).foldl History.record
      (.empty limit)).rewind := by
  unfold runOn? at h
  rw [Machine.run?_eq_map] at h
  obtain ⟨plain, _, rfl⟩ := Option.map_eq_some_iff.mp h
  rfl

/-- A history holds the longest beginning of the whole trace that fits its limit, and is closed if
that is not all of it. -/
theorem longestFitting_of_runOn? (h : program.runOn? input ⟨some limit, budget⟩ = some r) :
    ∃ history, r.history = some history ∧
      LongestFitting limit (.initial input :: program.traceOn input budget)
        history.snapshots.toList ∧
      history.usage = bytesOfSnapshots history.snapshots.toList ∧ history.position = 0 ∧
      (history.truncated = true ↔
        history.snapshots.toList ≠ .initial input :: program.traceOn input budget) := by
  obtain ⟨hkept, husage, htruncated⟩ :=
    History.longestFitting_foldl_record limit (.initial input :: program.traceOn input budget)
  exact ⟨_, history_of_runOn? h, hkept, husage, rfl, htruncated⟩

/-- A history holds a beginning of the whole trace, and all of it unless it is closed. -/
theorem beginning_of_recorded {limits : RunLimits} {history : History}
    (hrun : program.runOn? input limits = some r) (hhistory : r.history = some history) :
    history.snapshots.toList <+: .initial input :: program.traceOn input limits.steps ∧
      (history.truncated = false →
        history.snapshots.toList = .initial input :: program.traceOn input limits.steps) := by
  obtain ⟨_ | limit, budget⟩ := limits
  · unfold runOn? at hrun
    rw [Machine.run?_eq_map] at hrun
    obtain ⟨plain, _, rfl⟩ := Option.map_eq_some_iff.mp hrun
    cases hhistory
  · obtain ⟨history', hhistory', hkept, _, _, htruncated⟩ := longestFitting_of_runOn? hrun
    rw [hhistory] at hhistory'
    cases hhistory'
    refine ⟨hkept.beginning, fun hopen => ?_⟩
    exact not_not.mp (mt htruncated.mpr (Bool.eq_false_iff.mp hopen))

/-- A run follows a path from the initial machine to the end of the program. -/
theorem path_of_runOn? {limits : RunLimits} (h : program.runOn? input limits = some r) :
    ∃ k last, Machine.Path limits.steps k (.initial program input)
        (program.traceOn input limits.steps) last ∧ last.Ended r.status ∧
      last.state = r.state ∧ last.steps = r.steps := by
  obtain ⟨k, trace, last, status, hk, hpath, hend, rfl⟩ := Machine.run?_eq_some_iff.mp h
  rw [traceOn, Machine.trace_of_path hpath hend hk]
  exact ⟨k, last, hpath, hend, rfl, rfl⟩

/-- A run follows the execution of the program, and each call has emitted a snapshot. -/
theorem executes_of_runOn? {limits : RunLimits} (h : program.runOn? input limits = some r) :
    Executes limits.steps (.list program.statements 0) (.initial input) 0
        ⟨program.traceOn input limits.steps, r.status, r.state, r.steps⟩ ∧
      (program.traceOn input limits.steps).length =
        (program.callsOn input limits.steps).length := by
  obtain ⟨k, trace, last, status, hk, hpath, hend, rfl⟩ := Machine.run?_eq_some_iff.mp h
  rw [traceOn, Machine.trace_of_path hpath hend hk]
  refine ⟨Machine.executes_iff_path.mpr ⟨k, ?_⟩, (Machine.length_calls_of_path hpath hend hk).symm⟩
  rw [hend.eq] at hpath
  exact hpath

/-- The last snapshot of the whole trace shows how the run ends. -/
theorem getLast?_trace {trace : List Snapshot}
    (h : Executes budget (.list program.statements 0) (.initial input) 0
      ⟨trace, r.status, r.state, r.steps⟩) :
    ∃ last, (Snapshot.initial input :: trace).getLast? = some last ∧ last.state = r.state ∧
      last.status = r.status := by
  rcases h.last_snapshot with hnothing | ⟨before, last, htrace, hstate, hstatus⟩
  · obtain ⟨rfl, hstatus, hstate, _⟩ := Outcome.mk.inj hnothing
    exact ⟨.initial input, rfl, hstate.symm, hstatus.symm⟩
  · refine ⟨last, ?_, hstate, hstatus⟩
    have hwhole : Snapshot.initial input :: trace = (.initial input :: before) ++ [last] :=
      congrArg (Snapshot.initial input :: ·) htrace
    rw [hwhole, List.getLast?_concat]

/-- **Recording changes nothing, and it keeps as much as fits.** A run with a history ends exactly
if the run without one does, in the same state, with the same status and the same steps. Then the
program executes to just this, with a trace of one snapshot for each call; the history holds the
longest beginning of the initial snapshot and this trace that fits its limit, is closed exactly if
that is not all, counts its bytes and stands at its beginning; and if it holds all, its last
snapshot shows how the run has ended. -/
theorem recording_changes_nothing (program : Program) (input : List String) (budget : Option Nat)
    (limit : Nat) :
    (program.runOn? input ⟨some limit, budget⟩).map Run.outcome =
      (program.runOn? input ⟨none, budget⟩).map Run.outcome ∧
    ∀ r, program.runOn? input ⟨some limit, budget⟩ = some r →
      ∃ trace history, r.history = some history ∧
        (∀ o, Executes budget (.list program.statements 0) (.initial input) 0 o ↔
          o = ⟨trace, r.status, r.state, r.steps⟩) ∧
        trace.length = (program.callsOn input budget).length ∧
        LongestFitting limit (.initial input :: trace) history.snapshots.toList ∧
        (history.truncated = true ↔ history.snapshots.toList ≠ .initial input :: trace) ∧
        history.usage = bytesOfSnapshots history.snapshots.toList ∧ history.position = 0 ∧
        (history.truncated = false → ∃ last, history.snapshots.toList.getLast? = some last ∧
          last.state = r.state ∧ last.status = r.status) := by
  refine ⟨map_outcome_runOn? program input budget limit, fun r h => ?_⟩
  obtain ⟨hexecutes, hcalls⟩ := executes_of_runOn? h
  obtain ⟨history, hhistory, hkept, husage, hposition, htruncated⟩ := longestFitting_of_runOn? h
  refine ⟨_, history, hhistory, fun o => ⟨fun ho => Machine.executes_unique ho hexecutes, ?_⟩,
    hcalls, hkept, htruncated, husage, hposition, fun hopen => ?_⟩
  · rintro rfl
    exact hexecutes
  · have hwhole := not_not.mp (mt htruncated.mpr (Bool.eq_false_iff.mp hopen))
    rw [hwhole]
    exact getLast?_trace hexecutes

/-- Reads numbers up to the first zero. -/
def untilZero : Program := ⟨[.loop [.read "x", .check (.ident "x")]]⟩

/-- The run of `untilZero` on a five and a zero, with a history that has room for two snapshots. -/
def untilZeroRun : Run where
  state := ⟨(Memory.empty.bind "x" 0).mark "x", [], []⟩
  status := .ongoing
  steps := 6
  history := some {
    snapshots := #[.initial ["5", "0"], ⟨some 1, ⟨Memory.empty.bind "x" 5, ["0"], []⟩, .ongoing⟩]
    limit := 480
    usage := 324
    truncated := true
    position := 0 }

/-- The third snapshot takes up 170 bytes and is refused, and so are all later ones, though those
after the second word is read take up 145 bytes each. -/
theorem recording_changes_nothing_untilZero :
    untilZero.runOn? ["5", "0"] ⟨some 480, some 9⟩ = some untilZeroRun ∧
    ∃ trace history, untilZeroRun.history = some history ∧
      Executes (some 9) (.list untilZero.statements 0) (.initial ["5", "0"]) 0
        ⟨trace, untilZeroRun.status, untilZeroRun.state, untilZeroRun.steps⟩ ∧
      trace.length = 5 ∧
      LongestFitting 480 (.initial ["5", "0"] :: trace) history.snapshots.toList ∧
      history.snapshots.toList ≠ .initial ["5", "0"] :: trace := by
  have hrun : untilZero.runOn? ["5", "0"] ⟨some 480, some 9⟩ = some untilZeroRun := by
    with_unfolding_all rfl
  have hcount : (untilZero.callsOn ["5", "0"] (some 9)).length = 5 := by decide +kernel
  obtain ⟨trace, history, hhistory, hexecutes, hcalls, hkept, htruncated, _⟩ :=
    (recording_changes_nothing untilZero ["5", "0"] (some 9) 480).2 untilZeroRun hrun
  cases hhistory
  exact ⟨hrun, trace, _, rfl, (hexecutes _).mpr rfl, hcalls.trans hcount, hkept,
    htruncated.mp rfl⟩

end Program

end StepCalc
