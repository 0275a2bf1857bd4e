import StepCalc.Proofs.Machine.Recording
import StepCalc.Proofs.Program.Numbering

/-!
# Calls and the listing

A machine counts its way through a program by adding up the sizes of the statements it passes. What
it is about to run, and what its frames will go on with, always occurs in the program at the number
it has for it (`Machine.Placed`). So the calls of a run carry the numbers of the listing.

A snapshot is emitted when a call ends, and the call that ends is the latest of those that have not
ended yet (`Machine.returns`). These are the calls of the statements whose bodies are running
(`Move.ends_latest`), so every snapshot has the number of the call that emits it, and points to the
line of the statement that has just run (`ids_agree_with_listing`).
-/

namespace StepCalc

def Statement.body : Statement → List Statement
  | branch _ body | loop body => body
  | _ => []

theorem Statement.preorder_eq_cons (s : Statement) :
    s.preorder = s :: preorderOfAll s.body := by
  cases s <;> simp [preorder, body, preorderOfAll]

/-! ## Occurrences -/

theorem prefix_drop_of_append {α : Type} {a b l : List α} {k : Nat} (h : a ++ b <+: l.drop k) :
    a <+: l.drop k ∧ b <+: l.drop (k + a.length) := by
  obtain ⟨t, ht⟩ := h
  refine ⟨⟨b ++ t, ?_⟩, t, ?_⟩
  · rw [← ht, List.append_assoc]
  · rw [← List.drop_drop, ← ht, List.append_assoc, List.drop_left]

namespace Program

variable {program : Program} {s : Statement} {rest : List Statement} {id : Nat}

/-- The statements stand in the program one after the other, from the number `id` on. -/
def Occurs (program : Program) (statements : List Statement) (id : Nat) : Prop :=
  Statement.preorderOfAll statements <+: program.preorder.drop id

theorem occurs_statements (program : Program) : program.Occurs program.statements 0 :=
  List.prefix_rfl

/-- A statement, its body and what comes after it have the numbers that sizes give. -/
theorem Occurs.cons (h : program.Occurs (s :: rest) id) :
    program.preorder[id]? = some s ∧ program.Occurs s.body (id + 1) ∧
      program.Occurs rest (id + s.size) := by
  unfold Occurs at h
  rw [Statement.preorderOfAll] at h
  obtain ⟨hfirst, hrest⟩ := prefix_drop_of_append h
  rw [Statement.length_preorder] at hrest
  rw [Statement.preorder_eq_cons, ← List.singleton_append] at hfirst
  obtain ⟨hhead, hbody⟩ := prefix_drop_of_append hfirst
  refine ⟨?_, hbody, hrest⟩
  obtain ⟨t, ht⟩ := hhead
  rw [← List.head?_drop, ← ht]
  rfl

end Program

/-! ## Numbers in a machine -/

/-- What is about to run has the right number. -/
def Control.Placed (program : Program) : Control → Prop
  | .enter statements id => program.Occurs statements id
  | .leave _ => True

/-- What is left to do has the right numbers. -/
def Frame.Placed (program : Program) : Frame → Prop
  | .branch _ rest next => program.Occurs rest next
  | .loop id body rest next => program.Occurs body (id + 1) ∧ program.Occurs rest next

/-- The number of the statement whose body is running. -/
def Frame.id : Frame → Nat
  | .branch id _ _ | .loop id _ _ _ => id

namespace Machine

variable {program : Program} {budget : Option Nat} {m m' : Machine} {emitted : Option Snapshot}
  {moves : Nat}

/-- All numbers in a machine are those of the program. -/
structure Placed (program : Program) (m : Machine) : Prop where
  control : m.control.Placed program
  frames : ∀ frame ∈ m.frames, frame.Placed program

theorem placed_initial (program : Program) (input : List String) :
    (initial program input).Placed program where
  control := program.occurs_statements
  frames := fun _ h => absurd h List.not_mem_nil

theorem placed_resume {rest : List Statement} {next : Nat} (h : program.Occurs rest next)
    (status : Status) : (resume status rest next).Placed program := by
  cases status with
  | ongoing => exact h
  | failed => trivial
  | exited => trivial

theorem Move.placed (h : Move budget m emitted m') (hm : m.Placed program) :
    m'.Placed program := by
  obtain ⟨hcontrol, hframes⟩ := hm
  cases h with
  | ended => exact ⟨trivial, hframes⟩
  | refused _ => exact ⟨trivial, hframes⟩
  | concluded _ _ =>
    have hrest := (Program.Occurs.cons hcontrol).2.2
    exact ⟨placed_resume hrest _, hframes⟩
  | branched _ _ _ =>
    obtain ⟨_, hbody, hrest⟩ := Program.Occurs.cons hcontrol
    exact ⟨hbody, List.forall_mem_cons.mpr ⟨hrest, hframes⟩⟩
  | looped _ =>
    obtain ⟨_, hbody, hrest⟩ := Program.Occurs.cons hcontrol
    exact ⟨hbody, List.forall_mem_cons.mpr ⟨⟨hbody, hrest⟩, hframes⟩⟩
  | closed =>
    obtain ⟨hrest, hframes⟩ := List.forall_mem_cons.mp hframes
    exact ⟨placed_resume hrest _, hframes⟩
  | broken _ =>
    obtain ⟨⟨_, hrest⟩, hframes⟩ := List.forall_mem_cons.mp hframes
    exact ⟨placed_resume hrest _, hframes⟩
  | stopped _ => exact ⟨trivial, (List.forall_mem_cons.mp hframes).2⟩
  | repeated _ => exact ⟨(List.forall_mem_cons.mp hframes).1.1, hframes⟩

theorem Placed.call {call : Call} (hm : m.Placed program) (h : call ∈ m.call?) :
    program.preorder[call.id]? = some call.statement := by
  obtain ⟨st, n, control, frames⟩ := m
  match control with
  | .enter (s :: rest) id =>
    cases h
    exact (Program.Occurs.cons hm.control).1
  | .enter [] id => cases h
  | .leave status => cases h

/-- A run calls each statement with its number. -/
theorem Placed.calls (hm : m.Placed program) (moves : Nat) :
    ∀ call ∈ m.calls budget moves, program.preorder[call.id]? = some call.statement := by
  induction moves generalizing m with
  | zero => exact fun _ h => absurd h List.not_mem_nil
  | succ moves ih =>
    intro call hcall
    rcases exists_move_or_ended budget m with ⟨emitted, m', hmove⟩ | ⟨status, hend⟩
    · rw [calls_of_move hmove, List.mem_append, Option.mem_toList] at hcall
      rcases hcall with hnow | hlater
      · exact hm.call hnow
      · exact ih (hmove.placed hm) call hlater
    · rw [calls_of_ended hend] at hcall
      cases hcall

/-! ## Ends of calls -/

/-- The calls that end within up to `moves` moves, each with the snapshot that its end emits.
`opened` are the calls made before that have not ended, the latest first: what a move emits is
emitted by the end of the latest call. -/
def returns (budget : Option Nat) : Nat → List Call → Machine → List (Call × Snapshot)
  | 0, _, _ => []
  | moves + 1, opened, m =>
    match m.step budget, m.call?.toList ++ opened with
    | .done _, _ => []
    | .next m' (some snapshot), call :: opened =>
      (call, snapshot) :: returns budget moves opened m'
    | .next m' _, opened => returns budget moves opened m'

variable {opened : List Call}

/-- The calls that have not ended are those of the statements whose bodies are running. -/
def Opened (m : Machine) (opened : List Call) : Prop :=
  opened.map Call.id = m.frames.map Frame.id

/-- What a move does to the calls that have not ended: it ends none of them, or it ends the latest,
and what it emits has the number of that one. -/
theorem Move.ends_latest (h : Move budget m emitted m') (hopened : m.Opened opened) :
    emitted = none ∧ m'.Opened (m.call?.toList ++ opened) ∨
      ∃ snapshot call rest, emitted = some snapshot ∧ m.call?.toList ++ opened = call :: rest ∧
        snapshot.statement = some call.id ∧ m'.Opened rest := by
  unfold Opened at hopened ⊢
  cases h with
  | ended | repeated _ => exact Or.inl ⟨rfl, hopened⟩
  | branched _ _ _ | looped _ => exact Or.inl ⟨rfl, congrArg (List.cons _) hopened⟩
  | refused _ | concluded _ _ => exact Or.inr ⟨_, _, opened, rfl, rfl, rfl, hopened⟩
  | closed | broken _ | stopped _ =>
    obtain ⟨call, rest, rfl, hid, hrest⟩ := List.map_eq_cons_iff.mp hopened
    exact Or.inr ⟨_, call, rest, rfl, rfl, congrArg some hid.symm, hrest⟩

theorem returns_of_silent (h : Move budget m none m') (moves : Nat) (opened : List Call) :
    m.returns budget (moves + 1) opened =
      m'.returns budget moves (m.call?.toList ++ opened) := by
  rw [returns, step_of_move h]

theorem returns_of_emitting {snapshot : Snapshot} {call : Call} {rest : List Call}
    (h : Move budget m (some snapshot) m') (hcall : m.call?.toList ++ opened = call :: rest)
    (moves : Nat) :
    m.returns budget (moves + 1) opened = (call, snapshot) :: m'.returns budget moves rest := by
  rw [returns, step_of_move h, hcall]

theorem returns_of_ended {status : Status} (h : m.Ended status) (moves : Nat)
    (opened : List Call) : m.returns budget moves opened = [] := by
  cases moves with
  | zero => rfl
  | succ moves => rw [returns, step_of_ended h]

/-- Every snapshot is emitted by the end of a call. -/
theorem Opened.map_snd_returns (hopened : m.Opened opened) (moves : Nat) :
    (m.returns budget moves opened).map Prod.snd = m.trace budget moves := by
  induction moves generalizing m opened with
  | zero => rfl
  | succ moves ih =>
    rcases exists_move_or_ended budget m with ⟨emitted, m', hmove⟩ | ⟨status, hend⟩
    · rw [trace_of_move hmove]
      rcases hmove.ends_latest hopened with
        ⟨rfl, hnext⟩ | ⟨snapshot, call, rest, rfl, hcall, _, hnext⟩
      · rw [returns_of_silent hmove, ih hnext]
        rfl
      · rw [returns_of_emitting hmove hcall, List.map_cons, ih hnext]
        rfl
    · rw [returns_of_ended hend, trace_of_ended hend]
      rfl

/-- A call that ends has been made, and its end emits its number. -/
theorem Opened.mem_returns (hopened : m.Opened opened) {call : Call} {snapshot : Snapshot}
    (h : (call, snapshot) ∈ m.returns budget moves opened) :
    call ∈ m.calls budget moves ++ opened ∧ snapshot.statement = some call.id := by
  induction moves generalizing m opened with
  | zero => cases h
  | succ moves ih =>
    rcases exists_move_or_ended budget m with ⟨emitted, m', hmove⟩ | ⟨status, hend⟩
    · rw [calls_of_move hmove]
      -- what is open after this move has been made by it or was open before
      have hmade : ∀ call ∈ m'.calls budget moves ++ (m.call?.toList ++ opened),
          call ∈ m.call?.toList ++ m'.calls budget moves ++ opened := by
        intro call hcall
        simp only [List.mem_append] at hcall ⊢
        tauto
      rcases hmove.ends_latest hopened with
        ⟨rfl, hnext⟩ | ⟨emission, first, rest, rfl, hfirst, hid, hnext⟩
      · rw [returns_of_silent hmove] at h
        obtain ⟨hcall, hstatement⟩ := ih hnext h
        exact ⟨hmade call hcall, hstatement⟩
      · rw [returns_of_emitting hmove hfirst] at h
        rw [hfirst] at hmade
        rcases List.mem_cons.mp h with heq | hlater
        · cases heq
          exact ⟨hmade call (List.mem_append_right _ List.mem_cons_self), hid⟩
        · obtain ⟨hcall, hstatement⟩ := ih hnext hlater
          refine ⟨hmade call ?_, hstatement⟩
          rcases List.mem_append.mp hcall with hcall | hcall
          · exact List.mem_append_left _ hcall
          · exact List.mem_append_right _ (List.mem_cons_of_mem first hcall)
    · rw [returns_of_ended hend] at h
      cases h

theorem opened_initial (program : Program) (input : List String) :
    (initial program input).Opened [] :=
  rfl

end Machine

namespace Program

variable {program : Program} {input : List String} {budget : Option Nat} {moves : Nat}

/-- The calls of a run in the order in which they end, each with the snapshot that its end emits. -/
def returnsOn (program : Program) (input : List String) (budget : Option Nat) :
    List (Machine.Call × Snapshot) :=
  (Machine.initial program input).returns budget (Machine.movesFor budget) []

/-- Exactly one line of the listing has the number of the call, and this line shows the header of
the statement that was called. -/
def Locates (program : Program) (call : Machine.Call) : Prop :=
  ∃ line, program.listing.filter (fun line => line.statement = some call.id) = [line] ∧
    line.text = call.statement.header

theorem map_snd_returns (program : Program) (input : List String) (budget : Option Nat)
    (moves : Nat) :
    ((Machine.initial program input).returns budget moves []).map Prod.snd =
      (Machine.initial program input).trace budget moves :=
  (Machine.opened_initial program input).map_snd_returns moves

/-- The end of a call emits the number of the call, and the line with this number shows what was
called. -/
theorem locates_of_mem_returns {call : Machine.Call} {snapshot : Snapshot}
    (h : (call, snapshot) ∈ (Machine.initial program input).returns budget moves []) :
    call ∈ (Machine.initial program input).calls budget moves ∧
      snapshot.statement = some call.id ∧ program.Locates call := by
  obtain ⟨hcall, hstatement⟩ := (Machine.opened_initial program input).mem_returns h
  rw [List.append_nil] at hcall
  exact ⟨hcall, hstatement,
    exists_line ((Machine.placed_initial program input).calls moves call hcall)⟩

/-- A snapshot of a history other than the initial one is what the end of a call has emitted: the
history follows the ends of the calls, one place behind. -/
theorem getElem?_returnsOn_of_recorded {limits : RunLimits} {r : Run} {history : History}
    {snapshot : Snapshot} {i id : Nat} (hrun : program.runOn? input limits = some r)
    (hhistory : r.history = some history) (hs : history.snapshots.toList[i]? = some snapshot)
    (hid : snapshot.statement = some id) :
    ∃ j call, i = j + 1 ∧ (program.returnsOn input limits.steps)[j]? = some (call, snapshot) := by
  obtain ⟨later, hbeginning⟩ := (beginning_of_recorded hrun hhistory).1
  obtain ⟨hlt, _⟩ := List.getElem?_eq_some_iff.mp hs
  have htrace : (Snapshot.initial input :: program.traceOn input limits.steps)[i]? =
      some snapshot := by
    rw [← hbeginning, List.getElem?_append_left hlt, hs]
  cases i with
  | zero =>
    cases htrace
    cases hid
  | succ j =>
    rw [List.getElem?_cons_succ, traceOn, ← map_snd_returns, List.getElem?_map] at htrace
    obtain ⟨⟨call, _⟩, hreturn, rfl⟩ := Option.map_eq_some_iff.mp htrace
    exact ⟨j, call, rfl, hreturn⟩

/-- **The numbers of a run are those of the listing.** Every call of a run is made with the number
of its statement, and the listing numbers the statements from top to bottom. Each snapshot that is
emitted comes from the end of a call and carries the number of this call; exactly one line of the
listing has it, and this line shows the statement that was called. So do the snapshots that a
history holds, other than the initial one. -/
theorem ids_agree_with_listing (program : Program) (input : List String) (budget : Option Nat) :
    (∀ moves, ∀ call ∈ (Machine.initial program input).calls budget moves,
      call.id < program.statementCount ∧ program.preorder[call.id]? = some call.statement) ∧
    program.listing.filterMap ListingLine.statement = List.range program.statementCount ∧
    (∀ moves,
      ((Machine.initial program input).returns budget moves []).map Prod.snd =
        (Machine.initial program input).trace budget moves ∧
      ∀ call snapshot, (call, snapshot) ∈ (Machine.initial program input).returns budget moves [] →
        call ∈ (Machine.initial program input).calls budget moves ∧
          snapshot.statement = some call.id ∧ program.Locates call) ∧
    ∀ limit r history, program.runOn? input ⟨limit, budget⟩ = some r → r.history = some history →
      ∀ i snapshot id, history.snapshots.toList[i]? = some snapshot → snapshot.statement = some id →
        ∃ j call, i = j + 1 ∧ (program.returnsOn input budget)[j]? = some (call, snapshot) ∧
          call ∈ program.callsOn input budget ∧ call.id = id ∧ program.Locates call := by
  refine ⟨fun moves call hcall => ?_, program.ids_listing, fun moves =>
    ⟨program.map_snd_returns input budget moves, fun _ _ => locates_of_mem_returns⟩,
    fun limit r history hrun hhistory i snapshot id hs hid => ?_⟩
  · have hpreorder := (Machine.placed_initial program input).calls moves call hcall
    obtain ⟨hlt, _⟩ := List.getElem?_eq_some_iff.mp hpreorder
    rw [program.length_preorder] at hlt
    exact ⟨hlt, hpreorder⟩
  · obtain ⟨j, call, rfl, hreturn⟩ := getElem?_returnsOn_of_recorded hrun hhistory hs hid
    obtain ⟨hcall, hstatement, hlocates⟩ := locates_of_mem_returns (List.mem_of_getElem? hreturn)
    rw [hid] at hstatement
    cases hstatement
    exact ⟨j, call, rfl, hreturn, hcall, rfl, hlocates⟩

/-- A branch in a loop, with a statement after the loop. -/
def nested : Program :=
  ⟨[.loop [.read "x", .check (.ident "x"), .branch (.ident "x") [.write (.ident "x")]],
    .write (.number "1")]⟩

/-- The statement of the branch has the number 4, the one after the loop the number 5; the branch is
not run again after the zero. The end of the loop emits the seventh snapshot after the initial one,
and its line is the only one with the number 0. -/
theorem ids_agree_with_listing_nested :
    ∃ r history, nested.runOn? ["7", "0"] ⟨some 2000, some 20⟩ = some r ∧
      r.history = some history ∧
      history.snapshots.toList.map Snapshot.statement =
        [none, some 1, some 2, some 4, some 3, some 1, some 2, some 0, some 5] ∧
      (nested.returnsOn ["7", "0"] (some 20)).map (fun entry => entry.1.statement.header) =
        ["read x", "check x", "write x", "if x", "read x", "check x", "do", "write 1"] ∧
      ∃ call snapshot, history.snapshots.toList[7]? = some snapshot ∧
        (nested.returnsOn ["7", "0"] (some 20))[6]? = some (call, snapshot) ∧ call.id = 0 ∧
        nested.Locates call := by
  have hids : (((nested.runOn? ["7", "0"] ⟨some 2000, some 20⟩).bind Run.history).map
      fun history => history.snapshots.toList.map Snapshot.statement) =
      some [none, some 1, some 2, some 4, some 3, some 1, some 2, some 0, some 5] := by
    decide +kernel
  obtain ⟨history, hrecorded, hlist⟩ := Option.map_eq_some_iff.mp hids
  obtain ⟨r, hrun, hhistory⟩ := Option.bind_eq_some_iff.mp hrecorded
  refine ⟨r, history, hrun, hhistory, hlist, by decide +kernel, ?_⟩
  have hseventh : (history.snapshots.toList.map Snapshot.statement)[7]? = some (some 0) := by
    rw [hlist]
    rfl
  rw [List.getElem?_map] at hseventh
  obtain ⟨snapshot, hs, hid⟩ := Option.map_eq_some_iff.mp hseventh
  obtain ⟨j, call, hj, hreturn, _, hcall, hlocates⟩ :=
    (ids_agree_with_listing nested ["7", "0"] (some 20)).2.2.2 (some 2000) r history hrun hhistory
      7 snapshot 0 hs hid
  cases hj
  exact ⟨call, snapshot, hs, hreturn, hcall, hlocates⟩

end Program

end StepCalc
