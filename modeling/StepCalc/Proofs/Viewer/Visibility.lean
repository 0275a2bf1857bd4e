import StepCalc.Proofs.Machine.Calls
import StepCalc.Viewer.Scroll

/-!
# What stays in view

Between two drawings any number of events can happen, and each drawing settles the offsets for the
heights that the panes have then. An event leaves the listing and the snapshots alone and never
touches the count of memory rows; it moves the position only together with the output offset, which
it sets to `bottom` (`onward_handle`). So whatever has happened before, a drawing shows the current
line, the last of more variables than before and, after a move, the last output word
(`drawing_keeps_place_in_view`).
-/

namespace StepCalc

namespace Viewer

/-- A row of a scrolled pane is in view. -/
def InView (offset height row : Nat) : Prop := offset ≤ row ∧ row < offset + visibleRows height

/-- The statement with the number `id` has its line in this row of a listing, and in no other. -/
def StandsAt (listing : List ListingLine) (id row : Nat) : Prop :=
  ∀ i : Nat, (listing[i]?).bind ListingLine.statement = some id ↔ i = row

/-! ## Offsets -/

section

variable {total visible offset row target : Nat}

theorem visibleRows_pos (height : Nat) : 0 < visibleRows height := by
  unfold visibleRows
  omega

theorem clamp_le (total visible offset : Nat) : clamp total visible offset ≤ total - visible := by
  unfold clamp
  split <;> omega

theorem clamp_clamp (total visible offset : Nat) :
    clamp total visible (clamp total visible offset) = clamp total visible offset := by
  unfold clamp
  split <;> omega

/-- A row that is kept at a target row inside the pane is in view. -/
theorem inView_pinned {height : Nat} (hrow : row < total) (htarget : target < visibleRows height) :
    InView (clamp total (visibleRows height) (row - target)) height row := by
  unfold InView clamp
  split <;> omega

/-- The last row is in view if the offset is not too small. -/
theorem inView_last {height : Nat} (htotal : 0 < total)
    (hoffset : total - visibleRows height ≤ offset) :
    InView (clamp total (visibleRows height) offset) height (total - 1) := by
  have hvisible := visibleRows_pos height
  unfold InView clamp
  split <;> omega

theorem settleTarget_lt (hvisible : 0 < visible) (target : Option Nat) :
    settleTarget visible target < visible := by
  unfold settleTarget
  omega

theorem settleTarget_settleTarget (visible : Nat) (target : Option Nat) :
    settleTarget visible (some (settleTarget visible target)) = settleTarget visible target := by
  unfold settleTarget
  rw [Option.getD_some]
  omega

/-- The offset of the program pane, with the current line at the row `target`. -/
def settleProgram (lines : Nat) (current : Option Nat) (visible target offset : Nat) : Nat :=
  clamp lines visible (match current with
    | some line => line - target
    | none => offset)

theorem settleProgram_settleProgram (lines : Nat) (current : Option Nat)
    (visible target offset : Nat) :
    settleProgram lines current visible target
        (settleProgram lines current visible target offset) =
      settleProgram lines current visible target offset := by
  cases current with
  | some line => rfl
  | none => exact clamp_clamp lines visible offset

theorem settleWords_settleWords (words : List String) (height offset : Nat) :
    settleWords words height (settleWords words height offset) = settleWords words height offset := by
  unfold settleWords
  split
  · rfl
  · exact clamp_clamp _ _ _

/-- When the rows have been counted, the offset of the memory pane is only clamped. -/
theorem settleMemory_self (rows height offset : Nat) :
    settleMemory rows rows height offset = clamp rows (visibleRows height) offset := by
  show clamp rows (visibleRows height) (if rows < rows ∧ _ then _ else offset) = _
  rw [if_neg fun h => Nat.lt_irrefl rows h.1]

end

/-! ## Drawing -/

section

variable (v : Viewer) (heights : PaneHeights)

theorem settle_eq : v.settle heights =
    { v with
      targetRow := some (settleTarget (visibleRows heights.program) v.targetRow)
      programOffset := settleProgram v.listing.length v.currentLine? (visibleRows heights.program)
        (settleTarget (visibleRows heights.program) v.targetRow) v.programOffset
      memoryOffset := settleMemory (memoryRows v.shownState.memory) v.memoryCount heights.memory
        v.memoryOffset
      memoryCount := memoryRows v.shownState.memory
      inputOffset := settleWords v.shownState.input heights.input v.inputOffset
      outputOffset := settleWords v.shownState.output heights.output v.outputOffset } := rfl

/-- The offsets are those that a drawing leaves behind. -/
structure Settled : Prop where
  target : some (settleTarget (visibleRows heights.program) v.targetRow) = v.targetRow
  program : settleProgram v.listing.length v.currentLine? (visibleRows heights.program)
    (settleTarget (visibleRows heights.program) v.targetRow) v.programOffset = v.programOffset
  memory : settleMemory (memoryRows v.shownState.memory) v.memoryCount heights.memory
    v.memoryOffset = v.memoryOffset
  count : memoryRows v.shownState.memory = v.memoryCount
  input : settleWords v.shownState.input heights.input v.inputOffset = v.inputOffset
  output : settleWords v.shownState.output heights.output v.outputOffset = v.outputOffset

theorem settled_settle : (v.settle heights).Settled heights where
  target := congrArg some (settleTarget_settleTarget _ _)
  program := (congrArg (settleProgram _ _ _ · _) (settleTarget_settleTarget _ _)).trans
    (settleProgram_settleProgram _ _ _ _ _)
  memory := (settleMemory_self _ _ _).trans (clamp_clamp _ _ _)
  count := rfl
  input := settleWords_settleWords _ _ _
  output := settleWords_settleWords _ _ _

variable {v heights}

/-- Drawing again changes nothing. -/
theorem Settled.settle_eq_self (h : v.Settled heights) : v.settle heights = v := by
  rw [settle_eq, h.target, h.program, h.memory, h.count, h.input, h.output]

end

/-! ## What a drawing shows -/

section

variable {v : Viewer} (heights : PaneHeights)

/-- The current line is in view. -/
theorem inView_line {snapshot : Snapshot} {id row : Nat}
    (hcurrent : v.history.current? = some snapshot) (hid : snapshot.statement = some id)
    (hrow : StandsAt v.listing id row) :
    InView (v.settle heights).programOffset heights.program row := by
  obtain ⟨line, hline, hstatement⟩ := Option.bind_eq_some_iff.mp ((hrow row).mpr rfl)
  obtain ⟨hlt, rfl⟩ := List.getElem?_eq_some_iff.mp hline
  have hfound : v.currentLine? = some row := by
    unfold currentLine?
    rw [hcurrent, Option.bind_some, hid, Option.bind_some, List.findIdx?_eq_some_iff_getElem]
    refine ⟨hlt, beq_iff_eq.mpr hstatement, fun i hi hsame => ?_⟩
    have hother := (hrow i).mp (by
      rw [List.getElem?_eq_getElem (Nat.lt_trans hi hlt), Option.bind_some]
      exact beq_iff_eq.mp hsame)
    omega
  rw [settle_eq]
  show InView (settleProgram _ v.currentLine? _ _ _) _ row
  rw [hfound]
  exact inView_pinned hlt (settleTarget_lt (visibleRows_pos _) _)

theorem programOffset_settle_le :
    (v.settle heights).programOffset ≤ v.listing.length - visibleRows heights.program :=
  clamp_le _ _ _

theorem memoryOffset_settle_le : (v.settle heights).memoryOffset ≤
    v.shownState.memory.cells.length - visibleRows heights.memory := by
  have hvisible := visibleRows_pos heights.memory
  have hclamped : (v.settle heights).memoryOffset ≤
      memoryRows v.shownState.memory - visibleRows heights.memory := clamp_le _ _ _
  unfold memoryRows at hclamped
  split at hclamped <;> omega

/-- The last of more variables than were counted before is in view. -/
theorem inView_memory {before : Memory} (hcount : v.memoryCount ≤ memoryRows before)
    (hmore : before.cells.length < v.shownState.memory.cells.length) :
    InView (v.settle heights).memoryOffset heights.memory
      (v.shownState.memory.cells.length - 1) := by
  have hvisible := visibleRows_pos heights.memory
  have hrows : memoryRows v.shownState.memory = v.shownState.memory.cells.length := by
    unfold memoryRows
    rw [if_neg (by rw [List.isEmpty_iff, ← List.length_eq_zero_iff]; omega)]
  have hbefore : v.memoryCount ≤ max 1 before.cells.length := by
    unfold memoryRows at hcount
    split at hcount <;> omega
  rw [← hrows] at hmore ⊢
  refine inView_last (by omega) ?_
  split <;> omega

/-- The last word is in view if the output is scrolled far enough. -/
theorem inView_output (hwords : v.shownState.output ≠ [])
    (hoffset : v.shownState.output.length ≤ v.outputOffset + 1) :
    InView (v.settle heights).outputOffset heights.output (v.shownState.output.length - 1) := by
  have hvisible := visibleRows_pos heights.output
  rw [settle_eq]
  show InView (settleWords _ _ _) _ _
  unfold settleWords
  rw [if_neg (by simpa using hwords)]
  exact inView_last (List.length_pos_iff.mpr hwords) (by omega)

end

/-! ## Events -/

/-- What events can do to what a drawing depends on, if they scroll the output back by at most
`rows` rows. -/
structure Onward (rows : Nat) (v w : Viewer) : Prop where
  listing : w.listing = v.listing
  snapshots : w.history.snapshots = v.history.snapshots
  memoryCount : w.memoryCount = v.memoryCount
  /-- The position moves only together with the output offset. -/
  moved : w.history.position ≠ v.history.position → bottom ≤ w.outputOffset + rows
  scrolled : min v.outputOffset bottom ≤ w.outputOffset + rows

section

variable {v w : Viewer} {history : History} {rows : Nat}

/-- Nothing of it has changed. -/
theorem onward_still (hlisting : w.listing = v.listing) (hhistory : w.history = v.history)
    (hcount : w.memoryCount = v.memoryCount) (houtput : w.outputOffset = v.outputOffset) :
    Onward rows v w where
  listing := hlisting
  snapshots := congrArg History.snapshots hhistory
  memoryCount := hcount
  moved := fun h => absurd (congrArg History.position hhistory) h
  scrolled := by omega

/-- The output has been scrolled by one row. -/
theorem onward_scroll (hlisting : w.listing = v.listing) (hhistory : w.history = v.history)
    (hcount : w.memoryCount = v.memoryCount)
    (houtput : w.outputOffset = higher v.outputOffset ∨ w.outputOffset = lower v.outputOffset) :
    Onward 1 v w where
  listing := hlisting
  snapshots := congrArg History.snapshots hhistory
  memoryCount := hcount
  moved := fun h => absurd (congrArg History.position hhistory) h
  scrolled := by
    unfold higher lower at houtput
    omega

theorem onward_moveTo (h : history.snapshots = v.history.snapshots) (message : String) :
    Onward rows v (v.moveTo history message) where
  listing := rfl
  snapshots := h
  memoryCount := rfl
  moved := fun _ => Nat.le_add_right bottom rows
  scrolled := Nat.le_add_right_of_le (Nat.min_le_right _ _)

/-- Whether the viewer is playing makes no difference. -/
theorem Onward.of_stopped (h : Onward rows v.stopped w) : Onward rows v w :=
  ⟨h.listing, h.snapshots, h.memoryCount, h.moved, h.scrolled⟩

theorem Onward.trans {x : Viewer} {more : Nat} (h : Onward rows v w) (h' : Onward more w x) :
    Onward (rows + more) v x where
  listing := h'.listing.trans h.listing
  snapshots := h'.snapshots.trans h.snapshots
  memoryCount := h'.memoryCount.trans h.memoryCount
  moved := by
    intro hmoved
    have hscrolled := h'.scrolled
    by_cases hlater : x.history.position = w.history.position
    · have hfirst := h.moved (hlater ▸ hmoved)
      omega
    · have hlast := h'.moved hlater
      omega
  scrolled := by
    have hfirst := h.scrolled
    have hlast := h'.scrolled
    omega

theorem snapshots_rewind (h : History) : h.rewind.snapshots = h.snapshots := rfl

theorem snapshots_toEnd (h : History) : h.toEnd.snapshots = h.snapshots := rfl

theorem snapshots_forward? {h h' : History} (hforward : h.forward? = some h') :
    h'.snapshots = h.snapshots := by
  unfold History.forward? at hforward
  split at hforward <;> cases hforward
  rfl

theorem snapshots_backward? {h h' : History} (hbackward : h.backward? = some h') :
    h'.snapshots = h.snapshots := by
  unfold History.backward? at hbackward
  split at hbackward <;> cases hbackward
  rfl

theorem snapshots_forwardBy (count : Nat) (h : History) :
    (forwardBy count h).1.snapshots = h.snapshots := by
  induction count generalizing h with
  | zero => rfl
  | succ count ih =>
    unfold forwardBy
    split
    case h_1 next hforward => exact (ih next).trans (snapshots_forward? hforward)
    case h_2 => rfl

end

section

variable (v : Viewer)

theorem onward_stepForward : Onward 1 v v.stepForward := by
  unfold stepForward
  split
  case h_1 hforward => exact onward_moveTo (snapshots_forward? hforward) _
  case h_2 => exact onward_still rfl rfl rfl rfl

theorem onward_stepBackward : Onward 1 v v.stepBackward := by
  unfold stepBackward
  split
  case h_1 hbackward => exact onward_moveTo (snapshots_backward? hbackward) _
  case h_2 => exact onward_still rfl rfl rfl rfl

theorem onward_tick : Onward 1 v v.tick := by
  unfold tick
  split
  case isTrue =>
    split
    case h_1 hforward => exact onward_moveTo (snapshots_forward? hforward) _
    case h_2 => exact onward_still rfl rfl rfl rfl
  case isFalse => exact onward_still rfl rfl rfl rfl

theorem onward_scrollUp : Onward 1 v v.scrollUp := by
  unfold scrollUp
  split
  case h_4 => exact onward_scroll rfl rfl rfl (Or.inl rfl)
  all_goals exact onward_still rfl rfl rfl rfl

theorem onward_scrollDown : Onward 1 v v.scrollDown := by
  unfold scrollDown
  split
  case h_4 => exact onward_scroll rfl rfl rfl (Or.inr rfl)
  all_goals exact onward_still rfl rfl rfl rfl

theorem onward_handleCharacter (c : Char) : Onward 1 v (v.handleCharacter c) := by
  unfold handleCharacter
  split
  · exact onward_still rfl rfl rfl rfl
  · split
    · exact (onward_moveTo (snapshots_forwardBy _ _) _ : Onward 1 v.stopped _).of_stopped
    · exact onward_still rfl rfl rfl rfl

theorem onward_handle (event : Event) : Onward 1 v (v.handle event) := by
  cases event with
  | escape | tab | backTab => exact onward_still rfl rfl rfl rfl
  | character c => exact v.onward_handleCharacter c
  | left => exact v.stopped.onward_stepBackward.of_stopped
  | right => exact v.stopped.onward_stepForward.of_stopped
  | up => exact v.onward_scrollUp
  | down => exact v.onward_scrollDown
  | space settled => cases settled <;> exact onward_still rfl rfl rfl rfl
  | enter => exact (onward_moveTo (snapshots_toEnd _) _ : Onward 1 v.stopped _).of_stopped
  | backspace => exact (onward_moveTo (snapshots_rewind _) _ : Onward 1 v.stopped _).of_stopped
  | tick => exact v.onward_tick

def handleEach (events : List Event) : Viewer := events.foldl handle v

theorem onward_handleEach (events : List Event) :
    Onward events.length v (v.handleEach events) := by
  induction events generalizing v with
  | nil => exact onward_still rfl rfl rfl rfl
  | cons event events ih =>
    have hrest := (v.onward_handle event).trans (ih (v.handle event))
    rw [Nat.add_comm] at hrest
    exact hrest

/-! ## Turns -/

/-- What happens up to a drawing, and the heights that the panes have then. -/
structure Turn where
  events : List Event
  heights : PaneHeights

/-- The viewer after some events and a drawing. -/
def takeTurn (turn : Turn) : Viewer := (v.handleEach turn.events).settle turn.heights

def after (turns : List Turn) : Viewer := turns.foldl takeTurn v

end

/-- The viewer goes through the history of a run of the program, and it has counted no more rows of
the memory pane than there are. -/
structure Replays (program : Program) (history : History) (v : Viewer) : Prop where
  listing : v.listing = program.listing
  snapshots : v.history.snapshots = history.snapshots
  counted : v.memoryCount ≤ memoryRows v.shownState.memory

section

variable {program : Program} {history : History} {v : Viewer}

theorem replays_replay (program : Program) (history : History) :
    Replays program history (replay program history) where
  listing := rfl
  snapshots := rfl
  counted := Nat.zero_le _

theorem Replays.takeTurn (h : Replays program history v) (turn : Turn) :
    Replays program history (v.takeTurn turn) where
  listing := (v.onward_handleEach turn.events).listing.trans h.listing
  snapshots := (v.onward_handleEach turn.events).snapshots.trans h.snapshots
  counted := Nat.le_refl _

theorem Replays.after (h : Replays program history v) (turns : List Turn) :
    Replays program history (v.after turns) := by
  induction turns generalizing v with
  | nil => exact h
  | cons turn turns ih => exact ih (h.takeTurn turn)

end

end Viewer

/-! ## Recorded runs -/

namespace Program

variable {program : Program} {input : List String} {r : Run} {history : History}

/-- The lines of a listing have different numbers. -/
theorem eq_of_statement_eq {i j id : Nat}
    (hi : (program.listing[i]?).bind ListingLine.statement = some id)
    (hj : (program.listing[j]?).bind ListingLine.statement = some id) : i = j := by
  have hdistinct : (program.listing.filterMap ListingLine.statement).Pairwise (· ≠ ·) := by
    rw [ids_listing]
    exact List.nodup_range
  have hlines := List.pairwise_iff_getElem.mp (List.pairwise_filterMap.mp hdistinct)
  obtain ⟨_, hline, hid⟩ := Option.bind_eq_some_iff.mp hi
  obtain ⟨hi, rfl⟩ := List.getElem?_eq_some_iff.mp hline
  obtain ⟨_, hline, hid'⟩ := Option.bind_eq_some_iff.mp hj
  obtain ⟨hj, rfl⟩ := List.getElem?_eq_some_iff.mp hline
  rcases Nat.lt_trichotomy i j with hlt | heq | hlt
  · exact absurd rfl (hlines i j hi hj hlt id hid id hid')
  · exact heq
  · exact absurd rfl (hlines j i hj hi hlt id hid' id hid)

/-- The statement that led to a recorded snapshot has one row in the listing. -/
theorem exists_row_of_recorded {limits : RunLimits} {snapshot : Snapshot} {id : Nat}
    (hrun : program.runOn? input limits = some r) (hhistory : r.history = some history)
    (hs : snapshot ∈ history.snapshots.toList) (hid : snapshot.statement = some id) :
    ∃ row, Viewer.StandsAt program.listing id row := by
  obtain ⟨i, hs⟩ := List.mem_iff_getElem?.mp hs
  obtain ⟨j, call, rfl, hreturn⟩ := getElem?_returnsOn_of_recorded hrun hhistory hs hid
  obtain ⟨_, hstatement, line, hfilter, _⟩ :=
    locates_of_mem_returns (List.mem_of_getElem? hreturn)
  rw [hid] at hstatement
  cases hstatement
  have hmem : line ∈ program.listing.filter fun line => line.statement = some call.id := by
    rw [hfilter]
    exact List.mem_cons_self
  obtain ⟨hline, hstatement⟩ := List.mem_filter.mp hmem
  obtain ⟨row, hrow⟩ := List.mem_iff_getElem?.mp hline
  have hrow : (program.listing[row]?).bind ListingLine.statement = some call.id := by
    rw [hrow, Option.bind_some]
    exact of_decide_eq_true hstatement
  exact ⟨row, fun i => ⟨fun hi => eq_of_statement_eq hi hrow, fun hi => hi ▸ hrow⟩⟩

theorem length_le_bytesOfWords (words : List String) :
    Snapshot.wordBytes * words.length ≤ Snapshot.bytesOfWords words := by
  induction words with
  | nil => exact Nat.le_refl 0
  | cons word words ih =>
    simp only [Snapshot.bytesOfWords, List.map_cons, total, List.length_cons] at ih ⊢
    rw [Nat.mul_add_one]
    omega

/-- A history has no room for more output words than its limit has bytes. -/
theorem length_output_le {limit : Nat} {budget : Option Nat} {snapshot : Snapshot}
    (hrun : program.runOn? input ⟨some limit, budget⟩ = some r) (hhistory : r.history = some history)
    (hs : snapshot ∈ history.snapshots.toList) :
    Snapshot.wordBytes * snapshot.state.output.length ≤ limit := by
  obtain ⟨history', hhistory', hkept, _⟩ := longestFitting_of_runOn? hrun
  rw [hhistory] at hhistory'
  cases hhistory'
  calc Snapshot.wordBytes * snapshot.state.output.length
      ≤ Snapshot.bytesOfWords snapshot.state.output := length_le_bytesOfWords _
    _ ≤ snapshot.byteSize := Nat.le_add_left _ _
    _ ≤ bytesOfSnapshots history.snapshots.toList :=
      le_total_of_mem (List.mem_map.mpr ⟨snapshot, hs, rfl⟩)
    _ ≤ limit := hkept.fits

end Program

namespace Viewer

section

variable {program : Program} {input : List String} {r : Run} {history : History} {v : Viewer}

theorem Replays.current?_mem (h : Replays program history v) {snapshot : Snapshot}
    (hcurrent : v.history.current? = some snapshot) : snapshot ∈ history.snapshots.toList := by
  unfold History.current? History.get? at hcurrent
  rw [h.snapshots] at hcurrent
  exact Array.mem_toList_iff.mpr (Array.mem_of_getElem? hcurrent)

/-- What is shown has no more words than the limit has bytes. -/
theorem Replays.length_output_le (h : Replays program history v) {limit : Nat}
    {budget : Option Nat} (hrun : program.runOn? input ⟨some limit, budget⟩ = some r)
    (hhistory : r.history = some history) :
    Snapshot.wordBytes * v.shownState.output.length ≤ limit := by
  unfold shownState
  cases hcurrent : v.history.current? with
  | none => exact Nat.zero_le limit
  | some snapshot => exact Program.length_output_le hrun hhistory (h.current?_mem hcurrent)

/-- After a move the offset is so large that the events that follow, each of at most one row, leave
it behind the last word. -/
theorem Replays.inView_output_takeTurn (h : Replays program history v) {limit : Nat}
    {budget : Option Nat} (hlimit : limit ≤ maxCount)
    (hrun : program.runOn? input ⟨some limit, budget⟩ = some r) (hhistory : r.history = some history)
    {turn : Turn} {before later : List Event} {event : Event}
    (hturn : turn.events = before ++ event :: later) (hfew : 2 * later.length ≤ bottom)
    (hmoved : ((v.handleEach before).handle event).history.position ≠
      (v.handleEach before).history.position)
    (hwords : (v.takeTurn turn).shownState.output ≠ []) :
    InView (v.takeTurn turn).outputOffset turn.heights.output
      ((v.takeTurn turn).shownState.output.length - 1) := by
  refine inView_output turn.heights hwords ?_
  have hsplit : v.handleEach turn.events =
      ((v.handleEach before).handle event).handleEach later := by
    rw [hturn]
    exact List.foldl_append
  have hbottom := ((v.handleEach before).onward_handle event).moved hmoved
  have hlater := (((v.handleEach before).handle event).onward_handleEach later).scrolled
  rw [← hsplit] at hlater
  -- a word takes up 24 bytes of the limit
  have hlength : 24 * (v.handleEach turn.events).shownState.output.length ≤ limit :=
    (h.takeTurn turn).length_output_le hrun hhistory
  have hlargest : bottom = maxCount := rfl
  omega

end

/-- **A drawing shows where the viewer is.** The history of a run is shown; before, any number of
turns have been taken, each of some events and a drawing, with any heights. After one more turn:

* the statement that led to the current snapshot has one row in the listing, and it is in view;
* the program and the memory are scrolled no further down than their rows reach;
* if there are more variables than at the drawing before, the last one is in view;
* if an event has moved the position, the last output word is in view; other events can come
  between it and the drawing, up to half as many as the largest offset;
* to draw once more with the same heights changes nothing. -/
theorem drawing_keeps_place_in_view {program : Program} {input : List String} {limit : Nat}
    {budget : Option Nat} {r : Run} {history : History} (hlimit : limit ≤ maxCount)
    (hrun : program.runOn? input ⟨some limit, budget⟩ = some r) (hhistory : r.history = some history)
    (turns : List Turn) (turn : Turn) :
    let v := (replay program history).after turns
    let w := v.takeTurn turn
    (∀ snapshot id, w.history.current? = some snapshot → snapshot.statement = some id →
      ∃ row, StandsAt program.listing id row ∧
        InView w.programOffset turn.heights.program row) ∧
    (w.programOffset ≤ program.listing.length - visibleRows turn.heights.program ∧
      w.memoryOffset ≤ w.shownState.memory.cells.length - visibleRows turn.heights.memory) ∧
    (v.shownState.memory.cells.length < w.shownState.memory.cells.length →
      InView w.memoryOffset turn.heights.memory (w.shownState.memory.cells.length - 1)) ∧
    (∀ before event later, turn.events = before ++ event :: later → 2 * later.length ≤ bottom →
      ((v.handleEach before).handle event).history.position ≠
        (v.handleEach before).history.position →
      w.shownState.output ≠ [] →
      InView w.outputOffset turn.heights.output (w.shownState.output.length - 1)) ∧
    w.settle turn.heights = w := by
  intro v w
  have hv : Replays program history v := (replays_replay program history).after turns
  have hw : Replays program history w := hv.takeTurn turn
  refine ⟨fun snapshot id hcurrent hid => ?_, ⟨?_, memoryOffset_settle_le _⟩, fun hmore => ?_,
    fun before event later hturn hfew hmoved hwords => ?_, (settled_settle _ _).settle_eq_self⟩
  · obtain ⟨row, hrow⟩ :=
      Program.exists_row_of_recorded hrun hhistory (hw.current?_mem hcurrent) hid
    refine ⟨row, hrow, inView_line turn.heights hcurrent hid ?_⟩
    rw [← hw.listing] at hrow
    exact hrow
  · rw [← hw.listing]
    exact programOffset_settle_le _
  · refine inView_memory turn.heights ?_ hmore
    rw [(v.onward_handleEach turn.events).memoryCount]
    exact hv.counted
  · exact hv.inView_output_takeTurn hlimit hrun hhistory hturn hfew hmoved hwords

/-- Reads two words and writes each. -/
def echoTwo : Program :=
  ⟨[.read "a", .write (.ident "a"), .read "b", .write (.ident "b")]⟩

/-- The panes are high at first; in the first step the focus goes to the output. -/
def echoTurns : List Turn := [⟨[], ⟨9, 9, 9, 9⟩⟩, ⟨[.right, .tab], ⟨9, 9, 9, 9⟩⟩]

/-- Three steps forward, and the output is scrolled up; then each pane has room for one row only. -/
def echoTurn : Turn := ⟨[.character '3', .up], ⟨3, 3, 3, 0⟩⟩

/-- The last line, the second variable and the second word are in view. -/
theorem drawing_keeps_place_in_view_echoTwo :
    ∃ r history, echoTwo.runOn? ["7", "8"] ⟨some 4000, some 20⟩ = some r ∧
      r.history = some history ∧
      let v := (replay echoTwo history).after echoTurns
      let w := v.takeTurn echoTurn
      (w.history.current?.bind Snapshot.statement = some 3 ∧
        v.shownState.memory.cells.length = 1 ∧ w.shownState.memory.cells.length = 2 ∧
        w.shownState.output = ["7", "8"] ∧ v.history.position = 1 ∧
        (v.handle (.character '3')).history.position = 4) ∧
      InView w.programOffset 3 3 ∧ InView w.memoryOffset 3 1 ∧ InView w.outputOffset 3 1 := by
  have hcomputed : (((echoTwo.runOn? ["7", "8"] ⟨some 4000, some 20⟩).bind Run.history).map
      fun history =>
        let v := (replay echoTwo history).after echoTurns
        let w := v.takeTurn echoTurn
        (w.history.current?.bind Snapshot.statement, v.shownState.memory.cells.length,
          w.shownState.memory.cells.length, w.shownState.output, v.history.position,
          (v.handle (.character '3')).history.position)) =
      some (some 3, 1, 2, ["7", "8"], 1, 4) := by
    decide +kernel
  obtain ⟨history, hrecorded, hfacts⟩ := Option.map_eq_some_iff.mp hcomputed
  obtain ⟨r, hrun, hhistory⟩ := Option.bind_eq_some_iff.mp hrecorded
  simp only [Prod.mk.injEq] at hfacts
  obtain ⟨hstatement, hbefore, hcells, hwords, hposition, hmoved⟩ := hfacts
  obtain ⟨hline, _, hmemory, houtput, _⟩ :=
    drawing_keeps_place_in_view (by decide) hrun hhistory echoTurns echoTurn
  refine ⟨r, history, hrun, hhistory, ⟨hstatement, hbefore, hcells, hwords, hposition, hmoved⟩,
    ?_, ?_, ?_⟩
  · obtain ⟨snapshot, hcurrent, hid⟩ := Option.bind_eq_some_iff.mp hstatement
    obtain ⟨row, hrow, hview⟩ := hline snapshot 3 hcurrent hid
    have hthird : 3 = row := (hrow 3).mp (by decide)
    rwa [← hthird] at hview
  · rw [hbefore, hcells] at hmemory
    exact hmemory (by decide)
  · have hview := houtput [] (.character '3') [.up] rfl (by decide)
      (fun hsame => absurd (hmoved.symm.trans (hsame.trans hposition)) (by decide))
      (by rw [hwords]; decide)
    rw [hwords] at hview
    exact hview

end Viewer

end StepCalc
