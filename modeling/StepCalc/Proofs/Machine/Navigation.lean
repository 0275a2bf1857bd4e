import StepCalc.Proofs.Machine.Recording

/-!
# Recording and stepping

Snapshots can be pushed onto a history at any time, and between pushes the position can be moved
freely. The two do not get into each other's way: apart from the position, a history is what its
pushes alone make of it (`after_eq_foldl`), and the position is always at a snapshot if there is one
(`Orderly.perform`). Steps forward and backward undo each other, and an operation that fails changes
nothing, except that the first push that fails closes the history for all later ones
(`history_stays_orderly`).
-/

namespace StepCalc

namespace History

/-! ## Operations -/

inductive Operation where
  | push (s : Snapshot)
  | forward
  | backward
  | rewind
  | toEnd
deriving DecidableEq

def Operation.pushed? : Operation → Option Snapshot
  | push s => some s
  | _ => none

/-- Whether an operation succeeds, and the history afterwards. -/
def perform (h : History) : Operation → Bool × History
  | .push s => ((h.push s).2.isNone, (h.push s).1)
  | .forward => (h.forward?.isSome, h.forward?.getD h)
  | .backward => (h.backward?.isSome, h.backward?.getD h)
  | .rewind => (true, h.rewind)
  | .toEnd => (true, h.toEnd)

def movedTo (h : History) (position : Nat) : History := { h with position }

def after (h : History) (operations : List Operation) : History :=
  operations.foldl (fun h op => (h.perform op).2) h

def pushed (operations : List Operation) : List Snapshot :=
  operations.filterMap Operation.pushed?

/-- The snapshot that an operation pushes, if it succeeds. -/
def accepted? (h : History) (op : Operation) : Option Snapshot :=
  if (h.perform op).1 then op.pushed? else none

/-- The snapshots that are pushed with success, in order. -/
def accepted (h : History) : List Operation → List Snapshot
  | [] => []
  | op :: operations => (h.accepted? op).toList ++ (h.perform op).2.accepted operations

/-- The size of a history is that of its snapshots and within the limit, and the position is at a
snapshot if there is one. -/
structure Orderly (room : Nat) (h : History) : Prop where
  limit : h.limit = room
  usage : h.usage = bytesOfSnapshots h.snapshots.toList
  fits : h.usage ≤ room
  position : h.position < h.length ∨ h.position = 0 ∧ h.length = 0

/-! ## Pushing -/

section

variable {h : History} {s : Snapshot}

theorem perform_of_pushed? (h : History) {op : Operation} (hop : op.pushed? = some s) :
    (h.perform op).2 = h.record s := by
  cases op with
  | push s =>
    cases hop
    exact (h.record_eq_push s).symm
  | _ => cases hop

theorem perform_push_fst_iff :
    (h.perform (.push s)).1 = true ↔ h.truncated = false ∧ h.usage + s.byteSize ≤ h.limit := by
  simp only [perform, push]
  split
  case isTrue hrefused =>
    simp only [Bool.or_eq_true, decide_eq_true_eq] at hrefused
    simp only [Option.isNone_some, Bool.false_eq_true, false_iff, not_and]
    intro hopen
    rcases hrefused with hclosed | hexcess
    · exact absurd (hopen.symm.trans hclosed) Bool.false_ne_true
    · omega
  case isFalse haccepted =>
    simpa using haccepted

theorem perform_push_of_truncated (hclosed : h.truncated = true) (s : Snapshot) :
    (h.perform (.push s)).1 = false := by
  refine Bool.eq_false_iff.mpr fun haccepted => ?_
  have hopen := (perform_push_fst_iff.mp haccepted).1
  exact Bool.false_ne_true (hopen.symm.trans hclosed)

/-- A push that fails does nothing but close the history. -/
theorem perform_push_of_refused (h : History) (s : Snapshot)
    (hrefused : (h.perform (.push s)).1 = false) :
    (h.perform (.push s)).2 = { h with truncated := true } := by
  simp only [perform, push] at hrefused ⊢
  split
  case isTrue => rfl
  case isFalse haccepted =>
    rw [if_neg haccepted] at hrefused
    cases hrefused

theorem perform_push_of_accepted (haccepted : (h.perform (.push s)).1 = true) :
    (h.perform (.push s)).2 =
      { h with snapshots := h.snapshots.push s, usage := h.usage + s.byteSize } := by
  obtain ⟨hopen, hfits⟩ := perform_push_fst_iff.mp haccepted
  rw [perform_of_pushed? h rfl, record_of_fits hopen hfits]

/-- Recording has nothing to do with the position. -/
theorem record_moved (h : History) (position : Nat) (s : Snapshot) :
    (h.movedTo position).record s = (h.record s).movedTo position := by
  unfold movedTo record push
  dsimp only
  split
  · rfl
  · split <;> rfl

theorem foldl_record_moved (h : History) (position : Nat) (snapshots : List Snapshot) :
    snapshots.foldl record (h.movedTo position) = (snapshots.foldl record h).movedTo position := by
  induction snapshots generalizing h with
  | nil => rfl
  | cons s snapshots ih => rw [List.foldl_cons, record_moved, ih, List.foldl_cons]

end

/-! ## Stepping -/

section

variable {op : Operation}

theorem forward?_eq_none_iff (h : History) : h.forward? = none ↔ h.length ≤ h.position + 1 := by
  simp [forward?]

/-- An operation that pushes nothing moves the position and does nothing else. -/
theorem perform_of_pushed?_eq_none (h : History) (hop : op.pushed? = none) :
    (h.perform op).2 = h.movedTo (h.perform op).2.position := by
  cases op with
  | push s => cases hop
  | forward =>
    simp only [perform, forward?]
    split <;> rfl
  | backward =>
    simp only [perform, backward?]
    split <;> rfl
  | rewind | toEnd => rfl

/-- A step that fails changes nothing. -/
theorem perform_of_failed (h : History) (hop : op.pushed? = none)
    (hfailed : (h.perform op).1 = false) : (h.perform op).2 = h := by
  cases op with
  | push s => cases hop
  | forward | backward =>
    rw [perform, Option.isSome_eq_false_iff, Option.isNone_iff_eq_none] at hfailed
    rw [perform, hfailed]
    rfl
  | rewind | toEnd => cases hfailed

theorem isAtEnd_iff (h : History) : h.isAtEnd = true ↔ (h.perform .forward).1 = false := by
  rw [perform, Option.isSome_eq_false_iff, Option.isNone_iff_eq_none, forward?_eq_none_iff]
  exact decide_eq_true_iff

theorem backward_forward (h : History) (hforward : (h.perform .forward).1 = true) :
    (h.perform .forward).2.perform .backward = (true, h) := by
  have hroom : h.position + 1 < h.length := by
    simpa [perform, forward?] using hforward
  simp [perform, forward?, hroom, backward?]

/-- A step backward can be undone if the position is not beyond the last snapshot. -/
theorem Orderly.forward_backward {room : Nat} {h : History} (hh : h.Orderly room)
    (hbackward : (h.perform .backward).1 = true) :
    (h.perform .backward).2.perform .forward = (true, h) := by
  have hpositive : 0 < h.position := by
    simpa [perform, backward?] using hbackward
  have hroom : h.position - 1 + 1 < h.length := by
    rcases hh.position with hlt | ⟨hzero, _⟩ <;> omega
  have hback : h.position - 1 + 1 = h.position := by omega
  simp only [perform, backward?, if_pos hpositive, Option.getD_some, forward?, length] at hroom ⊢
  rw [if_pos hroom, hback]
  rfl

end

/-! ## What operations keep -/

theorem orderly_empty (limit : Nat) : (History.empty limit).Orderly limit where
  limit := rfl
  usage := rfl
  fits := Nat.zero_le limit
  position := Or.inr ⟨rfl, rfl⟩

namespace Orderly

variable {room : Nat} {h : History}

theorem push (hh : h.Orderly room) (s : Snapshot) : (h.perform (.push s)).2.Orderly room := by
  cases hresult : (h.perform (.push s)).1 with
  | false =>
    rw [perform_push_of_refused h s hresult]
    exact ⟨hh.limit, hh.usage, hh.fits, hh.position⟩
  | true =>
    have hfits := (perform_push_fst_iff.mp hresult).2
    rw [perform_push_of_accepted hresult]
    refine ⟨hh.limit, ?_, hh.limit ▸ hfits, Or.inl ?_⟩
    · simp only [Array.toList_push, bytesOfSnapshots_append, hh.usage]
      rfl
    · have hposition := hh.position
      simp only [length, Array.size_push] at hposition ⊢
      omega

/-- The position after a move is at a snapshot if it was before. -/
theorem position_moved (hh : h.Orderly room) {op : Operation} (hop : op.pushed? = none) :
    (h.perform op).2.position < h.length ∨ (h.perform op).2.position = 0 ∧ h.length = 0 := by
  have hposition := hh.position
  cases op with
  | push s => cases hop
  | forward =>
    simp only [History.perform, forward?]
    split
    · exact Or.inl ‹_›
    · exact hposition
  | backward =>
    simp only [History.perform, backward?]
    split
    · simp only [Option.getD_some]
      omega
    · exact hposition
  | rewind =>
    show 0 < h.length ∨ 0 = 0 ∧ h.length = 0
    omega
  | toEnd =>
    show h.length - 1 < h.length ∨ h.length - 1 = 0 ∧ h.length = 0
    omega

theorem perform (hh : h.Orderly room) (op : Operation) : (h.perform op).2.Orderly room := by
  cases hop : op.pushed? with
  | some s =>
    cases op with
    | push s => exact hh.push s
    | _ => cases hop
  | none =>
    have hposition := hh.position_moved hop
    rw [perform_of_pushed?_eq_none h hop]
    exact ⟨hh.limit, hh.usage, hh.fits, hposition⟩

theorem after (hh : h.Orderly room) (operations : List Operation) :
    (h.after operations).Orderly room := by
  induction operations generalizing h with
  | nil => exact hh
  | cons op operations ih => exact ih (hh.perform op)

/-- There is a current snapshot unless there is none at all. -/
theorem current?_eq_none_iff (hh : h.Orderly room) : h.current? = none ↔ h.length = 0 := by
  have hposition := hh.position
  simp only [current?, get?, length, Array.getElem?_eq_none_iff] at hposition ⊢
  omega

end Orderly

theorem after_cons (h : History) (op : Operation) (operations : List Operation) :
    h.after (op :: operations) = (h.perform op).2.after operations :=
  rfl

/-- Apart from its position, a history is what its pushes alone make of it. -/
theorem after_eq_foldl (h : History) (operations : List Operation) :
    h.after operations =
      ((pushed operations).foldl record h).movedTo (h.after operations).position := by
  induction operations generalizing h with
  | nil => rfl
  | cons op operations ih =>
    rw [after_cons]
    cases hop : op.pushed? with
    | some s =>
      have hpushed : pushed (op :: operations) = s :: pushed operations :=
        List.filterMap_cons_some hop
      rw [hpushed, List.foldl_cons, perform_of_pushed? h hop]
      exact ih (h.record s)
    | none =>
      have hpushed : pushed (op :: operations) = pushed operations := List.filterMap_cons_none hop
      have hrest := ih (h.movedTo (h.perform op).2.position)
      rw [foldl_record_moved] at hrest
      rw [hpushed, perform_of_pushed?_eq_none h hop]
      exact hrest

theorem snapshots_perform (h : History) (op : Operation) :
    (h.perform op).2.snapshots.toList = h.snapshots.toList ++ (h.accepted? op).toList := by
  unfold accepted?
  cases op with
  | push s =>
    cases hresult : (h.perform (.push s)).1 with
    | false => simp [perform_push_of_refused h s hresult]
    | true => simp [perform_push_of_accepted hresult, Operation.pushed?]
  | _ =>
    rw [perform_of_pushed?_eq_none h rfl]
    simp [Operation.pushed?, movedTo]

theorem snapshots_after (h : History) (operations : List Operation) :
    (h.after operations).snapshots.toList = h.snapshots.toList ++ h.accepted operations := by
  induction operations generalizing h with
  | nil => exact (List.append_nil _).symm
  | cons op operations ih =>
    have hrest := ih (h.perform op).2
    rw [snapshots_perform, List.append_assoc] at hrest
    exact hrest

theorem truncated_after {h : History} (hclosed : h.truncated = true) (operations : List Operation) :
    (h.after operations).truncated = true := by
  rw [after_eq_foldl, foldl_record_of_truncated hclosed]
  exact hclosed

/-- A history holds the longest beginning of all that was pushed that fits its limit, and is closed
if that is not all of it. -/
theorem recorded_after (limit : Nat) (operations : List Operation) :
    LongestFitting limit (pushed operations)
        ((History.empty limit).after operations).snapshots.toList ∧
      (((History.empty limit).after operations).truncated = true ↔
        ((History.empty limit).after operations).snapshots.toList ≠ pushed operations) := by
  obtain ⟨hkept, _, htruncated⟩ := longestFitting_foldl_record limit (pushed operations)
  rw [after_eq_foldl]
  exact ⟨hkept, htruncated⟩

/-- **Recording and stepping keep a history in order.** After any operations on a new history:

* its size is that of its snapshots and within the limit, and no larger than that of all snapshots
  that were pushed;
* the position is at a snapshot, which is the current one, or there is no snapshot at all; it is at
  the end exactly if a step forward fails;
* the snapshots are those that were pushed with success, in order, and they are the longest
  beginning of all that were pushed that fits; the history is closed exactly if that is not all;
* a push that fails does nothing but close the history, and then all later ones fail; a step that
  fails changes nothing, and one that succeeds moves the position alone;
* a step forward and a step backward undo each other. -/
theorem history_stays_orderly (limit : Nat) (operations : List Operation) :
    let h := (History.empty limit).after operations
    (h.usage = bytesOfSnapshots h.snapshots.toList ∧ h.usage ≤ limit ∧
      h.usage ≤ bytesOfSnapshots (pushed operations)) ∧
    ((h.position < h.length ∨ h.position = 0 ∧ h.length = 0) ∧
      h.current? = h.snapshots.toList[h.position]? ∧ (h.current? = none ↔ h.length = 0) ∧
      (h.isAtEnd = true ↔ (h.perform .forward).1 = false)) ∧
    (h.snapshots.toList = (History.empty limit).accepted operations ∧
      LongestFitting limit (pushed operations) h.snapshots.toList ∧
      (h.truncated = true ↔ h.snapshots.toList ≠ pushed operations)) ∧
    ((∀ s, (h.perform (.push s)).1 = false →
        (h.perform (.push s)).2 = { h with truncated := true }) ∧
      (h.truncated = true → ∀ later s, ((h.after later).perform (.push s)).1 = false) ∧
      (∀ op : Operation, op.pushed? = none → (h.perform op).1 = false → (h.perform op).2 = h) ∧
      ∀ op : Operation, op.pushed? = none →
        (h.perform op).2 = h.movedTo (h.perform op).2.position) ∧
    ((h.perform .forward).1 = true → (h.perform .forward).2.perform .backward = (true, h)) ∧
    ((h.perform .backward).1 = true → (h.perform .backward).2.perform .forward = (true, h)) := by
  intro h
  have hh : h.Orderly limit := (orderly_empty limit).after operations
  have hsnapshots : h.snapshots.toList = (History.empty limit).accepted operations :=
    snapshots_after (.empty limit) operations
  obtain ⟨hkept, htruncated⟩ := recorded_after limit operations
  refine ⟨⟨hh.usage, hh.fits, hh.usage ▸ hkept.bytes_le⟩,
    ⟨hh.position, Array.getElem?_toList.symm, hh.current?_eq_none_iff, h.isAtEnd_iff⟩,
    ⟨hsnapshots, hkept, htruncated⟩,
    ⟨h.perform_push_of_refused, fun hclosed later s => ?_, fun op => h.perform_of_failed,
      fun op => h.perform_of_pushed?_eq_none⟩, h.backward_forward, hh.forward_backward⟩
  exact perform_push_of_truncated (truncated_after hclosed later) s

/-- Pushes of 104, 129 and 154 bytes with steps between them, the first on an empty history. -/
def crowding : List Operation :=
  [.backward, .toEnd, .push (.initial []), .forward, .push (.initial ["1"]), .forward, .forward,
    .push (.initial ["1", "2"])]

/-- With 340 bytes the third push fails. From then on there is room for 104 bytes, and yet these are
refused. The steps forward have led to the second snapshot, where a step backward can be undone. -/
theorem history_stays_orderly_crowding :
    let h := (History.empty 340).after crowding
    (h.truncated = true ∧ h.usage = 233 ∧ h.position = 1 ∧ (h.perform .forward).1 = false) ∧
    h.usage + (Snapshot.initial []).byteSize ≤ 340 ∧
    ((h.after [.rewind, .toEnd]).perform (.push (.initial []))).1 = false ∧
    h.snapshots.toList = [.initial [], .initial ["1"]] ∧ (h.perform .forward).2 = h ∧
    (h.perform .backward).1 = true ∧ (h.perform .backward).2.perform .forward = (true, h) := by
  have hfacts : let h := (History.empty 340).after crowding
      (h.truncated = true ∧ h.usage = 233 ∧ h.position = 1 ∧ (h.perform .forward).1 = false) ∧
      h.usage + (Snapshot.initial []).byteSize ≤ 340 ∧
      (History.empty 340).accepted crowding = [.initial [], .initial ["1"]] ∧
      (h.perform .backward).1 = true := by
    decide +kernel
  obtain ⟨hstate, hroom, haccepted, hbackward⟩ := hfacts
  obtain ⟨_, _, ⟨hsnapshots, _⟩, ⟨_, hclosed, hfailed, _⟩, _, hundone⟩ :=
    history_stays_orderly 340 crowding
  exact ⟨hstate, hroom, hclosed hstate.1 _ _, hsnapshots.trans haccepted,
    hfailed .forward rfl hstate.2.2.2, hbackward, hundone hbackward⟩

end History

end StepCalc
