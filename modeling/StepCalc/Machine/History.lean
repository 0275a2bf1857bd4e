import StepCalc.Machine.State

/-!
# Histories

A snapshot is a state right after a statement. A history keeps snapshots up to a limit on their
total size, with a position to step through them. The first snapshot that does not fit closes the
history: it and all later ones are refused, however small they are.
-/

namespace StepCalc

/-- A state, the statement that led to it and how that statement ended. -/
structure Snapshot where
  /-- The id of the statement; none before the first one. -/
  statement : Option Nat
  state : State
  status : Status
deriving DecidableEq

namespace Snapshot

/-- The size of a snapshot without cells and words. -/
def baseBytes : Nat := 104

/-- The size of a word without its text. -/
def wordBytes : Nat := 24

def bytesOfWords (words : List String) : Nat :=
  total (words.map fun word => word.utf8ByteSize + wordBytes)

/-- The number of bytes that a snapshot takes up. -/
def byteSize (s : Snapshot) : Nat :=
  baseBytes + s.state.memory.byteSize + bytesOfWords s.state.input + bytesOfWords s.state.output

end Snapshot

/-- Why a snapshot is refused. -/
inductive HistoryError where
  | limitExceeded (usage size limit : Nat)
deriving DecidableEq, Repr

def HistoryError.message : HistoryError → String
  | .limitExceeded usage size limit =>
    s!"snapshot memory limit exceeded: {usage} + {size} > {limit} bytes"

/-- Snapshots under a size limit, with a position. -/
structure History where
  snapshots : Array Snapshot
  limit : Nat
  usage : Nat
  truncated : Bool
  position : Nat

namespace History

def empty (limit : Nat) : History := ⟨#[], limit, 0, false, 0⟩

variable (h : History)

def length : Nat := h.snapshots.size

/-! ## Recording -/

/-- The history with one more snapshot, or closed and with the reason why it was refused. -/
def push (s : Snapshot) : History × Option HistoryError :=
  let size := s.byteSize
  if h.truncated || h.limit < h.usage + size then
    ({ h with truncated := true }, some (.limitExceeded h.usage size h.limit))
  else ({ h with snapshots := h.snapshots.push s, usage := h.usage + size }, none)

/-- The history with one more snapshot if it fits; a closed one is left alone. -/
def record (s : Snapshot) : History := if h.truncated then h else (h.push s).1

theorem record_eq_push (s : Snapshot) : h.record s = (h.push s).1 := by
  unfold record
  split
  case isTrue ht =>
    simp only [push, ht, Bool.true_or, if_true]
    exact congrArg (History.mk h.snapshots h.limit h.usage · h.position) ht
  case isFalse => rfl

/-! ## Stepping -/

def get? (i : Nat) : Option Snapshot := h.snapshots[i]?

/-- The snapshot at the position. -/
def current? : Option Snapshot := h.get? h.position

/-- One snapshot forward, if there is one. -/
def forward? : Option History :=
  if h.position + 1 < h.length then some { h with position := h.position + 1 } else none

/-- One snapshot back, if there is one. -/
def backward? : Option History :=
  if 0 < h.position then some { h with position := h.position - 1 } else none

def rewind : History := { h with position := 0 }

def toEnd : History := { h with position := h.length - 1 }

/-- Whether no snapshot comes after the position. -/
def isAtEnd : Bool := h.length ≤ h.position + 1

end History

end StepCalc
