import TypeDB.Storage.Operations

/-! The timeline of the isolation manager. Windows are handed out by pointer and stay readable
after they leave the deque, and a new one starts where the last one ends, so the slots of all
windows ever created are kept in one array by sequence number. -/

namespace TypeDB.Storage

def timelineWindowSize : Nat := 100

inductive SlotMarker
  | empty
  | pending
  | validated
  | applied
  | aborted
  deriving DecidableEq

inductive CommitStatus (K V : Type*) [LinearOrder K]
  | empty
  | pending (record : CommitRecord K V)
  | validated (record : CommitRecord K V)
  | applied (record : CommitRecord K V)
  | aborted

/-- The deque holds `more + 1` windows, the first of them starting at `front`. A window is known
by its start. -/
structure Timeline (K V : Type*) [LinearOrder K] where
  front : Nat
  more : Nat
  slotStatus : Nat → SlotMarker
  commitRecords : Nat → Option (CommitRecord K V)
  readers : Nat → Nat
  watermark : Nat

variable {K V : Type*} [LinearOrder K]

def windowEnd (window : Nat) : Nat := window + timelineWindowSize

namespace Timeline

def new (nextSequenceNumber : Nat) : Timeline K V where
  front := nextSequenceNumber
  more := 0
  slotStatus _ := .empty
  commitRecords _ := none
  readers _ := 0
  watermark := nextSequenceNumber - 1

variable (tl : Timeline K V)

def backEnd : Nat := tl.front + timelineWindowSize * (tl.more + 1)

def resolveWindow (n : Nat) : Option Nat :=
  if tl.front ≤ n ∧ n < tl.backEnd then some ((n - tl.front) / timelineWindowSize) else none

def windowAt (index : Nat) : Nat := tl.front + timelineWindowSize * index

def tryGetWindow (n : Nat) : Option Nat :=
  (tl.resolveWindow n).map tl.windowAt

def createWindowsTo (n : Nat) : Timeline K V :=
  if tl.backEnd ≤ n then
    { tl with more := tl.more + ((n - tl.backEnd) / timelineWindowSize + 1) }
  else tl

def collectConcurrentWindows (openNumber commitNumber : Nat) :
    List Nat × Nat :=
  let first := (tl.resolveWindow (openNumber + 1)).getD 0
  let last := (tl.resolveWindow (commitNumber - 1)).getD 0
  ((List.range' first (last + 1 - first)).map tl.windowAt, tl.windowAt first)

/-- `get_status` through a window; `none` where the index is out of bounds or the record is
unwrapped before it was set. -/
def getStatus (window n : Nat) : Option (CommitStatus K V) :=
  if window ≤ n ∧ n < windowEnd window then
    match tl.slotStatus n, tl.commitRecords n with
    | .empty, _ => some .empty
    | _, none => none
    | .pending, some record => some (.pending record)
    | .validated, some record => some (.validated record)
    | .applied, some record => some (.applied record)
    | .aborted, some _ => some .aborted
  else none

def setStatus (n : Nat) (marker : SlotMarker) : Timeline K V :=
  { tl with slotStatus := Function.update tl.slotStatus n marker }

def setRecord (n : Nat) (record : CommitRecord K V) : Timeline K V :=
  { tl with commitRecords := Function.update tl.commitRecords n (some record) }

def incrementReaders (window : Nat) : Timeline K V :=
  { tl with readers := Function.update tl.readers window ((tl.readers window + 1) % 2 ^ 64) }

def decrementReaders (window : Nat) : Timeline K V :=
  { tl with readers := Function.update tl.readers window ((tl.readers window + 2 ^ 64 - 1) % 2 ^ 64) }

/-- Whether `may_free_windows`, which read the watermark before, takes the first window. -/
def canFree (watermark : Nat) : Bool :=
  decide (windowEnd tl.front ≤ watermark) && decide (tl.readers tl.front = 0)

/-- `pop_front`; `none` where no window would be left to look at. -/
def popFront : Option (Timeline K V) :=
  match tl.more with
  | 0 => none
  | more + 1 => some { tl with front := windowEnd tl.front, more := more }

end Timeline

def InWindow (window n : Nat) : Prop := window ≤ n ∧ n < windowEnd window

namespace Timeline
variable {tl : Timeline K V} {n window : Nat}

theorem tryGetWindow_eq_some (h : tl.tryGetWindow n = some window) :
    InWindow window n ∧ tl.front ≤ window ∧ windowEnd window ≤ tl.backEnd := by
  obtain ⟨index, hindex, rfl⟩ := Option.map_eq_some_iff.mp h
  rw [resolveWindow] at hindex
  split_ifs at hindex with hn
  cases hindex
  simp only [InWindow, windowAt, windowEnd, backEnd, timelineWindowSize] at *
  omega

theorem tryGetWindow_isSome (h : tl.front ≤ n) (h' : n < tl.backEnd) :
    ∃ window, tl.tryGetWindow n = some window := by
  simp [tryGetWindow, resolveWindow, h, h']

theorem tryGetWindow_eq_none (h : tl.tryGetWindow n = none) : n < tl.front ∨ tl.backEnd ≤ n := by
  by_contra hnot
  push Not at hnot
  obtain ⟨window, hw⟩ := tryGetWindow_isSome hnot.1 hnot.2
  rw [h] at hw
  cases hw

theorem lt_backEnd_createWindowsTo (tl : Timeline K V) (n : Nat) :
    n < (tl.createWindowsTo n).backEnd := by
  rw [createWindowsTo]
  split_ifs with h
  · simp only [backEnd, timelineWindowSize] at h ⊢
    omega
  · exact not_le.mp h

theorem backEnd_le_createWindowsTo (tl : Timeline K V) (n : Nat) :
    tl.backEnd ≤ (tl.createWindowsTo n).backEnd := by
  rw [createWindowsTo]
  split_ifs with h
  · simp only [backEnd, timelineWindowSize]
    omega
  · exact le_rfl

theorem createWindowsTo_spec (tl : Timeline K V) (n : Nat) :
    ∃ more, tl.createWindowsTo n = { tl with more := more } := by
  rw [createWindowsTo]
  split_ifs with h
  · exact ⟨_, rfl⟩
  · exact ⟨tl.more, rfl⟩

theorem createWindowsTo_slots (tl : Timeline K V) (n : Nat) :
    (tl.createWindowsTo n).slotStatus = tl.slotStatus ∧
      (tl.createWindowsTo n).watermark = tl.watermark := by
  obtain ⟨more, h⟩ := tl.createWindowsTo_spec n
  rw [h]
  exact ⟨rfl, rfl⟩

theorem popFront_eq_some {tl' : Timeline K V} (h : tl.popFront = some tl') :
    tl'.backEnd = tl.backEnd ∧ tl'.front = windowEnd tl.front ∧ tl'.slotStatus = tl.slotStatus ∧
      tl'.commitRecords = tl.commitRecords ∧ tl'.readers = tl.readers ∧
      tl'.watermark = tl.watermark := by
  rw [popFront] at h
  split at h
  · cases h
  · rename_i more hmore
    cases h
    simp only [backEnd, windowEnd, hmore, and_true, timelineWindowSize]
    omega

theorem popFront_eq_none (h : tl.popFront = none) : tl.backEnd = windowEnd tl.front := by
  rw [popFront] at h
  split at h
  · rename_i hmore
    simp [backEnd, windowEnd, hmore]
  · cases h

end Timeline
end TypeDB.Storage
