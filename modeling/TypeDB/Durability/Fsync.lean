import TypeDB.Foundations.Runs
import TypeDB.Durability.WalIteration

/-! The thread that syncs the log, with any number of writers and of callers of `request_sync`.
A write and a sync hold the lock on the files from beginning to end, and a request holds the
lock on one of the two vectors while it pushes, so each of them is one step; everything else
interleaves freely. -/

namespace TypeDB.Durability
open List Option Runs Function WAL Codec

variable {codec : Codec}

/-- Where a call of `request_sync` stands: it reads which vector is current, and only then locks
that vector. -/
inductive RequestPc
  | idle
  | loaded (slot : Bool)
  | returned
  | panicked
  deriving DecidableEq

structure Request where
  pc : RequestPc
  mark : Nat
  subscribe : Bool

/-- The rounds of `may_sync_and_update_state`; `current` is the vector read at the beginning. -/
inductive FsyncPc
  | sleeping
  | loaded (current : Bool)
  | flipped (current : Bool)
  | locked (current : Bool)
  | signalling (current : Bool)
  | stopped
  | panicked (current : Bool)
  deriving DecidableEq

structure FsyncState where
  wal : WAL
  /-- How many bytes of each file the last sync of it covered. -/
  synced : Nat → Nat
  /-- The file and the end of every record written, in the order of the writes. -/
  written : List (Nat × Nat)
  signalling : Bool → List (Option Nat)
  currentSignal : Bool
  shuttingDown : Bool
  thread : FsyncPc
  requests : Nat → Request
  /-- The receivers that have been sent to. -/
  signalled : Nat → Bool

def FsyncState.init : FsyncState where
  wal := WAL.create
  synced _ := 0
  written := []
  signalling _ := []
  currentSignal := false
  shuttingDown := false
  thread := .sleeping
  requests _ := ⟨.idle, 0, false⟩
  signalled _ := false

inductive FsyncAction
  | write (call : WriteCall)
  | request (id : Nat) (subscribe : Bool)
  | push (id : Nat)
  | fsync
  | shutDown

def WAL.fileLength (wal : WAL) (path : Nat) : Nat :=
  ((wal.files.directory.get? path).getD []).length

/-- `Files::sync_all`: only the last file of the list; `none` where it is unwrapped. -/
def WAL.syncAll (wal : WAL) (synced : Nat → Nat) : Option (Nat → Nat) := do
  let last ← wal.files.files.getLast?
  some (update synced last.start (wal.fileLength last.start))

def FsyncPc.holds : FsyncPc → Bool → Bool
  | .locked c, slot => c == slot
  | .signalling c, slot => c == slot
  | _, _ => false

variable (s : FsyncState)

def FsyncState.setRequest (id : Nat) (r : Request) : FsyncState :=
  { s with requests := update s.requests id r }

@[simp] theorem FsyncState.setRequest_self (id : Nat) (r : Request) :
    (s.setRequest id r).requests id = r := update_self ..

theorem FsyncState.setRequest_ne {id i : Nat} (h : i ≠ id) (r : Request) :
    (s.setRequest id r).requests i = s.requests i := update_of_ne h ..

def FsyncState.enqueue (id : Nat) (slot : Bool) : FsyncState :=
  let subscribe := (s.requests id).subscribe
  { s with
    signalling := update s.signalling slot
      (s.signalling slot ++ [if subscribe then some id else none])
    signalled := if subscribe then s.signalled else update s.signalled id true }

/-- `schedule_next_sync_may_subscribe` from the lock on; a poisoned lock panics. -/
def FsyncState.push (id : Nat) (slot : Bool) : FsyncState :=
  if s.thread = .panicked slot then
    s.setRequest id { s.requests id with pc := .panicked }
  else
    (s.setRequest id { s.requests id with pc := .returned }).enqueue id slot

def notify (signalled : Nat → Bool) : Option Nat → Nat → Bool
  | none => signalled
  | some id => update signalled id true

def FsyncState.fsync : Option FsyncState :=
  match s.thread with
  | .sleeping =>
    some { s with thread := if s.shuttingDown then .stopped else .loaded s.currentSignal }
  | .loaded c => some { s with currentSignal := !c, thread := .flipped c }
  | .flipped c => some { s with thread := .locked c }
  | .locked c =>
    if s.signalling c = [] then some { s with thread := .sleeping }
    else match s.wal.syncAll s.synced with
      | none => some { s with thread := .panicked c }
      | some synced => some { s with synced := synced, thread := .signalling c }
  | .signalling c =>
    match (s.signalling c).getLast? with
    | none => some { s with thread := .sleeping }
    | some sender => some { s with
        signalling := update s.signalling c (s.signalling c).dropLast
        signalled := notify s.signalled sender }
  | .stopped => none
  | .panicked _ => none

def FsyncState.step (codec : Codec) (s : FsyncState) : FsyncAction → Option FsyncState
  | .write call => do
    let wal ← s.wal.write codec call
    let path ← wal.files.writer
    some { s with wal := wal, written := s.written ++ [(path, wal.fileLength path)] }
  | .request id subscribe =>
    if (s.requests id).pc = .idle then
      some (s.setRequest id ⟨.loaded s.currentSignal, s.written.length, subscribe⟩)
    else none
  | .push id =>
    match (s.requests id).pc with
    | .loaded slot => if s.thread.holds slot then none else some (s.push id slot)
    | _ => none
  | .fsync => s.fsync
  | .shutDown => some { s with shuttingDown := true }

/-- The first `n` writes are covered by a sync of the file they went to. -/
def FsyncState.Covered (n : Nat) : Prop :=
  ∀ w ∈ s.written.take n, w.2 ≤ s.synced w.1

/-- Whoever was signalled finds every write covered that was complete at its call. -/
def FsyncState.AcksDurable : Prop :=
  ∀ id, s.signalled id = true → s.Covered (s.requests id).mark

/-- A write that goes on to a new file leaves a file behind that is synced to its end, and a
request that does not subscribe, which is signalled as it is pushed, comes when its writes are
covered. -/
def FsyncState.FindsSynced : FsyncAction → Prop
  | .write call => s.wal.files.mustRoll = true → ∀ path, s.wal.files.writer = some path →
      path ≠ (s.wal.record call).sequenceNumber → s.wal.fileLength path ≤ s.synced path
  | .push id => (s.requests id).subscribe = false → s.Covered (s.requests id).mark
  | _ => True

section Write
variable {wal wal' : WAL} {call : WriteCall}

theorem WAL.write_spec (h : wal.write codec call = some wal')
    (hlast : wal.files.files.getLast?.map (·.start) = wal.files.writer) :
    ∃ path, wal'.files.writer = some path ∧ wal'.files.files.getLast?.map (·.start) = some path ∧
      (wal.files.mustRoll = true → path = (wal.record call).sequenceNumber) ∧
      (wal.files.mustRoll = false → wal.files.writer = some path) ∧
      wal.fileLength path < wal'.fileLength path ∧
      ∀ a ≠ path, wal'.fileLength a = wal.fileLength a := by
  cases hroll : wal.files.mustRoll with
  | true =>
    rw [write, Files.writeRecord_roll hroll] at h
    cases h
    refine ⟨_, rfl, by simp [setLastLen_append, File.openAt], fun _ => rfl, by simp, ?_,
      fun a ha => ?_⟩
    · simp [fileLength, createIn_getD, RawRecord.length_frame, headerLen]
    · simp [fileLength, ha, createIn_getD]
  | false =>
    cases hwriter : wal.files.writer with
    | none => simp [write, Files.writeRecord, hroll, hwriter, bind, Option.bind] at h
    | some path =>
      rw [write, Files.writeRecord_extend hroll hwriter] at h
      cases h
      refine ⟨path, rfl, ?_, by simp, fun _ => rfl, ?_, fun a ha => ?_⟩
      · rw [hwriter] at hlast
        obtain ⟨f, hf, hstart⟩ := map_eq_some_iff.mp hlast
        obtain ⟨fs, hfs⟩ := getLast?_eq_some_iff.mp hf
        simp [hfs, setLastLen_append, hstart]
      · simp [fileLength, RawRecord.length_frame, headerLen]
      · simp [fileLength, ha]

end Write

structure FsyncInv (s : FsyncState) : Prop where
  last : s.wal.files.files.getLast?.map (·.start) = s.wal.files.writer
  synced_le : ∀ path, s.synced path ≤ s.wal.fileLength path
  written_le : ∀ w ∈ s.written, w.2 ≤ s.wal.fileLength w.1
  left : ∀ w ∈ s.written, s.wal.files.writer ≠ some w.1 → w.2 ≤ s.synced w.1
  returned : ∀ id, s.signalled id = true ∨ (∃ slot, some id ∈ s.signalling slot) →
    (s.requests id).pc = .returned
  draining : ∀ slot, s.thread = .signalling slot → ∀ id, some id ∈ s.signalling slot →
    s.Covered (s.requests id).mark
  durable : s.AcksDurable
  marks : ∀ id, (s.requests id).mark ≤ s.written.length

open FsyncState

theorem FsyncInv.init : FsyncInv init where
  last := rfl
  synced_le _ := Nat.zero_le _
  written_le _ h := absurd h not_mem_nil
  left _ h := absurd h not_mem_nil
  returned _ h := by simp [FsyncState.init] at h
  draining _ h := by simp [FsyncState.init] at h
  durable _ h := by simp [FsyncState.init] at h
  marks _ := Nat.le_refl _

section Step
variable {s s' : FsyncState} {id : Nat} {slot : Bool}

theorem FsyncState.Covered.append {n : Nat} {w : Nat × Nat} {wal : WAL} (hn : n ≤ s.written.length)
    (h : s.Covered n) : Covered { s with wal := wal, written := s.written ++ [w] } n := by
  intro x hx
  refine h x ?_
  rwa [take_append_of_le_length hn] at hx

section Kept
variable (h : FsyncInv s)
include h

theorem FsyncInv.write {call : WriteCall} (hok : s.FindsSynced (.write call))
    (hs : s.step codec (.write call) = some s') : FsyncInv s' := by
  obtain ⟨wal, hwrite, hs⟩ := bind_eq_some_iff.mp hs
  obtain ⟨path, hpath, hlast, hnew, hsame, hgrows, hothers⟩ := write_spec hwrite h.last
  rw [hpath] at hs
  cases hs
  have hle : ∀ a, s.wal.fileLength a ≤ wal.fileLength a := by
    intro a
    by_cases ha : a = path
    · rw [ha]
      exact hgrows.le
    · exact (hothers a ha).ge
  refine ⟨hlast.trans hpath.symm, fun a => (h.synced_le a).trans (hle a), ?_, ?_, h.returned, ?_,
    ?_, fun id => ?_⟩
  · intro w hw
    rcases mem_append.mp hw with hw | hw
    · exact (h.written_le w hw).trans (hle w.1)
    · rw [mem_singleton.mp hw]
  · intro w hw hne
    have hne : path ≠ w.1 := fun heq => hne (heq ▸ hpath)
    rcases mem_append.mp hw with hw | hw
    · by_cases hbefore : s.wal.files.writer = some w.1
      · -- the write moved on from this file, which the condition wants synced
        cases hroll : s.wal.files.mustRoll with
        | true =>
          exact (h.written_le w hw).trans
            (hok hroll w.1 hbefore fun heq => hne ((hnew hroll).trans heq.symm))
        | false => exact absurd (some.inj ((hsame hroll).symm.trans hbefore)) hne
      · exact h.left w hw hbefore
    · rw [mem_singleton.mp hw] at hne
      exact absurd rfl hne
  · intro slot hslot id hid
    exact (h.draining slot hslot id hid).append (h.marks id)
  · intro id hsig
    exact (h.durable id hsig).append (h.marks id)
  · have := h.marks id
    simp only [length_append, length_singleton]
    omega

theorem FsyncInv.setRequest {r : Request} (hpc : (s.requests id).pc ≠ .returned)
    (hr : r.mark ≤ s.written.length) : FsyncInv (s.setRequest id r) := by
  have hother : ∀ i, s.signalled i = true ∨ (∃ slot, some i ∈ s.signalling slot) →
      (s.setRequest id r).requests i = s.requests i := by
    intro i hi
    refine s.setRequest_ne ?_ r
    rintro rfl
    exact hpc (h.returned _ hi)
  refine { h with
    returned := fun i hi => ?_
    draining := fun slot hslot i hi => ?_
    durable := fun i hsig => ?_
    marks := fun i => ?_ }
  · rw [hother i hi]
    exact h.returned i hi
  · rw [hother i (.inr ⟨slot, hi⟩)]
    exact h.draining slot hslot i hi
  · rw [hother i (.inl hsig)]
    exact h.durable i hsig
  · by_cases hi : i = id
    · rw [hi, s.setRequest_self]
      exact hr
    · rw [s.setRequest_ne hi]
      exact h.marks i

theorem FsyncInv.request {subscribe : Bool} (hs : s.step codec (.request id subscribe) = some s') :
    FsyncInv s' := by
  simp only [step] at hs
  split_ifs at hs with hidle
  cases hs
  exact h.setRequest (by simp [hidle]) le_rfl

theorem FsyncInv.enqueue (hpc : (s.requests id).pc = .returned)
    (hfree : s.thread.holds slot = false)
    (hok : (s.requests id).subscribe = false → s.Covered (s.requests id).mark) :
    FsyncInv (s.enqueue id slot) := by
  have hqueue : ∀ c i, some i ∈ update s.signalling slot (s.signalling slot ++
      [if (s.requests id).subscribe then some id else none]) c → i = id ∨ some i ∈ s.signalling c := by
    intro c i hi
    by_cases hc : c = slot
    · subst hc
      rw [update_self] at hi
      rcases mem_append.mp hi with hi | hi
      · exact .inr hi
      · left
        split_ifs at hi
        · simpa using hi
        · simp at hi
    · rw [update_of_ne hc] at hi
      exact .inr hi
  have hsignal : ∀ i, (if (s.requests id).subscribe then s.signalled
      else update s.signalled id true) i = true →
      s.signalled i = true ∨ i = id ∧ (s.requests id).subscribe = false := by
    intro i hi
    split_ifs at hi with hsub
    · exact .inl hi
    · by_cases hid : i = id
      · exact .inr ⟨hid, by simpa using hsub⟩
      · rw [update_of_ne hid] at hi
        exact .inl hi
  refine { h with
    returned := fun i hi => ?_
    draining := fun c hc i hi => ?_
    durable := fun i hsig => ?_ }
  · rcases hi with hi | ⟨c, hi⟩
    · rcases hsignal i hi with hi | ⟨rfl, -⟩
      · exact h.returned i (.inl hi)
      · exact hpc
    · rcases hqueue c i hi with rfl | hi
      · exact hpc
      · exact h.returned i (.inr ⟨c, hi⟩)
  · -- the vector being drained is locked, so it is the other one
    have hne : c ≠ slot := by
      rintro rfl
      simp [show s.thread = _ from hc, FsyncPc.holds] at hfree
    simp only [FsyncState.enqueue, update_of_ne hne] at hi
    exact h.draining c hc i hi
  · rcases hsignal i hsig with hi | ⟨rfl, hsub⟩
    · exact h.durable i hi
    · exact hok hsub

theorem FsyncInv.push (hok : s.FindsSynced (.push id))
    (hs : s.step codec (.push id) = some s') : FsyncInv s' := by
  simp only [step] at hs
  split at hs
  · rename_i slot hpc
    split_ifs at hs with hheld
    cases hs
    have hset : ∀ pc, FsyncInv (s.setRequest id { s.requests id with pc := pc }) :=
      fun pc => h.setRequest (by simp [hpc]) (h.marks id)
    by_cases hpanic : s.thread = .panicked slot
    · simp only [push, if_pos hpanic]
      exact hset .panicked
    · have hfree : (s.setRequest id { s.requests id with pc := .returned }).thread.holds slot =
          false := by simpa [FsyncState.setRequest] using hheld
      simp only [push, if_neg hpanic]
      refine (hset .returned).enqueue (by simp) hfree ?_
      rw [s.setRequest_self]
      exact hok
  · cases hs

theorem FsyncInv.syncAll {synced : Nat → Nat} (hsync : s.wal.syncAll s.synced = some synced) :
    FsyncInv { s with synced := synced, thread := .signalling slot } := by
  obtain ⟨f, hf, hsync⟩ := bind_eq_some_iff.mp hsync
  cases hsync
  have hwriter : s.wal.files.writer = some f.start := by
    rw [← h.last, hf]
    rfl
  have hmono : ∀ path, s.synced path ≤ update s.synced f.start (s.wal.fileLength f.start) path := by
    intro path
    by_cases hp : path = f.start
    · rw [hp, update_self]
      exact h.synced_le f.start
    · rw [update_of_ne hp]
  have hall : ∀ w ∈ s.written, w.2 ≤ update s.synced f.start (s.wal.fileLength f.start) w.1 := by
    intro w hw
    by_cases hp : w.1 = f.start
    · rw [hp, update_self]
      exact hp ▸ h.written_le w hw
    · rw [update_of_ne hp]
      refine h.left w hw fun heq => hp ?_
      exact some.inj (heq.symm.trans hwriter)
  refine ⟨h.last, fun path => ?_, h.written_le, fun w hw hne => hall w hw, h.returned,
    fun _ _ id _ w hw => hall w (mem_of_mem_take hw),
    fun id hsig w hw => hall w (mem_of_mem_take hw), h.marks⟩
  by_cases hp : path = f.start
  · simp [hp]
  · simp only [update_of_ne hp]
    exact h.synced_le path

theorem FsyncInv.setThread {pc : FsyncPc} {current : Bool} (hpc : ∀ slot, pc ≠ .signalling slot) :
    FsyncInv { s with currentSignal := current, thread := pc } :=
  { h with draining := fun slot hslot => absurd hslot (hpc slot) }

theorem FsyncInv.signal {sender : Option Nat} (hthread : s.thread = .signalling slot)
    (hlast : (s.signalling slot).getLast? = some sender) :
    FsyncInv { s with
      signalling := update s.signalling slot (s.signalling slot).dropLast
      signalled := notify s.signalled sender } := by
  have hmem : sender ∈ s.signalling slot := mem_of_getLast? hlast
  have hqueue : ∀ c i, some i ∈ update s.signalling slot (s.signalling slot).dropLast c →
      some i ∈ s.signalling c := by
    intro c i hi
    by_cases hc : c = slot
    · subst hc
      rw [update_self] at hi
      exact dropLast_subset _ hi
    · rwa [update_of_ne hc] at hi
  have hsignal : ∀ i, notify s.signalled sender i = true →
      s.signalled i = true ∨ some i ∈ s.signalling slot := by
    intro i hi
    cases sender with
    | none => exact .inl hi
    | some id =>
      by_cases hid : i = id
      · exact .inr (hid ▸ hmem)
      · rw [notify, update_of_ne hid] at hi
        exact .inl hi
  refine { h with
    returned := fun i hi => ?_
    draining := fun c hc i hi => ?_
    durable := fun i hsig => ?_ }
  · rcases hi with hi | ⟨c, hi⟩
    · rcases hsignal i hi with hi | hi
      · exact h.returned i (.inl hi)
      · exact h.returned i (.inr ⟨slot, hi⟩)
    · exact h.returned i (.inr ⟨c, hqueue c i hi⟩)
  · exact h.draining c hc i (hqueue c i hi)
  · rcases hsignal i hsig with hi | hi
    · exact h.durable i hi
    · exact h.draining slot hthread i hi

theorem FsyncInv.fsync (hs : s.fsync = some s') : FsyncInv s' := by
  unfold FsyncState.fsync at hs
  split at hs
  · cases hs
    exact h.setThread (by split_ifs <;> simp)
  · cases hs
    exact h.setThread (by simp)
  · cases hs
    exact h.setThread (by simp)
  · split_ifs at hs
    · cases hs
      exact h.setThread (by simp)
    · split at hs
      · cases hs
        exact h.setThread (by simp)
      · cases hs
        exact h.syncAll ‹_›
  · rename_i slot hthread
    split at hs
    · cases hs
      exact h.setThread (by simp)
    · cases hs
      exact h.signal hthread ‹_›
  · cases hs
  · cases hs

theorem FsyncInv.step {a : FsyncAction} (hok : s.FindsSynced a) (hs : s.step codec a = some s') :
    FsyncInv s' := by
  cases a with
  | write call => exact h.write hok hs
  | request id subscribe => exact h.request hs
  | push id => exact h.push hok hs
  | fsync => exact h.fsync hs
  | shutDown =>
    cases hs
    exact { h with }

end Kept

end Step

/-- In every run whose writes only move on from files that are synced to their end, and whose
requests subscribe unless there is nothing left to sync for them, whoever was signalled finds every
write covered that was complete at its call. -/
theorem FsyncState.acks_durable {s : FsyncState}
    (h : Reach (FsyncState.step codec) FsyncState.FindsSynced .init s) : s.AcksDurable :=
  (h.invariant FsyncInv.init fun _ _ _ hi hok hs => hi.step hok hs).durable

def FsyncState.quiet (wal : WAL) (written : List (Nat × Nat)) : FsyncState :=
  { FsyncState.init with wal := wal, written := written }

theorem FsyncState.request_round (codec : Codec) {wal : WAL} {written : List (Nat × Nat)} {f : File}
    (hlast : wal.files.files.getLast? = some f) :
    ∃ s, Reach (step codec) FindsSynced (.quiet wal written) s ∧
      s.signalled 0 = true ∧ s.requests 0 = ⟨.returned, written.length, true⟩ ∧
      s.written = written ∧
      s.synced = update (fun _ => 0) f.start (wal.fileLength f.start) ∧
      s.currentSignal = true ∧ s.thread = .signalling false ∧ (s.requests 1).pc = .idle := by
  have hsync : wal.syncAll (fun _ => 0) =
      some (update (fun _ => 0) f.start (wal.fileLength f.start)) := by
    simp [syncAll, hlast]
  let asked := (quiet wal written).setRequest 0 ⟨.loaded false, written.length, true⟩
  let queued := asked.push 0 false
  let locked : FsyncState := { queued with currentSignal := true, thread := .locked false }
  have hlocked : Reach (step codec) FindsSynced (.quiet wal written) locked :=
    .tail (a := .fsync) (.tail (a := .fsync) (.tail (a := .fsync) (.tail (a := .push 0)
      (.tail (a := .request 0 true) .refl trivial rfl) nofun rfl) trivial rfl) trivial rfl)
      trivial rfl
  let signalling : FsyncState := { locked with
    synced := update (fun _ => 0) f.start (wal.fileLength f.start)
    thread := .signalling false }
  have hsignalling : locked.step codec .fsync = some signalling := by
    have : locked.wal.syncAll locked.synced =
        some (update (fun _ => 0) f.start (wal.fileLength f.start)) := hsync
    simp only [step, fsync, this, locked]
    rfl
  exact ⟨_, .tail (a := .fsync) (.tail (a := .fsync) hlocked trivial hsignalling) trivial rfl,
    rfl, rfl, rfl, rfl, rfl, rfl, rfl⟩

/-- A request that does not subscribe is signalled before it returns. -/
theorem FsyncState.unsubscribed_round (codec : Codec) {s : FsyncState} {id : Nat}
    (hpc : (s.requests id).pc = .idle)
    (hheld : s.thread.holds s.currentSignal = false)
    (hpanic : s.thread ≠ .panicked s.currentSignal) :
    ∃ t, t.written = s.written ∧ t.synced = s.synced ∧ t.signalled id = true ∧
      t.requests id = ⟨.returned, s.written.length, false⟩ ∧
      Reaches (step codec) s t ∧
      (s.Covered s.written.length → Reach (step codec) FindsSynced s t) := by
  let asked := s.setRequest id ⟨.loaded s.currentSignal, s.written.length, false⟩
  have hask : s.step codec (.request id false) = some asked := by simp [step, hpc, asked]
  have hasked : asked.requests id = ⟨.loaded s.currentSignal, s.written.length, false⟩ :=
    s.setRequest_self ..
  have hpush : asked.step codec (.push id) =
      some ((asked.setRequest id ⟨.returned, s.written.length, false⟩).enqueue id
        s.currentSignal) := by
    have hheld : asked.thread.holds s.currentSignal = false := hheld
    have hpanic : asked.thread ≠ .panicked s.currentSignal := hpanic
    simp [step, hasked, hheld, push, hpanic]
  refine ⟨(asked.setRequest id ⟨.returned, s.written.length, false⟩).enqueue id s.currentSignal,
    rfl, rfl, ?_, asked.setRequest_self .., ?_, fun hcovered => ?_⟩
  · simp [enqueue]
  · exact .tail (.tail .refl trivial hask) trivial hpush
  · refine .tail (.tail .refl (a := .request id false) trivial hask) ?_ hpush
    rw [FindsSynced, hasked]
    exact fun _ => hcovered

theorem FsyncState.reach_write (codec : Codec) {wal wal' : WAL} (written : List (Nat × Nat))
    {call : WriteCall} {path : Nat} (hwrite : wal.write codec call = some wal')
    (hpath : wal'.files.writer = some path) :
    (quiet wal written).step codec (.write call) =
      some (.quiet wal' (written ++ [(path, wal'.fileLength path)])) := by
  simp only [step, quiet, hwrite, hpath, bind, Option.bind]

/-- A subscriber, and after it a request that does not subscribe. -/
theorem FsyncState.acks_durable_small :
    ∃ s, Reach (FsyncState.step Codec.stored) FsyncState.FindsSynced .init s ∧
      (s.requests 1 = ⟨.returned, 1, false⟩ ∧ s.signalled 1 = true) ∧ s.AcksDurable := by
  obtain ⟨wal, hwrite, -⟩ :=
    (create_laidOut stored).write (.sequenced 0 [1])
  obtain ⟨path, hpath, hlast, -⟩ := write_spec hwrite rfl
  obtain ⟨f, hf, hstart⟩ := map_eq_some_iff.mp hlast
  have hfirst := reach_write stored [] hwrite hpath
  obtain ⟨s, hs, -, -, hwritten, hsynced, hcurrent, hthread, hidle⟩ := request_round stored hf
  have hreach : Reach (step stored) FindsSynced .init s :=
    .head (a := .write (.sequenced 0 [1])) (fun _ _ hwriter => by cases hwriter) hfirst hs
  obtain ⟨t, -, -, hsig, hreq, -, hround⟩ := unsubscribed_round stored hidle
    (by rw [hcurrent, hthread]; rfl) (by rw [hthread]; nofun)
  have hcovered : s.Covered s.written.length := by
    rw [Covered, hwritten, hsynced, hstart]
    simp
  rw [hwritten] at hreq
  have hreach := hreach.trans (hround hcovered)
  exact ⟨t, hreach, ⟨hreq, hsig⟩, acks_durable hreach⟩

/-- The first file is full, the second write goes on to a new file, and the sync that answers the
request covers the new file only. A request that does not subscribe is signalled without a sync. -/
theorem FsyncState.acks_lose_left_file :
    (∃ s, Reaches (FsyncState.step Codec.stored) .init s ∧ (s.requests 0).subscribe = true ∧
      ¬ s.AcksDurable) ∧
    ∃ s, Reaches (FsyncState.step Codec.stored) .init s ∧ (s.requests 0).subscribe = false ∧
      ¬ s.AcksDurable := by
  obtain ⟨wal₁, hwrite₁, hnext, last, hlast, hstart, hfull⟩ :=
    create_write_full length_fullBody.ge
  obtain ⟨path₁, hpath₁, hlast₁, -, -, hgrows, -⟩ := write_spec hwrite₁ rfl
  obtain rfl : 1 = path₁ := by simpa [hlast, hstart] using hlast₁
  have hfirst := reach_write stored [] hwrite₁ hpath₁
  have hlost : (1, wal₁.fileLength 1) ∈ ([(1, wal₁.fileLength 1)] : List (Nat × Nat)) := by simp
  constructor
  · have hroll : wal₁.files.mustRoll = true := by simpa [Files.mustRoll, hlast] using hfull
    obtain ⟨wal, hwal, h₁⟩ :=
      (create_laidOut stored).write (.sequenced 0 fullBody)
    obtain rfl : wal₁ = wal := some.inj (hwrite₁.symm.trans hwal)
    obtain ⟨wal₂, hwrite₂, -⟩ := h₁.write (.sequenced 0 [1])
    obtain ⟨path₂, hpath₂, hlast₂, hnew, -⟩ := write_spec hwrite₂ (hlast₁.trans hpath₁.symm)
    obtain rfl : path₂ = 2 := (hnew hroll).trans hnext
    obtain ⟨f, hf, hfstart⟩ := map_eq_some_iff.mp hlast₂
    have hsecond := reach_write stored
      [(1, wal₁.fileLength 1)] hwrite₂ hpath₂
    obtain ⟨s, hs, hsig, hreq, hwritten, hsynced, -⟩ := request_round stored hf
    refine ⟨s, .head trivial hfirst (.head trivial hsecond hs.reaches), by rw [hreq],
      fun hdurable => ?_⟩
    have hcovered := hdurable 0 hsig
    rw [hreq, Covered, hwritten, hsynced, hfstart] at hcovered
    have := hcovered (1, wal₁.fileLength 1) (by simp)
    simp only [update_of_ne (by decide : (1 : Nat) ≠ 2)] at this
    omega
  · have hidle : ((quiet wal₁ [(1, wal₁.fileLength 1)]).requests 0).pc = .idle := rfl
    obtain ⟨t, hwritten, hsynced, hsig, hreq, hround, -⟩ :=
      unsubscribed_round stored hidle rfl (fun h => by cases h)
    refine ⟨t, .head trivial hfirst hround, by rw [hreq], fun hdurable => ?_⟩
    have hcovered := hdurable 0 hsig
    rw [hreq, Covered, hwritten, hsynced] at hcovered
    have : wal₁.fileLength 1 ≤ 0 := hcovered (1, wal₁.fileLength 1) hlost
    omega

end TypeDB.Durability
