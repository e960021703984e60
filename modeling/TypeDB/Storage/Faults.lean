import TypeDB.Storage.Deadlock
import TypeDB.Storage.Readers
import TypeDB.Storage.Watermark

/-! Calls that fail. A commit may return an error wherever the source has a fallible operation:
before it reaches the storage, in a read of `set_initial_put_status`, in `sequenced_write`, in a
scan of the log, in a write to a keyspace and when the status is persisted. A call that returned
moves no more and leaves the shared state as it was, except that a failing `sequenced_write` may
have taken a number. -/

namespace TypeDB.Storage
open Counting Option Runs Threads Transaction Committing Timeline Function

variable {K V : Type*} [LinearOrder K]

def Transaction.mayFail (t : Transaction K V) : Bool :=
  match t.pc with
  | .opened => t.call.registers
  | .initialPuts ((i, k) :: _) =>
    match (t.operations.writes i).get? k with
    | some (.put _ knownToExist) => !knownToExist
    | _ => false
  | .sequencedWrite | .diskStatuses _ | .diskCommits _ _ | .persist _ => true
  | .writeKeyspaces batches => !batches.isEmpty
  | _ => false

structure Faulty (K V : Type*) [LinearOrder K] where
  db : Database K V
  returned : Nat → Bool

namespace Faulty

inductive Action (K V : Type*) [LinearOrder K]
  | step (a : Storage.Action K V)
  | fail (i : Nat)
  | failNumbered (i : Nat)

def create (previous : Nat) : Faulty K V := ⟨.create previous, fun _ => false⟩

def admits (s : Faulty K V) (a : Storage.Action K V) : Bool :=
  match a.thread with
  | some i => !s.returned i
  | none => true

def step [DecidableEq V] (s : Faulty K V) : Action K V → Option (Faulty K V)
  | .step a =>
    if s.admits a then (s.db.step a).map fun db => { s with db := db } else none
  | .fail i =>
    if !s.returned i && (s.db.threads i).mayFail then
      some { s with returned := update s.returned i true }
    else none
  | .failNumbered i =>
    match s.returned i, (s.db.threads i).pc with
    | false, .sequencedWrite =>
      let n := s.db.shared.nextSequenceNumber
      let t := { s.db.threads i with commitSequenceNumber := n, pc := .failed }
      some ⟨s.db.move i { s.db.shared with nextSequenceNumber := n + 1 } t,
        update s.returned i true⟩
    | _, _ => none

def Returned (s : Faulty K V) (i : Nat) : Prop :=
  s.returned i = true ∨ (s.db.threads i).pc = .committed ∨ (s.db.threads i).pc = .rejected ∨
    (s.db.threads i).pc = .failed

end Faulty

section NotFailed
variable {first : Nat} {st st' : MVCCStorage K V} {t t' : Transaction K V}

theorem After.pc_ne_failed (a : After) : (a.pc : Pc K V) ≠ .failed := by cases a <;> exact nofun

theorem handle_not_failed {n : Nat} {dependency : CommitDependency K}
    (h : t.handle st n dependency = (st', t')) : t'.pc ≠ .failed := by
  unfold handle at h
  split at h
  · cases h
    exact nofun
  · split at h <;> cases h <;> exact nofun

theorem step_not_failed [DecidableEq V] (h : StorageOk first st) (ht : TransactionOk first st t)
    (hstep : t.step st = some (st', t')) : t'.pc ≠ .failed := by
  cases hpc : t.pc with
  | apply =>
    obtain ⟨hs, -⟩ := ht.at_pc hpc
    replace hs : Committing first st t .validated false := hs
    have hlt := h.not_done_lt hs.started (by simp [MVCCStorage.Done, hs.slot])
    have hfront := h.front_le
    have hback := h.slot_lt_back t.commitSequenceNumber (by simp [hs.slot])
    obtain ⟨w, hw⟩ : ∃ w, st.tryGetWindow t.commitSequenceNumber = some w :=
      tryGetWindow_isSome (by omega) hback
    simp only [step, hpc, hw] at hstep
    cases hstep
    rintro ⟨⟩
  | persist didApply =>
    simp only [step, hpc] at hstep
    cases hstep
    cases didApply <;> rintro ⟨⟩
  | decrementReaders w a =>
    simp only [step, hpc] at hstep
    cases hstep
    dsimp only [goto]
    split_ifs
    · rintro ⟨⟩
    · exact After.pc_ne_failed a
  | _ =>
    simp only [step, hpc] at hstep
    repeat' split at hstep
    all_goals first
      | contradiction
      | exact handle_not_failed (some.inj hstep)
      | cases hstep
        exact After.pc_ne_failed _
      | cases hstep
        rintro ⟨⟩

theorem Call.not_failed {i : Nat} {a : Action K V} (h : Call i t a t') : t'.pc ≠ .failed := by
  cases h <;> exact nofun

theorem Database.step_not_failed [DecidableEq V] {db db' : Database K V} {a : Action K V}
    (hok : db.Ok first) (h : ∀ i, (db.threads i).pc ≠ .failed) (hstep : db.step a = some db')
    (i : Nat) : (db'.threads i).pc ≠ .failed := by
  cases Database.step_cases hstep with
  | run j st t hthread =>
    exact move_threads (P := fun u => u.pc ≠ .failed) (h i) fun _ =>
      Storage.step_not_failed hok.shared (hok.own j) hthread
  | call j a t hcall =>
    exact move_threads (P := fun u => u.pc ≠ .failed) (h i) fun _ => hcall.not_failed
  | sync => exact h i

end NotFailed

namespace Faulty
variable {first previous : Nat} {s s' : Faulty K V} {i n : Nat}

/-- Off the failures that leave a slot as it is, in `sequenced_write` once the number is taken, in
the scans of the log and in a write to a keyspace, and off the scans that panic because a status
was not persisted. -/
def KeepsSlots (s : Faulty K V) : Action K V → Prop
  | .step a => ∀ i, a = .run i → ¬ (s.db.threads i).MeetsUndecided s.db.shared
  | .fail i =>
    match (s.db.threads i).pc with
    | .diskStatuses _ | .diskCommits _ _ | .writeKeyspaces _ => False
    | _ => True
  | .failNumbered _ => False

variable [DecidableEq V]

theorem step_db {a : Storage.Action K V} (h : s.step (.step a) = some s') :
    s.db.step a = some s'.db ∧ s'.returned = s.returned ∧
      ∀ i, a.thread = some i → s.returned i = false := by
  rw [step] at h
  split_ifs at h with hadmits
  obtain ⟨db, hdb, rfl⟩ := map_eq_some_iff.mp h
  refine ⟨hdb, rfl, fun i hi => ?_⟩
  simpa [admits, hi] using hadmits

theorem step_fail (h : s.step (.fail i) = some s') :
    s.returned i = false ∧ (s.db.threads i).mayFail = true ∧ s'.db = s.db ∧
      s'.returned = update s.returned i true := by
  rw [step] at h
  split_ifs at h with hfail
  cases h
  simp only [Bool.and_eq_true, Bool.not_eq_true'] at hfail
  exact ⟨hfail.1, hfail.2, rfl, rfl⟩

/-- A call that returned stays where it was, and where that was meets `P`. -/
structure Stopped (P : Pc K V → Prop) (first : Nat) (s : Faulty K V) : Prop where
  ok : s.db.Ok first
  stopped : ∀ i, s.returned i = true → P (s.db.threads i).pc
  running : ∀ i, (s.db.threads i).pc ≠ .failed

theorem Stopped.step_db {P : Pc K V → Prop} {a : Storage.Action K V} (h : Stopped P first s)
    (hstep : s.step (.step a) = some s') : Stopped P first s' := by
  obtain ⟨hdb, hreturned, hadmits⟩ := Faulty.step_db hstep
  refine ⟨(h.ok.step hdb).1, fun i hi => ?_, Database.step_not_failed h.ok h.running hdb⟩
  rw [hreturned] at hi
  rw [Database.step_threads hdb fun ha => by rw [hadmits i ha] at hi; cases hi]
  exact h.stopped i hi

theorem Stopped.fail {P : Pc K V → Prop} (h : Stopped P first s)
    (hpc : P (s.db.threads i).pc) (hstep : s.step (.fail i) = some s') : Stopped P first s' := by
  obtain ⟨-, -, hdb, hreturned⟩ := step_fail hstep
  refine ⟨hdb ▸ h.ok, fun j hj => ?_, hdb ▸ h.running⟩
  rw [hdb]
  by_cases hji : j = i
  · rw [hji]
    exact hpc
  · rw [hreturned, update_of_ne hji] at hj
    exact h.stopped j hj

omit [DecidableEq V] in
theorem stopped_create (P : Pc K V → Prop) (first : Nat) :
    Stopped P first (create first : Faulty K V) :=
  ⟨Database.ok_create first, nofun, fun _ => nofun⟩

def SlotKept : Pc K V → Prop
  | .opened | .initialPuts _ | .sequencedWrite | .persist _ => True
  | _ => False

/-- Nothing but the slots of running calls is unfinished. -/
structure Kept (first : Nat) (s : Faulty K V) : Prop where
  reaches : Reaches Database.step (.create first) s.db
  stopped : Stopped SlotKept first s
  running : ∀ i, (s.db.threads i).pc ≠ .panicked

theorem kept_of_reach (hr : Reach step KeepsSlots (create previous) s) : Kept previous s := by
  refine hr.invariant ⟨.refl, stopped_create _ _, fun _ => nofun⟩ fun s a s' h hok hstep => ?_
  cases a with
  | step a =>
    have hdb := (step_db hstep).1
    have hplaced := h.reaches.invariant (Database.placements_create previous)
      fun _ _ _ h _ hstep => h.step hstep
    exact ⟨h.reaches.tail trivial hdb, h.stopped.step_db hstep,
      hplaced.not_panicked h.running hok hdb⟩
  | fail i =>
    obtain ⟨-, hfail, hdb, -⟩ := step_fail hstep
    refine ⟨hdb ▸ h.reaches, h.stopped.fail ?_ hstep, hdb ▸ h.running⟩
    rw [mayFail] at hfail
    simp only [KeepsSlots] at hok
    cases hpc : (s.db.threads i).pc <;> simp_all [SlotKept]
  | failNumbered i => exact hok.elim

theorem Kept.done (h : Kept previous s) (hi : s.Returned i)
    (hn : (s.db.threads i).own = some n) : s.db.shared.Done n := by
  have hstage := (h.stopped.ok.own i).stage
  rw [own] at hn
  split_ifs at hn with howns
  cases hn
  rcases hi with hi | hpc | hpc | hpc
  · have hstopped := h.stopped.stopped i hi
    cases hpc : (s.db.threads i).pc with
    | persist didApply =>
      rw [hpc] at hstage
      cases didApply with
      | true => exact .inl (slot hstage)
      | false => exact .inr (slot hstage)
    | opened | initialPuts todo | sequencedWrite => simp [hpc, Pc.stage, Stage.owns] at howns
    | _ => simp [hpc, SlotKept] at hstopped
  · rw [hpc] at hstage
    exact .inl (slot hstage)
  · rw [hpc] at hstage
    exact .inr (slot hstage)
  · exact absurd hpc (h.stopped.running i)

theorem Kept.admits_validating (h : Kept previous s)
    (hi : (s.db.threads i).pc.stage.validating = true) : s.returned i = false := by
  by_contra hreturned
  have hstopped := h.stopped.stopped i (by simpa using hreturned)
  cases hpc : (s.db.threads i).pc with
  | persist didApply => cases didApply <;> simp [hpc, Pc.stage, Stage.validating] at hi
  | opened | initialPuts todo | sequencedWrite => simp [hpc, Pc.stage, Stage.validating] at hi
  | _ => simp [hpc, SlotKept] at hstopped

omit [DecidableEq V] in
theorem Pc.of_stuck {pc : Pc K V} (h : pc.stage = .stuck) : pc = .panicked ∨ pc = .failed := by
  have hafter : ∀ a : After, a.stage ≠ .stuck := by
    intro a
    cases a <;> exact nofun
  cases pc with
  | panicked => exact .inl rfl
  | failed => exact .inr rfl
  | persist didApply => cases didApply <;> cases h
  | _ => first | exact absurd h (hafter _) | cases h

theorem Kept.reachesOf (h : Kept previous s) :
    Reaches (Database.stepOf .wal) (.importSnapshot previous fun _ _ _ => none) s.db := h.reaches

theorem Kept.goesOn (h : Kept previous s) (hi : s.db.GoesOn .wal i) :
    (s.db.threads i).pc.stage.validating = true ∧ (s.step (.step (.run i))).isSome := by
  rcases hi with ⟨hi, hstep⟩ | hstuck
  · refine ⟨hi, ?_⟩
    have hadmits : s.admits (.run i) = true := by
      simp [admits, Action.thread, h.admits_validating hi]
    rw [step, if_pos hadmits, isSome_map]
    exact hstep
  · rcases Pc.of_stuck hstuck with hpc | hpc
    · exact absurd hpc (h.running i)
    · exact absurd hpc (h.stopped.running i)

/-- Where no call fails with its slot unfinished and no scan panics, every number that was taken
by a call that returned has its slot applied or aborted, some call that a validation may wait for
can go on, and the watermark has passed the numbers of calls that returned. -/
theorem returned_slots_done (hr : Reach step KeepsSlots (create previous) s) :
    (∀ i n, s.Returned i → (s.db.threads i).own = some n →
      s.db.shared.slotStatus n = .applied ∨ s.db.shared.slotStatus n = .aborted) ∧
    (∀ i, (s.db.threads i).pc.stage.validating = true → ∃ j,
      (s.db.threads j).commitSequenceNumber ≤ (s.db.threads i).commitSequenceNumber ∧
        (s.db.threads j).pc.stage.validating = true ∧ (s.step (.step (.run j))).isSome) ∧
    ((∀ i, (s.db.threads i).pc.incrementing = false) → ∀ n,
      (∀ m, previous < m → m ≤ n → ∃ i, s.Returned i ∧ (s.db.threads i).own = some m) →
        n ≤ s.db.shared.watermark) := by
  have h := kept_of_reach hr
  refine ⟨fun i n hi hn => h.done hi hn, fun i hi => ?_, fun hquiet n hn => ?_⟩
  · obtain ⟨j, hle, hj⟩ := (tracked_of_reaches h.reachesOf).exists_goesOn
      (owned_of_reaches h.reachesOf) .wal hi
    exact ⟨j, hle, h.goesOn hj⟩
  · refine ((responsible_of_reaches h.reachesOf).isGreatest (tracked_of_reaches h.reachesOf)
      hquiet).2 fun m hm hle => ?_
    obtain ⟨i, hi, hown⟩ := hn m hm hle
    exact h.done hi hown

def firstCommit : List (Storage.Action Nat Nat) :=
  [[.open 0 .write, .run 0, .run 0, .commit 0 (lockOnly 0)], List.replicate 12 (.run 0), [.sync],
    List.replicate 10 (.run 0)].flatten

def keepsSlots (s : Faulty Nat Nat) : Action Nat Nat → Bool
  | .step (.run i) =>
    match (s.db.threads i).pc with
    | .diskCommits _ _ => false
    | _ => true
  | .step _ => true
  | .fail i =>
    match (s.db.threads i).pc with
    | .diskStatuses _ | .diskCommits _ _ | .writeKeyspaces _ => false
    | _ => true
  | .failNumbered _ => false

theorem keepsSlots_ok (s : Faulty Nat Nat) (a : Action Nat Nat) (h : keepsSlots s a = true) :
    KeepsSlots s a := by
  cases a with
  | step a =>
    rintro i rfl hmeets
    rw [MeetsUndecided] at hmeets
    split at hmeets
    · rename_i hpc
      simp [keepsSlots, hpc] at h
    · exact hmeets
  | fail i =>
    simp only [keepsSlots, KeepsSlots] at h ⊢
    split at h <;> simp_all
  | failNumbered i => cases h

def Action.threadLt (bound : Nat) : Action K V → Bool
  | .step a => a.thread.all (· < bound)
  | .fail i | .failNumbered i => i < bound

/-- The status of the first commit is not persisted; the second one was opened before and comes to
its slot. -/
def persistFailsRun : Option (Faulty Nat Nat) :=
  runIf Faulty.step (fun s a => keepsSlots s a && a.threadLt 2) (create 0) <|
    [Action.step (.open 1 .write), .step (.run 1), .step (.run 1)] ++ firstCommit.map .step ++
      [.fail 0, .step (.commit 1 (lockOnly 1))] ++ List.replicate 7 (.step (.run 1))

theorem persistFails_isSome : persistFailsRun.isSome = true := by decide +kernel

def persistFails : Faulty Nat Nat := persistFailsRun.get persistFails_isSome

theorem persistFails_reach :
    Reach step (fun s a => KeepsSlots s a ∧ a.threadLt 2 = true) (create 0) persistFails := by
  refine reach_of_runIf (fun s a h => ?_) (some_get persistFails_isSome).symm
  exact (Bool.and_eq_true_iff.mp h).imp_left (keepsSlots_ok s a)

theorem persistFails_quiet (i : Nat) : (persistFails.db.threads i).pc.incrementing = false := by
  match i with
  | 0 | 1 => decide +kernel
  | i + 2 =>
    have hidle : persistFails.db.threads (i + 2) = .new := by
      refine persistFails_reach.invariant (P := fun s => s.db.threads (i + 2) = .new) rfl ?_
      rintro s a s' h ⟨hok, hlt⟩ hstep
      cases a with
      | step a =>
        rw [Database.step_threads (step_db hstep).1, h]
        intro ha
        simp [Action.threadLt, ha] at hlt
      | fail j => rw [(step_fail hstep).2.2.1, h]
      | failNumbered j => exact hok.elim
    rw [hidle]
    rfl

theorem persistFails_done : persistFails.returned 0 = true ∧
    (persistFails.db.shared.slotStatus 1 = .applied ∨
      persistFails.db.shared.slotStatus 1 = .aborted) ∧
    (∃ j, (persistFails.db.threads j).commitSequenceNumber ≤ 2 ∧
      (persistFails.step (.step (.run j))).isSome) ∧
    1 ≤ persistFails.db.shared.watermark := by
  have hcheck : decide (persistFails.returned 0 = true ∧
      (persistFails.db.threads 0).own = some 1 ∧
      (persistFails.db.threads 1).pc.stage.validating = true ∧
      (persistFails.db.threads 1).commitSequenceNumber = 2) = true := by decide +kernel
  obtain ⟨hreturned, hown, hvalidating, hnumber⟩ := of_decide_eq_true hcheck
  obtain ⟨hdone, hprogress, hwatermark⟩ := returned_slots_done (persistFails_reach.mono fun _ _ h => h.1)
  obtain ⟨j, hle, -, hj⟩ := hprogress 1 hvalidating
  refine ⟨hreturned, hdone 0 1 (.inl hreturned) hown, ⟨j, hnumber ▸ hle, hj⟩,
    hwatermark persistFails_quiet 1 fun m hm hle => ⟨0, .inl hreturned, ?_⟩⟩
  obtain rfl : m = 1 := by omega
  exact hown

def numberLostRun : List (Action Nat Nat) :=
  [.step (.open 0 .write), .step (.run 0), .step (.run 0), .step (.commit 0 (lockOnly 0)),
    .step (.run 0), .failNumbered 0, .step (.open 1 .write), .step (.run 1), .step (.run 1),
    .step (.commit 1 (lockOnly 1))] ++ List.replicate 7 (.step (.run 1))

theorem numberLost_isSome : (run Faulty.step (create 0) numberLostRun).isSome = true := by
  decide +kernel

def numberLost : Faulty Nat Nat := (run Faulty.step (create 0) numberLostRun).get numberLost_isSome

/-- The call returned, its number has an empty slot, and the next commit waits there. -/
theorem numberLost_empty : Reaches Faulty.step (create 0) numberLost ∧ numberLost.Returned 0 ∧
    (numberLost.db.threads 0).own = some 1 ∧ numberLost.db.shared.slotStatus 1 = .empty ∧
    numberLost.step (.step (.run 1)) = none ∧
    (numberLost.db.threads 1).own = some 2 ∧ numberLost.db.shared.slotStatus 2 = .pending := by
  have hreturned : numberLost.returned 0 = true := by decide +kernel
  have hnone : (numberLost.step (.step (.run 1))).isNone = true := by decide +kernel
  have hrun : run Faulty.step (create 0) numberLostRun = some numberLost := by
    rw [numberLost, some_get]
  exact ⟨reaches_of_run hrun, .inl hreturned, by decide +kernel, by decide +kernel,
    isNone_iff_eq_none.mp hnone, by decide +kernel, by decide +kernel⟩

structure Live (s : Faulty K V) (i window : Nat) : Prop where
  reads : (s.db.threads i).Reads window
  running : s.returned i = false

def ReleasesFirst (s : Faulty K V) : Action K V → Prop
  | .step a => s.db.CountFits a ∧ s.db.Releases a
  | .fail i => (s.db.threads i).pc.holds = false
  | .failNumbered _ => False

/-- Where every snapshot is released before its call returns, each window counts its live
snapshots, and a release never finds the count at zero. -/
theorem readers_counted (hr : Reach step ReleasesFirst (create previous) s) :
    (∀ w ∈ s.db.shared.windows, Counted (fun i => s.Live i w) (s.db.shared.readers w)) ∧
      ∀ i w after, (s.db.threads i).pc = .decrementReaders w after →
        w ∈ s.db.shared.windows → 0 < s.db.shared.readers w := by
  have h : s.db.Accounts previous True ∧ Stopped (fun pc => pc.holds = false) previous s := by
    refine Reach.invariant (P := fun s : Faulty K V => s.db.Accounts previous True ∧
      Stopped (fun pc => pc.holds = false) previous s) hr
      ⟨Database.accounts_create _ _, stopped_create _ _⟩ ?_
    rintro s a s' ⟨haccounts, hstopped⟩ hok hstep
    cases a with
    | step a =>
      exact ⟨haccounts.step hok.1 (fun _ => hok.2) (step_db hstep).1, hstopped.step_db hstep⟩
    | fail i => exact ⟨(step_fail hstep).2.2.1 ▸ haccounts, hstopped.fail hok hstep⟩
    | failNumbered i => exact hok.elim
  obtain ⟨haccounts, hstopped⟩ := h
  have hcounted : ∀ w ∈ s.db.shared.windows,
      Counted (fun i => (s.db.threads i).Reads w) (s.db.shared.readers w) := by
    intro w hw
    obtain ⟨index, -, rfl⟩ := mem_windows.mp hw
    obtain ⟨n, hn, -, hexact⟩ := haccounts.counted _ (windowAt_aligned haccounts.aligned)
      (mem_windows_iff.mp hw).1
    rwa [hexact trivial]
  refine ⟨fun w hw => (hcounted w hw).congr fun i => ?_, fun i w after hpc hw => ?_⟩
  · refine ⟨fun hreads => ⟨hreads, ?_⟩, fun hlive => hlive.reads⟩
    by_contra hreturned
    have := hstopped.stopped i (by simpa using hreturned)
    exact not_reads this hreads
  · have hreader := haccounts.readers i
    rw [hpc] at hreader
    obtain ⟨hcall, -, -, hin⟩ := hreader
    exact (hcounted w hw).pos ⟨hcall, by rw [hpc]; rfl, hin⟩

def releasesFirst (s : Faulty Nat Nat) : Action Nat Nat → Bool
  | .step (.commit _ operations) => !(operations.isWritesEmpty && operations.locksEmpty)
  | .step (.run i) =>
    match (s.db.threads i).pc with
    | .incrementReaders w => decide (s.db.shared.readers w + 1 < 2 ^ 64)
    | .diskCommits _ _ => false
    | _ => true
  | .step _ => true
  | .fail i => !(s.db.threads i).pc.holds
  | .failNumbered _ => false

theorem releasesFirst_ok (s : Faulty Nat Nat) (a : Action Nat Nat)
    (h : releasesFirst s a = true) : ReleasesFirst s a := by
  cases a with
  | step a =>
    refine ⟨?_, ?_, ?_⟩
    · rintro i w rfl hpc
      simpa [releasesFirst, hpc] using h
    · rintro i operations rfl
      simp only [releasesFirst, Bool.not_eq_true'] at h
      rw [h]
      exact Bool.false_ne_true
    · rintro i rfl hmeets
      rw [MeetsUndecided] at hmeets
      split at hmeets
      · rename_i hpc
        simp [releasesFirst, hpc] at h
      · exact hmeets
  | fail i => simpa [releasesFirst, ReleasesFirst] using h
  | failNumbered i => cases h

def secondOpened : List (Storage.Action Nat Nat) :=
  firstCommit ++ [.run 0, .open 1 .write, .run 1, .run 1, .run 1]

def secondOpenedRun : Option (Faulty Nat Nat) :=
  runIf Faulty.step releasesFirst (create 0) (secondOpened.map .step)

theorem secondOpened_isSome : secondOpenedRun.isSome = true := by decide +kernel

theorem secondOpened_counted :
    Counted (fun i => Live (secondOpenedRun.get secondOpened_isSome) i 1) 1 := by
  have hrun : secondOpenedRun = some (secondOpenedRun.get secondOpened_isSome) := by
    rw [some_get]
  have h := (readers_counted (reach_of_runIf releasesFirst_ok hrun)).1 1 (by decide +kernel)
  have hone : (secondOpenedRun.get secondOpened_isSome).db.shared.readers 1 = 1 := by
    decide +kernel
  rwa [hone] at h

theorem reaches_of_database {db db' : Database K V} (h : Reaches Database.step db db') :
    Reaches Faulty.step ⟨db, fun _ => false⟩ ⟨db', fun _ => false⟩ := by
  induction h with
  | refl => exact .refl
  | @tail db' db'' a _ _ hstep ih =>
    refine ih.tail (a := .step a) trivial ?_
    have hadmits : admits ⟨db', fun _ => false⟩ a = true := by
      rw [admits]
      split <;> rfl
    rw [Faulty.step, if_pos hadmits, hstep]
    rfl

def emptyCommitRun : List (Storage.Action Nat Nat) := secondOpened ++ [.commit 1 .new]

theorem emptyCommit_isSome :
    (run Database.step (.create 0) emptyCommitRun).isSome = true := by decide +kernel

def emptyCommit : Database Nat Nat :=
  (run Database.step (.create 0) emptyCommitRun).get emptyCommit_isSome

/-- Both snapshots are gone, and the window still counts a reader. -/
theorem emptyCommit_counted :
    Reaches Faulty.step (create 0) ⟨emptyCommit, fun _ => false⟩ ∧
      1 ∈ emptyCommit.shared.windows ∧ emptyCommit.shared.readers 1 = 1 ∧
      ∀ i, ¬ Live ⟨emptyCommit, fun _ => false⟩ i 1 := by
  have hrun : run Database.step (.create 0) emptyCommitRun = some emptyCommit := by
    rw [emptyCommit, some_get]
  refine ⟨reaches_of_database (reaches_of_run hrun), by decide +kernel, by decide +kernel,
    fun i hlive => ?_⟩
  have hholds := hlive.reads.holds
  dsimp only at hholds
  by_cases h₀ : i = 0
  · subst h₀
    revert hholds
    decide +kernel
  · by_cases h₁ : i = 1
    · subst h₁
      revert hholds
      decide +kernel
    · -- no other thread has moved
      have hthread : emptyCommit.threads i = .new := by
        refine Database.run_threads hrun fun a ha => ?_
        have hall : ∀ a ∈ emptyCommitRun, a.thread = none ∨ a.thread = some 0 ∨
            a.thread = some 1 := by decide +kernel
        rcases hall a ha with h | h | h <;> rw [h]
        · exact nofun
        · exact fun h => h₀ (some.inj h).symm
        · exact fun h => h₁ (some.inj h).symm
      rw [hthread] at hholds
      cases hholds

end Faulty
end TypeDB.Storage
