import TypeDB.Storage.Memory
import TypeDB.Storage.Rounds

/-! `MVCCStorage::reset`. The keyspaces, the log, the timeline and the highest validated number
each have a rule of their own for it, and the timeline starts again from the number the isolation
manager was made with. -/

namespace TypeDB.Storage
open Option Runs Threads Storage.Database Timeline

variable {K V : Type*} [LinearOrder K]

/-- `Timeline::get_or_create_window`; `none` where no window has the number and the unwrap
panics. -/
def Timeline.getOrCreateWindow (tl : Timeline K V) (n : Nat) : Option (Timeline K V × Nat) :=
  let tl := if tl.backEnd ≤ n then tl.createWindowsTo n else tl
  (tl.tryGetWindow n).map fun window => (tl, window)

theorem Timeline.getOrCreateWindow_isSome_iff (tl : Timeline K V) (n : Nat) :
    (tl.getOrCreateWindow n).isSome ↔ tl.front ≤ n := by
  have hsame : (if tl.backEnd ≤ n then tl.createWindowsTo n else tl) = tl.createWindowsTo n := by
    rw [createWindowsTo]
    split_ifs <;> rfl
  have hfront : (tl.createWindowsTo n).front = tl.front := by
    obtain ⟨more, h⟩ := tl.createWindowsTo_spec n
    rw [h]
  simp only [getOrCreateWindow, hsame, isSome_map]
  constructor
  · intro h
    obtain ⟨window, hw⟩ := isSome_iff_exists.mp h
    obtain ⟨hin, hle, -⟩ := tryGetWindow_eq_some hw
    exact hfront ▸ hle.trans hin.1
  · intro h
    obtain ⟨window, hw⟩ := tryGetWindow_isSome (hfront.symm ▸ h) (tl.lt_backEnd_createWindowsTo n)
    rw [hw]
    rfl

structure Instance (K V : Type*) [LinearOrder K] where
  build : Build
  initialSequenceNumber : Nat
  db : Database K V

/-- `MVCCStorage::reset` when every part of it succeeds. The highest validated number is not
touched. -/
def MVCCStorage.reset (st : MVCCStorage K V) (initialSequenceNumber : Nat) : MVCCStorage K V where
  toTimeline := new initialSequenceNumber
  highestValidatedSequenceNumber := st.highestValidatedSequenceNumber
  log := []
  nextSequenceNumber := 1
  synced := 0
  keyspaces _ _ _ := none

def Pc.isLive : Pc K V → Bool
  | .idle | .committed | .rejected | .closed | .failed | .panicked => false
  | _ => true

def Database.Quiet (db : Database K V) : Prop := ∀ i, (db.threads i).pc.isLive = false

namespace Database
variable [DecidableEq V]

/-- The storage does what is asked of a new one: its watermark has caught up, a snapshot that is
opened before something is committed does not wait (unless it asks for a number still to come),
and the next commit finds a window. -/
structure LikeFresh (build : Build) (db : Database K V) : Prop where
  watermark_eq : db.shared.watermark = db.shared.highestValidatedSequenceNumber
  opens : ∀ db', Reach (stepOf build) (fun _ a => ∀ i operations, a ≠ .commit i operations) db db' →
    ∀ i target, (db'.threads i).pc = .waiting target →
      (∀ n ∈ (db'.threads i).call.fixed, n ≤ db'.shared.watermark) →
      ((db'.threads i).step db'.shared).isSome
  window : (db.shared.getOrCreateWindow db.shared.nextSequenceNumber).isSome

end Database

namespace Instance

def create (build : Build) (previous : Nat) : Instance K V := ⟨build, previous + 1, .create previous⟩

/-- `MVCCStorage::load` where `recovered` is the last number found in the log or the checkpoint. -/
def load (recovered : Nat) (log : Log K V) (nextSequenceNumber synced : Nat)
    (keyspaces : KeyspaceId → Keyspace K V) : Instance K V where
  build := .wal
  initialSequenceNumber := recovered + 1
  db := ⟨{ MVCCStorage.create recovered with
    log := log, nextSequenceNumber := nextSequenceNumber, synced := synced, keyspaces := keyspaces },
    fun _ => .new⟩

inductive Opened : Instance K V → Prop
  | create (build : Build) (previous : Nat) : Opened (create build previous)
  | load (recovered : Nat) (log : Log K V) (nextSequenceNumber synced : Nat)
      (keyspaces : KeyspaceId → Keyspace K V) :
      Opened (load recovered log nextSequenceNumber synced keyspaces)

inductive Event (K V : Type*) [LinearOrder K]
  | act (a : Action K V)
  | importSnapshot (watermark : Nat) (keyspaces : KeyspaceId → Keyspace K V)
  | reset

def reset (s : Instance K V) : Instance K V :=
  { s with db := ⟨s.db.shared.reset s.initialSequenceNumber, fun _ => .new⟩ }

def step [DecidableEq V] (s : Instance K V) : Event K V → Option (Instance K V)
  | .act a => (s.db.stepOf s.build a).map fun db => { s with db := db }
  | .importSnapshot watermark keyspaces =>
    match s.build with
    | .wal => none
    | .memory => some ⟨.memory, watermark + 1, .importSnapshot watermark keyspaces⟩
  | .reset => some s.reset

def Exclusive (s : Instance K V) : Event K V → Prop
  | .act _ => True
  | _ => s.db.Quiet

theorem initialSequenceNumber_pos [DecidableEq V] {s₀ s : Instance K V} (h₀ : s₀.Opened)
    (h : Reach step Exclusive s₀ s) : 0 < s.initialSequenceNumber := by
  refine h.invariant (P := fun s => 0 < s.initialSequenceNumber) ?_ ?_
  · cases h₀ with
    | create build previous => exact Nat.succ_pos previous
    | load recovered => exact Nat.succ_pos recovered
  · intro s e s' hs _ hstep
    cases e with
    | act a =>
      obtain ⟨db, -, rfl⟩ := map_eq_some_iff.mp hstep
      exact hs
    | importSnapshot watermark keyspaces =>
      rw [step] at hstep
      split at hstep <;> cases hstep
      exact Nat.succ_pos watermark
    | reset =>
      cases hstep
      exact hs

end Instance

section Opening
variable [DecidableEq V]

def Pc.beforeCommit : Pc K V → Bool
  | .idle | .waiting _ | .recordReader | .incrementReaders _ | .opened | .closed | .panicked => true
  | .removeReader .closed | .decrementReaders _ .closed | .free .closed => true
  | .freeCheck _ .closed | .freeLoop _ .closed | .freePop _ _ .closed => true
  | _ => false

structure StaysBefore (st : MVCCStorage K V) (st' : MVCCStorage K V) (t' : Transaction K V) :
    Prop where
  watermark : st'.watermark = st.watermark
  highest : st'.highestValidatedSequenceNumber = st.highestValidatedSequenceNumber
  pc : t'.pc.beforeCommit = true
  outside : ∀ target, t'.pc ≠ .waiting target

theorem step_staysBefore {st st' : MVCCStorage K V} {t t' : Transaction K V}
    (h : t.step st = some (st', t')) (hpc : t.pc.beforeCommit = true) :
    StaysBefore st st' t' := by
  have hgoto : ∀ pc : Pc K V, pc.beforeCommit = true → (∀ target, pc ≠ .waiting target) →
      StaysBefore st st (t.goto pc) := fun pc hb ho => ⟨rfl, rfl, hb, ho⟩
  cases hp : t.pc <;> rw [hp] at hpc <;> simp only [Transaction.step, hp] at h
  case waiting | recordReader | incrementReaders =>
    repeat' split at h
    all_goals cases h
    all_goals exact ⟨rfl, rfl, rfl, by rintro _ ⟨⟩⟩
  case removeReader after | free after | freeCheck _ after | freeLoop _ after =>
    cases after <;> cases hpc
    repeat' split at h
    all_goals cases h
    all_goals exact hgoto _ rfl (by rintro _ ⟨⟩)
  case decrementReaders window after =>
    cases after <;> cases hpc
    cases h
    refine ⟨rfl, rfl, ?_, fun target => ?_⟩ <;> dsimp only [Transaction.goto] <;> split_ifs <;>
      first | rfl | rintro ⟨⟩
  case freePop window watermark after =>
    cases after <;> cases hpc
    split_ifs at h
    · cases hpop : st.popFront <;> rw [hpop] at h <;> cases h
      · exact hgoto _ rfl (by rintro _ ⟨⟩)
      · exact ⟨(popFront_eq_some hpop).2.2.2.2.2, rfl, rfl, by rintro _ ⟨⟩⟩
    · cases h
      exact hgoto _ rfl (by rintro _ ⟨⟩)
  -- either no such thread has come this far or the thread stands still
  all_goals contradiction

/-- While nothing is committed the numbers stand still and an opening waits for the first of
them. -/
structure BeforeCommit (watermark highest : Nat) (db : Database K V) : Prop where
  watermark_eq : db.shared.watermark = watermark
  highest_eq : db.shared.highestValidatedSequenceNumber = highest
  pc : ∀ i, (db.threads i).pc.beforeCommit = true
  target : ∀ i target, (db.threads i).pc = .waiting target →
    target = (db.threads i).call.fixed.getD highest

variable {watermark highest : Nat} {db db' : Database K V} {a : Action K V}

section
variable (h : BeforeCommit watermark highest db)
include h

omit [DecidableEq V] in
theorem BeforeCommit.move {i : Nat} {st : MVCCStorage K V} {t : Transaction K V}
    (hst : st.watermark = db.shared.watermark)
    (hst' : st.highestValidatedSequenceNumber = db.shared.highestValidatedSequenceNumber)
    (hpc : t.pc.beforeCommit = true)
    (htarget : ∀ target, t.pc = .waiting target → target = t.call.fixed.getD highest) :
    BeforeCommit watermark highest (db.move i st t) := by
  refine ⟨hst.trans h.watermark_eq, hst'.trans h.highest_eq, fun j => ?_, fun j => ?_⟩
  · exact move_threads (P := fun u => u.pc.beforeCommit = true) (h.pc j) fun _ => hpc
  · exact move_threads (P := fun u => ∀ target, u.pc = .waiting target →
      target = u.call.fixed.getD highest) (h.target j) fun _ => htarget

theorem BeforeCommit.request
    (ha : ∀ i operations, a ≠ .commit i operations) (hrun : ∀ i, a ≠ .run i)
    (hstep : db.step a = some db') : BeforeCommit watermark highest db' := by
  cases a with
  | «open» i call =>
    simp only [step] at hstep
    split at hstep <;> cases hstep
    refine h.move rfl rfl rfl fun target htarget => ?_
    cases htarget
    rw [h.highest_eq]
  | commit i operations => exact absurd rfl (ha i operations)
  | close i =>
    simp only [step] at hstep
    split at hstep <;> cases hstep
    refine h.move rfl rfl ?_ fun target => ?_ <;> dsimp only [Transaction.goto] <;> split_ifs <;>
      first | rfl | rintro ⟨⟩
  | run i => exact absurd rfl (hrun i)
  | sync =>
    cases hstep
    exact { h with }

theorem BeforeCommit.step {build : Build}
    (ha : ∀ i operations, a ≠ .commit i operations) (hstep : db.stepOf build a = some db') :
    BeforeCommit watermark highest db' := by
  have hthread : ∀ i st t, (db.threads i).step db.shared = some (st, t) →
      StaysBefore db.shared st t := fun i st t ht => step_staysBefore ht (h.pc i)
  cases build with
  | wal =>
    cases a with
    | run i =>
      obtain ⟨⟨st, t⟩, ht, rfl⟩ := map_eq_some_iff.mp hstep
      have hs := hthread i st t ht
      exact h.move hs.watermark hs.highest hs.pc fun target htarget =>
        absurd htarget (hs.outside target)
    | _ => exact h.request ha nofun hstep
  | memory =>
    cases a with
    | run i =>
      obtain ⟨⟨_, _⟩, hforget, rfl⟩ := map_eq_some_iff.mp hstep
      obtain ⟨⟨st, t⟩, ht, heq⟩ := map_eq_some_iff.mp hforget
      cases heq
      have hs := hthread i st t ht
      exact h.move hs.watermark hs.highest hs.pc fun target htarget =>
        absurd htarget (hs.outside target)
    | _ => exact h.request ha nofun hstep

theorem BeforeCommit.reach {build : Build}
    (hr : Reach (stepOf build) (fun _ a => ∀ i operations, a ≠ .commit i operations) db db') :
    BeforeCommit watermark highest db' :=
  hr.invariant h fun _ _ _ hs ha hstep => hs.step ha hstep

end

omit [DecidableEq V] in
theorem beforeCommit_new (st : MVCCStorage K V) :
    BeforeCommit st.watermark st.highestValidatedSequenceNumber
      (⟨st, fun _ => .new⟩ : Database K V) :=
  ⟨rfl, rfl, fun _ => rfl, fun _ _ => nofun⟩

end Opening

namespace Database
variable [DecidableEq V] {build : Build}

/-- A storage without snapshots is like a new one where the two numbers agree and the windows do
not start after the next number. -/
theorem likeFresh_iff (st : MVCCStorage K V) : LikeFresh build ⟨st, fun _ => .new⟩ ↔
      st.watermark = st.highestValidatedSequenceNumber ∧ st.front ≤ st.nextSequenceNumber := by
  constructor
  · intro h
    exact ⟨h.watermark_eq, (getOrCreateWindow_isSome_iff _ _).mp h.window⟩
  · rintro ⟨heq, hfront⟩
    refine ⟨heq, fun db' hr i target hpc hfixed => ?_,
      (getOrCreateWindow_isSome_iff _ _).mpr hfront⟩
    have hb := (beforeCommit_new st).reach hr
    have hle : ¬ db'.shared.watermark < target := by
      rw [hb.target i target hpc, not_lt]
      cases hcall : (db'.threads i).call.fixed with
      | none => exact (heq.symm.trans hb.watermark_eq.symm).le
      | some n => exact hfixed n hcall
    simp only [Transaction.step, hpc, if_neg hle, isSome_some]

end Database

namespace Instance
variable [DecidableEq V] {s₀ s : Instance K V}

/-- A reset leaves a storage like a new one where the storage had started from the first number
and had validated nothing since; it is then a new storage. -/
theorem reset_likeFresh_iff (h₀ : s₀.Opened) (h : Reach step Exclusive s₀ s) (_ : s.db.Quiet) :
    (s.reset.db.LikeFresh s.build ↔
      s.initialSequenceNumber = 1 ∧ s.db.shared.highestValidatedSequenceNumber = 0) ∧
    (s.initialSequenceNumber = 1 ∧ s.db.shared.highestValidatedSequenceNumber = 0 →
      s.reset.db = Database.create 0) := by
  have hpos := initialSequenceNumber_pos h₀ h
  constructor
  · refine (likeFresh_iff _).trans ?_
    change s.initialSequenceNumber - 1 = _ ∧ s.initialSequenceNumber ≤ 1 ↔ _
    simp only [MVCCStorage.reset]
    omega
  · rintro ⟨hinitial, hhighest⟩
    simp only [reset, MVCCStorage.reset, hinitial, hhighest]
    rfl

theorem reach_act {db db' : Database K V} (initial : Nat) (h : Reaches Database.step db db') :
    Reach step Exclusive ⟨.wal, initial, db⟩ ⟨.wal, initial, db'⟩ := by
  induction h with
  | refl => exact .refl
  | @tail db₁ db₂ a _ _ hstep ih =>
    refine ih.tail (a := .act a) trivial ?_
    change (db₁.step a).map _ = _
    rw [hstep]
    rfl

/-- Two write snapshots and a read snapshot are opened, overlap, and are closed again. -/
def snapshotsClosed : Instance Nat Nat :=
  ⟨.wal, 1, [.open 0 .write, .run 0, .run 0, .open 1 .write, .run 1, .run 1, .open 2 .read, .run 2,
    .close 1, .run 1, .close 0, .run 0, .close 2].foldl Database.request (.create 0)⟩

theorem snapshotsClosed_likeFresh : snapshotsClosed.db.shared.highestValidatedSequenceNumber = 0 ∧
    snapshotsClosed.reset.db.LikeFresh .wal ∧ snapshotsClosed.reset.db = Database.create 0 := by
  have hquiet : snapshotsClosed.db.Quiet := by
    intro i
    match i with
    | 0 | 1 | 2 => decide +kernel
    | i + 3 => rfl
  have hhighest : snapshotsClosed.db.shared.highestValidatedSequenceNumber = 0 := by
    decide +kernel
  have hreach : Reach step Exclusive (create .wal 0 : Instance Nat Nat) snapshotsClosed :=
    reach_act 1 (reaches_foldl reaches_request _ _)
  obtain ⟨hiff, hcreate⟩ := reset_likeFresh_iff (.create .wal 0) hreach hquiet
  exact ⟨hhighest, hiff.mpr ⟨rfl, hhighest⟩, hcreate ⟨rfl, hhighest⟩⟩

end Instance

def committedOnce : Instance Nat Nat := ⟨.wal, 1, Database.commitAlone (lockOnly 0) (.create 0) 0⟩

theorem committedOnce_threads : (committedOnce.db.threads 0).pc.isLive = false ∧
      committedOnce.db.shared.highestValidatedSequenceNumber = 1 := by decide +kernel

/-- After a commit a reset leaves the watermark behind the highest validated number, which every
snapshot waits for. -/
theorem reset_committedOnce_not_likeFresh :
    (Instance.create .wal 0 : Instance Nat Nat).Opened ∧
      Reach Instance.step Instance.Exclusive (Instance.create .wal 0) committedOnce ∧
      committedOnce.db.Quiet ∧
      committedOnce.reset.db.shared.watermark = 0 ∧
      committedOnce.reset.db.shared.highestValidatedSequenceNumber = 1 ∧
      ¬ committedOnce.reset.db.LikeFresh .wal := by
  have hone := committedOnce_threads.2
  refine ⟨.create .wal 0, Instance.reach_act 1 (Database.reaches_commitAlone _ _ 0), fun i => ?_,
    rfl, hone, fun h => ?_⟩
  · cases i with
    | zero => exact committedOnce_threads.1
    | succ i => rfl
  · have heq : 0 = committedOnce.db.shared.highestValidatedSequenceNumber := h.watermark_eq
    rw [hone] at heq
    cases heq

end TypeDB.Storage
