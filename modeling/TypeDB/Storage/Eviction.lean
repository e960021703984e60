import Mathlib.Data.List.TakeWhile
import TypeDB.Storage.Windows
import TypeDB.Storage.Rounds
import TypeDB.Storage.Isolation

/-! Validation from the log. Commits in windows that are gone are looked up in the log, where each
of them is taken to have a status. The status record is written after the window may have gone. -/

namespace TypeDB.Storage
open Runs Threads Storage.Database Option

variable {K V : Type*} [LinearOrder K]

section Thread
variable {first : Nat} {st st' : MVCCStorage K V} {t t' : Transaction K V}

def GoneDecided (first : Nat) (st : MVCCStorage K V) : Prop :=
  ∀ n, first < n → n < st.front → st.log.statusAt n ≠ none

def ScanOk (first : Nat) (st : MVCCStorage K V) (t : Transaction K V) : Pc K V → Prop
  | .diskStatuses stop => stop ≤ st.front
  | .diskCommits stop isCommitted => ∀ n, first < n → t.openSequenceNumber < n → n < stop →
      lookupStatus isCommitted n ≠ none
  | _ => True

theorem ScanOk.spared {pc : Pc K V} (hfront : st.front ≤ st'.front) (h : ScanOk first st t pc) :
    ScanOk first st' t pc := by
  cases pc with
  | diskStatuses stop => exact h.trans hfront
  | _ => exact h

theorem lookupStatus_ne_none {isCommitted : List (Nat × Bool)} {n : Nat} {b : Bool}
    (h : (n, b) ∈ isCommitted) : lookupStatus isCommitted n ≠ none := by
  rw [lookupStatus, Ne, map_eq_none_iff, List.find?_eq_none]
  push Not
  exact ⟨(n, b), List.mem_reverse.mpr h, by simp⟩

theorem ScanOk.decided (h : StorageOk first st) (hs : ScanOk first st t t.pc) :
    ¬ t.MeetsUndecided st := by
  rw [Transaction.MeetsUndecided]
  split
  · rename_i stop isCommitted hpc
    rw [hpc] at hs
    rintro ⟨p, hp, hnone⟩
    have hseg := (h.wellFormed.commitsFrom (t.openSequenceNumber + 1)).1
    have hle := (hseg.takeWhile stop).1.le_of_mem hp
    have hlt : p.1 < stop := by simpa using List.mem_takeWhile_imp hp
    exact hs p.1 (by omega) (by omega) hlt hnone
  · exact id

def Pc.scans : Pc K V → Bool
  | .diskStatuses _ | .diskCommits _ _ => true
  | _ => false

theorem ScanOk.of_not_scans {pc : Pc K V} (h : pc.scans = false) : ScanOk first st t pc := by
  cases pc <;> first | cases h; done | trivial

theorem After.scans_pc (a : After) : (a.pc : Pc K V).scans = false := by cases a <;> rfl

theorem handle_scans {n : Nat} {dependency : CommitDependency K}
    (h : t.handle st n dependency = (st', t')) : t'.pc.scans = false := by
  unfold Transaction.handle at h
  split at h
  · cases h
    rfl
  · split at h <;> cases h <;> rfl

variable [DecidableEq V]

theorem ScanOk.step (h : StorageOk first st) (hgone : GoneDecided first st)
    (hs : ScanOk first st t t.pc) (hstep : t.step st = some (st', t')) :
    ScanOk first st' t' t'.pc := by
  cases hpc : t.pc with
  | collect =>
    simp only [Transaction.step, hpc] at hstep
    split at hstep
    · split_ifs at hstep with hlt <;> cases hstep
      · exact (collectConcurrentWindows_first _ _ _ hlt).le
      · trivial
    · cases hstep
      trivial
  | diskStatuses stop =>
    rw [hpc] at hs
    simp only [Transaction.step, hpc] at hstep
    cases hstep
    intro n hn hopen hlt
    obtain ⟨b, hb⟩ := ne_none_iff_exists'.mp (hgone n hn (hlt.trans_le hs))
    exact lookupStatus_ne_none (h.wellFormed.mem_statusesFrom hb hopen)
  | _ =>
    refine .of_not_scans ?_
    simp only [Transaction.step, hpc] at hstep
    repeat' split at hstep
    all_goals first
      | contradiction
      | exact handle_scans (some.inj hstep)
      | cases hstep
        rfl
      | cases hstep
        exact After.scans_pc _

end Thread

namespace Database
variable {first previous : Nat} {db db' : Database K V}

/-- A window is popped only when every commit in it has its status record in the log. -/
def EvictsDecided (db : Database K V) (a : Action K V) : Prop :=
  ∀ i watermark after, a = .run i →
    (db.threads i).pc = .freePop db.shared.front watermark after →
    ∀ n r, InWindow db.shared.front n → db.shared.log.commitAt n = some r →
      db.shared.log.statusAt n ≠ none

structure Decided (first : Nat) (db : Database K V) : Prop where
  placements : db.Placements first
  gone : GoneDecided first db.shared
  scans : ∀ i, ScanOk first db.shared (db.threads i) (db.threads i).pc
  running : ∀ i, (db.threads i).pc ≠ .panicked

theorem decided_create (first : Nat) : Decided first (create first : Database K V) := by
  refine ⟨placements_create first, fun n hn hlt => ?_, fun _ => trivial, fun _ => nofun⟩
  change n < first + 1 at hlt
  omega

variable [DecidableEq V]

theorem Decided.gone_step {i : Nat} {st : MVCCStorage K V} {t : Transaction K V}
    (h : Decided first db) (hevicts : EvictsDecided db (.run i))
    (hthread : (db.threads i).step db.shared = some (st, t)) : GoneDecided first st := by
  have hok := h.placements.ok
  have hspares := (step_ok hok.shared (hok.own i) (st, t) hthread).spares
  obtain ⟨extra, hextra⟩ := hspares.extends_log
  intro n hn hlt
  have hold : db.shared.log.statusAt n ≠ none := by
    rcases (step_effect hthread).front with hfront | ⟨wm, after, hpc, hfront, -⟩
    · exact h.gone n hn (hfront ▸ hlt)
    · rcases Nat.lt_or_ge n db.shared.front with hbefore | hin
      · exact h.gone n hn hbefore
      · -- the window that is popped now
        rw [hfront] at hlt
        have hend := ((hok.own i).at_pc hpc).2.2
        have hnext := hok.shared.watermark_lt_next
        obtain ⟨r, hr⟩ := hok.shared.wellFormed.exists_commitAt hn (by omega)
        exact hevicts i wm after rfl hpc n r ⟨hin, hlt⟩ hr
  obtain ⟨b, hb⟩ := ne_none_iff_exists'.mp hold
  rw [hextra, Log.statusAt_append_of_some extra hb]
  exact nofun

theorem Decided.step {a : Action K V} (h : Decided first db) (hevicts : EvictsDecided db a)
    (hstep : db.step a = some db') : Decided first db' := by
  have hplacements := h.placements.step hstep
  have hrunning := h.placements.not_panicked h.running
    (fun i _ => (h.scans i).decided h.placements.ok.shared) hstep
  cases step_cases hstep with
  | run i st t hthread =>
    have hshared := h.placements.ok.shared
    have hfront : db.shared.front ≤ st.front := by
      rcases (step_effect hthread).front with heq | ⟨_, _, -, heq, -⟩
      · exact heq.ge
      · rw [heq]
        exact Nat.le_add_right _ _
    refine ⟨hplacements, h.gone_step hevicts hthread, fun j => ?_, hrunning⟩
    exact move_threads (P := fun u => ScanOk first st u u.pc) ((h.scans j).spared hfront)
      fun _ => (h.scans i).step hshared h.gone hthread
  | call i a t hcall =>
    refine ⟨hplacements, h.gone, fun j => ?_, hrunning⟩
    refine move_threads (P := fun u => ScanOk first db.shared u u.pc) (h.scans j) fun _ => ?_
    cases hcall <;> trivial
  | sync => exact ⟨hplacements, h.gone, h.scans, hrunning⟩

end Database

section Scan
variable [DecidableEq V] {previous : Nat} {db : Database K V}

/-- Where windows are popped only once the log has the status of every commit in them, a thread
that sets out to validate from the log finds them all there, and no commit panics. -/
theorem evicted_decided
    (hr : Reach step EvictsDecided (create previous) db) :
    (∀ i stop, (db.threads i).pc = .diskStatuses stop →
      ∀ n, previous < n → (db.threads i).openSequenceNumber < n → n < stop →
        db.shared.log.statusAt n ≠ none) ∧
    (∀ i, ¬ (db.threads i).MeetsUndecided db.shared) ∧
    ∀ i, (db.threads i).pc ≠ .panicked := by
  have h : db.Decided previous := hr.invariant (decided_create previous)
    fun _ _ _ h hevicts hstep => h.step hevicts hstep
  refine ⟨fun i stop hpc n hn _ hlt => ?_, fun i => (h.scans i).decided h.placements.ok.shared,
    h.running⟩
  have hstop := h.scans i
  rw [hpc] at hstop
  exact h.gone n hn (hlt.trans_le hstop)

end Scan

def popsDecided (st : MVCCStorage Nat Nat) (t : Transaction Nat Nat) : Bool :=
  match t.pc with
  | .freePop _ _ _ =>
    (List.range' st.front timelineWindowSize).all fun n => (st.log.statusAt n).isSome
  | _ => true

theorem popsDecided_keeps : (play popsDecided fun _ => true).Keeps EvictsDecided := by
  refine play_keeps (fun a db ha i _ _ hrun => absurd hrun (ha i)) ?_
  rintro i db - hcheck j watermark after ⟨⟩ hpc n r ⟨hlow, hhigh⟩ -
  simp only [popsDecided, hpc, List.all_eq_true] at hcheck
  exact isSome_iff_ne_none.mp (hcheck n (List.mem_range'_1.mpr ⟨hlow, hhigh⟩))

/-- The commits of the window all have their status in the log when it is popped. -/
def statusLogged (fuel : Nat) : Database Nat Nat :=
  (play popsDecided fun _ => true).rounds (create 0) (pastWindow [.drive fuel])

theorem statusLogged_reach (fuel : Nat) : Reach step EvictsDecided (create 0) (statusLogged fuel) :=
  (popsDecided_keeps.rounds (fun _ => rfl) _).1

def Pc.scansBefore (stop : Nat) : Pc K V → Bool
  | .diskStatuses m => m == stop
  | _ => false

theorem Pc.eq_diskStatuses {stop : Nat} {pc : Pc K V} (h : pc.scansBefore stop = true) :
    pc = .diskStatuses stop := by
  cases pc <;> first | exact congrArg _ (beq_iff_eq.mp h) | cases h

theorem statusLogged_scans : (1 ∉ (statusLogged 7).shared.windows ∧
      ((statusLogged 7).threads 200).pc = .diskStatuses 101 ∧
      ∀ n, 0 < n → n < 101 → (statusLogged 7).shared.log.statusAt n ≠ none) ∧
    ∀ fuel, ((statusLogged fuel).threads 200).pc ≠ .panicked := by
  have hcheck : decide (1 ∉ (statusLogged 7).shared.windows ∧
      ((statusLogged 7).threads 200).pc.scansBefore 101 = true ∧
      ((statusLogged 7).threads 200).openSequenceNumber = 0) = true := by decide +kernel
  obtain ⟨hwindows, hpc, hopen⟩ := of_decide_eq_true hcheck
  replace hpc := Pc.eq_diskStatuses hpc
  refine ⟨⟨hwindows, hpc, fun n hn hlt => ?_⟩,
    fun fuel => (evicted_decided (statusLogged_reach fuel)).2.2 200⟩
  exact (evicted_decided (statusLogged_reach 7)).1 200 101 hpc n hn (hopen ▸ hn) hlt

/-- Snapshot 200 is opened first. The first commit has its slot applied but no status record yet
when the hundred commits after it fill the window, and the window is popped. Then the snapshot
commits. -/
def statusMissing : Database Nat Nat :=
  let db := (request (.create 0) (.open 200 .write)).drive 3 200
  let db := (db.request (.open 0 .write)).drive 3 0
  let db := ((db.request (.commit 0 (lockOnly 0))).drive 40 0).request .sync
  let db := commitEach (lockOnly 0) (db.drive 10 0) (List.range' 1 100)
  (db.request (.commit 200 (lockOnly 1))).drive 40 200

theorem statusMissing_reaches : Reaches step (.create 0) statusMissing :=
  (reaches_request _ _).trans <| (reaches_drive _ _ _).trans <|
    (reaches_request _ _).trans <| (reaches_drive _ _ _).trans <|
    (reaches_request _ _).trans <| (reaches_drive _ _ _).trans <|
    (reaches_request _ _).trans <| (reaches_drive _ _ _).trans <|
    (reaches_commitEach _ _ _).trans <| (reaches_request _ _).trans <|
    reaches_drive _ _ _

def Pc.isPanicked : Pc K V → Bool
  | .panicked => true
  | _ => false

theorem Pc.eq_panicked {pc : Pc K V} (h : pc.isPanicked = true) : pc = .panicked := by
  cases pc <;> first | rfl | cases h

/-- The commit is in the log and its slot is applied, its status is not there, and the thread that
comes to it panics. -/
theorem statusMissing_panics : Reaches step (.create 0) statusMissing ∧
    (statusMissing.threads 200).openSequenceNumber = 0 ∧
    (statusMissing.shared.log.commitAt 1).isSome = true ∧
    statusMissing.shared.slotStatus 1 = .applied ∧
    statusMissing.shared.log.statusAt 1 = none ∧
    (statusMissing.threads 200).pc = .panicked := by
  have hcheck : decide ((statusMissing.threads 200).openSequenceNumber = 0 ∧
      (statusMissing.shared.log.commitAt 1).isSome = true ∧
      statusMissing.shared.slotStatus 1 = .applied ∧
      statusMissing.shared.log.statusAt 1 = none ∧
      (statusMissing.threads 200).pc.isPanicked = true) = true := by
    decide +kernel
  obtain ⟨hopen, hcommit, hslot, hstatus, hpanic⟩ := of_decide_eq_true hcheck
  exact ⟨statusMissing_reaches, hopen, hcommit, hslot, hstatus, Pc.eq_panicked hpanic⟩

end TypeDB.Storage
