import TypeDB.Storage.Rounds
import TypeDB.Storage.Watermark

/-! Validation does not deadlock, with a log and without: every number belongs to a thread, and a
commit that waits for a slot waits for the thread of a smaller number. -/

namespace TypeDB.Storage
open Runs Threads Storage.Database

variable {K V : Type*} [LinearOrder K]

/-- Whether `validate_commit` has yet to decide. -/
def Stage.validating : Stage → Bool
  | .logged | .pending => true
  | _ => false

def Database.Owned (first : Nat) (db : Database K V) : Prop :=
  ∀ n, first < n → n < db.shared.nextSequenceNumber → ∃ j, (db.threads j).own = some n

/-- Thread `j` is under validation and has a step to take, or it has panicked or failed. -/
def Database.GoesOn [DecidableEq V] (build : Build) (db : Database K V) (j : Nat) : Prop :=
  (db.threads j).pc.stage.validating = true ∧ (db.stepOf build (.run j)).isSome ∨
    (db.threads j).pc.stage = .stuck

section Own
variable {st st' : MVCCStorage K V} {t t' : Transaction K V} {n : Nat}

theorem handle_own {dependency : CommitDependency K} (hpc : t.pc.stage.owns = true)
    (h : t.handle st n dependency = (st', t')) : t'.own = t.own := by
  have hown : t.own = some t.commitSequenceNumber := if_pos hpc
  rw [hown]
  unfold Transaction.handle at h
  split at h
  · cases h
    rfl
  · split at h <;> cases h <;> rfl

theorem Transaction.own_congr (hn : t'.commitSequenceNumber = t.commitSequenceNumber)
    (howns : t'.pc.stage.owns = t.pc.stage.owns) : t'.own = t.own := by
  rw [own, own, hn, howns]

variable [DecidableEq V]

/-- A number once taken stays with its thread. -/
theorem step_own (h : t.step st = some (st', t')) (hn : t.own = some n) : t'.own = some n := by
  have howns : t.pc.stage.owns = true := by
    by_contra hnot
    rw [Transaction.own, if_neg hnot] at hn
    cases hn
  rw [← hn]
  cases hpc : t.pc with
  | persist didApply =>
    simp only [Transaction.step, hpc] at h
    cases h
    refine Transaction.own_congr rfl ?_
    rw [hpc]
    cases didApply <;> rfl
  | _ =>
    simp only [Transaction.step, hpc] at h
    repeat' split at h
    all_goals first
      | contradiction
      | exact handle_own howns (Option.some.inj h)
      | cases h
        exact Transaction.own_congr rfl (by rw [hpc]; rfl)
      | cases h
        exact Transaction.own_congr rfl
          (by rw [hpc]; exact congrArg Stage.owns (After.stage_pc _))
      | cases h
        exact Transaction.own_congr rfl howns.symm
      | simp [hpc, Pc.stage, Stage.owns] at howns

end Own

variable [DecidableEq V] {first i : Nat} {pinned : Prop} {build : Build} {st : MVCCStorage K V}
  {t : Transaction K V} {db db' : Database K V} {a : Action K V}
  {keyspaces : KeyspaceId → Keyspace K V}

theorem Database.Owned.step (h : db.Owned first) (hstep : db.StepOf a db') : db'.Owned first := by
  intro n hn hlt
  cases hstep with
  | run i st t log logged hthread =>
    by_cases hold : n < db.shared.nextSequenceNumber
    · obtain ⟨j, hj⟩ := h n hn hold
      refine ⟨j, move_threads (P := fun u => u.own = some n) hj fun hij => ?_⟩
      subst hij
      have hown := step_own hthread hj
      exact hown
    · by_cases hpc : (db.threads i).pc = .sequencedWrite
      · simp only [Transaction.step, hpc] at hthread
        cases hthread
        refine ⟨i, ?_⟩
        rw [System.move_self]
        exact congrArg some (le_antisymm (not_lt.mp hold) (Nat.lt_succ_iff.mp hlt))
      · have hnext := step_next hthread hpc
        exact absurd (hlt.trans_eq hnext) hold
  | call i a t hcall =>
    obtain ⟨j, hj⟩ := h n hn hlt
    refine ⟨j, move_threads (P := fun u => u.own = some n) hj fun hij => ?_⟩
    subst hij
    cases hcall.own.1.symm.trans hj
  | sync => exact h n hn hlt

theorem owned_of_reaches (hr : Reaches (stepOf build) (importSnapshot first keyspaces) db) :
    db.Owned first := by
  refine hr.invariant (P := Database.Owned first) (fun n hn hlt => ?_) fun db a db' h _ hstep =>
    h.step (stepOf_cases hstep)
  change n < first + 1 at hlt
  omega

/-- A commit under validation waits only for a slot that is still empty or pending. -/
theorem waits_of_step_eq_none (ht : HeldOk first pinned st t)
    (hpc : t.pc.stage.validating = true) (h : t.step st = none) :
    ∃ m, first < m ∧ m < t.commitSequenceNumber ∧
      (st.slotStatus m = .empty ∨ st.slotStatus m = .pending) := by
  have hp := ht.pc
  cases hwhere : t.pc with simp only [Transaction.step, hwhere] at h
  | walk m | await m _ =>
    rw [hwhere] at hp
    repeat' split at h
    all_goals first
      | contradiction
      | rename_i hstatus
        have hslot := ofSlot_of_getStatus hstatus
        first
          | exact ⟨m, hp.2, by assumption, .inl hslot⟩
          | exact ⟨m, hp.2.1, hp.2.2, .inr hslot.1⟩
  | _ =>
    simp only [hwhere, Pc.stage, Stage.validating] at hpc
    repeat' split at h
    all_goals contradiction

omit [DecidableEq V] in
/-- The owner of a slot that is empty or pending is under validation, or it has come to a halt. -/
theorem HeldOk.validating_of_slot {n : Nat} (ht : HeldOk first pinned st t)
    (hown : t.own = some n) (hslot : st.slotStatus n = .empty ∨ st.slotStatus n = .pending) :
    t.commitSequenceNumber = n ∧ (t.pc.stage.validating = true ∨ t.pc.stage = .stuck) := by
  rw [Transaction.own] at hown
  split_ifs at hown with howns
  obtain rfl := Option.some.inj hown
  refine ⟨rfl, ?_⟩
  have hs := ht.stage
  cases hstage : t.pc.stage with
  | logged | pending => exact .inl rfl
  | stuck => exact .inr rfl
  | outside | reading => simp [hstage, Stage.owns] at howns
  | validated | applied | committed =>
    rw [hstage] at hs
    rw [hs.1.slot] at hslot
    rcases hslot with hslot | hslot <;> cases hslot
  | aborted | rejected =>
    rw [hstage] at hs
    rw [hs.2] at hslot
    rcases hslot with hslot | hslot <;> cases hslot

theorem Database.isSome_stepOf_run (build : Build) (db : Database K V) (i : Nat) :
    (db.stepOf build (.run i)).isSome = ((db.threads i).step db.shared).isSome := by
  cases build with
  | wal => exact Option.isSome_map
  | memory => exact Option.isSome_map.trans Option.isSome_map

theorem Database.Tracked.exists_goesOn (h : Tracked first pinned db) (howned : db.Owned first)
    (build : Build) (hi : (db.threads i).pc.stage.validating = true) :
    ∃ j, (db.threads j).commitSequenceNumber ≤ (db.threads i).commitSequenceNumber ∧
      db.GoesOn build j := by
  -- the numbers that commits wait for get smaller
  generalize hn : (db.threads i).commitSequenceNumber = n
  induction n using Nat.strong_induction_on generalizing i with
  | _ n ih =>
    cases hstep : (db.threads i).step db.shared with
    | some next => exact ⟨i, hn.le, .inl ⟨hi, by rw [isSome_stepOf_run, hstep]; rfl⟩⟩
    | none =>
      obtain ⟨m, hfirst, hm, hslot⟩ := waits_of_step_eq_none (h.own i).held hi hstep
      have hactive : (db.threads i).pc.stage.active = true := by
        cases hstage : (db.threads i).pc.stage <;> first | rfl | simp [hstage, Stage.validating] at hi
      have hlt := (h.own i).held.slot_lt (Transaction.slot_of_stage hactive)
      obtain ⟨j, hj⟩ := howned m hfirst (hm.trans hlt)
      obtain ⟨hnumber, hstage⟩ := (h.own j).held.validating_of_slot hj hslot
      rcases hstage with hstage | hstage
      · obtain ⟨j', hle, hj'⟩ := ih m (hn ▸ hm) hstage hnumber
        exact ⟨j', hle.trans (hn ▸ hm.le), hj'⟩
      · exact ⟨j, hnumber.trans_le (hn ▸ hm.le), .inr hstage⟩

/-- With a log or without, whatever was imported: while a commit is validated, one with its number
or a smaller one goes on. -/
theorem validation_progresses
    (hr : Reaches (Database.stepOf build) (Database.importSnapshot first keyspaces) db)
    (hi : (db.threads i).pc.stage.validating = true) :
    ∃ j, (db.threads j).commitSequenceNumber ≤ (db.threads i).commitSequenceNumber ∧
      db.GoesOn build j :=
  (tracked_of_reaches hr).exists_goesOn (owned_of_reaches hr) build hi

/-- Thread 1 has come to the slot of thread 0, which has only its number. -/
def behindEmptySlot : Database Nat Nat :=
  ((concurrentPuts.take 11).foldl Database.request (.create 0)).drive 20 1

theorem behindEmptySlot_progresses : (behindEmptySlot.step (.run 1)).isNone ∧
    ∃ j, behindEmptySlot.GoesOn .wal j := by
  have hr : Reaches (stepOf .wal) (importSnapshot 0 fun _ _ _ => none) behindEmptySlot :=
    (reaches_foldl reaches_request _ _).trans (reaches_drive _ _ _)
  obtain ⟨j, -, hj⟩ := validation_progresses (i := 1) hr (by decide +kernel)
  exact ⟨by decide +kernel, j, hj⟩

end TypeDB.Storage
