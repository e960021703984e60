import TypeDB.Storage.Windows

/-! What a commit is validated against. The run is recorded: each step of a thread notes the
sequence numbers it compares its commit with, and where it finds them, in the log or in a slot. -/

namespace TypeDB.Storage
open List Runs Threads Transaction Option

variable {K V : Type*} [LinearOrder K]

inductive Comparison
  | log (n : Nat)
  | slot (n : Nat)
  deriving DecidableEq

/-- The numbers that the loop of `validate_concurrent_from_disk` comes to. -/
def scanned (isCommitted : List (Nat × Bool)) :
    CommitRecord K V → List (Nat × CommitRecord K V) → List Comparison
  | _, [] => []
  | record, (n, predecessor) :: rest =>
    match lookupStatus isCommitted n with
    | none => [.log n]
    | some false => .log n :: scanned isCommitted record rest
    | some true =>
      match handleDependency record (record.computeDependency predecessor) with
      | .ok record => .log n :: scanned isCommitted record rest
      | .error _ => [.log n]

def Pc.isAwait : Pc K V → Bool
  | .await _ _ => true
  | _ => false

/-- The comparisons that the step from `t` to `t'` makes. -/
def Transaction.compared (st : MVCCStorage K V) (t t' : Transaction K V) : List Comparison :=
  match t.pc with
  | .diskCommits stop isCommitted =>
    match st.commitRecords t.commitSequenceNumber with
    | none => []
    | some record => scanned isCommitted record (t.diskCommits st stop)
  | .resolve m => if t'.pc.isAwait then [] else [.slot m]
  | .await m _ => [.slot m]
  | _ => []

structure Audit (K V : Type*) [LinearOrder K] where
  db : Database K V
  compared : Nat → List Comparison

def Audit.create (previous : Nat) : Audit K V := ⟨.create previous, fun _ => []⟩

def Audit.step [DecidableEq V] (s : Audit K V) (a : Action K V) : Option (Audit K V) :=
  (s.db.step a).map fun db =>
    match a with
    | .run i =>
      ⟨db, Function.update s.compared i
        (s.compared i ++ (s.db.threads i).compared s.db.shared (db.threads i))⟩
    | _ => ⟨db, s.compared⟩

/-- From `start` to before `m` each number once, in ascending order: those before `stop` in the
log, the others in their slots. -/
def segments (start stop m : Nat) : List Comparison :=
  (List.range' start (stop - start)).map .log ++ (List.range' stop (m - stop)).map .slot

def Checked (start m : Nat) (l : List Comparison) : Prop :=
  ∃ stop, start ≤ stop ∧ stop ≤ m ∧ l = segments start stop m

section Checked
variable {start m : Nat} {l : List Comparison}

theorem Checked.le (h : Checked start m l) : start ≤ m := by
  obtain ⟨stop, hstart, hm, -⟩ := h
  exact hstart.trans hm

theorem checked_self (start : Nat) : Checked start start [] :=
  ⟨start, le_rfl, le_rfl, by simp [segments]⟩

theorem Checked.slot (h : Checked start m l) : Checked start (m + 1) (l ++ [.slot m]) := by
  obtain ⟨stop, hstart, hm, rfl⟩ := h
  refine ⟨stop, hstart, hm.trans (Nat.le_succ m), ?_⟩
  rw [segments, segments, show m + 1 - stop = (m - stop) + 1 by omega, range'_concat,
    map_append, append_assoc]
  simp [show stop + (m - stop) = m by omega]

/-- A scan of the log goes from number to number, and ends early only at a conflict or where a
status is missing. -/
theorem checked_scanned (isCommitted : List (Nat × Bool)) {log : Log K V}
    {commits : List (Nat × CommitRecord K V)} (h : log.Segment start commits)
    (r : CommitRecord K V) :
    ∃ m ≤ start + commits.length, Checked start m (scanned isCommitted r commits) ∧
      (∀ r', validateFromDisk isCommitted r commits = some (.ok r') → m = start + commits.length) ∧
      ∀ conflict, validateFromDisk isCommitted r commits = some (.error conflict) → start < m := by
  have hall : ∃ k ≤ commits.length, scanned isCommitted r commits = (List.range' start k).map .log ∧
      (∀ r', validateFromDisk isCommitted r commits = some (.ok r') → k = commits.length) ∧
      ∀ conflict, validateFromDisk isCommitted r commits = some (.error conflict) → 0 < k := by
    induction commits generalizing start r with
    | nil => exact ⟨0, le_rfl, rfl, fun _ _ => rfl, by rintro _ ⟨⟩⟩
    | cons e commits ih =>
      obtain ⟨n, p⟩ := e
      obtain ⟨rfl, -, hrest⟩ := h
      have hcons : ∀ r', ∃ k ≤ commits.length + 1,
          Comparison.log n :: scanned isCommitted r' commits = (List.range' n k).map .log ∧
          (∀ r'', validateFromDisk isCommitted r' commits = some (.ok r'') →
            k = commits.length + 1) ∧
          ∀ conflict, validateFromDisk isCommitted r' commits = some (.error conflict) → 0 < k := by
        intro r'
        obtain ⟨k, hk, heq, hfull, -⟩ := ih hrest r'
        refine ⟨k + 1, Nat.succ_le_succ hk, ?_, fun r'' h => ?_, fun _ _ => Nat.succ_pos k⟩
        · rw [heq, range'_succ, map_cons]
        · rw [hfull r'' h]
      rw [scanned, validateFromDisk]
      cases hb : lookupStatus isCommitted n with
      | none => exact ⟨1, by simp, rfl, by rintro _ ⟨⟩, by rintro _ ⟨⟩⟩
      | some b =>
        cases b with
        | false => exact hcons r
        | true =>
          dsimp only
          cases handleDependency r (r.computeDependency p) with
          | ok r' => exact hcons r'
          | error conflict => exact ⟨1, by simp, rfl, by rintro _ ⟨⟩, fun _ _ => Nat.one_pos⟩
  obtain ⟨k, hk, heq, hfull, hpos⟩ := hall
  refine ⟨start + k, Nat.add_le_add_left hk start, ⟨start + k, by omega, le_rfl, ?_⟩,
    fun r' h => by rw [hfull r' h], fun conflict h => ?_⟩
  · simp [segments, heq]
  · have := hpos conflict h
    omega

end Checked

def Transaction.firstConcurrent (first : Nat) (t : Transaction K V) : Nat :=
  max t.openSequenceNumber first + 1

section Progress
variable {first m : Nat} {st st' : MVCCStorage K V} {t t' : Transaction K V} {l : List Comparison}

def StageProgress (first : Nat) (t : Transaction K V) (l : List Comparison) : Stage → Prop
  | .outside | .reading | .logged => l = []
  | .pending => True
  | .validated | .applied | .committed =>
      Checked (t.firstConcurrent first) t.commitSequenceNumber l
  | .aborted | .rejected => ∃ m, t.firstConcurrent first < m ∧ m ≤ t.commitSequenceNumber ∧
      Checked (t.firstConcurrent first) m l
  | .stuck => l = [] ∨ ∃ m ≤ t.commitSequenceNumber, Checked (t.firstConcurrent first) m l

def Progress (first : Nat) (t : Transaction K V) (l : List Comparison) : Pc K V → Prop
  | .collect => l = []
  | .diskStatuses stop | .diskCommits stop _ => l = [] ∧ t.firstConcurrent first ≤ stop
  | .walk m | .resolve m | .await m _ => Checked (t.firstConcurrent first) m l
  | .setValidated => Checked (t.firstConcurrent first) t.commitSequenceNumber l
  | .setAborted _ => ∃ m, t.firstConcurrent first < m ∧ m ≤ t.commitSequenceNumber ∧
      Checked (t.firstConcurrent first) m l
  | pc => StageProgress first t l pc.stage

theorem StageProgress.stuck {stage : Stage} (h : StageProgress first t l stage)
    (hstage : stage ≠ .pending) : StageProgress first t l .stuck := by
  cases stage with
  | outside | reading | logged => exact .inl h
  | pending => exact absurd rfl hstage
  | stuck => exact h
  | aborted | rejected =>
    obtain ⟨m, -, hm, hc⟩ := h
    exact .inr ⟨m, hm, hc⟩
  | _ => exact .inr ⟨_, le_rfl, h⟩

theorem Progress.stage {pc : Pc K V} (h : Progress first t l pc) (hpc : pc.stage ≠ .pending) :
    StageProgress first t l pc.stage := by
  cases pc <;> first | exact h | exact absurd rfl hpc

theorem After.stage_ne_pending (a : After) : a.stage ≠ .pending := by cases a <;> exact nofun

theorem Progress.after {a : After} (h : StageProgress first t l a.stage) :
    Progress first (t.goto a.pc) l (t.goto a.pc).pc := by
  cases a <;> exact h

theorem Progress.handle {dependency : CommitDependency K}
    (h : Checked (t.firstConcurrent first) m l) (hm : m < t.commitSequenceNumber)
    (hstep : t.handle st m dependency = (st', t')) :
    Progress first t' (l ++ [.slot m]) t'.pc ∧ t'.pc.isAwait = false := by
  have hlt : t.firstConcurrent first < m + 1 := Nat.lt_succ_of_le h.le
  unfold Transaction.handle at hstep
  split at hstep
  · cases hstep
    exact ⟨.inr ⟨m + 1, hm, h.slot⟩, rfl⟩
  · split at hstep
    · cases hstep
      exact ⟨⟨m + 1, hlt, hm, h.slot⟩, rfl⟩
    · cases hstep
      exact ⟨h.slot, rfl⟩

section Steps
variable [DecidableEq V] (h : StorageOk first st) (ht : TransactionOk first st t)
include h ht

section
variable (hp : Progress first t l t.pc)
  (hstep : t.step st = some (st', t'))
include hp hstep

omit h in
theorem progress_collect (hpc : t.pc = .collect) (hfront : first < st.front) :
    Progress first t' l t'.pc := by
  obtain ⟨hs, -⟩ := ht.at_pc hpc
  replace hs : Committing first st t .pending false := hs
  rw [hpc] at hp
  obtain rfl : l = [] := hp
  simp only [step, hpc] at hstep
  split at hstep
  · split_ifs at hstep with hlt
    · cases hstep
      refine ⟨rfl, ?_⟩
      change max t.openSequenceNumber first + 1 ≤ _
      have hstop := collectConcurrentWindows_first _ _ _ hlt
      rw [hstop] at hlt ⊢
      omega
    · cases hstep
      -- with a window of its own the opening is not before the first number
      have hge : st.front ≤ t.openSequenceNumber + 1 := by
        by_contra hless
        have hnone : st.resolveWindow (t.openSequenceNumber + 1) = none := by
          rw [Timeline.resolveWindow, if_neg fun hin => hless hin.1]
        simp only [Timeline.collectConcurrentWindows, hnone, getD_none] at hlt
        exact hlt (not_le.mp hless)
      have heq : t.firstConcurrent first = t.openSequenceNumber + 1 := by
        rw [firstConcurrent]
        omega
      change Checked (t.firstConcurrent first) (t.openSequenceNumber + 1) []
      rw [heq]
      exact checked_self _
  · cases hstep
    exact .inl rfl

theorem progress_diskCommits {stop : Nat} {isCommitted : List (Nat × Bool)}
    (hpc : t.pc = .diskCommits stop isCommitted) :
    Progress first t' (l ++ t.compared st t') t'.pc := by
  obtain ⟨hs, hr, ⟨hlow, hstop⟩, -⟩ := ht.at_pc hpc
  replace hs : Committing first st t .pending false := hs
  rw [hpc] at hp
  obtain ⟨rfl, hstart⟩ := hp
  have hnext := h.watermark_lt_next
  have hle : stop ≤ t.commitSequenceNumber := by
    have := h.not_done_lt hs.started (by simp [MVCCStorage.Done, hs.slot])
    omega
  obtain ⟨hseg, hlen⟩ := h.wellFormed.commitsFrom (t.openSequenceNumber + 1)
  obtain ⟨hseg', hlen'⟩ := hseg.takeWhile stop
  have hfirst : max (t.openSequenceNumber + 1) (first + 1) = t.firstConcurrent first := by
    rw [firstConcurrent]
    omega
  rw [hfirst] at hseg' hlen hlen'
  obtain ⟨m, hm, hchecked, hfull, hpos⟩ := checked_scanned isCommitted hseg'
    t.commitRecord
  have hcompared : t.compared st t' = scanned isCommitted t.commitRecord (t.diskCommits st stop) := by
    rw [compared, hpc]
    simp only [hr]
  have hlength : t.firstConcurrent first + (t.diskCommits st stop).length = stop := by
    rw [diskCommits, hlen', hlen]
    omega
  rw [diskCommits] at hlength
  rw [hlength] at hm hfull
  rw [nil_append, hcompared]
  simp only [step, hpc, hr] at hstep
  split at hstep <;> cases hstep
  · exact .inr ⟨m, hm.trans hle, hchecked⟩
  · exact ⟨m, hpos _ (by assumption), hm.trans hle, hchecked⟩
  · obtain rfl := hfull _ (by assumption)
    exact hchecked

omit h in
theorem progress_resolve (hpc : t.pc = .resolve m) :
    Progress first t' (l ++ t.compared st t') t'.pc := by
  obtain ⟨-, ⟨r, hr⟩, hm⟩ := ht.at_pc hpc
  rw [hpc] at hp
  replace hp : Checked (t.firstConcurrent first) m l := hp
  have hcompared : t.compared st t' = if t'.pc.isAwait then [] else [.slot m] := by
    rw [compared, hpc]
  have hhandle : ∀ dependency, t.handle st m dependency = (st', t') →
      Progress first t' (l ++ t.compared st t') t'.pc := by
    intro dependency heq
    obtain ⟨hprogress, hnot⟩ := Progress.handle hp hm heq
    rwa [hcompared, hnot]
  rw [hcompared]
  simp only [step, hpc] at hstep
  repeat' split at hstep
  all_goals first
    | cases hstep
      exact hp.slot
    | rw [← hcompared]
      exact hhandle _ (some.inj hstep)
    | cases hstep
      change Checked _ m (l ++ [])
      rw [append_nil]
      exact hp
    | cases hstep
      exact .inr ⟨m + 1, hm, hp.slot⟩

omit h in
theorem progress_await {dependency : CommitDependency K} (hpc : t.pc = .await m dependency) :
    Progress first t' (l ++ t.compared st t') t'.pc := by
  obtain ⟨-, hm, -⟩ := ht.at_pc hpc
  rw [hpc] at hp
  replace hp : Checked (t.firstConcurrent first) m l := hp
  have hcompared : t.compared st t' = [.slot m] := by rw [compared, hpc]
  rw [hcompared]
  simp only [step, hpc] at hstep
  repeat' split at hstep
  all_goals first
    | contradiction
    | exact (Progress.handle hp hm (some.inj hstep)).1
    | cases hstep
      exact hp.slot
    | cases hstep
      exact .inr ⟨m + 1, hm, hp.slot⟩

theorem Progress.step (hfront : first < st.front) :
    Progress first t' (l ++ t.compared st t') t'.pc := by
  cases hpc : t.pc with
  | diskCommits stop isCommitted => exact progress_diskCommits h ht hp hstep hpc
  | resolve m => exact progress_resolve ht hp hstep hpc
  | await m dependency => exact progress_await ht hp hstep hpc
  | collect =>
    rw [Transaction.compared, hpc, append_nil]
    exact progress_collect ht hp hstep hpc hfront
  | walk m =>
    obtain ⟨-, r, hr⟩ := ht.at_pc hpc
    rw [Transaction.compared, hpc, append_nil]
    rw [hpc] at hp
    simp only [Transaction.step, hpc] at hstep
    repeat' split at hstep
    all_goals first
      | contradiction
      | cases hstep
        exact hp
      | cases hstep
        exact .inr ⟨m, hr.high, hp⟩
      | cases hstep
        obtain rfl : m = t.commitSequenceNumber := le_antisymm hr.high (not_lt.mp (by assumption))
        exact hp
  | persist didApply =>
    rw [Transaction.compared, hpc, append_nil]
    rw [hpc] at hp
    simp only [Transaction.step, hpc] at hstep
    cases hstep
    cases didApply <;> exact hp
  -- elsewhere nothing is compared and the stage says how far the comparisons are
  | _ =>
    rw [Transaction.compared, hpc, append_nil]
    rw [hpc] at hp
    simp only [Transaction.step, hpc] at hstep
    repeat' split at hstep
    all_goals first
      | contradiction
      | cases hstep
        exact hp
      | cases hstep
        exact .after hp
      | cases hstep
        have hlogged : StageProgress first t l .logged := hp
        exact (hlogged.stuck (by simp) :)
      | cases hstep
        have hvalidated : StageProgress first t l .validated := hp
        exact (hvalidated.stuck (by simp) :)
      | cases hstep
        have hafter : StageProgress first t l (After.stage _) := hp
        exact (hafter.stuck (After.stage_ne_pending _) :)

end

end Steps

theorem Progress.call {i : Nat} {a : Action K V} (h : Call i t a t')
    (hp : Progress first t l t.pc) : Progress first t' l t'.pc := by
  cases h with
  | opening call target htarget hpc => rwa [hpc] at hp
  | commit operations hpc hcall hwrites => rwa [hpc] at hp
  | commitEmpty operations hpc hcall hempty | close hpc hcall | closeRead hpc hcall =>
    rwa [hpc] at hp

end Progress

namespace Audit
variable {first : Nat} {s s' : Audit K V}

structure Ok (first : Nat) (s : Audit K V) : Prop where
  placements : s.db.Placements first
  progress : ∀ i, Progress first (s.db.threads i) (s.compared i) (s.db.threads i).pc

theorem ok_create (first : Nat) : Ok first (create first : Audit K V) :=
  ⟨Database.placements_create first, fun _ => rfl⟩

variable [DecidableEq V]

theorem step_db {a : Action K V} (h : s.step a = some s') : s.db.step a = some s'.db := by
  obtain ⟨db, hdb, rfl⟩ := map_eq_some_iff.mp h
  rw [hdb]
  cases a <;> rfl

theorem exists_of_reach {ok : Database K V → Action K V → Prop} {db : Database K V}
    (hr : Reach Database.step ok s.db db) :
    ∃ s' : Audit K V, s'.db = db ∧ Reach Audit.step (fun s a => ok s.db a) s s' := by
  induction hr with
  | refl => exact ⟨s, rfl, .refl⟩
  | @tail db db' a _ hok hstep ih =>
    obtain ⟨s', rfl, hs⟩ := ih
    obtain ⟨s'', hs''⟩ : ∃ s'', s'.step a = some s'' := ⟨_, by rw [Audit.step, hstep, map_some]⟩
    exact ⟨s'', some.inj ((step_db hs'').symm.trans hstep), hs.tail hok hs''⟩

theorem Ok.step {a : Action K V} (h : Ok first s) (hstep : s.step a = some s') : Ok first s' := by
  refine ⟨h.placements.step (step_db hstep), fun j => ?_⟩
  obtain ⟨db, hdb, rfl⟩ := map_eq_some_iff.mp hstep
  cases Database.step_cases hdb with
  | run i st t hthread =>
    by_cases hj : j = i
    · subst hj
      simp only [System.move_self, Function.update_self]
      exact (h.progress j).step h.placements.ok.shared (h.placements.ok.own j) hthread
        h.placements.front
    · simp only [System.move_of_ne _ hj, Function.update_of_ne hj]
      exact h.progress j
  | call i a t hcall =>
    have hmove : Progress first ((s.db.move i s.db.shared t).threads j) (s.compared j)
        ((s.db.move i s.db.shared t).threads j).pc := by
      by_cases hj : j = i
      · subst hj
        rw [System.move_self]
        exact (h.progress j).call hcall
      · rw [System.move_of_ne _ hj]
        exact h.progress j
    cases hcall <;> exact hmove
  | sync => exact h.progress j

end Audit
end TypeDB.Storage
