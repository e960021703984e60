import TypeDB.Storage.Readers
import TypeDB.Storage.Rounds
import TypeDB.Storage.Isolation

/-! Which windows are removed, and what a commit can rely on: the windows stay a contiguous run,
a window goes only when nothing reads it, and every commit is compared with all it has to be.
The count of a window is looked at before the window is popped, so a reader may still come in
between. -/

namespace TypeDB.Storage
open Runs Threads Counting Storage.Database Timeline

variable {K V : Type*} [LinearOrder K]

section Removal
variable {first : Nat} {st st' : MVCCStorage K V} {t t' : Transaction K V} {db db' : Database K V}
  {a : Action K V}

/-- No reader counts itself in while another thread, which has found the window free, is about to
pop it. -/
def NoLateReader (db : Database K V) (a : Action K V) : Prop :=
  ∀ i w, a = .run i → (db.threads i).pc = .incrementReaders w →
    ∀ j watermark after, (db.threads j).pc ≠ .freePop w watermark after

def PopsFree (db : Database K V) : Prop :=
  ∀ i w watermark after, (db.threads i).pc = .freePop w watermark after →
    w ≤ db.shared.front ∧ (w = db.shared.front → db.shared.readers w = 0)

def Pc.isPop : Pc K V → Bool
  | .freePop _ _ _ => true
  | _ => false

theorem After.isPop_pc (a : After) : (a.pc : Pc K V).isPop = false := by cases a <;> rfl

theorem handle_isPop {n : Nat} {dependency : CommitDependency K}
    (h : t.handle st n dependency = (st', t')) : t'.pc.isPop = false := by
  unfold Transaction.handle at h
  split at h
  · cases h
    rfl
  · split at h <;> cases h <;> rfl

theorem step_isPop [DecidableEq V] (h : t.step st = some (st', t'))
    (hpc : ∀ wm a, t.pc ≠ .freeLoop wm a) : t'.pc.isPop = false := by
  unfold Transaction.step at h
  dsimp only at h
  repeat' split at h
  all_goals first
    | contradiction
    | exact handle_isPop (Option.some.inj h)
    | cases h
      rfl
    | cases h
      exact After.isPop_pc _
    | exact absurd (by assumption) (hpc _ _)

theorem PopsFree.move {i : Nat} (h : PopsFree db) (hcounts : db.CountsReaders first False)
    (hlate : NoLateReader db (.run i)) (hfront : db.shared.front ≤ st.front)
    (hchange : ReaderChange first db.shared (db.threads i) st t)
    (hself : ∀ w watermark after, t.pc = .freePop w watermark after →
      w = st.front ∧ st.readers w = 0) :
    PopsFree (db.move i st t) := by
  intro j w watermark after hpc
  by_cases hj : j = i
  · rw [hj, System.move_self] at hpc
    obtain ⟨rfl, hzero⟩ := hself w watermark after hpc
    exact ⟨le_rfl, fun _ => hzero⟩
  · rw [System.move_of_ne db hj] at hpc
    obtain ⟨hle, hzero⟩ := h j w watermark after hpc
    refine ⟨hle.trans hfront, fun heq => ?_⟩
    change w = st.front at heq
    have hw : w = db.shared.front := by omega
    have hold := hzero hw
    change st.readers w = 0
    cases hchange with
    | keeps hreaders _ | lost hreaders _ _ => rw [hreaders, hold]
    | registers window hregister hreaders _ _ =>
      have hne : w ≠ window := by
        rintro rfl
        exact hlate i w rfl hregister j watermark after hpc
      rw [hreaders, Function.update_of_ne hne, hold]
    | releases window hreaders hbefore _ =>
      have hne : w ≠ window := by
        rintro rfl
        -- a reader that is still to be released would be counted
        obtain ⟨n, hn, hle', -⟩ := hcounts.counted w (hw ▸ hcounts.aligned) hw.ge
        have := hn.pos ((hbefore w (hw ▸ hcounts.aligned)).mpr rfl)
        omega
      rw [hreaders, Function.update_of_ne hne, hold]

theorem PopsFree.call {i : Nat} (h : PopsFree db) (hcall : Call i (db.threads i) a t) :
    PopsFree (db.move i db.shared t) := by
  intro j w watermark after hpc
  by_cases hj : j = i
  · rw [hj, System.move_self] at hpc
    cases hcall <;> cases hpc
  · rw [System.move_of_ne db hj] at hpc
    exact h j w watermark after hpc

variable [DecidableEq V]

theorem step_freePop {w watermark : Nat} {after : After} (h : t.step st = some (st', t'))
    (hpc : t'.pc = .freePop w watermark after) : w = st'.front ∧ st'.readers w = 0 := by
  by_cases hloop : ∃ wm a, t.pc = .freeLoop wm a
  · obtain ⟨wm, a, hloop⟩ := hloop
    simp only [Transaction.step, hloop] at h
    split_ifs at h with hfree <;> cases h
    · cases hpc
      simp only [canFree, Bool.and_eq_true, decide_eq_true_eq] at hfree
      exact ⟨rfl, hfree.2⟩
    · have := After.isPop_pc (K := K) (V := V) a
      change (a.pc : Pc K V) = _ at hpc
      rw [hpc] at this
      cases this
  · push Not at hloop
    have := step_isPop h hloop
    rw [hpc] at this
    cases this

theorem PopsFree.step (h : PopsFree db) (haccounts : db.Accounts first False)
    (hlate : NoLateReader db a) (hstep : db.step a = some db') : PopsFree db' := by
  have hok := haccounts.placements.ok
  cases step_cases hstep with
  | run i st t hthread =>
    have hfront : db.shared.front ≤ st.front := by
      rcases front_of_step hthread with heq | heq
      · exact heq.ge
      · rw [heq]
        exact Nat.le_add_right _ _
    obtain ⟨-, hchange⟩ := (haccounts.readers i).step hok.shared.watermark_lt_back
      (hok.own i).opened_le haccounts.aligned hthread
    exact h.move haccounts.toCountsReaders hlate hfront hchange fun _ _ _ => step_freePop hthread
  | call i a t hcall => exact h.call hcall
  | sync => exact h

theorem removed_eq_front {w : Nat} (hstep : db.step a = some db') (hok : db.Ok first)
    (hw : w ∈ db.shared.windows) (hw' : w ∉ db'.shared.windows) :
    w = db.shared.front ∧
      ∃ i watermark after, (db.threads i).pc = .freePop db.shared.front watermark after := by
  cases step_cases hstep with
  | run i st t hthread =>
    have hback := (step_ok hok.shared (hok.own i) (st, t) hthread).spares.back_le
    change w ∉ st.windows at hw'
    rw [mem_windows_iff] at hw hw'
    rcases (step_effect hthread).front with hfront | ⟨wm, after, hpc, hfront, hend, -⟩
    · rw [hfront] at hw'
      exact absurd ⟨hw.1, hw.2.1.trans_le hback, hw.2.2⟩ hw'
    · refine ⟨?_, i, wm, after, hpc⟩
      rw [hfront, hend] at hw'
      simp only [windowEnd, timelineWindowSize] at hw hw'
      by_contra hne
      exact hw' ⟨by omega, by omega, by omega⟩
  | call i a t hcall | sync => exact absurd hw hw'

def Passed (db : Database K V) (n : Nat) : Prop :=
  db.shared.commitRecords n ≠ none ∨
    ∃ i, (db.threads i).pc = .setRecord ∧ (db.threads i).commitSequenceNumber = n

/-- A commit is compared with one number after the other from the first one it may conflict with,
as long as it is validated with all of them up to its own; the window at hand has the number. -/
structure Validates (first : Nat) (t : Transaction K V) (compared : List Comparison) : Prop where
  ascending : compared ≠ [] → ∃ m ≤ t.commitSequenceNumber,
    Checked (t.firstConcurrent first) m compared
  complete : t.pc.stage = .validated ∨ t.pc.stage = .applied ∨ t.pc.stage = .committed →
    Checked (t.firstConcurrent first) t.commitSequenceNumber compared
  indexed : ∀ m, t.pc = .walk m ∨ t.pc = .resolve m ∨ (∃ dependency, t.pc = .await m dependency) →
    m < t.commitSequenceNumber → ∃ w rest, t.windows = w :: rest ∧ InWindow w m

omit [DecidableEq V] in
theorem validates_of_progress {l : List Comparison}
    (ht : TransactionOk first st t) (hplace : PlaceOk st t t.pc) (hp : Progress first t l t.pc) :
    Validates first t l := by
  refine ⟨fun hl => ?_, fun hstage => ?_, fun m hpc hm => ?_⟩
  · by_cases hstage : t.pc.stage = .pending
    · cases hpc : t.pc with
      | walk m =>
        obtain ⟨-, r, hr⟩ := ht.at_pc hpc
        rw [hpc] at hp
        exact ⟨m, hr.high, hp⟩
      | resolve m =>
        obtain ⟨-, -, hm⟩ := ht.at_pc hpc
        rw [hpc] at hp
        exact ⟨m, hm.le, hp⟩
      | await m dependency =>
        obtain ⟨-, hm, -⟩ := ht.at_pc hpc
        rw [hpc] at hp
        exact ⟨m, hm.le, hp⟩
      | setValidated =>
        rw [hpc] at hp
        exact ⟨_, le_rfl, hp⟩
      | setAborted conflict =>
        rw [hpc] at hp
        obtain ⟨m, -, hm, hc⟩ := hp
        exact ⟨m, hm, hc⟩
      | collect =>
        rw [hpc] at hp
        exact absurd hp hl
      | diskStatuses stop | diskCommits stop isCommitted =>
        rw [hpc] at hp
        exact absurd hp.1 hl
      | persist didApply => cases didApply <;> simp [hpc, Pc.stage] at hstage
      | _ => simp [hpc, Pc.stage, After.stage_ne_pending] at hstage
    · exact ((hp.stage hstage).stuck hstage).resolve_left hl
  · have hp' := hp.stage (by rcases hstage with h | h | h <;> simp [h])
    rcases hstage with h | h | h
    all_goals
      rw [h] at hp'
      exact hp'
  · rcases hpc with hpc | hpc | ⟨dependency, hpc⟩
    · rw [hpc] at hplace
      exact hplace.2.head hm
    · rw [hpc] at hplace
      exact hplace.1.2.head hm
    · rw [hpc] at hplace
      exact hplace.1.2.head hm

def countFits (st : MVCCStorage Nat Nat) (t : Transaction Nat Nat) : Bool :=
  match t.pc with
  | .incrementReaders w => st.readers w + 1 < 2 ^ 64
  | _ => true

theorem countFits_keeps : (play countFits fun t => !t.pc.isPop).Keeps
    fun db a => Database.CountFits db a ∧ NoLateReader db a := by
  refine play_keeps (fun a db ha => ⟨fun i _ hrun => absurd hrun (ha i),
    fun i _ hrun => absurd hrun (ha i)⟩) fun i db hrests hcheck => ⟨?_, ?_⟩
  · rintro j w ⟨⟩ hpc
    simpa [countFits, hpc] using hcheck
  · rintro j w ⟨⟩ hpc k watermark after hpop
    rcases eq_or_ne k i with rfl | hk
    · simp [hpc] at hpop
    · simpa [hpop, Pc.isPop] using hrests k hk

def windowGone : Database Nat Nat :=
  (play countFits fun t => !t.pc.isPop).rounds (create 0)
    (pastWindow [.drive 40, .call .sync, .drive 40])

/-- Reader 200 looks its window up, the window is found free, the reader counts itself in, and the
window is popped. -/
def lateReader : Database Nat Nat :=
  let db := Database.commitEach (lockOnly 0) (.create 0) (List.range 50)
  let db := (db.request (.open 200 .write)).drive 2 200
  let db := Database.commitEach (lockOnly 0) db (List.range' 50 50)
  let db := (db.request (.open 100 .write)).drive 3 100
  let db := ((db.request (.commit 100 (lockOnly 0))).drive 40 100).request .sync
  (db.drive 13 100).drive 1 200

theorem lateReader_reaches : Reaches step (.create 0) lateReader :=
  (reaches_commitEach _ _ _).trans <| (reaches_request _ _).trans <|
    (reaches_drive _ _ _).trans <| (reaches_commitEach _ _ _).trans <|
    (reaches_request _ _).trans <| (reaches_drive _ _ _).trans <|
    (reaches_request _ _).trans <| (reaches_drive _ _ _).trans <|
    (reaches_request _ _).trans <| (reaches_drive _ _ _).trans <|
    reaches_drive _ _ _

end Removal

end TypeDB.Storage
