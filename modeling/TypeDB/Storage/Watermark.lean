import TypeDB.Storage.Memory

/-! The watermark and the snapshots opened at it, with a log and without. A thread that has finished
its slot, or that has just moved the watermark, is responsible for the number after the watermark
until it has seen that this number is not done; so no completed prefix is left behind. -/

namespace TypeDB.Storage
open Option Runs Threads Versions Storage.Database

variable {K V : Type*} [LinearOrder K]

/-- Inside `may_increment_watermark`, and so after the slot was set to applied or aborted. -/
def Pc.incrementing : Pc K V → Bool
  | .incrementCheck _ | .incrementWindow _ _ | .incrementStatus _ _ _ | .incrementExchange _ _ _
  | .incrementEnd _ _ => true
  | .free .release | .freeCheck _ .release | .freeLoop _ .release | .freePop _ _ .release => true
  | .free .persist | .freeCheck _ .persist | .freeLoop _ .persist | .freePop _ _ .persist => true
  | _ => false

def Transaction.candidate (t : Transaction K V) : Option Nat :=
  match t.pc with
  | .incrementCheck _ => some t.commitSequenceNumber
  | .incrementWindow c _ | .incrementStatus c _ _ | .incrementExchange c _ _ => some c
  | _ => none

theorem Transaction.incrementing_of_candidate {t : Transaction K V} {c : Nat}
    (h : t.candidate = some c) : t.pc.incrementing = true := by
  rw [Transaction.candidate] at h
  split at h <;> simp_all [Pc.incrementing]

def Pc.marks : Pc K V → Bool
  | .setPending | .setValidated | .setAborted _ | .setApplied | .incrementExchange _ _ _ => true
  | _ => false

section Step
variable {first : Nat} {pinned : Prop} {st st' : MVCCStorage K V} {t t' : Transaction K V}

theorem SlotsOk.getStatus_ne_none {w n : Nat} (h : SlotsOk first st) (hw : InWindow w n) :
    st.getStatus w n ≠ none := by
  rw [Timeline.getStatus, if_pos (show w ≤ n ∧ n < windowEnd w from hw)]
  cases hs : st.slotStatus n with
  | empty => simp
  | _ =>
    obtain ⟨r, hr⟩ := ne_none_iff_exists'.mp (h.used n (by simp [hs])).2.2
    simp [hr]

theorem handle_slots {n : Nat} {dependency : CommitDependency K}
    (h : t.handle st n dependency = (st', t')) :
    st'.slotStatus = st.slotStatus ∧ st'.watermark = st.watermark := by
  unfold Transaction.handle at h
  split at h
  · cases h
    exact ⟨rfl, rfl⟩
  · split at h <;> cases h <;> exact ⟨rfl, rfl⟩

theorem step_slots [DecidableEq V] (h : t.step st = some (st', t')) (hpc : t.pc.marks = false) :
    st'.slotStatus = st.slotStatus ∧ st'.watermark = st.watermark := by
  unfold Transaction.step at h
  dsimp only at h
  repeat' split at h
  all_goals first
    | contradiction
    | exact handle_slots (some.inj h)
    | cases h
      exact ⟨rfl, rfl⟩
    | cases h
      exact Timeline.createWindowsTo_slots _ _
    | simp_all [Pc.marks]
      done
    | cases h
      obtain ⟨-, -, hs, -, -, hw⟩ := Timeline.popFront_eq_some (by assumption)
      exact ⟨hs, hw⟩

theorem Transaction.candidate_of_pc {pc : Pc K V} (h : t.pc = pc) :
    t.candidate = (t.goto pc).candidate := by
  rw [Transaction.candidate, Transaction.candidate, h]
  rfl

/-- After a step, either the thread is responsible for the number after the watermark, or nothing
about that number has changed and the thread was not responsible for it. -/
def Handoff (st : MVCCStorage K V) (t : Transaction K V) (st' : MVCCStorage K V)
    (t' : Transaction K V) : Prop :=
  st'.Done (st'.watermark + 1) → t'.candidate = some (st'.watermark + 1) ∨
    st'.watermark = st.watermark ∧ st.Done (st.watermark + 1) ∧
      t.candidate ≠ some (st.watermark + 1)

theorem Handoff.of_slots (hs : st'.slotStatus = st.slotStatus) (hw : st'.watermark = st.watermark)
    (hc : st.Done (st.watermark + 1) → t.candidate ≠ some (st.watermark + 1)) :
    Handoff st t st' t' := by
  intro hd
  rw [MVCCStorage.Done, hs, hw] at hd
  exact .inr ⟨hw, hd, hc hd⟩

theorem Handoff.keep (hc : t'.candidate = t.candidate) : Handoff st t st t' := by
  intro hd
  by_cases hn : t.candidate = some (st.watermark + 1)
  · exact .inl (hc.trans hn)
  · exact .inr ⟨rfl, hd, hn⟩

theorem Handoff.setStatus {marker : SlotMarker} (hc : t.candidate = none)
    (hm : marker = .applied ∨ marker = .aborted → t'.candidate = some t.commitSequenceNumber) :
    Handoff st t (st.setTimeline (st.toTimeline.setStatus t.commitSequenceNumber marker)) t' := by
  intro hd
  by_cases hn : st.watermark + 1 = t.commitSequenceNumber
  · refine .inl ((hm ?_).trans (congrArg some hn.symm))
    have hself : (st.toTimeline.setStatus t.commitSequenceNumber marker).slotStatus
        (st.watermark + 1) = marker := by
      rw [hn]
      exact Function.update_self _ _ _
    exact hd.imp hself.symm.trans hself.symm.trans
  · have hother : (st.toTimeline.setStatus t.commitSequenceNumber marker).slotStatus
        (st.watermark + 1) = st.slotStatus (st.watermark + 1) := Function.update_of_ne hn _ _
    refine .inr ⟨rfl, hd.imp hother.symm.trans hother.symm.trans, ?_⟩
    rw [hc]
    exact nofun

variable [DecidableEq V]

theorem step_handoff (h : SlotsOk first st) (ht : HeldOk first pinned st t)
    (hstep : t.step st = some (st', t')) : Handoff st t st' t' := by
  cases hpc : t.pc
  case setPending | setValidated | setAborted | setApplied =>
    simp only [Transaction.step, hpc] at hstep
    cases hstep
    exact .setStatus (Transaction.candidate_of_pc hpc) (by first | exact fun _ => rfl | simp)
  case incrementCheck a =>
    have hc : t.candidate = some t.commitSequenceNumber := Transaction.candidate_of_pc hpc
    simp only [Transaction.step, hpc] at hstep
    split_ifs at hstep with hw <;> cases hstep
    · refine .of_slots rfl rfl fun _ hn => hw ?_
      rw [hc] at hn
      rw [some.inj hn, Nat.add_sub_cancel]
    · exact .keep hc.symm
  case incrementWindow c a =>
    have hc : t.candidate = some c := Transaction.candidate_of_pc hpc
    simp only [Transaction.step, hpc] at hstep
    split at hstep <;> cases hstep
    · rename_i hnone
      refine .of_slots rfl rfl fun hd hn => ?_
      obtain rfl := some.inj (hc.symm.trans hn)
      have hback := (h.used _ hd.ne_empty).2.1
      rcases Timeline.tryGetWindow_eq_none hnone with hlt | hge
      · exact absurd h.front_le (not_le.mpr hlt)
      · exact absurd hback (not_lt.mpr hge)
    · exact .keep hc.symm
  case incrementStatus c w a =>
    have hc : t.candidate = some c := Transaction.candidate_of_pc hpc
    have hw := ht.pc
    rw [hpc] at hw
    simp only [Transaction.step, hpc] at hstep
    cases hstatus : st.getStatus w c with
    | none => exact absurd hstatus (h.getStatus_ne_none hw.1)
    | some status =>
      have hslot := ofSlot_of_getStatus hstatus
      rw [hstatus] at hstep
      -- a slot that is not done lets go of the number
      have hleave : ¬ st.Done c → Handoff st t st (t.goto (.incrementEnd c a)) := fun hnd =>
        .of_slots rfl rfl fun hd hn => hnd (some.inj (hc.symm.trans hn) ▸ hd)
      cases status
      case applied | aborted =>
        cases hstep
        exact .keep hc.symm
      case empty =>
        cases hstep
        exact hleave fun hd => hd.ne_empty hslot
      all_goals
        cases hstep
        exact hleave fun hd => by rcases hd with hd | hd <;> simp [hslot.1] at hd
  case incrementExchange c w a =>
    have hc : t.candidate = some c := Transaction.candidate_of_pc hpc
    simp only [Transaction.step, hpc] at hstep
    split_ifs at hstep with hw hend <;> cases hstep
    · exact fun _ => .inl rfl
    · exact fun _ => .inl rfl
    · refine .of_slots rfl rfl fun _ hn => hw ?_
      rw [some.inj (hc.symm.trans hn), Nat.add_sub_cancel]
  all_goals
    obtain ⟨hs, hw⟩ := step_slots hstep (by rw [hpc]; rfl)
    refine .of_slots hs hw ?_
    rw [Transaction.candidate_of_pc hpc]
    rintro _ ⟨⟩

end Step

/-- Numbers that are passed or announced stay so, and what lies up to the watermark does not
change. -/
structure Frozen (st st' : MVCCStorage K V) : Prop where
  watermark_le : st.watermark ≤ st'.watermark
  highest_le : st.highestValidatedSequenceNumber ≤ st'.highestValidatedSequenceNumber
  versions : ∀ i k n, n ≤ st.watermark → st'.keyspaces i k n = st.keyspaces i k n

theorem Frozen.refl (st : MVCCStorage K V) : Frozen st st := ⟨le_rfl, le_rfl, fun _ _ _ _ => rfl⟩

theorem Frozen.trans {st'' : MVCCStorage K V} (h : Frozen st st') (h' : Frozen st' st'') :
    Frozen st st'' :=
  ⟨h.watermark_le.trans h'.watermark_le, h.highest_le.trans h'.highest_le, fun i k n hn =>
    (h'.versions i k n (hn.trans h.watermark_le)).trans (h.versions i k n hn)⟩

section Responsible
variable {first previous : Nat} {pinned : Prop} {build : Build} {db db' : Database K V}
  {keyspaces : KeyspaceId → Keyspace K V}

/-- If the number after the watermark is done, some thread is still to look at it. -/
def Responsible (db : Database K V) : Prop :=
  db.shared.Done (db.shared.watermark + 1) →
    ∃ i, (db.threads i).candidate = some (db.shared.watermark + 1)

theorem Responsible.move {i : Nat} {st : MVCCStorage K V} {t : Transaction K V}
    (h : Responsible db) (hstep : Handoff db.shared (db.threads i) st t) :
    Responsible (db.move i st t) := by
  intro hd
  rcases hstep hd with hc | ⟨hw, hd', hnot⟩
  · exact ⟨i, by rw [System.move_self]; exact hc⟩
  · obtain ⟨j, hj⟩ := h hd'
    have hne : j ≠ i := by
      rintro rfl
      exact hnot hj
    refine ⟨j, ?_⟩
    rw [System.move_of_ne db hne, System.move_shared, hw]
    exact hj

variable [DecidableEq V]

theorem Database.Tracked.step {a : Action K V} (h : Tracked first False db) (hstep : db.StepOf a db') :
    Tracked first False db' ∧ Frozen db.shared db'.shared := by
  cases hstep with
  | run i st t log logged hthread =>
    refine ⟨h.run (fun hp => hp.elim) hthread log logged, ?_⟩
    obtain ⟨hheld, hnumbered⟩ := h.own i
    have heffect := step_effect hthread
    have hversions : ∀ i k n, n ≤ db.shared.watermark →
        st.keyspaces i k n = db.shared.keyspaces i k n := fun i k n hn =>
      h.shared.keyspaces_step hheld hnumbered heffect hn
    exact ⟨heffect.le.2.1, heffect.highest_le, hversions⟩
  | call i a t hcall => exact ⟨h.call hcall, .refl _⟩
  | sync => exact ⟨h.sync, le_rfl, le_rfl, fun _ _ _ _ => rfl⟩

theorem Database.Tracked.reaches (h : Tracked first False db) (hr : Reaches (stepOf build) db db') :
    Tracked first False db' ∧ Frozen db.shared db'.shared := by
  refine hr.invariant (P := fun s => Tracked first False s ∧ Frozen db.shared s.shared)
    ⟨h, .refl _⟩ ?_
  rintro s a s' ⟨hs, hfrozen⟩ - hstep
  obtain ⟨hs', hfrozen'⟩ := hs.step (stepOf_cases hstep)
  exact ⟨hs', hfrozen.trans hfrozen'⟩

theorem tracked_of_reaches (hr : Reaches (stepOf build) (importSnapshot first keyspaces) db) :
    Tracked first False db := ((tracked_importSnapshot first keyspaces).reaches hr).1

theorem Responsible.step {a : Action K V} (hok : Tracked first pinned db) (h : Responsible db)
    (hstep : db.StepOf a db') : Responsible db' := by
  cases hstep with
  | run i st t log logged hthread =>
    have hhandoff := step_handoff hok.shared (hok.own i).held hthread
    exact h.move hhandoff
  | call i a t hcall =>
    -- a call by the user is of a thread that is not in a commit
    refine h.move (.of_slots rfl rfl fun _ => ?_)
    rcases hcall.before with hpc | hpc <;> rw [Transaction.candidate_of_pc hpc] <;> rintro ⟨⟩
  | sync => exact h

theorem responsible_of_reaches (hr : Reaches (stepOf build) (importSnapshot first keyspaces) db) :
    Responsible db := by
  refine (hr.invariant (P := fun s => Tracked first False s ∧ Responsible s)
    ⟨tracked_importSnapshot first keyspaces, ?_⟩ ?_).2
  · rintro (hd | hd) <;> cases hd
  · rintro s a s' ⟨hok, hresp⟩ - hstep
    exact ⟨(hok.step (stepOf_cases hstep)).1, hresp.step hok (stepOf_cases hstep)⟩

omit [DecidableEq V] in
theorem Responsible.isGreatest (h : Responsible db) (hok : Tracked first pinned db)
    (hquiet : ∀ i, (db.threads i).pc.incrementing = false) :
    IsGreatest {w | ∀ n, first < n → n ≤ w → db.shared.Done n} db.shared.watermark := by
  refine ⟨hok.shared.done, fun w hw => ?_⟩
  by_contra hlt
  have hfirst := hok.shared.first_lt_front.trans_le hok.shared.front_le
  have hnext := hw (db.shared.watermark + 1) hfirst (not_le.mp hlt)
  obtain ⟨i, hi⟩ := h hnext
  have hinc := Transaction.incrementing_of_candidate hi
  rw [hquiet i] at hinc
  cases hinc

/-- With a log or without, whatever was imported: the watermark never decreases, everything up to it
is applied or aborted, and where no thread is on its way from setting a slot to the end of
`may_increment_watermark` it is the largest such number. -/
theorem watermark_exact
    (hr : Reaches (Database.stepOf build) (Database.importSnapshot previous keyspaces) db) :
    (∀ db', Reaches (Database.stepOf build) db db' → db.shared.watermark ≤ db'.shared.watermark) ∧
      (∀ n, previous < n → n ≤ db.shared.watermark →
        db.shared.slotStatus n = .applied ∨ db.shared.slotStatus n = .aborted) ∧
      ((∀ i, (db.threads i).pc.incrementing = false) →
        IsGreatest {w | ∀ n, previous < n → n ≤ w →
          db.shared.slotStatus n = .applied ∨ db.shared.slotStatus n = .aborted}
          db.shared.watermark) := by
  have hok := tracked_of_reaches hr
  exact ⟨fun db' hr' => (hok.reaches hr').2.watermark_le, hok.shared.done,
    (responsible_of_reaches hr).isGreatest hok⟩

theorem concurrentPuts_watermark :
    Reaches (Database.stepOf .wal) (Database.importSnapshot 0 fun _ _ _ => none) concurrentPutsEnd ∧
      (∀ i, (concurrentPutsEnd.threads i).pc.incrementing = false) ∧
      concurrentPutsEnd.shared.watermark = 2 ∧
      IsGreatest {w | ∀ n, 0 < n → n ≤ w → concurrentPutsEnd.shared.slotStatus n = .applied ∨
        concurrentPutsEnd.shared.slotStatus n = .aborted} concurrentPutsEnd.shared.watermark := by
  have hr : Reaches (stepOf .wal) (importSnapshot 0 fun _ _ _ => none) concurrentPutsEnd :=
    concurrentPuts_reach fun _ _ _ => trivial
  have hquiet : ∀ i, (concurrentPutsEnd.threads i).pc.incrementing = false := by
    intro i
    match i with
    | 0 | 1 => decide +kernel
    | i + 2 =>
      rw [run_threads concurrentPuts_run (by simp [concurrentPuts, Action.thread])]
      rfl
  exact ⟨hr, hquiet, by decide +kernel, (watermark_exact hr).2.2 hquiet⟩

end Responsible

section Snapshots
variable {first previous : Nat} {build : Build} {keyspaces : KeyspaceId → Keyspace K V}
  {st st' : MVCCStorage K V} {db db' db₁ db₂ : Database K V}

/-- A snapshot whose opening began when `c` was announced. -/
structure Since (c : Nat) (t : Transaction K V) : Prop where
  waiting : ∀ target, t.pc = .waiting target → t.call.fixed = none → c ≤ target
  opened : t.pc.isOutside = false → t.call.fixed = none → c ≤ t.openSequenceNumber

theorem Since.of_idle {c : Nat} {t : Transaction K V} (h : t.pc = .idle) : Since c t := by
  constructor
  · intro target hpc
    rw [h] at hpc
    cases hpc
  · intro hout
    rw [h] at hout
    cases hout

theorem Since.of_opened {c : Nat} {t : Transaction K V} (hw : t.pc.isOutside = false)
    (h : t.call.fixed = none → c ≤ t.openSequenceNumber) : Since c t := by
  refine ⟨fun target hpc => ?_, fun _ => h⟩
  rw [hpc] at hw
  cases hw

variable [DecidableEq V]

theorem Since.wait {c target : Nat} {t t' : Transaction K V} (h : Since c t)
    (hpc : t.pc = .waiting target) (hstep : t.step st = some (st', t')) : Since c t' := by
  simp only [Transaction.step, hpc] at hstep
  split_ifs at hstep with hlt hreg
  all_goals
    cases hstep
    refine .of_opened rfl fun hfixed => ?_
    have htarget := h.waiting target hpc hfixed
    change t.call.fixed = none at hfixed
    simp only [hfixed, getD_none]
    omega

theorem Database.StepOf.staysOpen {a : Action K V} {s : Nat} (hstep : db.StepOf a db')
    (hs : (db.threads s).pc.isOutside = false) : (db.threads s).StaysOpen (db'.threads s) := by
  have hsame : (db.threads s).StaysOpen (db.threads s) := ⟨rfl, rfl, hs⟩
  cases hstep with
  | run i st t log logged hthread =>
    refine move_threads hsame fun hi => ?_
    subst hi
    obtain ⟨hcall, hopened, hinside⟩ := step_snapshot hthread hs
    exact ⟨hcall, hopened, hinside⟩
  | call i a t hcall =>
    refine move_threads hsame fun hi => ?_
    subst hi
    cases hcall with
    | opening call target htarget hpc =>
      rw [hpc] at hs
      cases hs
    | _ => exact ⟨rfl, rfl, rfl⟩
  | sync => exact hsame

theorem Database.stepOf_open {i : Nat} {call : OpenCall}
    (h : db.stepOf build (.open i call) = some db') :
    db' = db.move i db.shared { db.threads i with
      pc := .waiting (call.fixed.getD db.shared.highestValidatedSequenceNumber), call := call } := by
  have h : db.step (.open i call) = some db' := by cases build <;> exact h
  simp only [step] at h
  split at h <;> cases h
  rfl

theorem Since.step {c s : Nat} {a : Action K V} (hann : db.shared.Announced c)
    (h : Since c (db.threads s)) (hstep : db.stepOf build a = some db') :
    Since c (db'.threads s) := by
  cases hout : (db.threads s).pc.isOutside with
  | false =>
    obtain ⟨hcall, hopen, hout'⟩ := (stepOf_cases hstep).staysOpen hout
    refine .of_opened hout' fun hfixed => ?_
    rw [hopen]
    exact h.opened hout (hcall ▸ hfixed)
  | true =>
    cases stepOf_cases hstep with
    | run i st t log logged hthread =>
      refine move_threads (P := Since c) h fun hi => ?_
      subst hi
      have hsince : Since c t := by
        cases hpc : (db.threads i).pc with
        | waiting target => exact h.wait hpc hthread
        | idle =>
          simp only [Transaction.step, hpc] at hthread
          cases hthread
        | _ =>
          rw [hpc] at hout
          cases hout
      exact ⟨hsince.waiting, hsince.opened⟩
    | call i a t hcall =>
      refine move_threads (P := Since c) h fun hi => ?_
      subst hi
      cases hcall with
      | opening call target htarget hpc =>
        -- a snapshot waits for the highest number there is
        refine ⟨fun target' hpc' hfixed => ?_, fun hw => by cases hw⟩
        have hwaits := congrArg (fun d : Database K V => (d.threads i).pc) (stepOf_open hstep)
        simp only [System.move_self, Pc.waiting.injEq] at hwaits
        cases hpc'
        rw [hwaits, show call.fixed = none from hfixed]
        exact hann
      | commit operations hpc _ _ | commitEmpty operations hpc _ _ | close hpc _ | closeRead hpc _ =>
        rw [hpc] at hout
        cases hout
    | sync => exact h

/-- With a log or without, whatever was imported: a snapshot opened, at a number of the storage's
choice, after a commit returned is opened at or above that commit; and from then on nothing changes
among the versions it reads. -/
theorem opened_snapshot_stable {i s : Nat}
    (hr : Reaches (Database.stepOf build) (Database.importSnapshot previous keyspaces) db)
    (hcommitted : (db.threads i).pc = .committed) (hidle : (db.threads s).pc = .idle)
    (hr₁ : Reaches (Database.stepOf build) db db₁) (hopened : (db₁.threads s).pc = .opened)
    (hcall : (db₁.threads s).call.fixed = none) :
    (db.threads i).commitSequenceNumber ≤ (db₁.threads s).openSequenceNumber ∧
      ∀ db₂, Reaches (Database.stepOf build) db₁ db₂ →
        (db₂.threads s).openSequenceNumber = (db₁.threads s).openSequenceNumber ∧
        ∀ j k, (∀ n ≤ (db₁.threads s).openSequenceNumber,
            db₂.shared.keyspaces j k n = db₁.shared.keyspaces j k n) ∧
          (db₂.shared.keyspaces j).get k (db₁.threads s).openSequenceNumber =
            (db₁.shared.keyspaces j).get k (db₁.threads s).openSequenceNumber := by
  have hok := tracked_of_reaches hr
  have hann : db.shared.Announced (db.threads i).commitSequenceNumber :=
    (hok.own i).numbered.announced (by rw [hcommitted]; rfl)
  obtain ⟨hok₁, -⟩ := hok.reaches hr₁
  have hout : (db₁.threads s).pc.isOutside = false := by rw [hopened]; rfl
  have hle : (db₁.threads s).openSequenceNumber ≤ db₁.shared.watermark :=
    (hok₁.own s).held.opened hout
  constructor
  · -- what was announced stays announced
    have hsince := hr₁.invariant (P := fun s' => (Tracked previous False s' ∧
        s'.shared.Announced (db.threads i).commitSequenceNumber) ∧
        Since (db.threads i).commitSequenceNumber (s'.threads s))
      ⟨⟨hok, hann⟩, .of_idle hidle⟩ ?_
    · exact hsince.2.opened hout hcall
    · rintro s₁ a s₂ ⟨⟨hok', hann'⟩, hs⟩ - hstep
      obtain ⟨hok'', hfrozen⟩ := hok'.step (stepOf_cases hstep)
      exact ⟨⟨hok'', le_trans hann' hfrozen.highest_le⟩, hs.step hann' hstep⟩
  · intro db₂ hr₂
    have hfrozen : ∀ j k, ∀ n ≤ (db₁.threads s).openSequenceNumber,
        db₂.shared.keyspaces j k n = db₁.shared.keyspaces j k n := fun j k n hn =>
      (hok₁.reaches hr₂).2.versions j k n (hn.trans hle)
    refine ⟨?_, fun j k => ⟨hfrozen j k, ?_⟩⟩
    · refine (hr₂.invariant (P := fun s' =>
          (s'.threads s).openSequenceNumber = (db₁.threads s).openSequenceNumber ∧
          (s'.threads s).pc.isOutside = false) ⟨rfl, hout⟩ ?_).1
      rintro s₁ a s₂ ⟨heq, hs⟩ - hstep
      obtain ⟨-, hopen, hout'⟩ := (stepOf_cases hstep).staysOpen hs
      exact ⟨hopen.trans heq, hout'⟩
    · rw [Keyspace.get, Keyspace.get, newest_congr (hfrozen j k)]

theorem open_read {s : Nat} (hidle : (db.threads s).pc = .idle)
    (hw : db.shared.highestValidatedSequenceNumber ≤ db.shared.watermark) :
    ∃ db₁, Reaches (stepOf .wal) db db₁ ∧ (db₁.threads s).pc = .opened ∧
      (db₁.threads s).call = .read := by
  let target := db.shared.highestValidatedSequenceNumber
  let waiting : Database K V :=
    db.move s db.shared { db.threads s with pc := .waiting target, call := .read }
  have hopen : db.step (.open s .read) = some waiting := by
    simp only [step, hidle]
    rfl
  have hpc : (waiting.threads s).pc = .waiting target := by simp [waiting]
  have hcall : (waiting.threads s).call = .read := by simp [waiting]
  have hwait : ¬ waiting.shared.watermark < target := not_lt.mpr hw
  have hrun : waiting.step (.run s) = some (waiting.move s db.shared
      { waiting.threads s with pc := .opened, openSequenceNumber := db.shared.watermark }) := by
    simp only [step, Transaction.step, hpc, hcall, if_neg hwait]
    rfl
  have hreaches : Reaches step db _ := .tail (.tail .refl trivial hopen) trivial hrun
  refine ⟨_, hreaches, ?_, ?_⟩
  · rw [System.move_self]
  · rw [System.move_self]
    exact hcall

theorem concurrentPuts_then_read :
    ∃ db₁, Reaches (Database.stepOf .wal) concurrentPutsEnd db₁ ∧ (db₁.threads 2).pc = .opened ∧
      (concurrentPutsEnd.threads 1).commitSequenceNumber ≤ (db₁.threads 2).openSequenceNumber ∧
      ∀ db₂, Reaches (Database.stepOf .wal) db₁ db₂ →
        (db₂.shared.keyspaces 0).get 5 (db₁.threads 2).openSequenceNumber =
          (db₁.shared.keyspaces 0).get 5 (db₁.threads 2).openSequenceNumber := by
  have hr : Reaches (stepOf .wal) (importSnapshot 0 fun _ _ _ => none) concurrentPutsEnd :=
    concurrentPuts_reach fun _ _ _ => trivial
  have h₁ : (concurrentPutsEnd.threads 1).pc = .committed := Pc.eq_committed (by decide +kernel)
  have hidle : (concurrentPutsEnd.threads 2).pc = .idle := by
    rw [run_threads concurrentPuts_run (by simp [concurrentPuts, Action.thread])]
    rfl
  obtain ⟨db₁, hr₁, hopened, hcall⟩ := open_read hidle (by decide +kernel)
  obtain ⟨hle, hfrozen⟩ := opened_snapshot_stable hr h₁ hidle hr₁ hopened (by rw [hcall]; rfl)
  exact ⟨db₁, hr₁, hopened, hle, fun db₂ hr₂ => ((hfrozen db₂ hr₂).2 0 5).2⟩

end Snapshots
end TypeDB.Storage
