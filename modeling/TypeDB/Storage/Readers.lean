import TypeDB.Foundations.Counting
import TypeDB.Storage.Coverage

/-! The readers of the windows. A window counts the snapshots that were opened in it and have not
been released; the count lags only behind snapshots that are dropped without a release. -/

namespace TypeDB.Storage
open Runs Threads Counting Timeline System Transaction Function

variable {K V : Type*} [LinearOrder K]

def After.holds : After → Bool
  | .release => true
  | _ => false

def Pc.holds : Pc K V → Bool
  | .opened | .initialPuts _ | .sequencedWrite | .lastEnd | .createWindows | .ownWindow | .setRecord
  | .setPending | .collect | .diskStatuses _ | .diskCommits _ _ | .walk _ | .resolve _ | .await _ _
  | .setValidated | .raiseValidated | .setAborted _ | .removeReader _ | .decrementReaders _ _ => true
  | .incrementCheck a | .incrementWindow _ a | .incrementStatus _ _ a | .incrementExchange _ _ a
  | .incrementEnd _ a | .free a | .freeCheck _ a | .freeLoop _ a | .freePop _ _ a => a.holds
  | _ => false

@[simp] theorem After.holds_pc (a : After) : (a.pc : Pc K V).holds = a.holds := by
  cases a <;> rfl

structure Transaction.Reads (t : Transaction K V) (window : Nat) : Prop where
  registers : t.call.registers = true
  holds : t.pc.holds = true
  inside : InWindow window t.openSequenceNumber

def Aligned (first window : Nat) : Prop := ∃ k, window = first + 1 + timelineWindowSize * k

theorem Aligned.windowEnd {first w : Nat} (h : Aligned first w) : Aligned first (windowEnd w) := by
  obtain ⟨k, rfl⟩ := h
  exact ⟨k + 1, by simp only [Storage.windowEnd]; ring⟩

theorem Aligned.eq {first v w n : Nat} (hv : Aligned first v) (hw : Aligned first w)
    (hvn : InWindow v n) (hwn : InWindow w n) : v = w := by
  obtain ⟨k, rfl⟩ := hv
  obtain ⟨k', rfl⟩ := hw
  simp only [InWindow, Storage.windowEnd, timelineWindowSize] at hvn hwn ⊢
  omega

theorem Timeline.windowAt_aligned {first index : Nat} {tl : Timeline K V}
    (h : Aligned first tl.front) : Aligned first (tl.windowAt index) := by
  obtain ⟨k, hk⟩ := h
  exact ⟨k + index, by rw [windowAt, hk]; ring⟩

theorem Timeline.tryGetWindow_aligned {first n w : Nat} {tl : Timeline K V}
    (h : Aligned first tl.front) (hw : tl.tryGetWindow n = some w) : Aligned first w := by
  obtain ⟨index, -, rfl⟩ := Option.map_eq_some_iff.mp hw
  exact windowAt_aligned h

section Steps
variable {first : Nat} {st st' : MVCCStorage K V} {t t' : Transaction K V}

def ReaderOk (first : Nat) (t : Transaction K V) : Pc K V → Prop
  | .idle | .waiting _ | .opened | .closed => True
  | .incrementReaders w =>
      t.call.registers = true ∧ Aligned first w ∧ InWindow w t.openSequenceNumber
  | .removeReader a => t.call.registers = true ∧ a ≠ .release
  | .decrementReaders w a => t.call.registers = true ∧ a ≠ .release ∧ Aligned first w ∧
      InWindow w t.openSequenceNumber
  | _ => t.call.registers = true

/-- What a step does to the readers of the windows from `st'.front` on. -/
inductive ReaderChange (first : Nat) (st : MVCCStorage K V) (t : Transaction K V)
    (st' : MVCCStorage K V) (t' : Transaction K V) : Prop
  | keeps (hreaders : st'.readers = st.readers)
      (h : ∀ w, Aligned first w → st'.front ≤ w → (t'.Reads w ↔ t.Reads w))
  | registers (window : Nat) (hpc : t.pc = .incrementReaders window)
      (hreaders : st'.readers =
        update st.readers window ((st.readers window + 1) % 2 ^ 64))
      (hbefore : ∀ w, ¬ t.Reads w) (hafter : ∀ w, Aligned first w → (t'.Reads w ↔ w = window))
  | releases (window : Nat)
      (hreaders : st'.readers =
        update st.readers window ((st.readers window + 2 ^ 64 - 1) % 2 ^ 64))
      (hbefore : ∀ w, Aligned first w → (t.Reads w ↔ w = window)) (hafter : ∀ w, ¬ t'.Reads w)
  | lost (hreaders : st'.readers = st.readers) (hafter : ∀ w, ¬ t'.Reads w)
      (hpanic : t'.pc = .panicked)

theorem not_reads {w : Nat} (h : t.pc.holds = false) : ¬ t.Reads w := fun hreads => by
  rw [hreads.holds] at h
  cases h

theorem After.holds_eq_false {a : After} (h : a ≠ .release) : a.holds = false := by
  cases a <;> first | rfl | exact absurd rfl h

theorem ReaderOk.after {a : After} (h : t.call.registers = true) :
    ReaderOk first (t.goto a.pc) (t.goto a.pc).pc := by
  cases a with
  | closed => trivial
  | release => exact ⟨h, nofun⟩
  | _ => exact h

theorem Effect.readers (h : Effect st t st') (hi : ∀ w, t.pc ≠ .incrementReaders w)
    (hd : ∀ w a, t.pc ≠ .decrementReaders w a) : st'.readers = st.readers := by
  cases h with
  | increment w hpc => exact absurd hpc (hi w)
  | decrement w a hpc => exact absurd hpc (hd w a)
  | create hpc =>
    obtain ⟨more, heq⟩ := st.toTimeline.createWindowsTo_spec t.commitSequenceNumber
    rw [MVCCStorage.setTimeline, heq]
  | pop watermark a tl hpc htl => exact (popFront_eq_some htl).2.2.2.2.1
  | _ => rfl

def Pc.counts : Pc K V → Bool
  | .waiting _ | .recordReader | .incrementReaders _ | .removeReader _ | .decrementReaders _ _ => true
  | _ => false

def Pc.reads : Pc K V → Bool
  | .recordReader | .removeReader _ => true
  | _ => false

theorem TransactionOk.opened_le (h : TransactionOk first st t) (hpc : t.pc.reads = true) :
    t.openSequenceNumber ≤ st.watermark := by
  cases heq : t.pc with
  | recordReader => exact (h.at_pc heq).1
  | removeReader a =>
    have hs := (h.at_pc heq).1
    cases a with
    | closed => exact hs
    | _ => exact Committing.opened hs
  | _ => simp [heq, Pc.reads] at hpc

theorem handle_holds {n : Nat} {dependency : CommitDependency K}
    (h : t.handle st n dependency = (st', t')) (hcall : t.call.registers = true) :
    ReaderOk first t' t'.pc ∧ (t'.pc.holds = true ∨ t'.pc = .panicked) := by
  unfold handle at h
  split at h
  · cases h
    exact ⟨hcall, .inr rfl⟩
  · split at h <;> cases h <;> exact ⟨hcall, .inl rfl⟩

theorem step_holds [DecidableEq V] (hr : ReaderOk first t t.pc) (hcounts : t.pc.counts = false)
    (hstep : t.step st = some (st', t')) :
    ReaderOk first t' t'.pc ∧ (t'.pc.holds = t.pc.holds ∨ t'.pc = .panicked) := by
  cases hpc : t.pc with
  | waiting target | recordReader | incrementReaders w | removeReader a | decrementReaders w a =>
    simp [hpc, Pc.counts] at hcounts
  | raiseValidated =>
    rw [hpc] at hr
    simp only [step, hpc] at hstep
    cases hstep
    exact ⟨⟨hr, by rintro ⟨⟩⟩, .inl rfl⟩
  | persist didApply =>
    rw [hpc] at hr
    simp only [step, hpc] at hstep
    cases hstep
    cases didApply <;> exact ⟨hr, .inl rfl⟩
  | _ =>
    rw [hpc] at hr
    simp only [step, hpc] at hstep
    repeat' split at hstep
    all_goals first
      | contradiction
      | exact handle_holds (Option.some.inj hstep) hr
      | cases hstep
        exact ⟨hr, .inl rfl⟩
      | cases hstep
        exact ⟨hr, .inr rfl⟩
      | cases hstep
        exact ⟨.after hr, .inl (After.holds_pc _)⟩

theorem not_inWindow_of_none {w : Nat} (hback : st.watermark < st.backEnd)
    (hopen : t.openSequenceNumber ≤ st.watermark) (hw : st.front ≤ w)
    (hnone : st.tryGetWindow t.openSequenceNumber = none) :
    ¬ InWindow w t.openSequenceNumber := by
  intro hin
  rcases tryGetWindow_eq_none hnone with hlt | hge
  · have := hin.1
    omega
  · omega

theorem ReaderOk.step [DecidableEq V] (hback : st.watermark < st.backEnd)
    (hopen : t.pc.reads = true → t.openSequenceNumber ≤ st.watermark)
    (halign : Aligned first st.front) (hr : ReaderOk first t t.pc)
    (hstep : t.step st = some (st', t')) :
    ReaderOk first t' t'.pc ∧ ReaderChange first st t st' t' := by
  by_cases hcounts : t.pc.counts = false
  · -- elsewhere the thread stays as it is, or panics
    have hreaders : st'.readers = st.readers :=
      (step_effect hstep).readers (fun w hpc => by simp [hpc, Pc.counts] at hcounts)
        fun w a hpc => by simp [hpc, Pc.counts] at hcounts
    obtain ⟨hr', hholds⟩ := step_holds hr hcounts hstep
    refine ⟨hr', ?_⟩
    rcases hholds with hholds | hpanic
    · refine .keeps hreaders fun w _ _ => ?_
      by_cases hout : t.pc.isOutside = true
      · have hnot : t.pc.holds = false := by
          cases hpc : t.pc <;> first | rfl | simp [hpc, Pc.isOutside] at hout
        exact iff_of_false (not_reads (hholds.trans hnot)) (not_reads hnot)
      · have hsame := step_snapshot hstep (by simpa using hout)
        constructor
        · rintro ⟨hcall, hh, hin⟩
          exact ⟨hsame.call ▸ hcall, hholds ▸ hh, hsame.opened ▸ hin⟩
        · rintro ⟨hcall, hh, hin⟩
          exact ⟨by rwa [hsame.call], hholds.trans hh, by rwa [hsame.opened]⟩
    · exact .lost hreaders (fun w => not_reads (by rw [hpanic]; rfl)) hpanic
  · cases hpc : t.pc <;> rw [hpc] at hr hopen <;> simp only [Transaction.step, hpc] at hstep
    case waiting target =>
      have hbefore : t.pc.holds = false := by rw [hpc]; rfl
      split_ifs at hstep with hwait hcall <;> cases hstep
      · exact ⟨hcall, .keeps rfl fun w _ _ => iff_of_false (not_reads rfl) (not_reads hbefore)⟩
      · refine ⟨trivial, .keeps rfl fun w _ _ => iff_of_false ?_ (not_reads hbefore)⟩
        exact fun hreads => hcall hreads.registers
    case recordReader =>
      have hbefore : t.pc.holds = false := by rw [hpc]; rfl
      split at hstep <;> cases hstep
      · refine ⟨trivial, .keeps rfl fun w _ hw => iff_of_false (fun hreads => ?_) (not_reads hbefore)⟩
        exact not_inWindow_of_none hback (hopen rfl) hw (by assumption) hreads.inside
      · rename_i w hw
        refine ⟨⟨hr, tryGetWindow_aligned halign hw, (tryGetWindow_eq_some hw).1⟩, ?_⟩
        exact .keeps rfl fun w _ _ => iff_of_false (not_reads rfl) (not_reads hbefore)
    case incrementReaders w =>
      obtain ⟨hcall, haligned, hin⟩ := hr
      have hbefore : t.pc.holds = false := by rw [hpc]; rfl
      cases hstep
      refine ⟨trivial, .registers w hpc rfl (fun v => not_reads hbefore) fun v hv => ?_⟩
      constructor
      · exact fun hreads => hv.eq haligned hreads.inside hin
      · rintro rfl
        exact ⟨hcall, rfl, hin⟩
    case removeReader a =>
      obtain ⟨hcall, hrelease⟩ := hr
      split at hstep <;> cases hstep
      · refine ⟨.after hcall, .keeps rfl fun w _ hw => iff_of_false (not_reads ?_) fun hreads => ?_⟩
        · exact (After.holds_pc a).trans (After.holds_eq_false hrelease)
        · exact not_inWindow_of_none hback (hopen rfl) hw (by assumption) hreads.inside
      · rename_i w hw
        refine ⟨⟨hcall, hrelease, tryGetWindow_aligned halign hw,
          (tryGetWindow_eq_some hw).1⟩, .keeps rfl fun w _ _ => ?_⟩
        constructor
        · exact fun hreads => ⟨hcall, by rw [hpc]; rfl, hreads.inside⟩
        · exact fun hreads => ⟨hcall, rfl, hreads.inside⟩
    case decrementReaders w a =>
      obtain ⟨hcall, hrelease, haligned, hin⟩ := hr
      have hafter := After.holds_eq_false hrelease
      have hbefore : ∀ v, Aligned first v → (t.Reads v ↔ v = w) := by
        intro v hv
        constructor
        · exact fun hreads => hv.eq haligned hreads.inside hin
        · rintro rfl
          exact ⟨hcall, by rw [hpc]; rfl, hin⟩
      cases hstep
      refine ⟨?_, .releases w rfl hbefore fun v => not_reads ?_⟩ <;> dsimp only [Transaction.goto] <;>
        split_ifs
      · exact hcall
      · exact ReaderOk.after hcall
      · exact hafter
      · exact (After.holds_pc a).trans hafter
    all_goals simp [hpc, Pc.counts] at hcounts

theorem ReaderOk.call {i : Nat} {a : Action K V} (h : Call i t a t') : ReaderOk first t' t'.pc := by
  cases h with
  | commit operations hpc hcall hwrites => exact hcall
  | close hpc hcall => exact ⟨hcall, nofun⟩
  | _ => trivial

theorem Call.reads {i w : Nat} {a : Action K V} (h : Call i t a t')
    (hempty : ∀ operations, a = .commit i operations →
      ¬ (operations.isWritesEmpty && operations.locksEmpty) = true) :
    t'.Reads w ↔ t.Reads w := by
  cases h with
  | opening call target htarget hpc =>
    exact iff_of_false (not_reads rfl) (not_reads (by rw [hpc]; rfl))
  | commit operations hpc hcall hwrites =>
    exact ⟨fun h => ⟨hcall, by rw [hpc]; rfl, h.inside⟩, fun h => ⟨hcall, rfl, h.inside⟩⟩
  | commitEmpty operations hpc hcall h => exact absurd h (hempty operations rfl)
  | close hpc hcall =>
    exact ⟨fun h => ⟨hcall, by rw [hpc]; rfl, h.inside⟩, fun h => ⟨hcall, rfl, h.inside⟩⟩
  | closeRead hpc hcall =>
    refine iff_of_false (not_reads rfl) fun h => ?_
    rw [h.registers] at hcall
    cases hcall

end Steps

namespace Database
variable {first : Nat} {exact : Prop} {db db' : Database K V} {t : Transaction K V}
  {st : MVCCStorage K V} {i : Nat}

def CountFits (db : Database K V) (a : Action K V) : Prop :=
  ∀ i w, a = .run i → (db.threads i).pc = .incrementReaders w → db.shared.readers w + 1 < 2 ^ 64

/-- No snapshot ends without its release: no empty buffer is committed, and no scan of the log
meets a commit without a status. -/
structure Releases (db : Database K V) (a : Action K V) : Prop where
  writes : ∀ i operations, a = .commit i operations →
    ¬ (operations.isWritesEmpty && operations.locksEmpty) = true
  decided : ∀ i, a = .run i → ¬ (db.threads i).MeetsUndecided db.shared

/-- The count of a window from the front on is not less than the number of its live readers, and
equal to it where it has to be exact. -/
structure CountsReaders (first : Nat) (exact : Prop) (db : Database K V) : Prop where
  aligned : Aligned first db.shared.front
  readers : ∀ i, ReaderOk first (db.threads i) (db.threads i).pc
  fits : ∀ w, db.shared.readers w < 2 ^ 64
  counted : ∀ w, Aligned first w → db.shared.front ≤ w →
    ∃ n, Counted (fun i => (db.threads i).Reads w) n ∧ n ≤ db.shared.readers w ∧
      (exact → db.shared.readers w = n)

structure Accounts (first : Nat) (exact : Prop) (db : Database K V) : Prop
    extends CountsReaders first exact db where
  placements : db.Placements first

theorem countsReaders_create (first : Nat) (exact : Prop) :
    CountsReaders first exact (create first : Database K V) :=
  ⟨⟨0, rfl⟩, fun _ => trivial, fun _ => Nat.two_pow_pos 64,
    fun _ _ _ => ⟨0, counted_zero fun _ => not_reads rfl, Nat.zero_le _, fun _ => rfl⟩⟩

theorem accounts_create (first : Nat) (exact : Prop) :
    Accounts first exact (create first : Database K V) :=
  ⟨countsReaders_create first exact, placements_create first⟩

section Count
variable {w n i : Nat} {st : MVCCStorage K V} {t : Transaction K V}

section
variable (h : Counted (fun j => (db.threads j).Reads w) n)
include h

theorem counted_keep
    (ht : t.Reads w ↔ (db.threads i).Reads w) :
    Counted (fun j => ((db.move i st t).threads j).Reads w) n := by
  refine h.congr fun j => ?_
  by_cases hj : j = i
  · rw [hj, move_self]
    exact ht.symm
  · rw [move_of_ne db hj]

theorem counted_add
    (hbefore : ¬ (db.threads i).Reads w) (hafter : t.Reads w) :
    Counted (fun j => ((db.move i st t).threads j).Reads w) (n + 1) := by
  refine h.add hbefore fun j => ?_
  by_cases hj : j = i
  · rw [hj, move_self]
    exact iff_of_true hafter (.inl rfl)
  · rw [move_of_ne db hj]
    exact ⟨.inr, fun h => h.resolve_left hj⟩

theorem counted_remove
    (hbefore : (db.threads i).Reads w) (hafter : ¬ t.Reads w) :
    Counted (fun j => ((db.move i st t).threads j).Reads w) (n - 1) := by
  refine h.remove hbefore fun j => ?_
  by_cases hj : j = i
  · rw [hj, move_self]
    exact iff_of_false hafter fun h => h.1 rfl
  · rw [move_of_ne db hj]
    exact ⟨fun h => ⟨hj, h⟩, fun h => h.2⟩

end

theorem counted_drop (st : MVCCStorage K V) (h : Counted (fun j => (db.threads j).Reads w) n)
    (hafter : ¬ t.Reads w) :
    ∃ m ≤ n, Counted (fun j => ((db.move i st t).threads j).Reads w) m := by
  by_cases hbefore : (db.threads i).Reads w
  · exact ⟨n - 1, Nat.sub_le n 1, counted_remove h hbefore hafter⟩
  · exact ⟨n, le_rfl, counted_keep h (iff_of_false hafter hbefore)⟩

end Count

theorem CountsReaders.counted_move (h : CountsReaders first exact db)
    (hfits : CountFits db (.run i)) (hpanics : exact → t.pc ≠ .panicked)
    (hfront : db.shared.front ≤ st.front)
    (hchange : ReaderChange first db.shared (db.threads i) st t) :
    (∀ w, st.readers w < 2 ^ 64) ∧ ∀ w, Aligned first w → st.front ≤ w →
      ∃ n, Counted (fun j => ((db.move i st t).threads j).Reads w) n ∧ n ≤ st.readers w ∧
        (exact → st.readers w = n) := by
  have hold := fun w hw hle => h.counted w hw (hfront.trans hle)
  cases hchange with
  | keeps hreaders hiff =>
    rw [hreaders]
    refine ⟨h.fits, fun w hw hle => ?_⟩
    obtain ⟨n, hn, hle', hexact⟩ := hold w hw hle
    exact ⟨n, counted_keep hn (hiff w hw hle), hle', hexact⟩
  | registers window hpc hreaders hbefore hafter =>
    have hroom := hfits i window rfl hpc
    have hself : st.readers window = db.shared.readers window + 1 := by
      rw [hreaders, update_self, Nat.mod_eq_of_lt hroom]
    have hother : ∀ w, w ≠ window → st.readers w = db.shared.readers w := fun w hw => by
      rw [hreaders, update_of_ne hw]
    refine ⟨fun w => ?_, fun w hw hle => ?_⟩
    · by_cases hwindow : w = window
      · rw [hwindow, hself]
        exact hroom
      · rw [hother w hwindow]
        exact h.fits w
    · obtain ⟨n, hn, hle', hexact⟩ := hold w hw hle
      by_cases hwindow : w = window
      · subst hwindow
        rw [hself]
        exact ⟨n + 1, counted_add hn (hbefore w) ((hafter w hw).mpr rfl), Nat.succ_le_succ hle',
          fun he => by rw [hexact he]⟩
      · rw [hother w hwindow]
        exact ⟨n, counted_keep hn (iff_of_false (fun hr => hwindow ((hafter w hw).mp hr))
          (hbefore w)), hle', hexact⟩
  | releases window hreaders hbefore hafter =>
    have hother : ∀ w, w ≠ window → st.readers w = db.shared.readers w := fun w hw => by
      rw [hreaders, update_of_ne hw]
    have hself : st.readers window = (db.shared.readers window + 2 ^ 64 - 1) % 2 ^ 64 := by
      rw [hreaders, update_self]
    refine ⟨fun w => ?_, fun w hw hle => ?_⟩
    · by_cases hwindow : w = window
      · rw [hwindow, hself]
        exact Nat.mod_lt _ (Nat.two_pow_pos 64)
      · rw [hother w hwindow]
        exact h.fits w
    · obtain ⟨n, hn, hle', hexact⟩ := hold w hw hle
      by_cases hwindow : w = window
      · subst hwindow
        have hreads := (hbefore w hw).mpr rfl
        -- the thread itself is counted, so the counter does not go below zero
        have hpos := hn.pos hreads
        have hminus : st.readers w = db.shared.readers w - 1 := by
          have := h.fits w
          rw [hself]
          omega
        refine ⟨n - 1, counted_remove hn hreads (hafter w), by omega, fun he => ?_⟩
        rw [hminus, hexact he]
      · rw [hother w hwindow]
        exact ⟨n, counted_keep hn (iff_of_false (hafter w) fun hr => hwindow ((hbefore w hw).mp hr)),
          hle', hexact⟩
  | lost hreaders hafter hpanic =>
    rw [hreaders]
    refine ⟨h.fits, fun w hw hle => ?_⟩
    obtain ⟨n, hn, hle', -⟩ := hold w hw hle
    obtain ⟨m, hm, hcount⟩ := counted_drop st hn (hafter w)
    exact ⟨m, hcount, hm.trans hle', fun he => absurd hpanic (hpanics he)⟩

theorem CountsReaders.move (h : CountsReaders first exact db) (hfits : CountFits db (.run i))
    (hpanics : exact → t.pc ≠ .panicked)
    (hfront : st.front = db.shared.front ∨ st.front = windowEnd db.shared.front)
    (hreader : ReaderOk first t t.pc) (hchange : ReaderChange first db.shared (db.threads i) st t) :
    CountsReaders first exact (db.move i st t) := by
  have hfront' : db.shared.front ≤ st.front ∧ Aligned first st.front := by
    rcases hfront with heq | heq
    · rw [heq]
      exact ⟨le_rfl, h.aligned⟩
    · rw [heq]
      exact ⟨Nat.le_add_right _ _, h.aligned.windowEnd⟩
  obtain ⟨hfit, hcounted⟩ := h.counted_move hfits hpanics hfront'.1 hchange
  refine ⟨hfront'.2, fun j => ?_, hfit, hcounted⟩
  exact move_threads (P := fun u => ReaderOk first u u.pc) (h.readers j) fun _ => hreader

theorem CountsReaders.call {a : Action K V} (h : CountsReaders first exact db)
    (hempty : exact → ∀ operations, a = .commit i operations →
      ¬ (operations.isWritesEmpty && operations.locksEmpty) = true)
    (hcall : Call i (db.threads i) a t) : CountsReaders first exact (db.move i db.shared t) := by
  refine ⟨h.aligned, fun j => ?_, h.fits, fun w hw hle => ?_⟩
  · exact move_threads (P := fun u => ReaderOk first u u.pc) (h.readers j) fun _ => .call hcall
  · obtain ⟨n, hn, hle', hexact⟩ := h.counted w hw hle
    by_cases hkeeps : ∀ operations, a = .commit i operations →
        ¬ (operations.isWritesEmpty && operations.locksEmpty) = true
    · exact ⟨n, counted_keep hn (hcall.reads hkeeps), hle', hexact⟩
    · -- the snapshot is gone and still counted
      have hafter : ¬ t.Reads w := by
        cases hcall with
        | commitEmpty operations hpc hcall h => exact not_reads rfl
        | commit operations hpc hcall hwrites =>
          exact absurd (fun _ heq => by cases heq; exact hwrites) hkeeps
        | _ => exact absurd nofun hkeeps
      obtain ⟨m, hm, hcount⟩ := counted_drop db.shared hn hafter
      exact ⟨m, hcount, hm.trans hle', fun he => absurd (hempty he) hkeeps⟩

variable [DecidableEq V]

theorem front_of_step (hthread : (db.threads i).step db.shared = some (st, t)) :
    st.front = db.shared.front ∨ st.front = windowEnd db.shared.front := by
  rcases (step_effect hthread).front with heq | ⟨_, _, -, heq, -⟩
  · exact .inl heq
  · exact .inr heq

theorem Accounts.step {a : Action K V} (h : Accounts first exact db) (hfits : CountFits db a)
    (hreleases : exact → Releases db a) (hstep : db.step a = some db') :
    Accounts first exact db' := by
  have hplacements := h.placements.step hstep
  have hok := h.placements.ok
  cases step_cases hstep with
  | run i st t hthread =>
    have hpanics : exact → t.pc ≠ .panicked := fun he hpanic => by
      have hplaced := (h.placements.places i).step hok.shared (hok.own i) hthread
        h.placements.records
      exact (hreleases he).decided i rfl (hplaced.panic hpanic)
    obtain ⟨hreader, hchange⟩ := (h.readers i).step hok.shared.watermark_lt_back
      (hok.own i).opened_le h.aligned hthread
    exact ⟨h.move hfits hpanics (front_of_step hthread) hreader hchange, hplacements⟩
  | call i a t hcall =>
    exact ⟨h.call (fun he operations => (hreleases he).writes i operations) hcall, hplacements⟩
  | sync => exact ⟨{ h with }, hplacements⟩

end Database

end TypeDB.Storage
