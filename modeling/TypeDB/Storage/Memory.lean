import TypeDB.Storage.Removal
import TypeDB.Storage.Slots

/-! The build without a log. `NoopDurabilityClient` hands out numbers and keeps no record, so a
commit is validated only against what is still in a window, and the windows have to be kept for
it. -/

namespace TypeDB.Storage
open Runs Threads Counting Storage.Database Option Timeline CommitRecord Versions

variable {K V : Type*} [LinearOrder K]

/-- The durability client a storage is built with. -/
inductive Build
  | wal
  | memory
  deriving DecidableEq

/-- Over `NoopDurabilityClient` a record that is written is forgotten, and no sync is waited
for. -/
def Transaction.stepMemory [DecidableEq V] (st : MVCCStorage K V) (t : Transaction K V) :
    Option (MVCCStorage K V × Transaction K V) :=
  (t.step st).map fun (st', t') => ({ st' with log := [] }, { t' with logged := 0 })

namespace Database

def stepMemory [DecidableEq V] (db : Database K V) : Action K V → Option (Database K V)
  | .run i => ((db.threads i).stepMemory db.shared).map fun (st, t) => db.move i st t
  | a => db.step a

/-- The storage after `import_snapshot`. A fresh one has the watermark 0 and empty keyspaces. -/
def importSnapshot (watermark : Nat) (keyspaces : KeyspaceId → Keyspace K V) : Database K V :=
  ⟨{ MVCCStorage.create watermark with keyspaces := keyspaces }, fun _ => .new⟩

def stepOf [DecidableEq V] (build : Build) : Database K V → Action K V → Option (Database K V) :=
  match build with
  | .wal => step
  | .memory => stepMemory

/-- A step over either client, with whatever it leaves in the log. -/
inductive StepOf [DecidableEq V] (db : Database K V) : Action K V → Database K V → Prop
  | run (i : Nat) (st : MVCCStorage K V) (t : Transaction K V) (log : Log K V) (logged : Nat)
      (h : (db.threads i).step db.shared = some (st, t)) :
      StepOf db (.run i) (db.move i { st with log := log } { t with logged := logged })
  | call (i : Nat) (a : Action K V) (t : Transaction K V) (h : Call i (db.threads i) a t) :
      StepOf db a (db.move i db.shared t)
  | sync : StepOf db .sync { db with shared := db.shared.sync }

theorem stepMemory_cases [DecidableEq V] {db db' : Database K V} {a : Action K V}
    (h : db.stepMemory a = some db') : db.StepOf a db' := by
  have hother : ∀ a, db.step a = some db' → (∀ i, a ≠ .run i) → db.StepOf a db' := by
    intro a hstep hrun
    cases step_cases hstep with
    | run i st t hthread => exact absurd rfl (hrun i)
    | call i a t hcall => exact .call i a t hcall
    | sync => exact .sync
  cases a with
  | run i =>
    obtain ⟨⟨st, t⟩, hthread, rfl⟩ := map_eq_some_iff.mp h
    obtain ⟨⟨st', t'⟩, hthread', heq⟩ := map_eq_some_iff.mp hthread
    cases heq
    exact .run i st' t' [] 0 hthread'
  | «open» i call | commit i operations | close i | sync => exact hother _ h nofun

theorem stepOf_cases [DecidableEq V] {build : Build} {db db' : Database K V} {a : Action K V}
    (h : db.stepOf build a = some db') : db.StepOf a db' := by
  cases build with
  | wal =>
    cases step_cases h with
    | run i st t hthread => exact .run i st t st.log t.logged hthread
    | call i a t hcall => exact .call i a t hcall
    | sync => exact .sync
  | memory => exact stepMemory_cases h

end Database

section Relog
variable {first : Nat} {pinned : Prop} {st st' : MVCCStorage K V} {t t' : Transaction K V}

theorem SlotsOk.relog (h : SlotsOk first st) (log : Log K V) :
    SlotsOk first { st with log := log } := { h with }

theorem Retains.relog {own : Option Nat} (h : Retains own st st') (log : Log K V) :
    Retains own st { st' with log := log } := { h with }

theorem HeldOk.relog (h : HeldOk first pinned st t) (log : Log K V) (logged : Nat) :
    HeldOk first pinned { st with log := log } { t with logged := logged } := by
  have hretains : Retains none st { st with log := log } := (Retains.refl none st).relog log
  exact ⟨h.stage.retained hretains fun _ => nofun, h.pc.retained hretains fun _ => nofun, h.opened⟩

theorem Numbered.relog (h : Numbered first st t) (log : Log K V) (logged : Nat) :
    Numbered first { st with log := log } { t with logged := logged } := ⟨h.started, h.announced⟩

theorem ReaderChange.relog (h : ReaderChange first st t st' t') (log : Log K V) (logged : Nat) :
    ReaderChange first st t { st' with log := log } { t' with logged := logged } := by
  have hreads : ∀ w, ({ t' with logged := logged } : Transaction K V).Reads w ↔ t'.Reads w :=
    fun w => ⟨fun h => ⟨h.registers, h.holds, h.inside⟩, fun h => ⟨h.registers, h.holds, h.inside⟩⟩
  cases h with
  | keeps hreaders h => exact .keeps hreaders fun w hw hle => (hreads w).trans (h w hw hle)
  | registers window hpc hreaders hbefore hafter =>
    exact .registers window hpc hreaders hbefore fun w hw => (hreads w).trans (hafter w hw)
  | releases window hreaders hbefore hafter =>
    exact .releases window hreaders hbefore fun w => (hreads w).not.mpr (hafter w)
  | lost hreaders hafter hpanic =>
    exact .lost hreaders (fun w => (hreads w).not.mpr (hafter w)) hpanic

end Relog

namespace Database
variable {first : Nat} {pinned : Prop} {db db' : Database K V} {t : Transaction K V}

structure Tracks (first : Nat) (pinned : Prop) (st : MVCCStorage K V) (t : Transaction K V) :
    Prop where
  held : HeldOk first pinned st t
  numbered : Numbered first st t

/-- What either build keeps of the slots. -/
def Tracked (first : Nat) (pinned : Prop) (db : Database K V) : Prop :=
  Inv (SlotsOk first) (Tracks first pinned) SlotsApart db

theorem tracked_importSnapshot (watermark : Nat) (keyspaces : KeyspaceId → Keyspace K V) :
    Tracked watermark pinned (importSnapshot watermark keyspaces) := by
  have hslots : SlotsOk watermark (importSnapshot watermark keyspaces).shared := by
    refine ⟨Nat.lt_succ_self _, Nat.lt_succ_self _, fun n hn => absurd rfl hn, ?_, le_rfl, ?_⟩
    · change watermark < watermark + 1 + timelineWindowSize * 1
      omega
    · intro n hlow hhigh
      exact absurd hlow (not_lt.mpr hhigh)
  exact ⟨hslots, fun _ => ⟨⟨trivial, trivial, nofun⟩, nofun, nofun⟩, fun _ _ _ => nofun⟩

theorem Tracked.call {i : Nat} {a : Action K V} (h : Tracked first pinned db)
    (hcall : Call i (db.threads i) a t) : Tracked first pinned (db.move i db.shared t) := by
  have hslot : t.slot = none := by cases hcall <;> rfl
  have hheld : HeldOk first pinned db.shared t := by
    have hopen := (h.own i).held.opened
    cases hcall with
    | opening call target htarget hpc =>
      exact ⟨trivial, fun n hn => (htarget n hn).le, nofun⟩
    | commit operations hpc _ _ | commitEmpty operations hpc _ _ | close hpc _ | closeRead hpc _ =>
      exact ⟨trivial, trivial, fun _ => hopen (by rw [hpc]; rfl)⟩
  have hnumbered : Numbered first db.shared t := by
    refine ⟨fun n hn => ?_, fun ha => ?_⟩
    · rw [hslot] at hn
      cases hn
    · cases hcall <;> cases ha
  refine Inv.move h (fun t u hapart n hu ht => hapart n ht hu) h.shared ⟨hheld, hnumbered⟩
    fun u hu _ => ⟨hu, fun n hn => ?_⟩
  rw [hslot] at hn
  cases hn

theorem Tracked.sync (h : Tracked first pinned db) :
    Tracked first pinned { db with shared := db.shared.sync } := by
  have hretains : Retains none db.shared db.shared.sync := { Retains.refl none db.shared with }
  have hslots := h.shared
  refine ⟨{ hslots with }, fun i => ?_, h.pair⟩
  exact ⟨(h.own i).held.retained hretains fun _ _ => nofun, (h.own i).numbered.started,
    (h.own i).numbered.announced⟩

theorem Tracked.run [DecidableEq V] {i : Nat} {st : MVCCStorage K V} (h : Tracked first pinned db)
    (hcollect : pinned → (db.threads i).pc = .collect →
      db.shared.front ≤ (db.threads i).openSequenceNumber + 1)
    (hthread : (db.threads i).step db.shared = some (st, t)) (log : Log K V) (logged : Nat) :
    Tracked first pinned (db.move i { st with log := log } { t with logged := logged }) := by
  obtain ⟨hheld, hnumbered⟩ := h.own i
  have heffect := step_effect hthread
  have hretains := (hheld.retains heffect).relog log
  refine Inv.move h (fun t u hapart n hu ht => hapart n ht hu)
    ((h.shared.step hheld heffect).relog log)
    ⟨(hheld.step h.shared hcollect hthread).relog log logged,
      (hnumbered.step h.shared hthread).relog log logged⟩ fun u hu hapart => ⟨⟨?_, ?_⟩, ?_⟩
  · exact hu.held.retained hretains fun n hn hn' => hapart n hn' hn
  · exact ⟨hu.numbered.started, fun ha => (hu.numbered.announced ha).trans heffect.highest_le⟩
  · intro n hn hn'
    change t.slot = some n at hn
    rcases step_slot hthread with heq | heq | heq
    · rw [heq] at hn
      cases hn
    · exact hapart n (heq ▸ hn) hn'
    · -- the number was not handed out before
      obtain rfl := some.inj (heq.symm.trans hn)
      exact lt_irrefl _ (hu.held.slot_lt hn')

/-- Windows are pinned for the snapshots that are still to be validated: a window that is popped
has no number after the opening of one that no count stands for, because it has not counted itself
yet or was opened before the first window. Nor is a snapshot opened where its windows are gone. -/
structure PinsReaders (db : Database K V) (a : Action K V) : Prop where
  fits : db.CountFits a
  late : NoLateReader db a
  opens : ∀ i target n, a = .run i → (db.threads i).pc = .waiting target →
    (db.threads i).call = .writeAt n → db.shared.front ≤ n + 1
  pops : ∀ i watermark after, a = .run i →
    (db.threads i).pc = .freePop db.shared.front watermark after → ∀ j,
      (db.threads j).call.registers = true → (db.threads j).pc.unvalidated = true →
      (db.threads j).pc.holds = false ∨ (db.threads j).openSequenceNumber < db.shared.front →
      windowEnd db.shared.front ≤ (db.threads j).openSequenceNumber + 1

structure Isolated (first : Nat) (db : Database K V) : Prop where
  inv : Tracked first True db
  counts : db.CountsReaders first False
  pops : PopsFree db
  early : ∀ i, (db.threads i).call.registers = true → (db.threads i).pc.unvalidated = true →
    db.shared.front ≤ (db.threads i).openSequenceNumber + 1

theorem isolated_importSnapshot (watermark : Nat) (keyspaces : KeyspaceId → Keyspace K V) :
    Isolated watermark (importSnapshot watermark keyspaces) := by
  have hcounts := countsReaders_create (K := K) (V := V) watermark False
  exact ⟨tracked_importSnapshot watermark keyspaces, ⟨hcounts.aligned, hcounts.readers,
    hcounts.fits, hcounts.counted⟩, nofun, fun _ _ => nofun⟩

theorem Isolated.call {i : Nat} {a : Action K V} (h : Isolated first db)
    (hcall : Call i (db.threads i) a t) : Isolated first (db.move i db.shared t) := by
  refine ⟨h.inv.call hcall, h.counts.call False.elim hcall, h.pops.call hcall, fun j => ?_⟩
  · refine move_threads (P := fun u => u.call.registers = true → u.pc.unvalidated = true →
      db.shared.front ≤ u.openSequenceNumber + 1) (h.early j) fun _ hregisters hpc => ?_
    cases hcall with
    | commit operations hpc' _ _ => exact h.early i hregisters (by rw [hpc']; rfl)
    | _ => cases hpc

variable [DecidableEq V] {st : MVCCStorage K V}

theorem Isolated.front_le {i j : Nat} (h : Isolated first db) (hpins : PinsReaders db (.run i))
    (hthread : (db.threads i).step db.shared = some (st, t))
    (hcall : (db.threads j).call.registers = true) (hpc : (db.threads j).pc.unvalidated = true) :
    st.front ≤ (db.threads j).openSequenceNumber + 1 := by
  rcases (step_effect hthread).front with heq | ⟨wm, a, hpop, heq, -⟩
  · rw [heq]
    exact h.early j hcall hpc
  · rw [heq]
    by_contra hlt
    rw [not_le] at hlt
    have hcounted : (db.threads j).pc.holds = true ∧
        db.shared.front ≤ (db.threads j).openSequenceNumber := by
      constructor
      · by_contra hholds
        have := hpins.pops i wm a rfl hpop j hcall hpc (.inl (by simpa using hholds))
        omega
      · by_contra hfront
        have := hpins.pops i wm a rfl hpop j hcall hpc (.inr (not_le.mp hfront))
        omega
    have hreads : (db.threads j).Reads db.shared.front :=
      ⟨hcall, hcounted.1, hcounted.2, Nat.lt_of_succ_lt hlt⟩
    obtain ⟨n, hn, hle, -⟩ := h.counts.counted _ h.counts.aligned le_rfl
    have hpos := hn.pos hreads
    have hzero := (h.pops i _ wm a hpop).2 rfl
    omega

theorem Isolated.early_step {i : Nat} (h : Isolated first db) (hpins : PinsReaders db (.run i))
    (hthread : (db.threads i).step db.shared = some (st, t)) (hcall : t.call.registers = true)
    (hpc : t.pc.unvalidated = true) : st.front ≤ t.openSequenceNumber + 1 := by
  rcases step_unvalidated hthread hpc with hold | ⟨target, hwait⟩
  · have hout : (db.threads i).pc.isOutside = false := by
      cases heq : (db.threads i).pc <;> first | rfl | simp [heq, Pc.unvalidated] at hold
    have hsame := step_snapshot hthread hout
    rw [hsame.opened]
    exact h.front_le hpins hthread (hsame.call ▸ hcall) hold
  · -- the number is taken now
    simp only [Transaction.step, hwait] at hthread
    split_ifs at hthread with hlt hregisters
    all_goals
      cases hthread
      change db.shared.front ≤ (db.threads i).call.fixed.getD db.shared.watermark + 1
      cases hfixed : (db.threads i).call with
      | writeAt n => exact hpins.opens i target n rfl hwait hfixed
      | read | write | schema => exact h.inv.shared.front_le
      | readAt n =>
        change (db.threads i).call.registers = true at hcall
        rw [hfixed] at hcall
        cases hcall

theorem Isolated.run {i : Nat} (h : Isolated first db) (hpins : PinsReaders db (.run i))
    (hthread : (db.threads i).step db.shared = some (st, t)) (log : Log K V) (logged : Nat) :
    Isolated first (db.move i { st with log := log } { t with logged := logged }) := by
  have hcollect : (db.threads i).pc = .collect →
      db.shared.front ≤ (db.threads i).openSequenceNumber + 1 := fun hpc => by
    have hreader := h.counts.readers i
    rw [hpc] at hreader
    exact h.early i hreader (by rw [hpc]; rfl)
  obtain ⟨hreader, hchange⟩ := (h.counts.readers i).step h.inv.shared.watermark_lt_back
    (fun hreads => (h.inv.own i).held.opened (by
      cases hpc : (db.threads i).pc <;> first | rfl | simp [hpc, Pc.reads] at hreads))
    h.counts.aligned hthread
  have hfront := front_of_step hthread
  have hpop : ∀ w watermark after, t.pc = .freePop w watermark after →
      w = st.front ∧ st.readers w = 0 := fun _ _ _ => step_freePop hthread
  have hearly : t.call.registers = true → t.pc.unvalidated = true →
      st.front ≤ t.openSequenceNumber + 1 := h.early_step hpins hthread
  refine ⟨h.inv.run (fun _ => hcollect) hthread log logged, ?_, ?_, ?_⟩
  · exact h.counts.move hpins.fits False.elim hfront hreader (hchange.relog log logged)
  · refine h.pops.move h.counts hpins.late ?_ (hchange.relog log logged) hpop
    rcases hfront with heq | heq
    · exact heq.ge
    · exact heq ▸ Nat.le_add_right _ _
  · intro j
    exact move_threads (P := fun u => u.call.registers = true → u.pc.unvalidated = true →
      st.front ≤ u.openSequenceNumber + 1) (h.front_le hpins hthread) fun _ => hearly

theorem Isolated.step {a : Action K V} (h : Isolated first db) (hpins : PinsReaders db a)
    (hstep : db.stepMemory a = some db') : Isolated first db' := by
  cases stepMemory_cases hstep with
  | run i st t log logged hthread => exact h.run hpins hthread log logged
  | call i a t hcall => exact h.call hcall
  | sync =>
    exact ⟨h.inv.sync, ⟨h.counts.aligned, h.counts.readers, h.counts.fits, h.counts.counted⟩,
      h.pops, h.early⟩

end Database

section Memory
variable [DecidableEq V] {watermark : Nat} {keyspaces : KeyspaceId → Keyspace K V}
  {db : Database K V}

/-- In every run in which windows are pinned for the snapshots that need them, whatever was
imported, of two commits that returned the later one does not conflict with an earlier one it did
not see, and whatever a commit has to be validated against is in a window. -/
theorem memory_not_conflicts (hr : Reach stepMemory PinsReaders
      (importSnapshot watermark keyspaces) db) :
    (∀ i j, (db.threads i).pc = .committed → (db.threads j).pc = .committed →
      (db.threads j).openSequenceNumber < (db.threads i).commitSequenceNumber →
      (db.threads i).commitSequenceNumber < (db.threads j).commitSequenceNumber →
      ¬ Conflicts (db.threads j).commitRecord (db.threads i).commitRecord) ∧
    ∀ j, (db.threads j).pc = .collect → ∀ n, (db.threads j).openSequenceNumber < n →
      n < (db.threads j).commitSequenceNumber → ∃ w ∈ db.shared.windows, InWindow w n := by
  have h : db.Isolated watermark := hr.invariant
    (isolated_importSnapshot watermark keyspaces)
    fun _ _ _ h hpins hstep => h.step hpins hstep
  constructor
  · intro i j hi hj hopen hlt
    have hsi := (h.inv.own i).held.stage
    have hsj := (h.inv.own j).held.stage
    rw [hi] at hsi
    rw [hj] at hsj
    obtain ⟨r, hr, halike⟩ := hsi.1.record
    rcases (hsj.2 trivial _ hopen hlt).2 with haborted | hclear
    · have hslot := hsi.1.slot
      rw [haborted] at hslot
      cases hslot
    · exact fun hconflict => hclear r hr ((Alike.refl _).conflicts halike hconflict)
  · intro j hpc n hlow hhigh
    have hreader := h.counts.readers j
    have hback := (h.inv.own j).held.pc
    rw [hpc] at hreader hback
    have hfront := h.early j hreader (by rw [hpc]; rfl)
    obtain ⟨w, hw⟩ : ∃ w, db.shared.tryGetWindow n = some w :=
      tryGetWindow_isSome (by omega) (hhigh.trans hback)
    obtain ⟨index, hindex, rfl⟩ := map_eq_some_iff.mp hw
    exact ⟨_, mem_windows.mpr ⟨index, resolveWindow_le hindex, rfl⟩,
      (tryGetWindow_eq_some hw).1⟩

end Memory

namespace Database

def playMemory [DecidableEq V] (check : MVCCStorage K V → Transaction K V → Bool)
    (rests : Transaction K V → Bool) :
    Play (MVCCStorage K V) (Transaction K V) (Action K V) :=
  ⟨Transaction.stepMemory, stepMemory, .run, Action.isCallOf, check, rests⟩

theorem playMemory_keeps [DecidableEq V] {check : MVCCStorage K V → Transaction K V → Bool}
    {rests : Transaction K V → Bool} {ok : Database K V → Action K V → Prop}
    (hcall : ∀ a db, (∀ i, a ≠ .run i) → ok db a)
    (hrun : ∀ i db, (∀ j ≠ i, rests (db.threads j) = true) →
      check db.shared (db.threads i) = true → ok db (.run i)) :
    (playMemory check rests).Keeps ok where
  step_run _ _ := rfl
  others i a db db' ha hstep j hj := by
    have hsame : stepMemory db a = Database.step db a := by
      cases a <;> first | rfl | cases ha
    exact step_threads (hsame.symm.trans hstep) (Action.thread_ne ha hj)
  ok_call _ a db ha := hcall a db (Action.ne_run ha)
  ok_run := hrun

end Database

section Pinned

/-- Nothing that needs a window is on its way. -/
def Transaction.isThrough (t : Transaction K V) : Bool := !t.pc.isPop && !t.pc.unvalidated

def readsInOrder (st : MVCCStorage K V) (t : Transaction K V) : Bool :=
  match t.pc, t.call with
  | .incrementReaders w, _ => st.readers w + 1 < 2 ^ 64
  | .waiting _, .writeAt _ => false
  | _, _ => true

theorem pinsReaders_of_check {db : Database K V} {i : Nat}
    (hcheck : readsInOrder db.shared (db.threads i) = true)
    (hrests : ∀ j ≠ i, (db.threads j).pc.isPop = false)
    (hpop : (db.threads i).pc.isPop = true → ∀ j, (db.threads j).pc.unvalidated = false) :
    PinsReaders db (.run i) := by
  refine ⟨?_, ?_, ?_, ?_⟩
  · rintro j w ⟨⟩ hpc
    simpa [readsInOrder, hpc] using hcheck
  · rintro j w ⟨⟩ hpc k watermark after hfree
    rcases eq_or_ne k i with rfl | hk
    · simp [hpc] at hfree
    · simpa [hfree, Pc.isPop] using hrests k hk
  · rintro j target n ⟨⟩ hpc hcall
    simp [readsInOrder, hpc, hcall] at hcheck
  · rintro j watermark after ⟨⟩ hpc k - hk
    simp [hpop (by simp [hpc, Pc.isPop]) k] at hk

theorem pinsReaders_call {db : Database K V} {a : Action K V} (ha : ∀ i, a ≠ .run i) :
    PinsReaders db a :=
  ⟨fun i _ hrun => absurd hrun (ha i), fun i _ hrun => absurd hrun (ha i),
    fun i _ _ hrun => absurd hrun (ha i), fun i _ _ hrun => absurd hrun (ha i)⟩

variable [DecidableEq V]

theorem isThrough_keeps : (playMemory readsInOrder Transaction.isThrough : Play _ _ _).Keeps
    (PinsReaders (K := K) (V := V)) := by
  refine playMemory_keeps (fun a db ha => pinsReaders_call ha) fun i db hrests hcheck =>
    pinsReaders_of_check hcheck (fun j hj => ?_) fun hpop j => ?_
  · simpa using (Bool.and_eq_true_iff.mp (hrests j hj)).1
  · rcases eq_or_ne j i with rfl | hj
    · cases hpc : (db.threads j).pc <;> first | rfl | simp [hpc, Pc.isPop] at hpop
    · simpa using (Bool.and_eq_true_iff.mp (hrests j hj)).2

theorem notPop_keeps : (playMemory (fun st t => readsInOrder st t && !t.pc.isPop)
    fun t => !t.pc.isPop).Keeps (PinsReaders (K := K) (V := V)) := by
  refine playMemory_keeps (fun a db ha => pinsReaders_call ha) fun i db hrests hcheck => ?_
  obtain ⟨hcheck, hpop⟩ := Bool.and_eq_true_iff.mp hcheck
  refine pinsReaders_of_check hcheck (fun j hj => by simpa using hrests j hj) fun hself => ?_
  simp [hself] at hpop

/-- Rounds that may pop a window while nothing needs one, and then rounds that pop none. -/
def playPinned (first second : List (Nat × List (Act (Action K V)))) (db : Database K V) :
    Database K V :=
  (playMemory (fun st t => readsInOrder st t && !t.pc.isPop) fun t => !t.pc.isPop).rounds
    ((playMemory readsInOrder Transaction.isThrough).rounds db first) second

theorem playPinned_reach {first second : List (Nat × List (Act (Action K V)))} {db : Database K V}
    (h : ∀ i, (db.threads i).isThrough = true) :
    Reach stepMemory PinsReaders db (playPinned first second db) := by
  obtain ⟨hreach, hthrough⟩ := isThrough_keeps.rounds h first
  exact hreach.trans
    (notPop_keeps.rounds (fun i => (Bool.and_eq_true_iff.mp (hthrough i)).1) second).1

end Pinned

def memoryRound (operations : OperationsBuffer Nat Nat) (i : Nat) :
    Nat × List (Act (Action Nat Nat)) :=
  (i, [.call (.open i .write), .drive 3, .call (.commit i operations), .drive 80])

/-- A hundred and one commits, of which the last pops the first window. -/
def fillWindow : List (Nat × List (Act (Action Nat Nat))) :=
  (List.range 101).map (memoryRound (lockOnly 1))

/-- Two snapshots are opened side by side and commit with locks of their own. -/
def sideBySide : List (Nat × List (Act (Action Nat Nat))) :=
  [(201, [.call (.open 201 .write), .drive 3]), memoryRound (lockOnly 0) 200,
    (201, [.call (.commit 201 (lockOnly 1)), .drive 80])]

def memoryPuts : Database Nat Nat :=
  playPinned fillWindow sideBySide (.importSnapshot 0 fun _ _ _ => none)

theorem memoryPuts_reach :
    Reach stepMemory PinsReaders (importSnapshot 0 fun _ _ _ => none) memoryPuts :=
  playPinned_reach fun _ => rfl

theorem memoryPuts_not_conflicts : 1 ∉ memoryPuts.shared.windows ∧
    (memoryPuts.threads 200).pc = .committed ∧ (memoryPuts.threads 201).pc = .committed ∧
      ¬ Conflicts (memoryPuts.threads 201).commitRecord (memoryPuts.threads 200).commitRecord := by
  have hcheck : decide (1 ∉ memoryPuts.shared.windows ∧
      (memoryPuts.threads 200).pc.isCommitted = true ∧
      (memoryPuts.threads 201).pc.isCommitted = true ∧
      (memoryPuts.threads 201).openSequenceNumber < (memoryPuts.threads 200).commitSequenceNumber ∧
      (memoryPuts.threads 200).commitSequenceNumber <
        (memoryPuts.threads 201).commitSequenceNumber) = true := by
    decide +kernel
  obtain ⟨hwindows, h₀, h₁, hopen, hlt⟩ := of_decide_eq_true hcheck
  exact ⟨hwindows, Pc.eq_committed h₀, Pc.eq_committed h₁,
    (memory_not_conflicts memoryPuts_reach).1 200 201 (Pc.eq_committed h₀) (Pc.eq_committed h₁)
      hopen hlt⟩

/-- On a fresh storage snapshot 200 is opened first, at a number of no window. The next hundred
commits fill the first window, the one after them pops it, and then the snapshot commits with the
lock that the first of them took. -/
def unpinnedRounds : List (Nat × List (Act (Action Nat Nat))) :=
  [(200, [.call (.open 200 .write), .drive 3]), memoryRound (lockOnly 0) 0] ++
    (List.range' 1 100).map (memoryRound (lockOnly 1)) ++
    [(200, [.call (.commit 200 (lockOnly 0)), .drive 80])]

def unpinned : Database Nat Nat :=
  (playMemory (fun _ _ => true) fun _ => true).rounds (importSnapshot 0 fun _ _ _ => none)
    unpinnedRounds

theorem unpinned_reaches : Reaches stepMemory
    (.importSnapshot 0 fun _ _ _ => none) unpinned :=
  (Play.Keeps.rounds (playMemory_keeps (fun _ _ _ => trivial) fun _ _ _ _ => trivial)
    (fun _ => rfl) unpinnedRounds).1

def CommitRecord.locksExclusive (record : CommitRecord Nat Nat) (k : Nat) : Bool :=
  match record.operations.locks.get? k with
  | some .exclusive => true
  | _ => false

theorem CommitRecord.locksExclusive_eq {record : CommitRecord Nat Nat} {k : Nat}
    (h : record.locksExclusive k = true) : record.operations.locks.get? k = some .exclusive := by
  rw [locksExclusive] at h
  split at h
  · assumption
  · cases h

/-- Both commits return, the second was opened before the first, and both hold the lock. -/
theorem unpinned_conflicts : Reaches stepMemory
      (.importSnapshot 0 fun _ _ _ => none) unpinned ∧
    (unpinned.threads 0).pc = .committed ∧ (unpinned.threads 200).pc = .committed ∧
    (unpinned.threads 200).openSequenceNumber < (unpinned.threads 0).commitSequenceNumber ∧
    (unpinned.threads 0).commitSequenceNumber < (unpinned.threads 200).commitSequenceNumber ∧
    Conflicts (unpinned.threads 200).commitRecord (unpinned.threads 0).commitRecord := by
  have hcheck : decide ((unpinned.threads 0).pc.isCommitted = true ∧
      (unpinned.threads 200).pc.isCommitted = true ∧
      (unpinned.threads 200).openSequenceNumber < (unpinned.threads 0).commitSequenceNumber ∧
      (unpinned.threads 0).commitSequenceNumber < (unpinned.threads 200).commitSequenceNumber ∧
      (unpinned.threads 200).commitRecord.locksExclusive 0 = true ∧
      (unpinned.threads 0).commitRecord.locksExclusive 0 = true) = true := by
    decide +kernel
  obtain ⟨h₀, h₂₀₀, hopen, hlt, hlock, hlock'⟩ := of_decide_eq_true hcheck
  exact ⟨unpinned_reaches, Pc.eq_committed h₀, Pc.eq_committed h₂₀₀, hopen, hlt,
    .bothExclusive 0 (locksExclusive_eq hlock) (locksExclusive_eq hlock')⟩

/-- Key 5 has been imported at number 1. Snapshot 200 is opened there; the first commit after it
deletes the key, a hundred more pop the window of the delete, and then the snapshot puts the key
with the value it has seen. -/
def importedKey : Database Nat Nat :=
  .importSnapshot 1 fun i k n => if i = 0 ∧ k = 5 ∧ n = 1 then some (.insert 1) else none

def deleteForgottenRounds : List (Nat × List (Act (Action Nat Nat))) :=
  [(200, [.call (.open 200 .write), .drive 3]),
    memoryRound (OperationsBuffer.new.write 0 5 .delete) 0] ++
    (List.range' 1 100).map (memoryRound (lockOnly 1)) ++
    [(200, [.call (.commit 200 (OperationsBuffer.new.write 0 5 (.put 1 false))), .drive 80])]

def deleteForgotten : Database Nat Nat :=
  (playMemory (fun _ _ => true) fun _ => true).rounds importedKey deleteForgottenRounds

theorem deleteForgotten_reaches : Reaches stepMemory importedKey deleteForgotten :=
  (Play.Keeps.rounds (playMemory_keeps (fun _ _ _ => trivial) fun _ _ _ _ => trivial)
    (fun _ => rfl) deleteForgottenRounds).1

/-- The put returns, the watermark has passed it, and the key is still deleted. -/
theorem deleteForgotten_hidden : Reaches stepMemory importedKey deleteForgotten ∧
    (deleteForgotten.threads 200).pc = .committed ∧
    ((deleteForgotten.threads 200).operations.writes 0).get? 5 = some (.put 1 false) ∧
    (deleteForgotten.threads 200).commitSequenceNumber ≤ deleteForgotten.shared.watermark ∧
    newest (deleteForgotten.shared.keyspaces 0 5)
      (deleteForgotten.threads 200).commitSequenceNumber = some .delete := by
  have hcheck : decide ((deleteForgotten.threads 200).pc.isCommitted = true ∧
      ((deleteForgotten.threads 200).operations.writes 0).get? 5 = some (.put 1 false) ∧
      (deleteForgotten.threads 200).commitSequenceNumber ≤ deleteForgotten.shared.watermark ∧
      newest (deleteForgotten.shared.keyspaces 0 5)
        (deleteForgotten.threads 200).commitSequenceNumber = some .delete) = true := by
    decide +kernel
  obtain ⟨hcommitted, hrest⟩ := of_decide_eq_true hcheck
  exact ⟨deleteForgotten_reaches, Pc.eq_committed hcommitted, hrest⟩

end TypeDB.Storage
