import TypeDB.Storage.ThreadSteps

/-! The invariant over whole runs: every state reached from a new storage is as it should be, and
what is done stays as it is. -/

namespace TypeDB.Storage
open Option Runs Threads Storage.Database

variable {K V : Type*} [LinearOrder K]

structure Evolves (st st' : MVCCStorage K V) : Prop where
  commits : ∀ n < st.nextSequenceNumber, st'.log.commitAt n = st.log.commitAt n
  extends_log : ∃ extra, st'.log = st.log ++ extra
  next_le : st.nextSequenceNumber ≤ st'.nextSequenceNumber
  done : ∀ n, st.Done n → st'.slotStatus n = st.slotStatus n ∧
    ∀ i k, st'.keyspaces i k n = st.keyspaces i k n
  watermark_le : st.watermark ≤ st'.watermark
  highest_le : st.highestValidatedSequenceNumber ≤ st'.highestValidatedSequenceNumber
  synced_le : st.synced ≤ st'.synced

section Evolves
variable {st st' st'' : MVCCStorage K V}

theorem Evolves.refl (st : MVCCStorage K V) : Evolves st st :=
  ⟨fun _ _ => rfl, ⟨[], by simp⟩, le_rfl, fun _ _ => ⟨rfl, fun _ _ => rfl⟩, le_rfl, le_rfl, le_rfl⟩

theorem Spares.evolves {own : Option Nat} (h : Spares own st st') : Evolves st st' :=
  ⟨h.commits, h.extends_log, h.next_le, h.done, h.watermark_le, h.highest_le, h.synced_le⟩

theorem Evolves.trans (h : Evolves st st') (h' : Evolves st' st'') : Evolves st st'' where
  commits n hn := (h'.commits n (hn.trans_le h.next_le)).trans (h.commits n hn)
  extends_log := by
    obtain ⟨l, hl⟩ := h.extends_log
    obtain ⟨l', hl'⟩ := h'.extends_log
    exact ⟨l ++ l', by rw [hl', hl, List.append_assoc]⟩
  next_le := h.next_le.trans h'.next_le
  done n hn := by
    obtain ⟨hs, hk⟩ := h.done n hn
    have hn' : st'.Done n := by
      rw [MVCCStorage.Done, hs]
      exact hn
    obtain ⟨hs', hk'⟩ := h'.done n hn'
    exact ⟨hs'.trans hs, fun i k => (hk' i k).trans (hk i k)⟩
  watermark_le := h.watermark_le.trans h'.watermark_le
  highest_le := h.highest_le.trans h'.highest_le
  synced_le := h.synced_le.trans h'.synced_le

end Evolves

section Frames
variable {st st' : MVCCStorage K V} {t t' : Transaction K V}

def Pc.isOutside : Pc K V → Bool
  | .idle | .waiting _ => true
  | _ => false

theorem After.isOutside_pc (a : After) : (a.pc : Pc K V).isOutside = false := by
  cases a <;> rfl

theorem Pc.isOutside_of_owns {pc : Pc K V} (h : pc.stage.owns = true) : pc.isOutside = false := by
  cases pc <;> first | rfl | cases h

theorem handle_frame {n : Nat} {dependency : CommitDependency K}
    (h : t.handle st n dependency = (st', t')) :
    t.Same t' ∧ t'.pc.stage.owns = true ∧ st'.nextSequenceNumber = st.nextSequenceNumber := by
  unfold Transaction.handle at h
  split at h
  · cases h
    exact ⟨.goto t _, rfl, rfl⟩
  · split at h
    · cases h
      exact ⟨.goto t _, rfl, rfl⟩
    · cases h
      exact ⟨.advance t n, rfl, rfl⟩

theorem step_next [DecidableEq V] (h : t.step st = some (st', t')) (hpc : t.pc ≠ .sequencedWrite) :
    st'.nextSequenceNumber = st.nextSequenceNumber := by
  unfold Transaction.step at h
  dsimp only at h
  repeat' split at h
  all_goals first
    | contradiction
    | exact (handle_frame (some.inj h)).2.2
    | cases h
      rfl

structure Transaction.StaysOpen (t t' : Transaction K V) : Prop where
  call : t'.call = t.call
  opened : t'.openSequenceNumber = t.openSequenceNumber
  inside : t'.pc.isOutside = false

theorem step_snapshot [DecidableEq V] (h : t.step st = some (st', t'))
    (hpc : t.pc.isOutside = false) : t.StaysOpen t' := by
  unfold Transaction.step at h
  dsimp only at h
  repeat' split at h
  all_goals first
    | contradiction
    | obtain ⟨hsame, hstage, -⟩ := handle_frame (some.inj h)
      exact ⟨hsame.call, hsame.opened, Pc.isOutside_of_owns hstage⟩
    | cases h
      exact ⟨rfl, rfl, rfl⟩
    | cases h
      exact ⟨rfl, rfl, After.isOutside_pc _⟩
    | simp_all [Pc.isOutside]

end Frames

section Others
variable {first n : Nat} {st st' : MVCCStorage K V} {t t' u : Transaction K V}

theorem TransactionOk.own_lt (h : TransactionOk first st t) (hn : t.own = some n) :
    n < st.nextSequenceNumber := by
  rw [Transaction.own] at hn
  split_ifs at hn with howns
  cases hn
  have hs := h.stage
  cases hstage : t.pc.stage with
  | outside | reading => simp [hstage, Stage.owns] at howns
  | stuck =>
    rw [hstage] at hs
    exact hs.2
  | _ =>
    rw [hstage] at hs
    exact Committing.number hs

theorem StepOk.own_ne (h : StepOk first st t st' t') (hu : TransactionOk first st u)
    (hdist : Distinct t u) : ∀ n, u.own = some n → t'.own ≠ some n := by
  intro n hn hn'
  rcases h.own with hsame | ⟨-, hnew⟩
  · exact hdist n (hsame ▸ hn') hn
  · obtain rfl := some.inj (hnew.symm.trans hn')
    exact lt_irrefl _ (hu.own_lt hn)

theorem StepOk.others (h : StepOk first st t st' t') (hu : TransactionOk first st u)
    (hdist : Distinct t u) : TransactionOk first st' u ∧ Distinct t' u := by
  have hown := h.own_ne hu hdist
  exact ⟨hu.spared h.spares hown, fun n hn hn' => hown n hn' hn⟩

end Others

def Action.thread : Action K V → Option Nat
  | .open i _ => some i
  | .commit i _ => some i
  | .close i => some i
  | .run i => some i
  | .sync => none

/-- What users call; the shared state stays as it is. -/
inductive Call (i : Nat) (t : Transaction K V) : Action K V → Transaction K V → Prop
  | opening (call : OpenCall) (target : Nat) (htarget : ∀ n ∈ call.fixed, n = target)
      (hpc : t.pc = .idle) : Call i t (.open i call) { t with pc := .waiting target, call := call }
  | commit (operations : OperationsBuffer K V) (hpc : t.pc = .opened)
      (hcall : t.call.registers = true)
      (hwrites : ¬ (operations.isWritesEmpty && operations.locksEmpty) = true) :
      Call i t (.commit i operations)
        { t with pc := .initialPuts operations.puts, operations := operations }
  | commitEmpty (operations : OperationsBuffer K V) (hpc : t.pc = .opened)
      (hcall : t.call.registers = true)
      (hempty : (operations.isWritesEmpty && operations.locksEmpty) = true) :
      Call i t (.commit i operations) { t with pc := .closed, operations := operations }
  | close (hpc : t.pc = .opened) (hcall : t.call.registers = true) :
      Call i t (.close i) (t.goto (.removeReader .closed))
  | closeRead (hpc : t.pc = .opened) (hcall : t.call.registers = false) :
      Call i t (.close i) (t.goto .closed)

inductive Database.Step [DecidableEq V] (db : Database K V) : Action K V → Database K V → Prop
  | run (i : Nat) (st : MVCCStorage K V) (t : Transaction K V)
      (h : (db.threads i).step db.shared = some (st, t)) : Step db (.run i) (db.move i st t)
  | call (i : Nat) (a : Action K V) (t : Transaction K V) (h : Call i (db.threads i) a t) :
      Step db a (db.move i db.shared t)
  | sync : Step db .sync { db with shared := db.shared.sync }

theorem Database.step_cases [DecidableEq V] {db db' : Database K V} {a : Action K V}
    (h : db.step a = some db') : db.Step a db' := by
  cases a with
  | «open» i call =>
    simp only [step] at h
    split at h <;> cases h
    refine .call i _ _ (.opening call _ (fun n hn => ?_) (by assumption))
    rw [mem_def] at hn
    rw [hn, getD_some]
  | commit i operations =>
    simp only [step] at h
    split at h <;> cases h
    refine .call i _ _ ?_
    split_ifs with hempty
    · exact .commitEmpty operations (by assumption) (by assumption) hempty
    · exact .commit operations (by assumption) (by assumption) hempty
  | close i =>
    simp only [step] at h
    split at h <;> cases h
    refine .call i _ _ ?_
    split_ifs with hcall
    · exact .close (by assumption) hcall
    · exact .closeRead (by assumption) (by simpa using hcall)
  | run i =>
    obtain ⟨⟨st, t⟩, hthread, rfl⟩ := map_eq_some_iff.mp h
    exact .run i st t hthread
  | sync =>
    cases h
    exact .sync

section Calls
variable {first i : Nat} {st : MVCCStorage K V} {t t' : Transaction K V} {a : Action K V}

theorem Call.thread (h : Call i t a t') : a.thread = some i := by
  cases h <;> rfl

theorem Call.before (h : Call i t a t') : t.pc = .idle ∨ t.pc = .opened := by
  cases h with
  | opening call target htarget hpc => exact .inl hpc
  | _ => exact .inr (by assumption)

theorem Call.own (h : Call i t a t') : t.own = none ∧ t'.own = none := by
  constructor
  · rcases h.before with hpc | hpc <;> rw [Transaction.own, hpc] <;> rfl
  · cases h <;> rfl

theorem Call.ok (h : Call i t a t') (ht : TransactionOk first st t) : TransactionOk first st t' := by
  cases h with
  | opening call target htarget hpc => exact ⟨trivial, fun n hn => (htarget n hn).le⟩
  | _ =>
    have hpc : t.pc = .opened := by assumption
    have hs := (ht.at_pc hpc).1
    exact ⟨hs, trivial⟩

end Calls

namespace Database
variable {first previous : Nat} {db db' : Database K V}

def Ok (first : Nat) : Database K V → Prop :=
  Threads.Inv (StorageOk first) (TransactionOk first) Distinct

theorem distinct_symm (t u : Transaction K V) (h : Distinct t u) : Distinct u t :=
  fun n hu ht => h n ht hu

theorem ok_create (previous : Nat) : Ok previous (create previous : Database K V) := by
  refine ⟨?_, fun i => ⟨trivial, trivial⟩, fun i j _ n hn => by cases hn⟩
  refine ⟨.nil, le_rfl, Nat.lt_succ_self _, ?_, le_rfl, ?_, ?_, ?_, ?_, ?_, ?_, ?_, ?_, le_rfl⟩
  · simp [create, MVCCStorage.create, Timeline.new, Timeline.backEnd, timelineWindowSize]
    omega
  · exact fun n hn => absurd rfl hn
  · exact fun n hn => absurd rfl hn
  · rintro n r (h | h) <;> cases h
  · rintro n h
    cases h
  · intro n h₁ h₂
    exact absurd h₁ (not_lt.mpr h₂)
  · rintro i k n v h
    cases h
  · rintro n h
    cases h
  · rintro n b h
    cases h

theorem Ok.move {i : Nat} {st : MVCCStorage K V} {t : Transaction K V} (h : Ok first db)
    (hstep : StepOk first db.shared (db.threads i) st t) : Ok first (db.move i st t) :=
  Inv.move h distinct_symm hstep.storage hstep.transaction fun _ hu hdist => hstep.others hu hdist

variable [DecidableEq V] {a : Action K V}

theorem Ok.step (h : Ok first db) (hstep : db.step a = some db') :
    Ok first db' ∧ Evolves db.shared db'.shared := by
  cases step_cases hstep with
  | run i st t hthread =>
    have hok := step_ok h.shared (h.own i) (st, t) hthread
    exact ⟨h.move hok, hok.spares.evolves⟩
  | call i a t hcall =>
    refine ⟨h.move ⟨h.shared, hcall.ok (h.own i), .refl _ _, .inl ?_⟩, .refl _⟩
    exact hcall.own.2.trans hcall.own.1.symm
  | sync =>
    have hsync := fun own => h.shared.sync own
    refine ⟨⟨(hsync none).1, fun i => ?_, h.pair⟩, (hsync none).2.evolves⟩
    exact (h.own i).spared (hsync none).2 (by simp)

omit [DecidableEq V] in
theorem move_threads {P : Transaction K V → Prop} {i s : Nat} {st : MVCCStorage K V}
    {t : Transaction K V} (hs : P (db.threads s)) (ht : i = s → P t) :
    P ((db.move i st t).threads s) := by
  by_cases h : s = i
  · subst h
    rw [System.move_self]
    exact ht rfl
  · rw [System.move_of_ne db h]
    exact hs

theorem step_threads {s : Nat} (hstep : db.step a = some db') (ha : a.thread ≠ some s) :
    db'.threads s = db.threads s := by
  cases step_cases hstep with
  | run i st t hthread => exact System.move_of_ne db (fun h => ha (congrArg some h.symm)) st t
  | call i a t hcall =>
    exact System.move_of_ne db (fun h => ha (hcall.thread.trans (congrArg some h.symm))) _ t
  | sync => rfl

theorem run_threads {as : List (Action K V)} {s : Nat} (h : run step db as = some db')
    (has : ∀ a ∈ as, a.thread ≠ some s) : db'.threads s = db.threads s := by
  induction as generalizing db with
  | nil =>
    cases h
    rfl
  | cons a as ih =>
    obtain ⟨t, ht, hrest⟩ := bind_eq_some_iff.mp h
    rw [ih hrest fun b hb => has b (List.mem_cons_of_mem _ hb),
      step_threads ht (has a List.mem_cons_self)]

theorem Ok.reaches (h : Ok first db) (hr : Reaches Database.step db db') :
    Ok first db' ∧ Evolves db.shared db'.shared := by
  refine Reach.invariant (P := fun s => Ok first s ∧ Evolves db.shared s.shared) hr
    ⟨h, .refl _⟩ ?_
  rintro s a s' ⟨hs, hev⟩ - hstep
  obtain ⟨hok, hev'⟩ := hs.step hstep
  exact ⟨hok, hev.trans hev'⟩

theorem ok_of_reaches (hr : Reaches Database.step (create first) db) : Ok first db :=
  ((ok_create first).reaches hr).1

end Database
end TypeDB.Storage
