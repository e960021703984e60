import TypeDB.Storage.Commit

/-! What holds in every state of a run: how far each thread has come says what its slot holds,
slots agree with the decisions that the log determines, and whatever lies up to the watermark
is done. A thread only touches the slot of its own sequence number. -/

namespace TypeDB.Storage
open Threads Log

variable {K V : Type*} [LinearOrder K]

/-- How far a thread has come, by what it has left in the shared state. -/
inductive Stage
  | outside
  | reading
  | logged
  | pending
  | validated
  | applied
  | aborted
  | committed
  | rejected
  | stuck

def After.stage : After → Stage
  | .closed => .reading
  | .write => .validated
  | .reject => .aborted
  | .release => .aborted
  | .persist => .applied

def Pc.stage : Pc K V → Stage
  | .idle | .waiting _ => .outside
  | .recordReader | .incrementReaders _ | .opened | .initialPuts _ | .sequencedWrite
  | .closed => .reading
  | .lastEnd | .createWindows | .ownWindow | .setRecord | .setPending => .logged
  | .collect | .diskStatuses _ | .diskCommits _ _ | .walk _ | .resolve _ | .await _ _
  | .setValidated | .setAborted _ => .pending
  | .raiseValidated | .batches | .awaitSync _ | .writeKeyspaces _ | .apply
  | .setApplied => .validated
  | .incrementCheck a | .incrementWindow _ a | .incrementStatus _ _ a | .incrementExchange _ _ a
  | .incrementEnd _ a | .free a | .freeCheck _ a | .freeLoop _ a | .freePop _ _ a
  | .removeReader a | .decrementReaders _ a => a.stage
  | .awaitRejected | .persist false => .aborted
  | .persist true => .applied
  | .committed => .committed
  | .rejected => .rejected
  | .failed | .panicked => .stuck

@[simp] theorem After.stage_pc (a : After) : (a.pc : Pc K V).stage = a.stage := by
  cases a <;> rfl

def Stage.owns : Stage → Bool
  | .outside | .reading => false
  | _ => true

def Transaction.own (t : Transaction K V) : Option Nat :=
  if t.pc.stage.owns then some t.commitSequenceNumber else none

def Distinct (t u : Transaction K V) : Prop := ∀ n, t.own = some n → u.own ≠ some n

variable (st : MVCCStorage K V)

def MVCCStorage.Done (n : Nat) : Prop :=
  st.slotStatus n = .applied ∨ st.slotStatus n = .aborted

def MVCCStorage.Unwritten (n : Nat) : Prop :=
  ∀ i k, st.keyspaces i k n = none

def MVCCStorage.Written (n : Nat) : Prop :=
  ∀ r, st.log.outcome n = some r → ∀ i k, st.keyspaces i k n = r.operations.version i k

def MVCCStorage.Durable (n : Nat) : Prop :=
  ∃ r, commitAt (st.log.take st.synced) n = some r

structure StorageOk (first : Nat) (st : MVCCStorage K V) : Prop where
  wellFormed : WellFormed first (st.nextSequenceNumber - 1) st.log
  first_le : first ≤ st.watermark
  watermark_lt_next : st.watermark < st.nextSequenceNumber
  watermark_lt_back : st.watermark < st.backEnd
  front_le : st.front ≤ st.watermark + 1
  slot_lt_back : ∀ n, st.slotStatus n ≠ .empty → n < st.backEnd
  record : ∀ n, st.slotStatus n ≠ .empty → ∃ r r₀, st.commitRecords n = some r ∧
    st.log.commitAt n = some r₀ ∧ r₀.Alike r
  validated : ∀ n r, st.slotStatus n = .validated ∨ st.slotStatus n = .applied →
    st.commitRecords n = some r → st.log.outcome n = some r
  aborted : ∀ n, st.slotStatus n = .aborted → st.log.outcome n = none
  done : ∀ n, first < n → n ≤ st.watermark → st.Done n
  version : ∀ i k n v, st.keyspaces i k n = some v →
    (st.slotStatus n = .validated ∨ st.slotStatus n = .applied) ∧ st.Durable n ∧
      ∃ r, st.log.outcome n = some r ∧ r.operations.version i k = some v
  complete : ∀ n, st.slotStatus n = .applied → st.Durable n ∧ st.Written n
  status : ∀ n b, st.log.statusAt n = some b →
    st.slotStatus n = if b then .applied else .aborted
  synced_le : st.synced ≤ st.log.length

structure Committing (first : Nat) (st : MVCCStorage K V) (t : Transaction K V)
    (marker : SlotMarker) (settled : Bool) : Prop where
  opened : t.openSequenceNumber ≤ st.watermark
  before : t.openSequenceNumber < t.commitSequenceNumber
  started : first < t.commitSequenceNumber
  number : t.commitSequenceNumber < st.nextSequenceNumber
  record : st.log.commitAt t.commitSequenceNumber = some t.commitRecord
  position : commitAt (st.log.take t.logged) t.commitSequenceNumber = some t.commitRecord
  slot : st.slotStatus t.commitSequenceNumber = marker
  unsettled : settled = false → st.log.statusAt t.commitSequenceNumber = none

def StageOk (first : Nat) (st : MVCCStorage K V) (t : Transaction K V) : Stage → Prop
  | .outside => True
  | .reading => t.openSequenceNumber ≤ st.watermark
  | .logged => Committing first st t .empty false
  | .pending => Committing first st t .pending false
  | .validated => Committing first st t .validated false
  | .applied => Committing first st t .applied false
  | .aborted => Committing first st t .aborted false
  | .committed => Committing first st t .applied true
  | .rejected => Committing first st t .aborted true
  | .stuck => first < t.commitSequenceNumber ∧ t.commitSequenceNumber < st.nextSequenceNumber

def MVCCStorage.Announced (n : Nat) : Prop :=
  n ≤ st.highestValidatedSequenceNumber

def AfterOk (n : Nat) : After → Prop
  | .write => st.Unwritten n ∧ st.Announced n
  | .persist => st.Announced n
  | _ => True

/-- The record in the slot is the logged one, resolved against what comes before `m`. -/
structure Resolved (st : MVCCStorage K V) (t : Transaction K V) (m : Nat)
    (r : CommitRecord K V) : Prop where
  slot : st.commitRecords t.commitSequenceNumber = some r
  against : st.log.against t.commitRecord m = some r
  low : t.openSequenceNumber < m
  high : m ≤ t.commitSequenceNumber

def StatusesOk (isCommitted : List (Nat × Bool)) : Prop :=
  ∀ n b, lookupStatus isCommitted n = some b →
    st.slotStatus n = if b then .applied else .aborted

structure Writing (st : MVCCStorage K V) (t : Transaction K V) (r : CommitRecord K V)
    (written left : List (KeyspaceId × WriteBatch K V)) : Prop where
  outcome : st.log.outcome t.commitSequenceNumber = some r
  batches : fromOperations t.commitSequenceNumber r.operations = written ++ left
  versions : ∀ i k, st.keyspaces i k t.commitSequenceNumber =
    if i ∈ written.map Prod.fst then r.operations.version i k else none

def PcOk (t : Transaction K V) : Pc K V → Prop
  | .waiting target => ∀ n ∈ t.call.fixed, n ≤ target
  | .setPending => st.commitRecords t.commitSequenceNumber = some t.commitRecord ∧
      t.commitSequenceNumber < st.backEnd
  | .setRecord => t.commitSequenceNumber < st.backEnd
  | .collect => st.commitRecords t.commitSequenceNumber = some t.commitRecord
  | .diskStatuses stop => st.commitRecords t.commitSequenceNumber = some t.commitRecord ∧
      t.openSequenceNumber + 1 < stop ∧ stop ≤ st.watermark + 1
  | .diskCommits stop isCommitted =>
      st.commitRecords t.commitSequenceNumber = some t.commitRecord ∧
      (t.openSequenceNumber + 1 < stop ∧ stop ≤ st.watermark + 1) ∧ StatusesOk st isCommitted
  | .walk m => ∃ r, Resolved st t m r
  | .resolve m => (∃ r, Resolved st t m r) ∧ m < t.commitSequenceNumber
  | .await m dependency => m < t.commitSequenceNumber ∧ ∃ r p, Resolved st t m r ∧
      st.log.commitAt m = some p ∧ dependency = r.computeDependency p
  | .setValidated => ∃ r, st.commitRecords t.commitSequenceNumber = some r ∧
      st.log.outcome t.commitSequenceNumber = some r
  | .setAborted _ => st.log.outcome t.commitSequenceNumber = none
  | .raiseValidated => st.Unwritten t.commitSequenceNumber
  | .batches => st.Unwritten t.commitSequenceNumber ∧ st.Announced t.commitSequenceNumber
  | .awaitSync batches => st.Announced t.commitSequenceNumber ∧
      ∃ r, Writing st t r [] batches
  | .writeKeyspaces batches => st.Announced t.commitSequenceNumber ∧ t.logged ≤ st.synced ∧
      ∃ r written, Writing st t r written batches
  | .apply | .setApplied => st.Announced t.commitSequenceNumber ∧ t.logged ≤ st.synced ∧
      st.Written t.commitSequenceNumber
  | .incrementCheck a | .incrementEnd _ a | .free a | .removeReader a
  | .decrementReaders _ a => AfterOk st t.commitSequenceNumber a
  | .incrementWindow c a => AfterOk st t.commitSequenceNumber a ∧ t.commitSequenceNumber ≤ c
  | .incrementStatus c w a => AfterOk st t.commitSequenceNumber a ∧
      t.commitSequenceNumber ≤ c ∧ InWindow w c
  | .incrementExchange c w a => AfterOk st t.commitSequenceNumber a ∧
      t.commitSequenceNumber ≤ c ∧ InWindow w c ∧ st.Done c
  | .freeCheck wm a | .freeLoop wm a => AfterOk st t.commitSequenceNumber a ∧ wm ≤ st.watermark
  | .freePop w wm a => AfterOk st t.commitSequenceNumber a ∧ wm ≤ st.watermark ∧ windowEnd w ≤ wm
  | .persist true | .committed => st.Announced t.commitSequenceNumber
  | _ => True

structure TransactionOk (first : Nat) (st : MVCCStorage K V) (t : Transaction K V) : Prop where
  stage : StageOk first st t t.pc.stage
  pc : PcOk st t t.pc

theorem AfterOk.pc {st : MVCCStorage K V} {t : Transaction K V} {a : After}
    (h : AfterOk st t.commitSequenceNumber a) : PcOk st t a.pc := by
  cases a with
  | closed => trivial
  | write => exact h
  | reject | release => trivial
  | persist => exact h

/-- What a step keeps that touches only the slot `own`. -/
structure Spares (own : Option Nat) (st st' : MVCCStorage K V) : Prop where
  commits : ∀ n < st.nextSequenceNumber, st'.log.commitAt n = st.log.commitAt n
  extends_log : ∃ extra, st'.log = st.log ++ extra
  statuses : ∀ n, own ≠ some n → st'.log.statusAt n = st.log.statusAt n
  next_le : st.nextSequenceNumber ≤ st'.nextSequenceNumber
  slot : ∀ n, own ≠ some n → st'.slotStatus n = st.slotStatus n
  record : ∀ n, own ≠ some n → st'.commitRecords n = st.commitRecords n
  versions : ∀ n, own ≠ some n → ∀ i k, st'.keyspaces i k n = st.keyspaces i k n
  done : ∀ n, st.Done n → st'.slotStatus n = st.slotStatus n ∧
    ∀ i k, st'.keyspaces i k n = st.keyspaces i k n
  watermark_le : st.watermark ≤ st'.watermark
  back_le : st.backEnd ≤ st'.backEnd
  highest_le : st.highestValidatedSequenceNumber ≤ st'.highestValidatedSequenceNumber
  synced_le : st.synced ≤ st'.synced

theorem Spares.refl (own : Option Nat) (st : MVCCStorage K V) : Spares own st st where
  commits _ _ := rfl
  extends_log := ⟨[], by simp⟩
  statuses _ _ := rfl
  next_le := le_rfl
  slot _ _ := rfl
  record _ _ := rfl
  versions _ _ _ _ := rfl
  done _ _ := ⟨rfl, fun _ _ => rfl⟩
  watermark_le := le_rfl
  back_le := le_rfl
  highest_le := le_rfl
  synced_le := le_rfl

section Others
variable {first n m : Nat} {st st' : MVCCStorage K V} {t : Transaction K V} {own : Option Nat}
  {r : CommitRecord K V}

section Spared
variable (h : Spares own st st')
include h

theorem Spares.outcome (hn : n < st.nextSequenceNumber) : st'.log.outcome n = st.log.outcome n :=
  outcome_congr fun p hp => h.commits p (by omega)

theorem Spares.against (hn : n ≤ st.nextSequenceNumber) :
    st'.log.against r n = st.log.against r n :=
  against_congr fun p hp => h.commits p (by omega)

theorem Spares.position (hr : commitAt (st.log.take m) n = some r) :
    commitAt (st'.log.take m) n = some r := by
  obtain ⟨extra, hextra⟩ := h.extends_log
  rw [hextra, List.take_append]
  exact commitAt_append_of_some _ hr

theorem Committing.spared {marker : SlotMarker} {settled : Bool}
    (hc : Committing first st t marker settled) (hown : own ≠ some t.commitSequenceNumber) :
    Committing first st' t marker settled where
  opened := hc.opened.trans h.watermark_le
  before := hc.before
  started := hc.started
  number := hc.number.trans_le h.next_le
  record := (h.commits _ hc.number).trans hc.record
  position := h.position hc.position
  slot := (h.slot _ hown).trans hc.slot
  unsettled := fun hs => (h.statuses _ hown).trans (hc.unsettled hs)

theorem Resolved.spared (hr : Resolved st t m r)
    (hnum : t.commitSequenceNumber < st.nextSequenceNumber)
    (hown : own ≠ some t.commitSequenceNumber) : Resolved st' t m r where
  slot := (h.record _ hown).trans hr.slot
  against := (h.against (hr.high.trans hnum.le)).trans hr.against
  low := hr.low
  high := hr.high

theorem StatusesOk.spared {isCommitted : List (Nat × Bool)} (hs : StatusesOk st isCommitted) :
    StatusesOk st' isCommitted := by
  intro n b hb
  have hslot := hs n b hb
  rw [(h.done n ?_).1, hslot]
  cases b
  · exact .inr hslot
  · exact .inl hslot

theorem Writing.spared {written left : List (KeyspaceId × WriteBatch K V)}
    (hw : Writing st t r written left) (hnum : t.commitSequenceNumber < st.nextSequenceNumber)
    (hown : own ≠ some t.commitSequenceNumber) : Writing st' t r written left where
  outcome := (h.outcome hnum).trans hw.outcome
  batches := hw.batches
  versions i k := (h.versions _ hown i k).trans (hw.versions i k)

theorem AfterOk.spared {a : After} (ha : AfterOk st n a)
    (hown : a.stage.owns = true → own ≠ some n) : AfterOk st' n a := by
  cases a with
  | write =>
    exact ⟨fun i k => (h.versions n (hown rfl) i k).trans (ha.1 i k), ha.2.trans h.highest_le⟩
  | persist => exact le_trans ha h.highest_le
  | closed | reject | release => trivial

theorem MVCCStorage.Done.spared (hd : st.Done n) : st'.Done n := by
  rw [MVCCStorage.Done, (h.done n hd).1]
  exact hd

theorem MVCCStorage.Written.spared (hw : st.Written n) (hnum : n < st.nextSequenceNumber)
    (hown : own ≠ some n) : st'.Written n := by
  intro r hr i k
  rw [h.versions n hown]
  exact hw r ((h.outcome hnum).symm.trans hr) i k

theorem StageOk.spared {stage : Stage} (hs : StageOk first st t stage)
    (hown : stage.owns = true → own ≠ some t.commitSequenceNumber) : StageOk first st' t stage := by
  cases stage with
  | outside => trivial
  | reading => exact le_trans hs h.watermark_le
  | stuck => exact ⟨hs.1, hs.2.trans_le h.next_le⟩
  | _ => exact Committing.spared h hs (hown rfl)

theorem PcOk.spared {pc : Pc K V} (hs : StageOk first st t pc.stage) (hp : PcOk st t pc)
    (hown : pc.stage.owns = true → own ≠ some t.commitSequenceNumber) : PcOk st' t pc := by
  cases pc with
  | waiting target => exact hp
  | setPending => exact ⟨(h.record _ (hown rfl)).trans hp.1, hp.2.trans_le h.back_le⟩
  | setRecord => exact hp.trans_le h.back_le
  | collect => exact (h.record _ (hown rfl)).trans hp
  | diskStatuses stop =>
    obtain ⟨hr, hlow, hhigh⟩ := hp
    exact ⟨(h.record _ (hown rfl)).trans hr, hlow, hhigh.trans (Nat.succ_le_succ h.watermark_le)⟩
  | diskCommits stop isCommitted =>
    obtain ⟨hr, ⟨hlow, hhigh⟩, hst⟩ := hp
    exact ⟨(h.record _ (hown rfl)).trans hr,
      ⟨hlow, hhigh.trans (Nat.succ_le_succ h.watermark_le)⟩, hst.spared h⟩
  | walk m =>
    obtain ⟨r, hr⟩ := hp
    exact ⟨r, hr.spared h hs.number (hown rfl)⟩
  | resolve m =>
    obtain ⟨⟨r, hr⟩, hm⟩ := hp
    exact ⟨⟨r, hr.spared h hs.number (hown rfl)⟩, hm⟩
  | await m dependency =>
    obtain ⟨hm, r, p, hr, hpm, hdep⟩ := hp
    exact ⟨hm, r, p, hr.spared h hs.number (hown rfl),
      (h.commits m (hm.trans hs.number)).trans hpm, hdep⟩
  | setValidated =>
    obtain ⟨r, hr, hout⟩ := hp
    exact ⟨r, (h.record _ (hown rfl)).trans hr, (h.outcome hs.number).trans hout⟩
  | setAborted conflict => exact (h.outcome hs.number).trans hp
  | raiseValidated => exact fun i k => (h.versions _ (hown rfl) i k).trans (hp i k)
  | batches =>
    exact ⟨fun i k => (h.versions _ (hown rfl) i k).trans (hp.1 i k), hp.2.trans h.highest_le⟩
  | awaitSync batches =>
    obtain ⟨ha, r, hw⟩ := hp
    exact ⟨ha.trans h.highest_le, r, hw.spared h hs.number (hown rfl)⟩
  | writeKeyspaces batches =>
    obtain ⟨ha, hl, r, written, hw⟩ := hp
    exact ⟨ha.trans h.highest_le, hl.trans h.synced_le, r, written,
      hw.spared h hs.number (hown rfl)⟩
  | apply | setApplied =>
    obtain ⟨ha, hl, hw⟩ := hp
    exact ⟨ha.trans h.highest_le, hl.trans h.synced_le, hw.spared h hs.number (hown rfl)⟩
  | incrementCheck a | incrementEnd c a | free a | removeReader a | decrementReaders w a =>
    exact AfterOk.spared h hp hown
  | incrementWindow c a | incrementStatus c w a => exact ⟨AfterOk.spared h hp.1 hown, hp.2⟩
  | incrementExchange c w a =>
    obtain ⟨ha, hc, hw, hd⟩ := hp
    exact ⟨ha.spared h hown, hc, hw, hd.spared h⟩
  | freeCheck w a | freeLoop w a => exact ⟨AfterOk.spared h hp.1 hown, hp.2.trans h.watermark_le⟩
  | freePop w wm a =>
    obtain ⟨ha, hwm, hend⟩ := hp
    exact ⟨ha.spared h hown, hwm.trans h.watermark_le, hend⟩
  | persist didApply =>
    cases didApply with
    | true => exact le_trans hp h.highest_le
    | false => trivial
  | committed => exact le_trans hp h.highest_le
  | _ => trivial

theorem TransactionOk.spared (ht : TransactionOk first st t)
    (hown : ∀ n, t.own = some n → own ≠ some n) : TransactionOk first st' t := by
  have hown' : t.pc.stage.owns = true → own ≠ some t.commitSequenceNumber := fun ho =>
    hown _ (if_pos ho)
  exact ⟨ht.stage.spared h hown', ht.pc.spared h ht.stage hown'⟩

end Spared

end Others

end TypeDB.Storage
