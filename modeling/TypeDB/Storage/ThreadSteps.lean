import TypeDB.Storage.CommitSteps

/-! Every step of a thread keeps the invariant, place by place. -/

namespace TypeDB.Storage
open List Threads Transaction Timeline Log Option CommitRecord

variable {K V : Type*} [LinearOrder K]

section Slots
variable {first n w : Nat} {st : MVCCStorage K V} {r p : CommitRecord K V}

theorem StorageOk.committed_of_slot (h : StorageOk first st)
    (hs : st.slotStatus n = .validated ∨ st.slotStatus n = .applied) :
    st.log.committed n = true := by
  obtain ⟨r, -, hr, -⟩ := h.record n (by rcases hs with hs | hs <;> simp [hs])
  rw [committed_eq_isSome, h.validated n r hs hr]
  rfl

theorem StorageOk.not_committed_of_slot (h : StorageOk first st)
    (hs : st.slotStatus n = .aborted) : st.log.committed n = false := by
  rw [committed_eq_isSome, h.aborted n hs]
  rfl

theorem StorageOk.unwritten (h : StorageOk first st)
    (hs : st.slotStatus n = .empty ∨ st.slotStatus n = .pending) : st.Unwritten n := by
  intro i k
  cases hv : st.keyspaces i k n with
  | none => rfl
  | some v =>
    have hslot := (h.version i k n v hv).1
    rcases hs with hs | hs <;> simp [hs] at hslot

def CommitStatus.OfSlot (st : MVCCStorage K V) (n : Nat) : CommitStatus K V → Prop
  | .empty => st.slotStatus n = .empty
  | .pending r => st.slotStatus n = .pending ∧ st.commitRecords n = some r
  | .validated r => st.slotStatus n = .validated ∧ st.commitRecords n = some r
  | .applied r => st.slotStatus n = .applied ∧ st.commitRecords n = some r
  | .aborted => st.slotStatus n = .aborted

theorem ofSlot_of_getStatus {status : CommitStatus K V}
    (h : st.getStatus w n = some status) : status.OfSlot st n := by
  rw [getStatus] at h
  split_ifs at h
  split at h
  · cases h
    assumption
  · cases h
  all_goals
    cases h
    first
    | exact ⟨by assumption, by assumption⟩
    | assumption

theorem StorageOk.getStatus_ne_none (h : StorageOk first st) (hw : InWindow w n) :
    st.getStatus w n ≠ none := by
  rw [getStatus, if_pos (show w ≤ n ∧ n < windowEnd w from hw)]
  cases hs : st.slotStatus n with
  | empty => simp
  | _ =>
    obtain ⟨r, -, hr, -⟩ := h.record n (by simp [hs])
    simp [hr]

theorem collectConcurrentWindows_first (tl : Timeline K V) (openNumber commitNumber : Nat)
    (h : openNumber + 1 < (tl.collectConcurrentWindows openNumber commitNumber).2) :
    (tl.collectConcurrentWindows openNumber commitNumber).2 = tl.front := by
  simp only [collectConcurrentWindows] at h ⊢
  cases hw : tl.resolveWindow (openNumber + 1) with
  | none => simp [windowAt]
  | some index =>
    have hwindow : tl.tryGetWindow (openNumber + 1) = some (tl.windowAt index) := by
      rw [tryGetWindow, hw]
      rfl
    have hin := (tryGetWindow_eq_some hwindow).1.1
    rw [hw] at h
    exact absurd h (not_lt.mpr hin)

end Slots

section Disk
variable {first a : Nat} {st : MVCCStorage K V} {r r₀ p : CommitRecord K V}
  {isCommitted : List (Nat × Bool)}

theorem lookupStatus_mem {n : Nat} {b : Bool} (h : lookupStatus isCommitted n = some b) :
    (n, b) ∈ isCommitted := by
  obtain ⟨⟨m, b'⟩, hfind, rfl⟩ := map_eq_some_iff.mp h
  have hm := find?_some hfind
  have hmem := mem_of_find?_eq_some hfind
  simp only [decide_eq_true_eq] at hm
  exact hm ▸ mem_reverse.mp hmem

theorem StorageOk.statusesFrom (h : StorageOk first st) (start : Nat) :
    StatusesOk st (st.log.statusesFrom start) := fun n b hb =>
  h.status n b (h.wellFormed.statusAt_of_mem_statusesFrom (lookupStatus_mem hb))

theorem resolve_of_ok (h : handleDependency r (r.computeDependency p) = .ok r₀) :
    r.resolve p = some r₀ := by
  rw [resolve, h]
  rfl

theorem resolve_of_error {conflict : IsolationConflict}
    (h : handleDependency r (r.computeDependency p) = .error conflict) : r.resolve p = none := by
  rw [resolve, h]
  rfl

theorem validateFromDisk_spec (h : StorageOk first st) (hs : StatusesOk st isCommitted)
    {l : List (Nat × CommitRecord K V)} (hl : st.log.Segment a l)
    (hlow : r₀.openSequenceNumber < a) (hag : st.log.against r₀ a = some r) :
    match validateFromDisk isCommitted r l with
    | none => True
    | some (.ok r') => st.log.against r₀ (a + l.length) = some r'
    | some (.error _) => st.log.against r₀ (a + l.length) = none := by
  induction l generalizing a r with
  | nil => exact hag
  | cons e l ih =>
    obtain ⟨n, p⟩ := e
    obtain ⟨rfl, hp, hrest⟩ := hl
    have hlen : n + ((n, p) :: l).length = n + 1 + l.length := by
      rw [length_cons]
      omega
    rw [hlen, validateFromDisk]
    cases hb : lookupStatus isCommitted n with
    | none => trivial
    | some b =>
      have hslot := hs n b hb
      cases b with
      | false =>
        exact ih hrest (by omega) (against_succ_skip hag (h.not_committed_of_slot hslot))
      | true =>
        have hnext := against_succ_committed hag hlow (h.committed_of_slot (.inr hslot)) hp
        dsimp only
        cases hd : handleDependency r (r.computeDependency p) with
        | ok r' => exact ih hrest (by omega) (hnext.trans (resolve_of_ok hd))
        | error c =>
          exact Validation.against_none_mono (hnext.trans (resolve_of_error hd))
            (Nat.le_add_right _ _)

theorem validateFromDisk_scan (h : StorageOk first st) (hs : StatusesOk st isCommitted)
    {stop : Nat} (hlow : r.openSequenceNumber + 1 < stop) (hstop : stop ≤ st.watermark + 1) :
    match validateFromDisk isCommitted r
      ((st.log.commitsFrom (r.openSequenceNumber + 1)).takeWhile fun p => decide (p.1 < stop)) with
    | none => True
    | some (.ok r') => st.log.against r stop = some r'
    | some (.error _) => st.log.against r stop = none := by
  obtain ⟨hseg, hlen⟩ := h.wellFormed.commitsFrom (r.openSequenceNumber + 1)
  obtain ⟨hseg', hlen'⟩ := hseg.takeWhile stop
  have hnext := h.watermark_lt_next
  have hstart : st.log.against r (max (r.openSequenceNumber + 1) (first + 1)) = some r := by
    rcases le_total (r.openSequenceNumber + 1) (first + 1) with hle | hle
    · exact h.wellFormed.against_of_le_first (by omega)
    · exact against_of_le _ (by omega)
  have hspec := validateFromDisk_spec h hs hseg' (by omega) hstart
  rcases Nat.lt_or_ge stop (max (r.openSequenceNumber + 1) (first + 1)) with hlt | hge
  · -- nothing before `stop` is in the log
    have hnil := length_eq_zero_iff.mp (hlen'.trans (by omega))
    rw [hnil]
    exact h.wellFormed.against_of_le_first (by omega)
  · rwa [hlen', hlen, show max (r.openSequenceNumber + 1) (first + 1) +
      min (stop - max (r.openSequenceNumber + 1) (first + 1))
        (st.nextSequenceNumber - 1 + 1 - max (r.openSequenceNumber + 1) (first + 1)) = stop
      by omega] at hspec

end Disk

structure Transaction.Same (t t' : Transaction K V) : Prop where
  call : t'.call = t.call
  opened : t'.openSequenceNumber = t.openSequenceNumber
  operations : t'.operations = t.operations
  number : t'.commitSequenceNumber = t.commitSequenceNumber
  logged : t'.logged = t.logged

section Same
variable {first m : Nat} {st : MVCCStorage K V} {t t' : Transaction K V} {r : CommitRecord K V}

theorem Transaction.Same.goto (t : Transaction K V) (pc : Pc K V) : t.Same (t.goto pc) :=
  ⟨rfl, rfl, rfl, rfl, rfl⟩

section
variable (h : t.Same t')
include h

theorem Transaction.Same.commitRecord : t'.commitRecord = t.commitRecord := by
  rw [Transaction.commitRecord, h.operations, h.opened, Transaction.commitRecord]

theorem Transaction.Same.own (hown : t'.pc.stage.owns = t.pc.stage.owns) :
    t'.own = t.own := by
  rw [Transaction.own, Transaction.own, h.number, hown]

theorem Committing.same {marker : SlotMarker} {settled : Bool}
    (hc : Committing first st t marker settled) : Committing first st t' marker settled := by
  obtain ⟨h₁, h₂, h₃, h₄, h₅, h₆, h₇, h₈⟩ := hc
  rw [← h.commitRecord, ← h.number] at h₅ h₆
  rw [← h.logged] at h₆
  rw [← h.opened] at h₁ h₂
  rw [← h.number] at h₂ h₃ h₄ h₇ h₈
  exact ⟨h₁, h₂, h₃, h₄, h₅, h₆, h₇, h₈⟩

theorem Resolved.same (hr : Resolved st t m r) : Resolved st t' m r := by
  obtain ⟨h₁, h₂, h₃, h₄⟩ := hr
  rw [← h.number] at h₁ h₄
  rw [← h.commitRecord] at h₂
  rw [← h.opened] at h₃
  exact ⟨h₁, h₂, h₃, h₄⟩

theorem Writing.same {written left : List (KeyspaceId × WriteBatch K V)}
    (hw : Writing st t r written left) : Writing st t' r written left := by
  obtain ⟨h₁, h₂, h₃⟩ := hw
  rw [← h.number] at h₁ h₂ h₃
  exact ⟨h₁, h₂, h₃⟩

theorem StageOk.same {stage : Stage} (hs : StageOk first st t stage) :
    StageOk first st t' stage := by
  cases stage with
  | outside => trivial
  | reading => exact h.opened.le.trans hs
  | stuck =>
    rw [StageOk, h.number]
    exact hs
  | _ => exact Committing.same h hs

theorem PcOk.same {pc : Pc K V} (hp : PcOk st t pc) : PcOk st t' pc := by
  cases pc with
  | walk m => exact hp.imp fun r hr => hr.same h
  | resolve m => exact ⟨hp.1.imp fun r hr => hr.same h, h.number.symm ▸ hp.2⟩
  | await m dependency =>
    obtain ⟨hm, r, p, hr, hp⟩ := hp
    exact ⟨h.number.symm ▸ hm, r, p, hr.same h, hp⟩
  | awaitSync batches => exact ⟨h.number.symm ▸ hp.1, hp.2.imp fun r hr => hr.same h⟩
  | writeKeyspaces batches =>
    obtain ⟨ha, hl, r, written, hw⟩ := hp
    exact ⟨h.number.symm ▸ ha, h.logged.symm ▸ hl, r, written, hw.same h⟩
  | persist didApply =>
    cases didApply with
    | true => simpa only [PcOk, h.number] using hp
    | false => trivial
  | _ =>
    first
    | trivial
    | simpa only [PcOk, h.call, h.opened, h.number, h.logged, h.commitRecord] using hp

end

end Same

structure StepOk (first : Nat) (st : MVCCStorage K V) (t : Transaction K V)
    (st' : MVCCStorage K V) (t' : Transaction K V) : Prop where
  storage : StorageOk first st'
  transaction : TransactionOk first st' t'
  spares : Spares t'.own st st'
  own : t'.own = t.own ∨ t.own = none ∧ t'.own = some st.nextSequenceNumber

def Keeps (first : Nat) (st : MVCCStorage K V) (t : Transaction K V)
    (next : Option (MVCCStorage K V × Transaction K V)) : Prop :=
  ∀ p ∈ next, StepOk first st t p.1 p.2

section Moves
variable {first m : Nat} {st st' : MVCCStorage K V} {t t' : Transaction K V} {pc pc' : Pc K V}
  {r p : CommitRecord K V} {marker : SlotMarker} {settled : Bool}

theorem Keeps.waits : Keeps first st t none := fun _ hp => absurd hp (by simp)

theorem Keeps.next (h : StepOk first st t st' t') : Keeps first st t (some (st', t')) := by
  intro p hp
  cases hp
  exact h

theorem StepOk.same (hsame : t.Same t') (h : StorageOk first st') (hsp : Spares t.own st st')
    (hs : StageOk first st' t t'.pc.stage) (hp : PcOk st' t t'.pc) (hpc : t.pc = pc)
    (hown : t'.pc.stage.owns = pc.stage.owns) : StepOk first st t st' t' := by
  subst hpc
  refine ⟨h, ⟨hs.same hsame, hp.same hsame⟩, ?_, .inl (hsame.own hown)⟩
  rw [hsame.own hown]
  exact hsp

theorem Keeps.goto (h : StorageOk first st) (hs : StageOk first st t pc'.stage)
    (hp : PcOk st t pc') (hpc : t.pc = pc) (hown : pc'.stage.owns = pc.stage.owns) :
    Keeps first st t (some (st, t.goto pc')) :=
  .next (.same (.goto t pc') h (.refl _ _) hs hp hpc hown)

theorem Keeps.after (h : StorageOk first st) {a : After} (hs : StageOk first st t a.stage)
    (ha : AfterOk st t.commitSequenceNumber a) (hpc : t.pc = pc)
    (hown : a.stage.owns = pc.stage.owns) : Keeps first st t (some (st, t.goto a.pc)) := by
  refine .goto h ?_ ha.pc hpc ?_
  · rw [After.stage_pc]
    exact hs
  · rw [After.stage_pc]
    exact hown

theorem Keeps.panic (h : StorageOk first st) (hc : Committing first st t marker settled)
    (hpc : t.pc = pc) (hown : pc.stage.owns = true) :
    Keeps first st t (some (st, t.goto .panicked)) :=
  .goto h (show _ ∧ _ from ⟨hc.started, hc.number⟩) trivial hpc hown.symm

theorem TransactionOk.at_pc (h : TransactionOk first st t) (hpc : t.pc = pc) :
    StageOk first st t pc.stage ∧ PcOk st t pc := hpc ▸ ⟨h.stage, h.pc⟩

theorem own_eq (hpc : t.pc = pc) (h : pc.stage.owns = true) :
    t.own = some t.commitSequenceNumber := by
  rw [own, hpc, if_pos h]

theorem own_none (hpc : t.pc = pc) (h : pc.stage.owns = false) : t.own = none := by
  rw [own, hpc, if_neg (by simp [h])]

theorem Committing.not_done (hc : Committing first st t marker settled) (hm : marker ≠ .applied)
    (hm' : marker ≠ .aborted) : ¬ st.Done t.commitSequenceNumber := by
  rintro (hd | hd)
  · exact hm (hc.slot.symm.trans hd)
  · exact hm' (hc.slot.symm.trans hd)

theorem Committing.of_spares (hc : Committing first st t marker settled) (h : Spares none st st') :
    Committing first st' t marker settled := hc.spared h (by simp)

theorem Committing.setRecord (hc : Committing first st t marker false) (r : CommitRecord K V) :
    Committing first
      (st.setTimeline (st.toTimeline.setRecord t.commitSequenceNumber r)) t marker false :=
  { hc with }

theorem Committing.setStatus (hc : Committing first st t marker false) (marker' : SlotMarker) :
    Committing first
      (st.setTimeline (st.toTimeline.setStatus t.commitSequenceNumber marker')) t marker' false :=
  { hc with slot := Function.update_self _ _ _ }

theorem Committing.outcome_none (hc : Committing first st t marker settled)
    (hm : m ≤ t.commitSequenceNumber) (h : st.log.against t.commitRecord m = none) :
    st.log.outcome t.commitSequenceNumber = none :=
  (outcome_eq hc.record).trans (Validation.against_none_mono h hm)

theorem StepOk.setRecord (h : StorageOk first st)
    (hs : Committing first st t .pending false) (hr : st.log.against t.commitRecord m = some r)
    (hlow : t.openSequenceNumber < m) (hhigh : m ≤ t.commitSequenceNumber) (hsame : t.Same t')
    (hpc : t.pc = pc) (hown : pc.stage.owns = true) (hpc' : t'.pc = .walk m) :
    StepOk first st t (st.setTimeline (st.toTimeline.setRecord t.commitSequenceNumber r)) t' := by
  obtain ⟨hok, hspares⟩ := h.setRecord (.inr hs.slot) hs.record (alike_of_against hr)
  rw [← own_eq hpc hown] at hspares
  refine .same hsame hok hspares ?_ ?_ hpc ?_
  · rw [hpc']
    exact hs.setRecord _
  · rw [hpc']
    exact ⟨r, Function.update_self _ _ _, hr, hlow, hhigh⟩
  · rw [hpc', hown]
    rfl

theorem Transaction.Same.advance (t : Transaction K V) (n : Nat) : t.Same (t.advance n) :=
  ⟨rfl, rfl, rfl, rfl, rfl⟩

theorem Keeps.advance (h : StorageOk first st)
    (hs : Committing first st t .pending false) (hr : Resolved st t m r)
    (hm : m < t.commitSequenceNumber) (hnext : st.log.against t.commitRecord (m + 1) = some r)
    (hpc : t.pc = pc) (hown : pc.stage.owns = true) :
    Keeps first st t (some (st, t.advance m)) :=
  .next (.same (.advance t m) h (.refl _ _) hs
    ⟨r, hr.slot, hnext, hr.low.trans (Nat.lt_succ_self m), hm⟩ hpc hown.symm)

theorem Keeps.handle (h : StorageOk first st)
    (hs : Committing first st t .pending false) (hr : Resolved st t m r)
    (hm : m < t.commitSequenceNumber)
    (hslot : st.slotStatus m = .validated ∨ st.slotStatus m = .applied)
    (hp : st.log.commitAt m = some p) (hpc : t.pc = pc) (hown : pc.stage.owns = true) :
    Keeps first st t (some (t.handle st m (r.computeDependency p))) := by
  have hnext := against_succ_committed hr.against hr.low (h.committed_of_slot hslot) hp
  simp only [Transaction.handle, hr.slot]
  cases hd : handleDependency r (r.computeDependency p) with
  | error conflict =>
    exact .goto h hs (hs.outcome_none hm (hnext.trans (resolve_of_error hd))) hpc hown.symm
  | ok r' =>
    exact .next (.setRecord h hs (hnext.trans (resolve_of_ok hd)) (hr.low.trans (Nat.lt_succ_self m))
      hm (.advance t m) hpc hown rfl)

theorem Writing.written {written : List (KeyspaceId × WriteBatch K V)}
    (hw : Writing st t r written []) : st.Written t.commitSequenceNumber := by
  intro r' hr' i k
  obtain rfl : r = r' := some.inj (hw.outcome.symm.trans hr')
  rw [hw.versions]
  split_ifs with hi
  · rfl
  · refine (version_none_of_writeBatch_none (n := t.commitSequenceNumber) ?_ k).symm
    cases hb : writeBatch r.operations t.commitSequenceNumber i with
    | none => rfl
    | some batch =>
      have hmem := mem_fromOperations.mpr hb
      rw [hw.batches, append_nil] at hmem
      exact absurd (mem_map_of_mem hmem) hi

theorem Committing.durable (hc : Committing first st t marker settled) (hl : t.logged ≤ st.synced) :
    st.Durable t.commitSequenceNumber := by
  have hposition : commitAt ((st.log.take st.synced).take t.logged) t.commitSequenceNumber =
      some t.commitRecord := by
    rw [take_take, min_eq_left hl]
    exact hc.position
  have happend := commitAt_append_of_some ((st.log.take st.synced).drop t.logged) hposition
  rw [take_append_drop] at happend
  exact ⟨t.commitRecord, happend⟩

end Moves

section Opening
variable [DecidableEq V] {first : Nat} {st : MVCCStorage K V} {t : Transaction K V}
  (h : StorageOk first st) (ht : TransactionOk first st t)
include h ht

theorem keeps_waiting {target : Nat} (hpc : t.pc = .waiting target) :
    Keeps first st t (t.step st) := by
  obtain ⟨-, hp⟩ := ht.at_pc hpc
  have hown := own_none hpc rfl
  simp only [step, hpc]
  split_ifs with hlt hreg
  · exact .waits
  all_goals
    have hopen : t.call.fixed.getD st.watermark ≤ st.watermark := by
      cases hfixed : t.call.fixed with
      | none => exact le_rfl
      | some n =>
        have := hp n hfixed
        simp only [getD_some]
        omega
    exact .next ⟨h, ⟨hopen, trivial⟩, .refl _ _, .inl hown.symm⟩

theorem keeps_incrementReaders {window : Nat} (hpc : t.pc = .incrementReaders window) :
    Keeps first st t (t.step st) := by
  obtain ⟨hs, -⟩ := ht.at_pc hpc
  simp only [step, hpc]
  exact .next (.same (.goto t _) (h.setReaders _) (.setReaders _ _ _) hs trivial hpc rfl)

theorem keeps_initialPuts {todo : List (KeyspaceId × K)} (hpc : t.pc = .initialPuts todo) :
    Keeps first st t (t.step st) := by
  obtain ⟨hs, -⟩ := ht.at_pc hpc
  have hown := own_none hpc rfl
  cases todo with
  | nil =>
    simp only [step, hpc]
    exact .goto h hs trivial hpc rfl
  | cons e todo =>
    simp only [step, hpc]
    exact .next ⟨h, ⟨hs, trivial⟩, .refl _ _, .inl hown.symm⟩

theorem keeps_sequencedWrite (hpc : t.pc = .sequencedWrite) : Keeps first st t (t.step st) := by
  obtain ⟨hs, -⟩ := ht.at_pc hpc
  have hown := own_none hpc rfl
  have hopen : t.openSequenceNumber ≤ st.watermark := hs
  have hnext := h.watermark_lt_next
  obtain ⟨hok, hspares, hslot, hrecord, hstatus⟩ := h.sequencedWrite (r := t.commitRecord) hopen
  simp only [step, hpc]
  refine .next ⟨hok, ⟨?_, trivial⟩, hspares, .inr ⟨hown, rfl⟩⟩
  refine ⟨hopen, ?_, ?_, Nat.lt_succ_self _, hrecord, ?_, hslot, fun _ => hstatus⟩
  · exact hopen.trans_lt hnext
  · exact h.first_le.trans_lt hnext
  · -- the log ends with the record
    have hlen : (st.sequencedWrite t.commitRecord).log.length = st.log.length + 1 := by
      simp [MVCCStorage.sequencedWrite]
    change commitAt ((st.sequencedWrite t.commitRecord).log.take (st.log.length + 1)) _ = _
    rw [← hlen, take_length]
    exact hrecord

end Opening

section Entering
variable [DecidableEq V] {first : Nat} {st : MVCCStorage K V} {t : Transaction K V}
  (h : StorageOk first st) (ht : TransactionOk first st t)
include h ht

theorem keeps_createWindows (hpc : t.pc = .createWindows) : Keeps first st t (t.step st) := by
  obtain ⟨hs, -⟩ := ht.at_pc hpc
  have hown := fun own => h.createWindows own t.commitSequenceNumber
  simp only [step, hpc]
  exact .next (.same (.goto t _) (hown none).1 (hown _).2 (Committing.of_spares hs (hown none).2)
    trivial hpc rfl)

theorem keeps_ownWindow (hpc : t.pc = .ownWindow) : Keeps first st t (t.step st) := by
  obtain ⟨hs, -⟩ := ht.at_pc hpc
  simp only [step, hpc]
  split
  · exact .panic h hs hpc rfl
  · rename_i window hw
    obtain ⟨hin, -, hback⟩ := tryGetWindow_eq_some hw
    exact .next (.same ⟨rfl, rfl, rfl, rfl, rfl⟩ h (.refl _ _) hs (hin.2.trans_le hback) hpc rfl)

theorem keeps_setRecord (hpc : t.pc = .setRecord) : Keeps first st t (t.step st) := by
  obtain ⟨(hs : Committing first st t .empty false), hback⟩ := ht.at_pc hpc
  simp only [step, hpc]
  split
  · obtain ⟨hok, hspares⟩ := h.setRecord (.inl hs.slot) hs.record (.refl _)
    refine .next (.same (.goto t _) hok ?_ (hs.setRecord _)
      ⟨Function.update_self _ _ _, hback⟩ hpc rfl)
    rw [own_eq hpc rfl]
    exact hspares
  · exact .panic h hs hpc rfl

theorem keeps_setPending (hpc : t.pc = .setPending) : Keeps first st t (t.step st) := by
  obtain ⟨(hs : Committing first st t .empty false), hrec, hback⟩ := ht.at_pc hpc
  obtain ⟨hok, hspares⟩ := h.setStatus .pending (hs.not_done (by simp) (by simp)) hback
    hrec hs.record (.refl _) (by simp) (by simp) (.inr (.inr (h.unwritten (.inl hs.slot))))
    (by simp)
  simp only [step, hpc]
  refine .next (.same (.goto t _) hok ?_ (hs.setStatus _) hrec hpc rfl)
  rw [own_eq hpc rfl]
  exact hspares

end Entering

section Validating
variable [DecidableEq V] {first m : Nat} {st : MVCCStorage K V} {t : Transaction K V}
  (h : StorageOk first st) (ht : TransactionOk first st t)
include h ht

theorem keeps_collect (hpc : t.pc = .collect) : Keeps first st t (t.step st) := by
  obtain ⟨(hs : Committing first st t .pending false), hrec⟩ := ht.at_pc hpc
  simp only [step, hpc]
  split
  · split_ifs with hlt
    · have hfirst := collectConcurrentWindows_first _ _ _ hlt
      refine .next (.same ⟨rfl, rfl, rfl, rfl, rfl⟩ h (.refl _ _) hs ⟨hrec, hlt, ?_⟩ hpc rfl)
      rw [hfirst]
      exact h.front_le
    · exact .next (.same ⟨rfl, rfl, rfl, rfl, rfl⟩ h (.refl _ _) hs
        ⟨_, hrec, against_of_le _ le_rfl, Nat.lt_succ_self _, hs.before⟩ hpc rfl)
  · exact .panic h hs hpc rfl

theorem keeps_diskStatuses {stop : Nat} (hpc : t.pc = .diskStatuses stop) :
    Keeps first st t (t.step st) := by
  obtain ⟨hs, hrec, hstop⟩ := ht.at_pc hpc
  simp only [step, hpc]
  exact .goto h hs ⟨hrec, hstop, h.statusesFrom _⟩ hpc rfl

theorem keeps_diskCommits {stop : Nat} {isCommitted : List (Nat × Bool)}
    (hpc : t.pc = .diskCommits stop isCommitted) : Keeps first st t (t.step st) := by
  obtain ⟨(hs : Committing first st t .pending false), hrec, ⟨hlow, hstop⟩, hst⟩ := ht.at_pc hpc
  have hhigh : stop ≤ t.commitSequenceNumber := by
    have := h.not_done_lt hs.started (hs.not_done (by simp) (by simp))
    omega
  have hspec := validateFromDisk_scan (r := t.commitRecord) h hst hlow hstop
  simp only [step, hpc, hrec]
  have hopen : t.commitRecord.openSequenceNumber = t.openSequenceNumber := rfl
  rw [hopen] at hspec
  generalize validateFromDisk isCommitted t.commitRecord _ = result at hspec ⊢
  rcases result with _ | conflict | record
  · exact .panic h hs hpc rfl
  · exact .goto h hs (hs.outcome_none hhigh hspec) hpc rfl
  · exact .next (.setRecord h hs hspec (by omega) hhigh (.goto t _) hpc rfl rfl)

theorem keeps_walk (hpc : t.pc = .walk m) : Keeps first st t (t.step st) := by
  obtain ⟨(hs : Committing first st t .pending false), r, hr⟩ := ht.at_pc hpc
  simp only [step, hpc]
  split_ifs with hm
  · split
    · exact .panic h hs hpc rfl
    · split
      · exact .panic h hs hpc rfl
      · exact .waits
      · exact .goto h hs ⟨⟨r, hr⟩, hm⟩ hpc rfl
  · obtain rfl : m = t.commitSequenceNumber := le_antisymm hr.high (not_lt.mp hm)
    exact .goto h hs ⟨r, hr.slot, (outcome_eq hs.record).trans hr.against⟩ hpc rfl

theorem keeps_resolve (hpc : t.pc = .resolve m) : Keeps first st t (t.step st) := by
  obtain ⟨(hs : Committing first st t .pending false), ⟨r, hr⟩, hm⟩ := ht.at_pc hpc
  simp only [step, hpc, hr.slot]
  cases t.windows with
  | nil => exact .panic h hs hpc rfl
  | cons window rest =>
    dsimp only
    -- the dependency on the record in the slot is that on the record in the log
    have hlogged : ∀ p, st.slotStatus m ≠ .empty → st.commitRecords m = some p →
        ∃ p₀, st.log.commitAt m = some p₀ ∧ r.computeDependency p = r.computeDependency p₀ := by
      intro p hne hp
      obtain ⟨p', p₀, hp', hp₀, halike⟩ := h.record m hne
      obtain rfl : p = p' := some.inj (hp.symm.trans hp')
      exact ⟨p₀, hp₀, (Alike.refl r).computeDependency halike⟩
    cases hstatus : st.getStatus window m with
    | none => exact .panic h hs hpc rfl
    | some status =>
      have hslot := ofSlot_of_getStatus hstatus
      cases status with
      | empty => exact .panic h hs hpc rfl
      | pending p =>
        obtain ⟨p₀, hp₀, hdep⟩ := hlogged p (by simp [hslot.1]) hslot.2
        dsimp only
        split
        · rename_i hind
          refine .advance h hs hr hm ?_ hpc rfl
          cases hc : st.log.committed m with
          | false => exact against_succ_skip hr.against hc
          | true =>
            rw [against_succ_committed hr.against hr.low hc hp₀]
            exact resolve_of_ok (by rw [← hdep, hind]; rfl)
        · exact .goto h hs ⟨hm, r, p₀, hr, hp₀, hdep⟩ hpc rfl
      | validated p | applied p =>
        obtain ⟨p₀, hp₀, hdep⟩ := hlogged p (by simp [hslot.1]) hslot.2
        dsimp only
        rw [hdep]
        exact .handle h hs hr hm (by simp [hslot.1]) hp₀ hpc rfl
      | aborted =>
        exact .advance h hs hr hm
          (against_succ_skip hr.against (h.not_committed_of_slot hslot)) hpc rfl

theorem keeps_await {dependency : CommitDependency K} (hpc : t.pc = .await m dependency) :
    Keeps first st t (t.step st) := by
  obtain ⟨(hs : Committing first st t .pending false), hm, r, p, hr, hp, rfl⟩ := ht.at_pc hpc
  simp only [step, hpc]
  cases t.windows with
  | nil => exact .panic h hs hpc rfl
  | cons window rest =>
    dsimp only
    cases hstatus : st.getStatus window m with
    | none => exact .panic h hs hpc rfl
    | some status =>
      have hslot := ofSlot_of_getStatus hstatus
      cases status with
      | empty => exact .panic h hs hpc rfl
      | pending _ => exact .waits
      | validated _ | applied _ => exact .handle h hs hr hm (by simp [hslot.1]) hp hpc rfl
      | aborted =>
        exact .advance h hs hr hm
          (against_succ_skip hr.against (h.not_committed_of_slot hslot)) hpc rfl

theorem keeps_setValidated (hpc : t.pc = .setValidated) : Keeps first st t (t.step st) := by
  obtain ⟨(hs : Committing first st t .pending false), r, hr, hout⟩ := ht.at_pc hpc
  have hne : st.slotStatus t.commitSequenceNumber ≠ .empty := by simp [hs.slot]
  have hunwritten := h.unwritten (.inr hs.slot)
  obtain ⟨hok, hspares⟩ := h.setStatus .validated (hs.not_done (by simp) (by simp))
    (h.slot_lt_back _ hne) hr hs.record
    (alike_of_against ((outcome_eq hs.record).symm.trans hout)) (fun _ => hout) (by simp)
    (.inl rfl) (by simp)
  simp only [step, hpc]
  refine .next (.same (.goto t _) hok ?_ (hs.setStatus _) hunwritten hpc rfl)
  rw [own_eq hpc rfl]
  exact hspares

theorem keeps_raiseValidated (hpc : t.pc = .raiseValidated) : Keeps first st t (t.step st) := by
  obtain ⟨hs, hunwritten⟩ := ht.at_pc hpc
  have hraise := fun own => h.raiseHighest own t.commitSequenceNumber
  simp only [step, hpc]
  exact .next (.same (.goto t _) (hraise none).1 (hraise _).2
    (Committing.of_spares hs (hraise none).2) ⟨hunwritten, le_max_right _ _⟩ hpc rfl)

theorem keeps_setAborted {conflict : IsolationConflict} (hpc : t.pc = .setAborted conflict) :
    Keeps first st t (t.step st) := by
  obtain ⟨(hs : Committing first st t .pending false), hout⟩ := ht.at_pc hpc
  have hne : st.slotStatus t.commitSequenceNumber ≠ .empty := by simp [hs.slot]
  obtain ⟨r, r₀, hr, hr₀, halike⟩ := h.record _ hne
  obtain ⟨hok, hspares⟩ := h.setStatus .aborted (hs.not_done (by simp) (by simp))
    (h.slot_lt_back _ hne) hr hr₀ halike (by simp) (fun _ => hout)
    (.inr (.inr (h.unwritten (.inr hs.slot)))) (by simp)
  simp only [step, hpc]
  refine .next (.same (.goto t _) hok ?_ (hs.setStatus _) trivial hpc rfl)
  rw [own_eq hpc rfl]
  exact hspares

end Validating

section Watermark
variable [DecidableEq V] {first c w : Nat} {a : After} {st : MVCCStorage K V}
  {t : Transaction K V}
  (h : StorageOk first st) (ht : TransactionOk first st t)
include h ht

theorem keeps_incrementWindow (hpc : t.pc = .incrementWindow c a) :
    Keeps first st t (t.step st) := by
  obtain ⟨hs, ha, hc⟩ := ht.at_pc hpc
  simp only [step, hpc]
  split
  · exact .goto h hs ha hpc rfl
  · rename_i window hw
    exact .goto h hs ⟨ha, hc, (tryGetWindow_eq_some hw).1⟩ hpc rfl

theorem keeps_incrementStatus (hpc : t.pc = .incrementStatus c w a) :
    Keeps first st t (t.step st) := by
  obtain ⟨hs, ha, hc, hw⟩ := ht.at_pc hpc
  simp only [step, hpc]
  cases hstatus : st.getStatus w c with
  | none => exact absurd hstatus (h.getStatus_ne_none hw)
  | some status =>
    have hslot := ofSlot_of_getStatus hstatus
    cases status with
    | applied r => exact .goto h hs ⟨ha, hc, hw, .inl hslot.1⟩ hpc rfl
    | aborted => exact .goto h hs ⟨ha, hc, hw, .inr hslot⟩ hpc rfl
    | _ => exact .goto h hs ha hpc rfl

theorem keeps_incrementExchange (hpc : t.pc = .incrementExchange c w a) :
    Keeps first st t (t.step st) := by
  obtain ⟨hs, ha, hc, hw, hd⟩ := ht.at_pc hpc
  simp only [step, hpc]
  split
  · have hpos := (h.lt_next hd.ne_empty).1
    have hset := fun own => h.setWatermark own (n := c) (by omega) hd
    have hs' := hs.spared (hset none).2 (by simp)
    have ha' := ha.spared (hset none).2 (by simp)
    split_ifs with hend
    · exact .next (.same (.goto t _) (hset none).1 (hset _).2 hs' ⟨ha', Nat.le_succ_of_le hc⟩ hpc rfl)
    · have hw' : InWindow w (c + 1) := ⟨Nat.le_succ_of_le hw.1, not_le.mp hend⟩
      exact .next (.same (.goto t _) (hset none).1 (hset _).2 hs'
        ⟨ha', Nat.le_succ_of_le hc, hw'⟩ hpc rfl)
  · exact .goto h hs ha hpc rfl

theorem keeps_freeLoop (hpc : t.pc = .freeLoop w a) : Keeps first st t (t.step st) := by
  obtain ⟨hs, ha, hw⟩ := ht.at_pc hpc
  simp only [step, hpc]
  split_ifs with hfree
  · refine .goto h hs ⟨ha, hw, ?_⟩ hpc rfl
    simp only [canFree, Bool.and_eq_true, decide_eq_true_eq] at hfree
    exact hfree.1
  · exact .after h hs ha hpc rfl

theorem keeps_freePop {wm : Nat} (hpc : t.pc = .freePop w wm a) : Keeps first st t (t.step st) := by
  obtain ⟨hs, ha, hw, hend⟩ := ht.at_pc hpc
  simp only [step, hpc]
  split_ifs with hfront
  · subst hfront
    obtain ⟨tl, htl, hok, hspares⟩ := h.popFront none hw hend
    obtain ⟨tl', htl', -, hspares'⟩ := h.popFront t.own hw hend
    obtain rfl := some.inj (htl.symm.trans htl')
    rw [htl]
    refine .next (.same (.goto t _) hok hspares' (hs.spared hspares (by simp)) ?_ hpc rfl)
    exact ⟨ha.spared hspares (by simp), hw.trans hspares.watermark_le⟩
  · exact .goto h hs ⟨ha, hw⟩ hpc rfl

theorem keeps_decrementReaders (hpc : t.pc = .decrementReaders w a) :
    Keeps first st t (t.step st) := by
  obtain ⟨hs, ha⟩ := ht.at_pc hpc
  have hspares : ∀ own, Spares own st (st.setTimeline (st.toTimeline.decrementReaders w)) :=
    fun own => .setReaders own st _
  have hs' := hs.spared (hspares none) (by simp)
  have ha' := AfterOk.spared (hspares none) ha (by simp)
  simp only [step, hpc]
  split_ifs
  · exact .next (.same (.goto t _) (h.setReaders _) (hspares _) hs' ha' hpc rfl)
  · refine .next (.same (.goto t _) (h.setReaders _) (hspares _) ?_ ha'.pc hpc ?_)
    · change StageOk _ _ _ (a.pc : Pc K V).stage
      rw [After.stage_pc]
      exact hs'
    · change (a.pc : Pc K V).stage.owns = _
      rw [After.stage_pc]
      rfl

end Watermark

section Writing
variable [DecidableEq V] {first : Nat} {st : MVCCStorage K V} {t : Transaction K V}
  (h : StorageOk first st) (ht : TransactionOk first st t)
include h ht

theorem keeps_batches (hpc : t.pc = .batches) : Keeps first st t (t.step st) := by
  obtain ⟨(hs : Committing first st t .validated false), hunwritten, hann⟩ := ht.at_pc hpc
  have hwriting : ∀ r, st.commitRecords t.commitSequenceNumber = some r →
      Writing st t r [] (fromOperations t.commitSequenceNumber r.operations) := fun r hr =>
    ⟨h.validated _ r (.inl hs.slot) hr, rfl, fun i k => by simp [hunwritten i k]⟩
  simp only [step, hpc]
  split
  · rename_i r hstatus
    exact .goto h hs ⟨hann, r, hwriting r (ofSlot_of_getStatus hstatus).2⟩ hpc rfl
  · rename_i r hstatus
    exact .goto h hs ⟨hann, r, hwriting r (ofSlot_of_getStatus hstatus).2⟩ hpc rfl
  · exact .panic h hs hpc rfl

theorem keeps_awaitSync {batches : List (KeyspaceId × WriteBatch K V)}
    (hpc : t.pc = .awaitSync batches) : Keeps first st t (t.step st) := by
  obtain ⟨hs, hann, r, hr⟩ := ht.at_pc hpc
  simp only [step, hpc]
  split_ifs with hsync
  · exact .waits
  · exact .goto h hs ⟨hann, not_lt.mp hsync, r, [], hr⟩ hpc rfl

theorem keeps_writeKeyspaces {batches : List (KeyspaceId × WriteBatch K V)}
    (hpc : t.pc = .writeKeyspaces batches) : Keeps first st t (t.step st) := by
  obtain ⟨hs, hann, hsync, r, written, hw⟩ := ht.at_pc hpc
  replace hs : Committing first st t .validated false := hs
  cases batches with
  | nil =>
    simp only [step, hpc]
    exact .goto h hs ⟨hann, hsync, hw.written⟩ hpc rfl
  | cons e rest =>
    obtain ⟨i, batch⟩ := e
    have hbatch : writeBatch r.operations t.commitSequenceNumber i = some batch := by
      rw [← mem_fromOperations, hw.batches]
      simp
    have hnew : i ∉ written.map Prod.fst := by
      have hnodup := nodup_fromOperations t.commitSequenceNumber r.operations
      rw [hw.batches, map_append, nodup_append] at hnodup
      exact fun hi => hnodup.2.2 i hi i (by simp) rfl
    obtain ⟨hok, hspares, hkey⟩ := h.writeKeyspace hs.slot hw.outcome hbatch (hs.durable hsync)
    simp only [step, hpc]
    refine .next (.same (.goto t _) hok ?_ ?_ ⟨hann, hsync, r, written ++ [(i, batch)],
      hw.outcome, ?_, fun j k => ?_⟩ hpc rfl)
    · rw [own_eq hpc rfl]
      exact hspares
    · exact { hs with }
    · rw [hw.batches, append_assoc]
      rfl
    · rw [hkey]
      by_cases hj : j = i
      · subst hj
        simp [hw.versions, hnew]
      · have hmem : j ∈ (written ++ [(i, batch)]).map Prod.fst ↔ j ∈ written.map Prod.fst := by
          simp [hj]
        rw [if_neg fun hji => hj hji.1, hw.versions]
        exact if_congr hmem.symm rfl rfl

theorem keeps_apply (hpc : t.pc = .apply) : Keeps first st t (t.step st) := by
  obtain ⟨(hs : Committing first st t .validated false), hp⟩ := ht.at_pc hpc
  simp only [step, hpc]
  split
  · exact .goto h (show _ ∧ _ from ⟨hs.started, hs.number⟩) trivial hpc rfl
  · exact .next (.same ⟨rfl, rfl, rfl, rfl, rfl⟩ h (.refl _ _) hs hp hpc rfl)

theorem keeps_setApplied (hpc : t.pc = .setApplied) : Keeps first st t (t.step st) := by
  obtain ⟨(hs : Committing first st t .validated false), hann, hsync, hwritten⟩ := ht.at_pc hpc
  have hne : st.slotStatus t.commitSequenceNumber ≠ .empty := by simp [hs.slot]
  obtain ⟨r, r₀, hr, hr₀, halike⟩ := h.record _ hne
  obtain ⟨hok, hspares⟩ := h.setStatus .applied (hs.not_done (by simp) (by simp))
    (h.slot_lt_back _ hne) hr hr₀ halike (fun _ => h.validated _ r (.inl hs.slot) hr) (by simp)
    (.inr (.inl rfl)) (fun _ => ⟨hs.durable hsync, hwritten⟩)
  simp only [step, hpc]
  refine .next (.same (.goto t _) hok ?_ (hs.setStatus _) hann hpc rfl)
  rw [own_eq hpc rfl]
  exact hspares

theorem keeps_persist {didApply : Bool} (hpc : t.pc = .persist didApply) :
    Keeps first st t (t.step st) := by
  obtain ⟨hs, hp⟩ := ht.at_pc hpc
  have hc : Committing first st t (if didApply then .applied else .aborted) false := by
    cases didApply <;> exact hs
  obtain ⟨hok, hspares⟩ := h.persist hc.slot (hc.unsettled rfl)
  have hc' : Committing first (st.persistCommitStatus t.commitSequenceNumber didApply) t
      (if didApply then .applied else .aborted) true :=
    { hc with
      record := (hspares.commits _ hc.number).trans hc.record
      position := hspares.position hc.position
      unsettled := fun h => absurd h (by simp) }
  simp only [step, hpc]
  rw [← own_eq hpc (by cases didApply <;> rfl)] at hspares
  cases didApply with
  | true => exact .next (.same (.goto t _) hok hspares hc' hp hpc rfl)
  | false => exact .next (.same (.goto t _) hok hspares hc' trivial hpc rfl)

end Writing

theorem step_ok [DecidableEq V] {first : Nat} {st : MVCCStorage K V} {t : Transaction K V}
    (h : StorageOk first st) (ht : TransactionOk first st t) : Keeps first st t (t.step st) := by
  cases hpc : t.pc with
  | waiting target => exact keeps_waiting h ht hpc
  | incrementReaders w => exact keeps_incrementReaders h ht hpc
  | initialPuts todo => exact keeps_initialPuts h ht hpc
  | sequencedWrite => exact keeps_sequencedWrite h ht hpc
  | createWindows => exact keeps_createWindows h ht hpc
  | ownWindow => exact keeps_ownWindow h ht hpc
  | setRecord => exact keeps_setRecord h ht hpc
  | setPending => exact keeps_setPending h ht hpc
  | collect => exact keeps_collect h ht hpc
  | diskStatuses stop => exact keeps_diskStatuses h ht hpc
  | diskCommits stop isCommitted => exact keeps_diskCommits h ht hpc
  | walk m => exact keeps_walk h ht hpc
  | resolve m => exact keeps_resolve h ht hpc
  | await m dependency => exact keeps_await h ht hpc
  | setValidated => exact keeps_setValidated h ht hpc
  | raiseValidated => exact keeps_raiseValidated h ht hpc
  | setAborted conflict => exact keeps_setAborted h ht hpc
  | incrementWindow c a => exact keeps_incrementWindow h ht hpc
  | incrementStatus c w a => exact keeps_incrementStatus h ht hpc
  | incrementExchange c w a => exact keeps_incrementExchange h ht hpc
  | freeLoop w a => exact keeps_freeLoop h ht hpc
  | freePop w wm a => exact keeps_freePop h ht hpc
  | decrementReaders w a => exact keeps_decrementReaders h ht hpc
  | batches => exact keeps_batches h ht hpc
  | awaitSync batches => exact keeps_awaitSync h ht hpc
  | writeKeyspaces batches => exact keeps_writeKeyspaces h ht hpc
  | apply => exact keeps_apply h ht hpc
  | setApplied => exact keeps_setApplied h ht hpc
  | persist didApply => exact keeps_persist h ht hpc
  -- the others only go on to another place
  | recordReader | lastEnd | awaitRejected =>
    obtain ⟨hs, -⟩ := ht.at_pc hpc
    simp only [step, hpc]
    split
    all_goals first
      | exact .waits
      | exact .goto h hs trivial hpc rfl
  | incrementEnd _ a | removeReader a =>
    obtain ⟨hs, ha⟩ := ht.at_pc hpc
    simp only [step, hpc]
    repeat' split
    all_goals first
      | exact .after h hs ha hpc rfl
      | exact .goto h hs ha hpc rfl
  | incrementCheck a =>
    obtain ⟨hs, ha⟩ := ht.at_pc hpc
    simp only [step, hpc]
    split_ifs
    · exact .after h hs ha hpc rfl
    · exact .goto h hs ⟨ha, le_rfl⟩ hpc rfl
  | free a =>
    obtain ⟨hs, ha⟩ := ht.at_pc hpc
    simp only [step, hpc]
    exact .goto h hs ⟨ha, le_rfl⟩ hpc rfl
  | freeCheck w a =>
    obtain ⟨hs, ha, hw⟩ := ht.at_pc hpc
    simp only [step, hpc]
    split_ifs
    · exact .goto h hs ⟨ha, hw⟩ hpc rfl
    · exact .after h hs ha hpc rfl
  | _ =>
    simp only [step, hpc]
    exact .waits

end TypeDB.Storage
