import TypeDB.Storage.Coverage

/-! Commits followed by what they leave in their slots, whatever the log holds: what lies up to the
watermark is done and stays as it was written, and a commit that is validated has found every slot
since its opening aborted or free of conflicts, as long as it was never sent to the log. Nothing is
assumed of what the keyspaces held before. -/

namespace TypeDB.Storage
open Option Runs Threads Transaction Function Timeline CommitRecord

variable {K V : Type*} [LinearOrder K]

section Slots
variable {st st' : MVCCStorage K V} {t t' u : Transaction K V} {m n : Nat}

/-- The predecessor is known not to stand in the way of the record. -/
def Cleared (st : MVCCStorage K V) (record : CommitRecord K V) (n : Nat) : Prop :=
  st.slotStatus n ≠ .empty ∧ (st.slotStatus n = .aborted ∨
    ∀ r, st.commitRecords n = some r → ¬ Conflicts record r)

/-- Every predecessor before `m` is, where windows are `pinned` so that none is read from the log. -/
def ClearedTo (pinned : Prop) (st : MVCCStorage K V) (record : CommitRecord K V) (m : Nat) : Prop :=
  pinned → ∀ n, record.openSequenceNumber < n → n < m → Cleared st record n

def HasRecord (st : MVCCStorage K V) (n : Nat) (record : CommitRecord K V) : Prop :=
  ∃ r, st.commitRecords n = some r ∧ record.Alike r

structure Held (st : MVCCStorage K V) (n : Nat) (record : CommitRecord K V)
    (marker : SlotMarker) : Prop where
  number : n < st.nextSequenceNumber
  slot : st.slotStatus n = marker
  record : HasRecord st n record

def StageHeld (pinned : Prop) (st : MVCCStorage K V) (t : Transaction K V) : Stage → Prop
  | .outside | .reading | .stuck => True
  | .logged => t.commitSequenceNumber < st.nextSequenceNumber ∧
      st.slotStatus t.commitSequenceNumber = .empty
  | .pending => Held st t.commitSequenceNumber t.commitRecord .pending
  | .validated => Held st t.commitSequenceNumber t.commitRecord .validated ∧
      ClearedTo pinned st t.commitRecord t.commitSequenceNumber
  | .applied | .committed => Held st t.commitSequenceNumber t.commitRecord .applied ∧
      ClearedTo pinned st t.commitRecord t.commitSequenceNumber
  | .aborted | .rejected => t.commitSequenceNumber < st.nextSequenceNumber ∧
      st.slotStatus t.commitSequenceNumber = .aborted

/-- How far validation has come, and the bounds on what a thread holds of the timeline. -/
def PcHeld (first : Nat) (pinned : Prop) (st : MVCCStorage K V) (t : Transaction K V) :
    Pc K V → Prop
  | .waiting target => ∀ n ∈ t.call.fixed, n ≤ target
  | .setRecord | .collect => t.commitSequenceNumber < st.backEnd
  | .setPending => t.commitSequenceNumber < st.backEnd ∧
      HasRecord st t.commitSequenceNumber t.commitRecord
  | .diskStatuses stop | .diskCommits stop _ => ¬ pinned ∧ first < stop
  | .walk m => ClearedTo pinned st t.commitRecord m ∧ first < m
  | .resolve m => (ClearedTo pinned st t.commitRecord m ∧ st.slotStatus m ≠ .empty) ∧
      first < m ∧ m < t.commitSequenceNumber
  | .await m dependency => (ClearedTo pinned st t.commitRecord m ∧ st.slotStatus m ≠ .empty ∧
      ∀ p, st.commitRecords m = some p → dependency = t.commitRecord.computeDependency p) ∧
      first < m ∧ m < t.commitSequenceNumber
  | .setValidated => ClearedTo pinned st t.commitRecord t.commitSequenceNumber
  | .awaitSync batches | .writeKeyspaces batches =>
      ∀ p ∈ batches, ∀ e ∈ p.2, e.2.1 = t.commitSequenceNumber
  | .incrementStatus c w _ => InWindow w c ∧ windowEnd w ≤ st.backEnd
  | .incrementExchange c w _ => (InWindow w c ∧ windowEnd w ≤ st.backEnd) ∧ st.Done c
  | .freeCheck wm _ | .freeLoop wm _ => wm ≤ st.watermark
  | .freePop w wm _ => wm ≤ st.watermark ∧ windowEnd w ≤ wm
  | _ => True

structure HeldOk (first : Nat) (pinned : Prop) (st : MVCCStorage K V) (t : Transaction K V) :
    Prop where
  stage : StageHeld pinned st t t.pc.stage
  pc : PcHeld first pinned st t t.pc
  opened : t.pc.isOutside = false → t.openSequenceNumber ≤ st.watermark

structure SlotsOk (first : Nat) (st : MVCCStorage K V) : Prop where
  first_lt_front : first < st.front
  first_lt_next : first < st.nextSequenceNumber
  used : ∀ n, st.slotStatus n ≠ .empty →
    n < st.nextSequenceNumber ∧ n < st.backEnd ∧ st.commitRecords n ≠ none
  watermark_lt_back : st.watermark < st.backEnd
  front_le : st.front ≤ st.watermark + 1
  done : ∀ n, first < n → n ≤ st.watermark → st.Done n

def Stage.active : Stage → Bool
  | .outside | .reading | .stuck => false
  | _ => true

def Transaction.slot (t : Transaction K V) : Option Nat :=
  if t.pc.stage.active then some t.commitSequenceNumber else none

def SlotsApart (t u : Transaction K V) : Prop := ∀ n, t.slot = some n → u.slot ≠ some n

/-- What a step keeps of the slots, but for the one that is its own. -/
structure Retains (own : Option Nat) (st st' : MVCCStorage K V) : Prop where
  next_le : st.nextSequenceNumber ≤ st'.nextSequenceNumber
  slot : ∀ n, own ≠ some n → st'.slotStatus n = st.slotStatus n
  record : ∀ n, own ≠ some n → st'.commitRecords n = st.commitRecords n
  used : ∀ n, st.slotStatus n ≠ .empty → st'.slotStatus n ≠ .empty
  aborted : ∀ n, st.slotStatus n = .aborted → st'.slotStatus n = .aborted
  done : ∀ n, st.Done n → st'.Done n
  alike : ∀ n r', st.slotStatus n ≠ .empty → st'.commitRecords n = some r' →
    ∃ r, st.commitRecords n = some r ∧ r.Alike r'
  watermark_le : st.watermark ≤ st'.watermark
  back_le : st.backEnd ≤ st'.backEnd

theorem Retains.refl (own : Option Nat) (st : MVCCStorage K V) : Retains own st st where
  next_le := le_rfl
  slot _ _ := rfl
  record _ _ := rfl
  used _ h := h
  aborted _ h := h
  done _ h := h
  alike _ r _ h := ⟨r, h, .refl r⟩
  watermark_le := le_rfl
  back_le := le_rfl

section Others
variable {own : Option Nat} {record : CommitRecord K V} {first : Nat} {pinned : Prop}

section Retained
variable (h : Retains own st st')
include h

theorem Cleared.retained (hc : Cleared st record n) : Cleared st' record n := by
  obtain ⟨hused, hclear⟩ := hc
  refine ⟨h.used n hused, ?_⟩
  rcases hclear with haborted | hclear
  · exact .inl (h.aborted n haborted)
  · refine .inr fun r' hr' hconflict => ?_
    obtain ⟨r, hr, halike⟩ := h.alike n r' hused hr'
    exact hclear r hr ((Alike.refl _).conflicts halike.symm hconflict)

theorem ClearedTo.retained (hc : ClearedTo pinned st record m) :
    ClearedTo pinned st' record m := fun hp n hlow hhigh => (hc hp n hlow hhigh).retained h

theorem HasRecord.retained (hr : HasRecord st n record) (hown : own ≠ some n) :
    HasRecord st' n record := by
  rw [HasRecord, h.record n hown]
  exact hr

theorem Held.retained {marker : SlotMarker} (hh : Held st n record marker) (hown : own ≠ some n) :
    Held st' n record marker where
  number := hh.number.trans_le h.next_le
  slot := (h.slot _ hown).trans hh.slot
  record := hh.record.retained h hown

theorem StageHeld.retained {stage : Stage} (hs : StageHeld pinned st t stage)
    (hown : stage.active = true → own ≠ some t.commitSequenceNumber) :
    StageHeld pinned st' t stage := by
  cases stage with
  | outside | reading | stuck => trivial
  | logged => exact ⟨hs.1.trans_le h.next_le, (h.slot _ (hown rfl)).trans hs.2⟩
  | pending => exact Held.retained h hs (hown rfl)
  | validated | applied | committed => exact ⟨hs.1.retained h (hown rfl), hs.2.retained h⟩
  | aborted | rejected => exact ⟨hs.1.trans_le h.next_le, (h.slot _ (hown rfl)).trans hs.2⟩

theorem PcHeld.retained {pc : Pc K V} (hp : PcHeld first pinned st t pc)
    (hown : pc.stage.active = true → own ≠ some t.commitSequenceNumber) :
    PcHeld first pinned st' t pc := by
  cases pc with
  | waiting target => exact hp
  | setRecord | collect => exact hp.trans_le h.back_le
  | setPending => exact ⟨hp.1.trans_le h.back_le, hp.2.retained h (hown rfl)⟩
  | diskStatuses stop | diskCommits stop isCommitted => exact hp
  | walk m => exact ⟨hp.1.retained h, hp.2⟩
  | resolve m => exact ⟨⟨hp.1.1.retained h, h.used m hp.1.2⟩, hp.2⟩
  | await m dependency =>
    obtain ⟨⟨hclear, hused, hdep⟩, hm⟩ := hp
    refine ⟨⟨hclear.retained h, h.used m hused, fun p' hp' => ?_⟩, hm⟩
    obtain ⟨p, hp, halike⟩ := h.alike m p' hused hp'
    rw [hdep p hp]
    exact ((Alike.refl _).computeDependency halike).symm
  | setValidated => exact ClearedTo.retained h hp
  | awaitSync batches | writeKeyspaces batches => exact hp
  | incrementStatus c w a => exact ⟨hp.1, hp.2.trans h.back_le⟩
  | incrementExchange c w a => exact ⟨⟨hp.1.1, hp.1.2.trans h.back_le⟩, h.done c hp.2⟩
  | freeCheck wm a | freeLoop wm a => exact le_trans hp h.watermark_le
  | freePop w wm a => exact ⟨hp.1.trans h.watermark_le, hp.2⟩
  | _ => trivial

theorem HeldOk.retained (ht : HeldOk first pinned st t)
    (hown : ∀ n, t.slot = some n → own ≠ some n) : HeldOk first pinned st' t := by
  have hown' : t.pc.stage.active = true → own ≠ some t.commitSequenceNumber := fun ha =>
    hown _ (if_pos ha)
  exact ⟨ht.stage.retained h hown', ht.pc.retained h hown',
    fun hout => (ht.opened hout).trans h.watermark_le⟩

end Retained

end Others

section Held
variable {first : Nat} {pinned : Prop}

theorem HeldOk.slot_lt (h : HeldOk first pinned st t) (hn : t.slot = some n) :
    n < st.nextSequenceNumber := by
  rw [slot] at hn
  split_ifs at hn with hactive
  cases hn
  have hs := h.stage
  cases hstage : t.pc.stage with
  | outside | reading | stuck => simp [hstage, Stage.active] at hactive
  | pending =>
    rw [hstage] at hs
    exact hs.number
  | validated | applied | committed =>
    rw [hstage] at hs
    exact hs.1.number
  | _ =>
    rw [hstage] at hs
    exact hs.1

theorem HeldOk.marker {marker : SlotMarker} (h : HeldOk first pinned st t)
    (hpc : t.pc.marker = some marker) :
    t.slot = some t.commitSequenceNumber ∧ t.commitSequenceNumber < st.nextSequenceNumber ∧
      ¬ st.Done t.commitSequenceNumber := by
  have hs := h.stage
  rw [slot]
  cases heq : t.pc with
  | setPending =>
    rw [heq] at hs
    exact ⟨rfl, hs.1, by simp [MVCCStorage.Done, hs.2]⟩
  | setValidated | setAborted conflict =>
    rw [heq] at hs
    exact ⟨rfl, hs.number, by simp [MVCCStorage.Done, hs.slot]⟩
  | setApplied =>
    rw [heq] at hs
    exact ⟨rfl, hs.1.number, by simp [MVCCStorage.Done, hs.1.slot]⟩
  | _ => simp [heq, Pc.marker] at hpc

theorem Transaction.slot_of_stage (h : t.pc.stage.active = true) :
    t.slot = some t.commitSequenceNumber := if_pos h

theorem HeldOk.slot_ne (h : HeldOk first pinned st t) (heffect : Effect st t st')
    (hn : t.slot ≠ some n) :
    st'.slotStatus n = st.slotStatus n := by
  rcases heffect.slotStatus with heq | ⟨marker, hpc, heq⟩
  · rw [heq]
  · rw [heq, update_of_ne]
    rintro rfl
    exact hn (h.marker hpc).1

theorem Effect.record_ne (heffect : Effect st t st') (hn : t.slot ≠ some n) :
    st'.commitRecords n = st.commitRecords n := by
  rcases heffect.record_cases with heq | ⟨hpc, -, heq⟩ | ⟨hpc, r, r', -, -, heq⟩
  · rw [heq]
  · rw [heq, update_of_ne]
    rintro rfl
    exact hn (slot_of_stage (by rw [hpc]; rfl))
  · rw [heq, update_of_ne]
    rintro rfl
    exact hn (slot_of_stage (by rw [hpc]; rfl))

theorem HeldOk.slot_done (h : HeldOk first pinned st t) (heffect : Effect st t st')
    (hn : st.Done n) : st'.slotStatus n = st.slotStatus n := by
  rcases heffect.slotStatus with heq | ⟨marker, hpc, heq⟩
  · rw [heq]
  · rw [heq, update_of_ne]
    rintro rfl
    exact (h.marker hpc).2.2 hn

theorem HeldOk.retains (h : HeldOk first pinned st t) (heffect : Effect st t st') :
    Retains t.slot st st' where
  next_le := heffect.le.1
  slot _ := h.slot_ne heffect
  record _ := Effect.record_ne heffect
  used _ := heffect.slot_ne_empty
  aborted n hn := (h.slot_done heffect (.inr hn)).trans hn
  done n hn := by
    rw [MVCCStorage.Done, h.slot_done heffect hn]
    exact hn
  alike n r' hn hr' := by
    by_cases hslot : t.slot = some n
    · -- the record of a slot in use is replaced by one that differs in flags
      rcases heffect.record_cases with heq | ⟨hpc, -, heq⟩ | ⟨hpc, r, r'', hr, halike, heq⟩
      · exact ⟨r', heq ▸ hr', .refl r'⟩
      · have hs := h.stage
        rw [slot_of_stage (by rw [hpc]; rfl)] at hslot
        rw [hpc] at hs
        exact absurd (some.inj hslot ▸ hs.2) hn
      · rw [slot_of_stage (by rw [hpc]; rfl)] at hslot
        cases hslot
        rw [heq, update_self] at hr'
        exact ⟨r, hr, some.inj hr' ▸ halike⟩
    · exact ⟨r', (Effect.record_ne heffect hslot).symm.trans hr', .refl r'⟩
  watermark_le := heffect.le.2.1
  back_le := heffect.le.2.2

theorem SlotsOk.used_step (h : SlotsOk first st) (ht : HeldOk first pinned st t)
    (heffect : Effect st t st') (hn : st'.slotStatus n ≠ .empty) :
    n < st'.nextSequenceNumber ∧ n < st'.backEnd ∧ st'.commitRecords n ≠ none := by
  obtain ⟨hnext, -, hback⟩ := heffect.le
  by_cases hused : st.slotStatus n = .empty
  · rcases heffect.slotStatus with heq | ⟨marker, hpc, heq⟩
    · rw [heq] at hn
      exact absurd hused hn
    rw [heq] at hn
    obtain rfl : n = t.commitSequenceNumber := by
      by_contra hne
      rw [update_of_ne hne] at hn
      exact hn hused
    -- a slot is first used by the thread that has put its record there
    have hs := ht.stage
    have hp := ht.pc
    cases hwhere : t.pc with
    | setPending =>
      rw [hwhere] at hs hp
      obtain ⟨r, hr, -⟩ := hp.2
      exact ⟨hs.1.trans_le hnext, hp.1.trans_le hback, heffect.record_ne_none (by simp [hr])⟩
    | setValidated | setAborted conflict =>
      rw [hwhere] at hs
      cases hused.symm.trans hs.slot
    | setApplied =>
      rw [hwhere] at hs
      cases hused.symm.trans hs.1.slot
    | _ => simp [hwhere, Pc.marker] at hpc
  · obtain ⟨hlt, hlt', hrecord⟩ := h.used n hused
    exact ⟨hlt.trans_le hnext, hlt'.trans_le hback, heffect.record_ne_none hrecord⟩

theorem SlotsOk.step (h : SlotsOk first st) (ht : HeldOk first pinned st t)
    (heffect : Effect st t st') : SlotsOk first st' := by
  have hretains := ht.retains heffect
  have hp := ht.pc
  have hfront := h.front_le
  refine ⟨?_, h.first_lt_next.trans_le heffect.le.1, fun n => h.used_step ht heffect, ?_, ?_,
    fun n hlow hhigh => ?_⟩
  · rcases heffect.front with heq | ⟨wm, a, -, heq, -⟩ <;> rw [heq]
    · exact h.first_lt_front
    · exact h.first_lt_front.trans_le (Nat.le_add_right _ _)
  · rcases heffect.watermark with heq | ⟨c, w, a, hpc, -, heq⟩ <;> rw [heq]
    · exact h.watermark_lt_back.trans_le hretains.back_le
    · rw [hpc] at hp
      exact hp.1.1.2.trans_le (hp.1.2.trans hretains.back_le)
  · rcases heffect.front with heq | ⟨wm, a, hpc, heq, -⟩ <;> rw [heq]
    · exact hfront.trans (Nat.succ_le_succ hretains.watermark_le)
    · rw [hpc] at hp
      exact (hp.2.trans hp.1).trans (Nat.le_succ_of_le hretains.watermark_le)
  · rcases heffect.watermark with heq | ⟨c, w, a, hpc, hw, heq⟩ <;> rw [heq] at hhigh
    · exact hretains.done n (h.done n hlow hhigh)
    · rw [hpc] at hp
      refine hretains.done n ?_
      rcases hhigh.lt_or_eq with hlt | rfl
      · exact h.done n hlow (by omega)
      · exact hp.2

theorem number_of_mem_fromOperations {operations : OperationsBuffer K V}
    {p : KeyspaceId × WriteBatch K V} (hp : p ∈ fromOperations n operations) :
    ∀ e ∈ p.2, e.2.1 = n := by
  intro e he
  obtain ⟨i, batch⟩ := p
  have hbatch := mem_fromOperations.mp hp
  rw [writeBatch] at hbatch
  split_ifs at hbatch
  cases hbatch
  obtain ⟨⟨k, write⟩, -, hentry⟩ := List.mem_filterMap.mp he
  cases write <;> simp only [writeBatchEntry] at hentry
  case put value known =>
    split_ifs at hentry
    cases hentry
    rfl
  all_goals
    cases hentry
    rfl

theorem front_le_of_collect (tl : Timeline K V) (openNumber commitNumber : Nat)
    (h : ¬ openNumber + 1 < (tl.collectConcurrentWindows openNumber commitNumber).2) :
    tl.front ≤ openNumber + 1 := by
  cases hw : tl.resolveWindow (openNumber + 1) with
  | none =>
    simpa [collectConcurrentWindows, hw, windowAt] using h
  | some index =>
    rw [resolveWindow] at hw
    split_ifs at hw with hin
    exact hin.1

def Pc.unvalidated : Pc K V → Bool
  | .recordReader | .incrementReaders _ | .opened | .initialPuts _ | .sequencedWrite | .lastEnd
  | .createWindows | .ownWindow | .setRecord | .setPending | .collect => true
  | _ => false

theorem After.pcHeld (a : After) : PcHeld first pinned st t a.pc := by cases a <;> trivial

theorem HeldOk.after {a : After} (hs : StageHeld pinned st t a.stage)
    (hopen : t.openSequenceNumber ≤ st.watermark) : HeldOk first pinned st (t.goto a.pc) := by
  refine ⟨?_, After.pcHeld a, fun _ => hopen⟩
  cases a <;> exact hs

theorem HeldOk.panicked (hopen : t.openSequenceNumber ≤ st.watermark) :
    HeldOk first pinned st (t.goto .panicked) := ⟨trivial, trivial, fun _ => hopen⟩

section Validate
variable {record r r' p : CommitRecord K V}

theorem ClearedTo.advance (h : ClearedTo pinned st record m) (hm : Cleared st record m) :
    ClearedTo pinned st record (m + 1) := fun hp n hlow hhigh =>
  (Nat.lt_succ_iff_lt_or_eq.mp hhigh).elim (h hp n hlow) fun heq => heq ▸ hm

theorem not_conflicts_of_handle (halike : record.Alike r)
    (h : handleDependency r (record.computeDependency p) = .ok r') : ¬ Conflicts record p := by
  intro hconflict
  rw [← halike.computeDependency (.refl p)] at h
  have hnone := resolve_eq_none_iff.mpr (halike.conflicts (.refl p) hconflict)
  rw [resolve_of_ok h] at hnone
  cases hnone

theorem Cleared.of_handle (hused : st.slotStatus m ≠ .empty) (hp : st.commitRecords m = some p)
    (halike : record.Alike r)
    (h : handleDependency r (record.computeDependency p) = .ok r') : Cleared st record m := by
  refine ⟨hused, .inr fun q hq => ?_⟩
  obtain rfl := some.inj (hp.symm.trans hq)
  exact not_conflicts_of_handle halike h

theorem HeldOk.advance (hs : Held st t.commitSequenceNumber t.commitRecord .pending)
    (hopen : t.openSequenceNumber ≤ st.watermark) (h : ClearedTo pinned st t.commitRecord m)
    (hfirst : first < m) (hm : Cleared st t.commitRecord m) :
    HeldOk first pinned st (t.advance m) :=
  ⟨hs, ⟨h.advance hm, Nat.lt_succ_of_lt hfirst⟩, fun _ => hopen⟩

theorem HeldOk.handle (ht : HeldOk first pinned st t) (hpc : t.pc.stage = .pending)
    (hclear : ClearedTo pinned st t.commitRecord m) (hfirst : first < m)
    (hused : st.slotStatus m ≠ .empty) (hp : st.commitRecords m = some p)
    (h : t.handle st m (t.commitRecord.computeDependency p) = (st', t')) :
    HeldOk first pinned st' t' := by
  have hs := ht.stage
  rw [hpc] at hs
  have hopen := ht.opened (Pc.isOutside_of_owns (by rw [hpc]; rfl))
  obtain ⟨r, hr, halike⟩ := hs.record
  simp only [Transaction.handle, hr] at h
  split at h
  · cases h
    exact ⟨hs, trivial, fun _ => hopen⟩
  · rename_i r' hhandle
    cases h
    have hretains := ht.retains (.record r r' hpc hr (.of_handle hhandle))
    have hm := Cleared.of_handle hused hp halike hhandle
    refine HeldOk.advance ⟨hs.number, hs.slot, r', ?_, halike.trans (.of_handle hhandle)⟩ hopen
      (hclear.retained hretains) hfirst (hm.retained hretains)
    exact update_self _ _ _

end Validate

theorem slot_ne_empty_of_getStatus {w : Nat} {status : CommitStatus K V}
    (h : st.getStatus w n = some status) (hne : status = .empty → False) :
    st.slotStatus n ≠ .empty := by
  have hof := ofSlot_of_getStatus h
  cases status with
  | empty => exact absurd rfl hne
  | aborted =>
    rw [show st.slotStatus n = .aborted from hof]
    nofun
  | _ =>
    rw [hof.1]
    nofun

theorem HeldOk.stage_quiet (h : HeldOk first pinned st t) (heffect : Effect st t st')
    (hmarker : t.pc.marker = none) (hpc : t.pc ≠ .setRecord) (hstage : t.pc.stage ≠ .pending) :
    StageHeld pinned st' t t.pc.stage := by
  have hslots : st'.slotStatus = st.slotStatus := by
    rcases heffect.slotStatus with heq | ⟨marker, hpc', -⟩
    · exact heq
    · rw [hmarker] at hpc'
      cases hpc'
  have hrecords : st'.commitRecords = st.commitRecords := by
    rcases heffect.record_cases with heq | ⟨hpc', -⟩ | ⟨hpc', -⟩
    · exact heq
    · exact absurd hpc' hpc
    · exact absurd hpc' hstage
  have hretains : Retains none st st' := { h.retains heffect with
    slot := fun n _ => congrFun hslots n
    record := fun n _ => congrFun hrecords n }
  exact h.stage.retained hretains fun _ => nofun

theorem handle_slot {dependency : CommitDependency K} (hpc : t.pc.stage = .pending)
    (h : t.handle st m dependency = (st', t')) :
    (t'.slot = none ∨ t'.slot = t.slot) ∧ t'.pc.unvalidated = false := by
  have hslot := slot_of_stage (t := t) (by rw [hpc]; rfl)
  unfold handle at h
  split at h
  · cases h
    exact ⟨.inl rfl, rfl⟩
  · split at h <;> cases h
    · exact ⟨.inr hslot.symm, rfl⟩
    · exact ⟨.inr hslot.symm, rfl⟩

theorem After.unvalidated_pc (a : After) : (a.pc : Pc K V).unvalidated = false := by
  cases a <;> rfl

theorem Transaction.slot_congr (hn : t'.commitSequenceNumber = t.commitSequenceNumber)
    (hactive : t'.pc.stage.active = t.pc.stage.active) : t'.slot = t.slot := by
  rw [slot, slot, hn, hactive]

/-- The commit has been announced as validated. -/
def Pc.announced : Pc K V → Bool
  | .raiseValidated => false
  | pc => match pc.stage with
    | .validated | .applied | .committed => true
    | _ => false

theorem After.announced_pc (a : After) :
    (a.pc : Pc K V).announced = (Pc.free a : Pc K V).announced := by
  cases a <;> rfl

theorem handle_announced {dependency : CommitDependency K}
    (h : t.handle st m dependency = (st', t')) : t'.pc.announced = false := by
  unfold handle at h
  split at h
  · cases h
    rfl
  · split at h <;> cases h <;> rfl

/-- The numbers a thread takes are new, and those of its commits are announced. -/
structure Numbered (first : Nat) (st : MVCCStorage K V) (t : Transaction K V) : Prop where
  started : ∀ n, t.slot = some n → first < n
  announced : t.pc.announced = true → st.Announced t.commitSequenceNumber

/-- Nothing is written under a number that the watermark has passed. -/
theorem SlotsOk.keyspaces_step {i : KeyspaceId} {k : K} (h : SlotsOk first st)
    (ht : HeldOk first pinned st t) (hnumbered : Numbered first st t) (heffect : Effect st t st')
    (hn : n ≤ st.watermark) : st'.keyspaces i k n = st.keyspaces i k n := by
  cases heffect with
  | keyspace j batch rest hpc =>
    have hs := ht.stage
    have hp := ht.pc
    rw [hpc] at hs hp
    have hstarted := hnumbered.started _ (slot_of_stage (by rw [hpc]; rfl))
    have hne : t.commitSequenceNumber ≠ n := by
      rintro rfl
      have hdone := h.done _ hstarted hn
      simp [MVCCStorage.Done, hs.1.slot] at hdone
    have hnumber : ∀ e ∈ batch, e.2.1 ≠ n := fun e he heq =>
      hne ((hp _ List.mem_cons_self e he).symm.trans heq)
    by_cases hi : i = j
    · subst hi
      change update st.keyspaces i _ i k n = _
      rw [update_self, Keyspace.write_apply _ _ (v := .delete)
        fun e he _ heq => absurd heq (hnumber e he), if_neg]
      rintro ⟨e, he, -, heq⟩
      exact hnumber e he heq
    · change update st.keyspaces j _ i k n = _
      rw [update_of_ne hi]
  | _ => rfl

variable [DecidableEq V]

theorem HeldOk.collect (ht : HeldOk first pinned st t) (hslots : SlotsOk first st)
    (hpc : t.pc = .collect) (hearly : pinned → st.front ≤ t.openSequenceNumber + 1)
    (hstep : t.step st = some (st', t')) : HeldOk first pinned st' t' := by
  have hs := ht.stage
  have hopen := ht.opened (by rw [hpc]; rfl)
  rw [hpc] at hs
  simp only [step, hpc] at hstep
  split at hstep
  · split_ifs at hstep with hfirst <;> cases hstep
    · -- pinned windows are all there from the opening on
      have hfront := collectConcurrentWindows_first _ _ _ hfirst
      refine ⟨hs, ⟨fun hp => ?_, ?_⟩, fun _ => hopen⟩
      · have := hearly hp
        omega
      · rw [hfront]
        exact hslots.first_lt_front
    · refine ⟨hs, ⟨fun _ n hlow hhigh => absurd hhigh (not_lt.mpr hlow), ?_⟩, fun _ => hopen⟩
      exact hslots.first_lt_front.trans_le (front_le_of_collect _ _ _ hfirst)
  · cases hstep
    exact .panicked hopen

theorem HeldOk.diskCommits {stop : Nat} {isCommitted : List (Nat × Bool)}
    (ht : HeldOk first pinned st t) (hpc : t.pc = .diskCommits stop isCommitted)
    (hstep : t.step st = some (st', t')) : HeldOk first pinned st' t' := by
  have hs := ht.stage
  have hpcs := ht.pc
  have hopen := ht.opened (by rw [hpc]; rfl)
  rw [hpc] at hs hpcs
  obtain ⟨r, hr, halike⟩ := hs.record
  simp only [step, hpc, hr] at hstep
  split at hstep <;> cases hstep
  · exact .panicked hopen
  · exact ⟨hs, trivial, fun _ => hopen⟩
  · rename_i r' hvalidate
    exact ⟨⟨hs.number, hs.slot, r', update_self _ _ _,
      halike.trans (validateFromDisk_alike hvalidate)⟩,
      ⟨fun hp => absurd hp hpcs.1, hpcs.2⟩, fun _ => hopen⟩

theorem HeldOk.walk (ht : HeldOk first pinned st t) (hpc : t.pc = .walk m)
    (hstep : t.step st = some (st', t')) : HeldOk first pinned st' t' := by
  have hs := ht.stage
  have hpcs := ht.pc
  have hopen := ht.opened (by rw [hpc]; rfl)
  rw [hpc] at hs hpcs
  simp only [step, hpc] at hstep
  split_ifs at hstep with hm
  · split at hstep
    · cases hstep
      exact .panicked hopen
    · split at hstep
      · cases hstep
        exact .panicked hopen
      · cases hstep
      · rename_i status hne hstatus
        cases hstep
        exact ⟨hs, ⟨⟨hpcs.1, slot_ne_empty_of_getStatus hstatus hne⟩, hpcs.2, hm⟩, fun _ => hopen⟩
  · cases hstep
    exact ⟨hs, fun hp n hlow hhigh => hpcs.1 hp n hlow (hhigh.trans_le (not_lt.mp hm)),
      fun _ => hopen⟩

theorem HeldOk.resolve (ht : HeldOk first pinned st t) (hpc : t.pc = .resolve m)
    (hstep : t.step st = some (st', t')) : HeldOk first pinned st' t' := by
  have hstage : t.pc.stage = .pending := by rw [hpc]; rfl
  have hs := ht.stage
  have hpcs := ht.pc
  have hopen := ht.opened (by rw [hpc]; rfl)
  rw [hpc] at hs hpcs
  obtain ⟨⟨hclear, hused⟩, hm⟩ := hpcs
  obtain ⟨r, hr, halike⟩ := hs.record
  have hdep : ∀ p, r.computeDependency p = t.commitRecord.computeDependency p := fun p =>
    halike.computeDependency (.refl p)
  simp only [step, hpc, hr] at hstep
  split at hstep
  · rename_i window rest record hwindows hrecord
    cases hrecord
    split at hstep
    · rename_i p hstatus
      obtain ⟨-, hp⟩ := ofSlot_of_getStatus hstatus
      rw [hdep] at hstep
      split at hstep <;> cases hstep
      · rename_i hindependent
        have hok : handleDependency r (t.commitRecord.computeDependency p) = .ok r := by
          rw [hindependent]
          rfl
        exact .advance hs hopen hclear hm.1 (.of_handle hused hp halike hok)
      · refine ⟨hs, ⟨⟨hclear, hused, fun q hq => ?_⟩, hm⟩, fun _ => hopen⟩
        rw [some.inj (hq.symm.trans hp)]
        rfl
    · rename_i p hstatus
      obtain ⟨-, hp⟩ := ofSlot_of_getStatus hstatus
      rw [hdep] at hstep
      exact ht.handle hstage hclear hm.1 hused hp (some.inj hstep)
    · rename_i p hstatus
      obtain ⟨-, hp⟩ := ofSlot_of_getStatus hstatus
      rw [hdep] at hstep
      exact ht.handle hstage hclear hm.1 hused hp (some.inj hstep)
    · rename_i hstatus
      cases hstep
      exact .advance hs hopen hclear hm.1 ⟨hused, .inl (ofSlot_of_getStatus hstatus)⟩
    · cases hstep
      exact .panicked hopen
  · cases hstep
    exact .panicked hopen

theorem HeldOk.await {dependency : CommitDependency K} (ht : HeldOk first pinned st t)
    (hpc : t.pc = .await m dependency) (hstep : t.step st = some (st', t')) :
    HeldOk first pinned st' t' := by
  have hstage : t.pc.stage = .pending := by rw [hpc]; rfl
  have hs := ht.stage
  have hpcs := ht.pc
  have hopen := ht.opened (by rw [hpc]; rfl)
  rw [hpc] at hs hpcs
  obtain ⟨⟨hclear, hused, hdep⟩, hm⟩ := hpcs
  simp only [step, hpc] at hstep
  split at hstep
  · cases hstep
    exact .panicked hopen
  · split at hstep
    · cases hstep
    · rename_i p hstatus
      obtain ⟨-, hp⟩ := ofSlot_of_getStatus hstatus
      rw [hdep p hp] at hstep
      exact ht.handle hstage hclear hm.1 hused hp (some.inj hstep)
    · rename_i p hstatus
      obtain ⟨-, hp⟩ := ofSlot_of_getStatus hstatus
      rw [hdep p hp] at hstep
      exact ht.handle hstage hclear hm.1 hused hp (some.inj hstep)
    · rename_i hstatus
      cases hstep
      exact .advance hs hopen hclear hm.1 ⟨hused, .inl (ofSlot_of_getStatus hstatus)⟩
    · cases hstep
      exact .panicked hopen

theorem HeldOk.step (hslots : SlotsOk first st) (ht : HeldOk first pinned st t)
    (hearly : pinned → t.pc = .collect → st.front ≤ t.openSequenceNumber + 1)
    (hstep : t.step st = some (st', t')) : HeldOk first pinned st' t' := by
  have heffect := step_effect hstep
  have hretains := ht.retains heffect
  have hpcs := ht.pc
  have hs := ht.stage
  have hquiet := ht.stage_quiet heffect
  have hopen : t.pc.isOutside = false → t.openSequenceNumber ≤ st'.watermark := fun hout =>
    (ht.opened hout).trans hretains.watermark_le
  cases hpc : t.pc
  case collect => exact ht.collect hslots hpc (fun hp => hearly hp hpc) hstep
  case diskCommits stop isCommitted => exact ht.diskCommits hpc hstep
  case walk m => exact ht.walk hpc hstep
  case resolve m => exact ht.resolve hpc hstep
  case await m dependency => exact ht.await hpc hstep
  all_goals
    rw [hpc] at hopen hs hpcs hquiet
    simp only [Transaction.step, hpc] at hstep
  case waiting target =>
    split_ifs at hstep with hwait hcall
    all_goals
      cases hstep
      refine ⟨trivial, trivial, fun _ => ?_⟩
      change t.call.fixed.getD st.watermark ≤ st.watermark
      cases hfixed : t.call.fixed with
      | none => exact le_rfl
      | some n => exact (hpcs n hfixed).trans (not_lt.mp hwait)
  case sequencedWrite =>
    cases hstep
    refine ⟨⟨Nat.lt_succ_self _, ?_⟩, trivial, fun _ => hopen rfl⟩
    by_contra hused
    exact lt_irrefl _ (hslots.used _ hused).1
  case ownWindow =>
    split at hstep <;> cases hstep
    · exact .panicked (hopen rfl)
    · rename_i w hw
      obtain ⟨hin, -, hend⟩ := tryGetWindow_eq_some hw
      exact ⟨hs, hin.2.trans_le hend, fun _ => hopen rfl⟩
  case setRecord =>
    split at hstep <;> cases hstep
    · exact ⟨hs, ⟨hpcs, _, update_self _ _ _, .refl _⟩, fun _ => hopen rfl⟩
    · exact .panicked (hopen rfl)
  case setPending =>
    cases hstep
    exact ⟨⟨hs.1, update_self _ _ _, hpcs.2⟩, hpcs.1, fun _ => hopen rfl⟩
  case diskStatuses stop =>
    cases hstep
    exact ⟨hs, hpcs, fun _ => hopen rfl⟩
  case setValidated =>
    cases hstep
    exact ⟨⟨⟨hs.number, update_self _ _ _, hs.record⟩, ClearedTo.retained hretains hpcs⟩,
      trivial, fun _ => hopen rfl⟩
  case setAborted conflict =>
    cases hstep
    exact ⟨⟨hs.number, update_self _ _ _⟩, trivial, fun _ => hopen rfl⟩
  case setApplied =>
    cases hstep
    exact ⟨⟨⟨hs.1.number, update_self _ _ _, hs.1.record⟩, hs.2.retained hretains⟩,
      trivial, fun _ => hopen rfl⟩
  case incrementWindow c a =>
    split at hstep <;> cases hstep
    · exact ⟨hs, trivial, fun _ => hopen rfl⟩
    · rename_i w hw
      obtain ⟨hin, -, hend⟩ := tryGetWindow_eq_some hw
      exact ⟨hs, ⟨hin, hend⟩, fun _ => hopen rfl⟩
  case incrementStatus c w a =>
    split at hstep <;> cases hstep
    · exact .panicked (hopen rfl)
    · rename_i hstatus
      have haborted : st.slotStatus c = .aborted := ofSlot_of_getStatus hstatus
      exact ⟨hs, ⟨hpcs, .inr haborted⟩, fun _ => hopen rfl⟩
    · rename_i hstatus
      exact ⟨hs, ⟨hpcs, .inl (ofSlot_of_getStatus hstatus).1⟩, fun _ => hopen rfl⟩
    · exact ⟨hs, trivial, fun _ => hopen rfl⟩
  case incrementExchange c w a =>
    have hs' := hquiet rfl (by rintro ⟨⟩) (After.stage_ne_pending a)
    obtain ⟨⟨⟨hlow, hhigh⟩, hend⟩, -⟩ := hpcs
    split_ifs at hstep with hw hwindow <;> cases hstep
    · exact ⟨hs', trivial, fun _ => hopen rfl⟩
    · exact ⟨hs', ⟨⟨Nat.le_succ_of_le hlow, not_le.mp hwindow⟩, hend⟩, fun _ => hopen rfl⟩
    · exact ⟨hs', trivial, fun _ => hopen rfl⟩
  case free a =>
    cases hstep
    exact ⟨hs, le_rfl, fun _ => hopen rfl⟩
  case freeCheck wm a =>
    split at hstep <;> cases hstep
    · exact ⟨hs, hpcs, fun _ => hopen rfl⟩
    · exact .after hs (hopen rfl)
  case freeLoop wm a =>
    split_ifs at hstep with hfree <;> cases hstep
    · simp only [canFree, Bool.and_eq_true, decide_eq_true_eq] at hfree
      exact ⟨hs, ⟨hpcs, hfree.1⟩, fun _ => hopen rfl⟩
    · exact .after hs (hopen rfl)
  case freePop w wm a =>
    have hs' := hquiet rfl (by rintro ⟨⟩) (After.stage_ne_pending a)
    split at hstep
    · split at hstep <;> cases hstep
      · exact .panicked (hopen rfl)
      · exact ⟨hs', hpcs.1.trans hretains.watermark_le, fun _ => hopen rfl⟩
    · cases hstep
      exact ⟨hs', hpcs.1, fun _ => hopen rfl⟩
  case persist didApply =>
    have hs' := hquiet rfl (by rintro ⟨⟩) (by cases didApply <;> rintro ⟨⟩)
    cases hstep
    cases didApply <;> exact ⟨hs', trivial, fun _ => hopen rfl⟩
  case batches =>
    have hs' := hquiet rfl (by rintro ⟨⟩) (by rintro ⟨⟩)
    split at hstep <;> cases hstep
    · exact ⟨hs', fun _ => number_of_mem_fromOperations, fun _ => hopen rfl⟩
    · exact ⟨hs', fun _ => number_of_mem_fromOperations, fun _ => hopen rfl⟩
    · exact .panicked (hopen rfl)
  case awaitSync batches =>
    have hs' := hquiet rfl (by rintro ⟨⟩) (by rintro ⟨⟩)
    split_ifs at hstep
    cases hstep
    exact ⟨hs', hpcs, fun _ => hopen rfl⟩
  case writeKeyspaces batches =>
    have hs' := hquiet rfl (by rintro ⟨⟩) (by rintro ⟨⟩)
    cases batches with
    | nil =>
      cases hstep
      exact ⟨hs', trivial, fun _ => hopen rfl⟩
    | cons batch rest =>
      cases hstep
      exact ⟨hs', fun p hp => hpcs p (List.mem_cons_of_mem _ hp), fun _ => hopen rfl⟩
  -- the others stay in their stage and leave the slots alone
  all_goals
    have hs' := hquiet rfl (by rintro ⟨⟩)
      (by first | exact After.stage_ne_pending _ | rintro ⟨⟩)
    repeat' split at hstep
    all_goals first
      | contradiction
      | cases hstep
        exact ⟨hs', trivial, fun _ => hopen rfl⟩
      | cases hstep
        exact .after hs' (hopen rfl)
      | cases hstep
        exact ⟨trivial, trivial, fun _ => hopen rfl⟩

theorem step_slot (h : t.step st = some (st', t')) :
    t'.slot = none ∨ t'.slot = t.slot ∨ t'.slot = some st.nextSequenceNumber := by
  cases hpc : t.pc with
  | persist didApply =>
    simp only [step, hpc] at h
    cases h
    refine .inr (.inl (slot_congr rfl ?_))
    rw [hpc]
    cases didApply <;> rfl
  | _ =>
    simp only [step, hpc] at h
    repeat' split at h
    all_goals first
      | contradiction
      | exact (handle_slot (by rw [hpc]; rfl) (some.inj h)).1.imp_right .inl
      | cases h
        exact .inl rfl
      | cases h
        exact .inr (.inr rfl)
      | cases h
        exact .inr (.inl (slot_congr rfl (by rw [hpc]; rfl)))
      | cases h
        exact .inr (.inl (slot_congr rfl
          (by rw [hpc]; exact congrArg Stage.active (After.stage_pc _))))

theorem step_announced (h : t.step st = some (st', t')) (ha : t'.pc.announced = true) :
    (t.pc.announced = true ∨ t.pc = .raiseValidated) ∧
      t'.commitSequenceNumber = t.commitSequenceNumber := by
  cases hpc : t.pc with
  | persist didApply =>
    simp only [step, hpc] at h
    cases h
    cases didApply with
    | true => exact ⟨.inl rfl, rfl⟩
    | false => cases ha
  | _ =>
    simp only [step, hpc] at h
    repeat' split at h
    all_goals first
      | contradiction
      | cases h
        exact ⟨.inl rfl, rfl⟩
      | cases h
        exact ⟨.inr rfl, rfl⟩
      | cases h
        cases ha
      | cases h
        exact ⟨.inl ha, rfl⟩
      | cases h
        exact ⟨.inl ((After.announced_pc _).symm.trans ha), rfl⟩
      | rw [handle_announced (some.inj h)] at ha
        cases ha

theorem Numbered.step (hslots : SlotsOk first st) (ht : Numbered first st t)
    (h : t.step st = some (st', t')) : Numbered first st' t' := by
  refine ⟨fun n hn => ?_, fun ha => ?_⟩
  · rcases step_slot h with heq | heq | heq <;> rw [heq] at hn
    · cases hn
    · exact ht.started n hn
    · cases hn
      exact hslots.first_lt_next
  · obtain ⟨hbefore, hnumber⟩ := step_announced h ha
    rw [hnumber]
    rcases hbefore with hbefore | hpc
    · exact (ht.announced hbefore).trans (step_effect h).highest_le
    · simp only [Transaction.step, hpc] at h
      cases h
      exact le_max_right _ _

theorem step_unvalidated (h : t.step st = some (st', t')) (hu : t'.pc.unvalidated = true) :
    t.pc.unvalidated = true ∨ ∃ target, t.pc = .waiting target := by
  cases hpc : t.pc with
  | waiting target => exact .inr ⟨target, rfl⟩
  | _ =>
    refine .inl ?_
    simp only [step, hpc] at h
    repeat' split at h
    all_goals first
      | contradiction
      | rfl
      | cases h
        cases hu
      | cases h
        change (After.pc _ : Pc K V).unvalidated = true at hu
        rw [After.unvalidated_pc] at hu
        cases hu
      | rw [(handle_slot (by rw [hpc]; rfl) (some.inj h)).2] at hu
        cases hu

end Held
end Slots

end TypeDB.Storage
