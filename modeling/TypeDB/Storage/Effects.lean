import TypeDB.Storage.CommitRun

/-! What a step of a thread can do to the shared state, said once. Every further invariant is a case
analysis over this and over the calls of users. -/

namespace TypeDB.Storage
open Runs Threads Function MVCCStorage Timeline

variable {K V : Type*} [LinearOrder K]

def Pc.marker : Pc K V → Option SlotMarker
  | .setPending => some .pending
  | .setValidated => some .validated
  | .setAborted _ => some .aborted
  | .setApplied => some .applied
  | _ => none

inductive Effect (st : MVCCStorage K V) (t : Transaction K V) : MVCCStorage K V → Prop
  | same : Effect st t st
  | increment (window : Nat) (hpc : t.pc = .incrementReaders window) :
      Effect st t (st.setTimeline (st.toTimeline.incrementReaders window))
  | decrement (window : Nat) (a : After) (hpc : t.pc = .decrementReaders window a) :
      Effect st t (st.setTimeline (st.toTimeline.decrementReaders window))
  | write (hpc : t.pc = .sequencedWrite) : Effect st t (st.sequencedWrite t.commitRecord)
  | persist (didApply : Bool) (hpc : t.pc = .persist didApply) :
      Effect st t (st.persistCommitStatus t.commitSequenceNumber didApply)
  | create (hpc : t.pc = .createWindows) :
      Effect st t (st.setTimeline (st.toTimeline.createWindowsTo t.commitSequenceNumber))
  | setRecord (hpc : t.pc = .setRecord) (hr : st.commitRecords t.commitSequenceNumber = none) :
      Effect st t (st.setTimeline (st.toTimeline.setRecord t.commitSequenceNumber t.commitRecord))
  | record (r r' : CommitRecord K V) (hpc : t.pc.stage = .pending)
      (hr : st.commitRecords t.commitSequenceNumber = some r) (halike : r.Alike r') :
      Effect st t (st.setTimeline (st.toTimeline.setRecord t.commitSequenceNumber r'))
  | mark (marker : SlotMarker) (hpc : t.pc.marker = some marker) :
      Effect st t (st.setTimeline (st.toTimeline.setStatus t.commitSequenceNumber marker))
  | raise (hpc : t.pc = .raiseValidated) : Effect st t (st.raiseHighest t.commitSequenceNumber)
  | exchange (candidate window : Nat) (a : After)
      (hpc : t.pc = .incrementExchange candidate window a) (hw : st.watermark = candidate - 1) :
      Effect st t (st.setWatermark candidate)
  | pop (watermark : Nat) (a : After) (tl : Timeline K V)
      (hpc : t.pc = .freePop st.front watermark a) (htl : st.popFront = some tl) :
      Effect st t (st.setTimeline tl)
  | keyspace (i : KeyspaceId) (batch : WriteBatch K V) (rest : List (KeyspaceId × WriteBatch K V))
      (hpc : t.pc = .writeKeyspaces ((i, batch) :: rest)) : Effect st t (st.writeKeyspace i batch)

variable {st st' : MVCCStorage K V} {t t' : Transaction K V}

theorem handle_effect {n : Nat} {dependency : CommitDependency K}
    (h : t.handle st n dependency = (st', t')) (hpc : t.pc.stage = .pending) : Effect st t st' := by
  unfold Transaction.handle at h
  split at h
  · cases h
    exact .same
  · split at h
    · cases h
      exact .same
    · cases h
      exact .record _ _ hpc (by assumption) (.of_handle (by assumption))

theorem validateFromDisk_alike {isCommitted : List (Nat × Bool)}
    {commits : List (Nat × CommitRecord K V)} {r r' : CommitRecord K V}
    (h : validateFromDisk isCommitted r commits = some (.ok r')) : r.Alike r' := by
  induction commits generalizing r with
  | nil =>
    obtain rfl := Except.ok.inj (Option.some.inj h)
    exact .refl r
  | cons p rest ih =>
    rw [validateFromDisk] at h
    split at h
    · cases h
    · exact ih h
    · split at h
      · exact (CommitRecord.Alike.of_handle (by assumption)).trans (ih h)
      · cases h

theorem step_effect [DecidableEq V] (h : t.step st = some (st', t')) : Effect st t st' := by
  cases hpc : t.pc <;> simp only [Transaction.step, hpc] at h
  case incrementReaders w =>
    cases h
    exact .increment w hpc
  case decrementReaders w a =>
    cases h
    exact .decrement w a hpc
  case sequencedWrite =>
    cases h
    exact .write hpc
  case persist b =>
    cases h
    exact .persist b hpc
  case createWindows =>
    cases h
    exact .create hpc
  case raiseValidated =>
    cases h
    exact .raise hpc
  case setPending | setValidated | setAborted | setApplied =>
    cases h
    exact .mark _ (by rw [hpc]; rfl)
  case setRecord =>
    split at h <;> cases h
    · exact .setRecord hpc (by assumption)
    · exact .same
  case diskCommits stop isCommitted =>
    repeat' split at h
    all_goals cases h
    · exact .same
    · exact .same
    · exact .same
    · exact .record _ _ (by rw [hpc]; rfl) (by assumption)
        (validateFromDisk_alike (by assumption))
  case resolve | await =>
    repeat' split at h
    all_goals first
      | contradiction
      | exact handle_effect (Option.some.inj h) (by rw [hpc]; rfl)
      | cases h
        exact .same
  case incrementExchange candidate w a =>
    split at h <;> cases h
    · exact .exchange candidate w a hpc (by assumption)
    · exact .same
  case freePop w wm a =>
    split at h
    · rename_i hfront
      subst hfront
      split at h <;> cases h
      · exact .same
      · exact .pop wm a _ hpc (by assumption)
    · cases h
      exact .same
  case writeKeyspaces batches =>
    cases batches <;> cases h
    · exact .same
    · exact .keyspace _ _ _ hpc
  -- every other place only moves the thread
  all_goals
    repeat' split at h
    all_goals first
      | contradiction
      | cases h
        exact .same

theorem Pc.marker_ne_empty {pc : Pc K V} {marker : SlotMarker} (h : pc.marker = some marker) :
    marker ≠ .empty := by
  rintro rfl
  cases pc <;> cases h

section Outcome
variable (h : Effect st t st')
include h

theorem Effect.slot_ne_empty {n : Nat} (hn : st.slotStatus n ≠ .empty) :
    st'.slotStatus n ≠ .empty := by
  cases h with
  | create hpc =>
    rw [setTimeline, (createWindowsTo_slots _ _).1]
    exact hn
  | mark marker hpc =>
    change update st.slotStatus t.commitSequenceNumber marker n ≠ .empty
    by_cases hc : n = t.commitSequenceNumber
    · rw [hc, update_self]
      exact Pc.marker_ne_empty hpc
    · rw [update_of_ne hc]
      exact hn
  | pop watermark a tl hpc htl =>
    rw [setTimeline, (popFront_eq_some htl).2.2.1]
    exact hn
  | _ => exact hn

theorem Effect.commitRecords {n : Nat} (hn : st'.commitRecords n ≠ none) :
    st.commitRecords n ≠ none ∨
      n = t.commitSequenceNumber ∧ (t.pc = .setRecord ∨ t.pc.stage = .pending) := by
  cases h with
  | create hpc =>
    obtain ⟨more, heq⟩ := st.toTimeline.createWindowsTo_spec t.commitSequenceNumber
    rw [setTimeline, heq] at hn
    exact .inl hn
  | setRecord hpc hr =>
    by_cases hc : n = t.commitSequenceNumber
    · exact .inr ⟨hc, .inl hpc⟩
    · refine .inl ?_
      change update st.commitRecords _ _ n ≠ none at hn
      rwa [update_of_ne hc] at hn
  | record r r' hpc hr halike =>
    by_cases hc : n = t.commitSequenceNumber
    · exact .inr ⟨hc, .inr hpc⟩
    · refine .inl ?_
      change update st.commitRecords _ _ n ≠ none at hn
      rwa [update_of_ne hc] at hn
  | pop watermark a tl hpc htl =>
    rw [setTimeline, (popFront_eq_some htl).2.2.2.1] at hn
    exact .inl hn
  | _ => exact .inl hn

theorem Effect.front : st'.front = st.front ∨
    ∃ watermark a, t.pc = .freePop st.front watermark a ∧ st'.front = windowEnd st.front ∧
      st'.backEnd = st.backEnd ∧ st'.readers = st.readers := by
  cases h with
  | create hpc =>
    obtain ⟨more, heq⟩ := st.toTimeline.createWindowsTo_spec t.commitSequenceNumber
    rw [setTimeline, heq]
    exact .inl rfl
  | pop watermark a tl hpc htl =>
    obtain ⟨hback, hfront, -, -, hreaders, -⟩ := popFront_eq_some htl
    exact .inr ⟨watermark, a, hpc, hfront, hback, hreaders⟩
  | _ => exact .inl rfl

theorem Effect.le : st.nextSequenceNumber ≤ st'.nextSequenceNumber ∧ st.watermark ≤ st'.watermark ∧
      st.backEnd ≤ st'.backEnd := by
  cases h with
  | write hpc => exact ⟨Nat.le_succ _, le_rfl, le_rfl⟩
  | create hpc =>
    exact ⟨le_rfl, (st.toTimeline.createWindowsTo_slots _).2.ge,
      st.toTimeline.backEnd_le_createWindowsTo _⟩
  | exchange candidate window a hpc hw =>
    refine ⟨le_rfl, ?_, le_rfl⟩
    change st.watermark ≤ candidate
    omega
  | pop watermark a tl hpc htl =>
    obtain ⟨hback, -, -, -, -, hwatermark⟩ := popFront_eq_some htl
    exact ⟨le_rfl, hwatermark.ge, hback.ge⟩
  | _ => exact ⟨le_rfl, le_rfl, le_rfl⟩

theorem Effect.slotStatus : st'.slotStatus = st.slotStatus ∨ ∃ marker, t.pc.marker = some marker ∧
      st'.slotStatus = update st.slotStatus t.commitSequenceNumber marker := by
  cases h with
  | create hpc => exact .inl (st.toTimeline.createWindowsTo_slots _).1
  | mark marker hpc => exact .inr ⟨marker, hpc, rfl⟩
  | pop watermark a tl hpc htl => exact .inl (popFront_eq_some htl).2.2.1
  | _ => exact .inl rfl

theorem Effect.record_cases : st'.commitRecords = st.commitRecords ∨
    t.pc = .setRecord ∧ st.commitRecords t.commitSequenceNumber = none ∧ st'.commitRecords =
        update st.commitRecords t.commitSequenceNumber (some t.commitRecord) ∨
    t.pc.stage = .pending ∧ ∃ r r', st.commitRecords t.commitSequenceNumber = some r ∧ r.Alike r' ∧
      st'.commitRecords = update st.commitRecords t.commitSequenceNumber (some r') := by
  cases h with
  | create hpc =>
    obtain ⟨more, heq⟩ := st.toTimeline.createWindowsTo_spec t.commitSequenceNumber
    rw [setTimeline, heq]
    exact .inl rfl
  | setRecord hpc hr => exact .inr (.inl ⟨hpc, hr, rfl⟩)
  | record r r' hpc hr halike => exact .inr (.inr ⟨hpc, r, r', hr, halike, rfl⟩)
  | pop watermark a tl hpc htl => exact .inl (popFront_eq_some htl).2.2.2.1
  | _ => exact .inl rfl

theorem Effect.record_ne_none {n : Nat} (hn : st.commitRecords n ≠ none) :
    st'.commitRecords n ≠ none := by
  rcases h.record_cases with heq | ⟨-, -, heq⟩ | ⟨-, r, r', -, -, heq⟩
  · rw [heq]
    exact hn
  all_goals
    rw [heq, update_apply]
    split_ifs
    · simp
    · exact hn

theorem Effect.watermark : st'.watermark = st.watermark ∨ ∃ candidate window a,
    t.pc = .incrementExchange candidate window a ∧ st.watermark = candidate - 1 ∧
      st'.watermark = candidate := by
  cases h with
  | create hpc => exact .inl (st.toTimeline.createWindowsTo_slots _).2
  | exchange candidate window a hpc hw => exact .inr ⟨candidate, window, a, hpc, hw, rfl⟩
  | pop watermark a tl hpc htl => exact .inl (popFront_eq_some htl).2.2.2.2.2
  | _ => exact .inl rfl

theorem Effect.highest_le :
    st.highestValidatedSequenceNumber ≤ st'.highestValidatedSequenceNumber := by
  cases h with
  | raise hpc => exact le_max_left _ _
  | _ => exact le_rfl

end Outcome

end TypeDB.Storage
