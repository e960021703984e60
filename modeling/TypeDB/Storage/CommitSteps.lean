import TypeDB.Storage.CommitInvariant

/-! The ways in which a step changes the shared state, each with what it keeps. -/

namespace TypeDB.Storage
open Threads Spares Function Option Log

variable {K V : Type*} [LinearOrder K]

section Shared
variable {first n : Nat} {st : MVCCStorage K V} {r r₀ : CommitRecord K V}

theorem StorageOk.not_done_lt (h : StorageOk first st) (hn : first < n) (hd : ¬ st.Done n) :
    st.watermark < n := by
  by_contra hle
  exact hd (h.done n hn (not_lt.mp hle))

theorem StorageOk.lt_next (h : StorageOk first st) (hs : st.slotStatus n ≠ .empty) :
    first < n ∧ n < st.nextSequenceNumber := by
  obtain ⟨-, r₀, -, hr₀, -⟩ := h.record n hs
  obtain ⟨h₁, h₂⟩ := h.wellFormed.bounds hr₀
  have := h.watermark_lt_next
  omega

theorem MVCCStorage.Done.ne_empty (h : st.Done n) : st.slotStatus n ≠ .empty := by
  rcases h with h | h <;> simp [h]

theorem StorageOk.setReaders (h : StorageOk first st) (readers : Nat → Nat) :
    StorageOk first (st.setTimeline { st.toTimeline with readers := readers }) :=
  { h with }

theorem Spares.setReaders (own : Option Nat) (st : MVCCStorage K V) (readers : Nat → Nat) :
    Spares own st (st.setTimeline { st.toTimeline with readers := readers }) :=
  { refl own st with }

section Changes
variable (h : StorageOk first st)
include h

theorem StorageOk.createWindows (own : Option Nat) (n : Nat) :
    StorageOk first (st.setTimeline (st.toTimeline.createWindowsTo n)) ∧
      Spares own st (st.setTimeline (st.toTimeline.createWindowsTo n)) := by
  have hback := st.toTimeline.backEnd_le_createWindowsTo n
  obtain ⟨more, heq⟩ := st.toTimeline.createWindowsTo_spec n
  rw [heq] at hback ⊢
  exact ⟨{ h with
    watermark_lt_back := h.watermark_lt_back.trans_le hback
    slot_lt_back := fun m hm => (h.slot_lt_back m hm).trans_le hback },
    { refl own st with back_le := hback }⟩

theorem StorageOk.popFront (own : Option Nat) {watermark : Nat} (hw : watermark ≤ st.watermark)
    (hend : windowEnd st.front ≤ watermark) :
    ∃ tl, st.popFront = some tl ∧ StorageOk first (st.setTimeline tl) ∧
      Spares own st (st.setTimeline tl) := by
  cases hpop : st.popFront with
  | none =>
    have := Timeline.popFront_eq_none hpop
    have := h.watermark_lt_back
    omega
  | some tl =>
    obtain ⟨hb, hf, hs, hr, -, hwm⟩ := Timeline.popFront_eq_some hpop
    obtain ⟨front, more, slotStatus, commitRecords, readers, wm⟩ := tl
    obtain rfl : slotStatus = st.slotStatus := hs
    obtain rfl : commitRecords = st.commitRecords := hr
    obtain rfl : wm = st.watermark := hwm
    have hfront : front ≤ st.watermark + 1 := by
      have : front = windowEnd st.front := hf
      omega
    exact ⟨_, rfl, { h with
      watermark_lt_back := hb ▸ h.watermark_lt_back
      front_le := hfront
      slot_lt_back := fun m hm => hb ▸ h.slot_lt_back m hm },
      { refl own st with back_le := hb.ge }⟩

theorem StorageOk.setRecord (hslot : st.slotStatus n = .empty ∨ st.slotStatus n = .pending)
    (hr₀ : st.log.commitAt n = some r₀) (halike : r₀.Alike r) :
    StorageOk first (st.setTimeline (st.toTimeline.setRecord n r)) ∧
      Spares (some n) st (st.setTimeline (st.toTimeline.setRecord n r)) := by
  have hother : ∀ m, m ≠ n → (st.toTimeline.setRecord n r).commitRecords m = st.commitRecords m :=
    fun m hm => update_of_ne hm _ _
  constructor
  · refine { h with record := fun m hm => ?_, validated := fun m r' hm hr' => ?_ }
    · by_cases hmn : m = n
      · subst hmn
        exact ⟨r, r₀, update_self _ _ _, hr₀, halike⟩
      · obtain ⟨r', r₀', hr', hr₀', ha⟩ := h.record m hm
        exact ⟨r', r₀', (hother m hmn).trans hr', hr₀', ha⟩
    · by_cases hmn : m = n
      · subst hmn
        change st.slotStatus m = .validated ∨ st.slotStatus m = .applied at hm
        rcases hslot with hs | hs <;> simp [hs] at hm
      · exact h.validated m r' hm ((hother m hmn).symm.trans hr')
  · exact { refl (some n) st with
      record := fun m hm => hother m fun hmn => hm (congrArg some hmn.symm) }

theorem StorageOk.setStatus (marker : SlotMarker) (hnd : ¬ st.Done n) (hback : n < st.backEnd)
    (hr : st.commitRecords n = some r) (hr₀ : st.log.commitAt n = some r₀) (halike : r₀.Alike r)
    (hvalid : marker = .validated ∨ marker = .applied → st.log.outcome n = some r)
    (habort : marker = .aborted → st.log.outcome n = none)
    (hversion : marker = .validated ∨ marker = .applied ∨ st.Unwritten n)
    (happlied : marker = .applied → st.Durable n ∧ st.Written n) :
    StorageOk first (st.setTimeline (st.toTimeline.setStatus n marker)) ∧
      Spares (some n) st (st.setTimeline (st.toTimeline.setStatus n marker)) := by
  have hother : ∀ m, m ≠ n → (st.toTimeline.setStatus n marker).slotStatus m = st.slotStatus m :=
    fun m hm => update_of_ne hm _ _
  have hself : (st.toTimeline.setStatus n marker).slotStatus n = marker :=
    update_self _ _ _
  have hdone : ∀ m, st.Done m → m ≠ n := fun m hm hmn => hnd (hmn ▸ hm)
  constructor
  · have hlt := h.not_done_lt (h.wellFormed.bounds hr₀).1 hnd
    refine { h with
      slot_lt_back := fun m hm => ?_
      record := fun m hm => ?_
      validated := fun m r' hm hr' => ?_
      aborted := fun m hm => ?_
      done := fun m hf hm => ?_
      version := fun i k m v hv => ?_
      complete := fun m hm => ?_
      status := fun m b hb => ?_ }
    all_goals by_cases hmn : m = n
    · exact hmn ▸ hback
    · exact h.slot_lt_back m fun he => hm ((hother m hmn).trans he)
    · subst hmn
      exact ⟨r, r₀, hr, hr₀, halike⟩
    · exact h.record m fun he => hm ((hother m hmn).trans he)
    · subst hmn
      obtain rfl : r' = r := some.inj (hr'.symm.trans hr)
      exact hvalid (hm.imp hself.symm.trans hself.symm.trans)
    · exact h.validated m r' (hm.imp (hother m hmn).symm.trans (hother m hmn).symm.trans) hr'
    · subst hmn
      exact habort (hself.symm.trans hm)
    · exact h.aborted m ((hother m hmn).symm.trans hm)
    · change m ≤ st.watermark at hm
      omega
    · exact (h.done m hf hm).imp (hother m hmn).trans (hother m hmn).trans
    · subst hmn
      obtain ⟨-, hdur, hout⟩ := h.version i k m v hv
      refine ⟨?_, hdur, hout⟩
      rcases hversion with hm | hm | hm
      · exact .inl (hself.trans hm)
      · exact .inr (hself.trans hm)
      · have hnone := hm i k
        change st.keyspaces i k m = some v at hv
        rw [hnone] at hv
        cases hv
    · obtain ⟨hs, hdur, hout⟩ := h.version i k m v hv
      exact ⟨hs.imp (hother m hmn).trans (hother m hmn).trans, hdur, hout⟩
    · subst hmn
      exact happlied (hself.symm.trans hm)
    · exact h.complete m ((hother m hmn).symm.trans hm)
    · subst hmn
      have hs := h.status m b hb
      refine absurd ?_ hnd
      cases b
      · exact .inr hs
      · exact .inl hs
    · exact (hother m hmn).trans (h.status m b hb)
  · exact { refl (some n) st with
      slot := fun m hm => hother m fun hmn => hm (congrArg some hmn.symm)
      done := fun m hm => ⟨hother m (hdone m hm), fun _ _ => rfl⟩ }

theorem StorageOk.raiseHighest (own : Option Nat) (n : Nat) :
    StorageOk first (st.raiseHighest n) ∧ Spares own st (st.raiseHighest n) :=
  ⟨{ h with }, { refl own st with highest_le := le_max_left _ _ }⟩

theorem StorageOk.setWatermark (own : Option Nat) (hn : st.watermark + 1 = n) (hd : st.Done n) :
    StorageOk first (st.setWatermark n) ∧ Spares own st (st.setWatermark n) := by
  have hnext := (h.lt_next hd.ne_empty).2
  have hback := h.slot_lt_back n hd.ne_empty
  have hle : st.watermark ≤ n := by omega
  refine ⟨{ h with
    first_le := h.first_le.trans hle
    watermark_lt_next := hnext
    watermark_lt_back := hback
    front_le := h.front_le.trans (Nat.add_le_add_right hle 1)
    done := fun m hf hm => ?_ }, { refl own st with watermark_le := hle }⟩
  change m ≤ n at hm
  rcases Nat.lt_or_ge m n with hlt | hge
  · exact h.done m hf (by omega)
  · obtain rfl : m = n := by omega
    exact hd

theorem StorageOk.writeKeyspace {i : KeyspaceId} {batch : WriteBatch K V}
    (hslot : st.slotStatus n = .validated) (hout : st.log.outcome n = some r)
    (hbatch : writeBatch r.operations n i = some batch) (hdur : st.Durable n) :
    StorageOk first (st.writeKeyspace i batch) ∧ Spares (some n) st (st.writeKeyspace i batch) ∧
      ∀ j k m, (st.writeKeyspace i batch).keyspaces j k m =
        if j = i ∧ m = n then (r.operations.version i k).or (st.keyspaces i k n)
        else st.keyspaces j k m := by
  have hkey : ∀ j k m, (st.writeKeyspace i batch).keyspaces j k m =
      if j = i ∧ m = n then (r.operations.version i k).or (st.keyspaces i k n)
      else st.keyspaces j k m := by
    intro j k m
    by_cases hj : j = i
    · subst hj
      simp only [MVCCStorage.writeKeyspace, update_self, true_and]
      exact Keyspace.write_writeBatch hbatch _ _ _
    · simp [MVCCStorage.writeKeyspace, hj]
  refine ⟨?_, ?_, hkey⟩
  · refine { h with version := fun j k m v hv => ?_, complete := fun m hm => ?_ }
    · rw [hkey] at hv
      split_ifs at hv with hjm
      · obtain ⟨rfl, rfl⟩ := hjm
        refine ⟨.inl hslot, hdur, r, hout, ?_⟩
        cases hver : r.operations.version j k with
        | some v' => rw [hver, some_or] at hv; exact hv
        | none =>
          rw [hver, none_or] at hv
          obtain ⟨-, -, r', hr', hv'⟩ := h.version j k m v hv
          obtain rfl : r' = r := some.inj (hr'.symm.trans hout)
          exact hver.symm.trans hv'
      · exact h.version j k m v hv
    · obtain ⟨hd, hw⟩ := h.complete m hm
      refine ⟨hd, fun r' hr' j k => ?_⟩
      have hmn : m ≠ n := by
        rintro rfl
        change st.slotStatus m = _ at hm
        rw [hslot] at hm
        cases hm
      rw [hkey, if_neg fun hjm => hmn hjm.2]
      exact hw r' hr' j k
  · refine { refl (some n) st with
      versions := fun m hm j k => ?_
      done := fun m hm => ⟨rfl, fun j k => ?_⟩ }
    · rw [hkey, if_neg fun hjm => hm (congrArg some hjm.2.symm)]
    · have hmn : m ≠ n := by
        rintro rfl
        rcases hm with hm | hm <;> simp [hslot] at hm
      rw [hkey, if_neg fun hjm => hmn hjm.2]

theorem StorageOk.sequencedWrite (hopen : r.openSequenceNumber ≤ st.watermark) :
    StorageOk first (st.sequencedWrite r) ∧
      Spares (some st.nextSequenceNumber) st (st.sequencedWrite r) ∧
      st.slotStatus st.nextSequenceNumber = .empty ∧
      (st.sequencedWrite r).log.commitAt st.nextSequenceNumber = some r ∧
      (st.sequencedWrite r).log.statusAt st.nextSequenceNumber = none := by
  have hnext := h.watermark_lt_next
  have hlast : st.nextSequenceNumber - 1 + 1 = st.nextSequenceNumber := by omega
  have hempty : st.slotStatus st.nextSequenceNumber = .empty := by
    by_contra hne
    exact lt_irrefl _ (h.lt_next hne).2
  have hnone : st.log.commitAt st.nextSequenceNumber = none :=
    h.wellFormed.commitAt_eq_none (by omega)
  have hcommits : ∀ n < st.nextSequenceNumber,
      (st.sequencedWrite r).log.commitAt n = st.log.commitAt n := by
    intro n hn
    simp [MVCCStorage.sequencedWrite, commitAt_append_commit, hn.ne']
  have hstatuses : ∀ n, (st.sequencedWrite r).log.statusAt n = st.log.statusAt n := fun n =>
    statusAt_append_commit _ _ _ _
  have hspares : Spares (some st.nextSequenceNumber) st (st.sequencedWrite r) :=
    { refl (some st.nextSequenceNumber) st with
      commits := hcommits
      extends_log := ⟨_, rfl⟩
      statuses := fun n _ => hstatuses n
      next_le := Nat.le_succ _ }
  have hdurable : ∀ n, st.Durable n → (st.sequencedWrite r).Durable n := fun n ⟨r', hr'⟩ =>
    ⟨r', hspares.position hr'⟩
  refine ⟨?_, hspares, hempty, ?_, ?_⟩
  · have hlt : ∀ n, st.slotStatus n ≠ .empty → n < st.nextSequenceNumber := fun n hn =>
      (h.lt_next hn).2
    have hwf : WellFormed first st.nextSequenceNumber (st.sequencedWrite r).log := by
      have := h.wellFormed.commit r (by omega)
      rwa [hlast] at this
    refine { h with
      wellFormed := hwf
      watermark_lt_next := Nat.lt_succ_of_lt hnext
      record := fun n hn => ?_
      validated := fun n r' hn hr' => ?_
      aborted := fun n hn => ?_
      version := fun i k n v hv => ?_
      complete := fun n hn => ?_
      status := fun n b hb => h.status n b ((hstatuses n).symm.trans hb)
      synced_le := h.synced_le.trans (List.length_append ▸ Nat.le_add_right _ _) }
    · obtain ⟨r', r₀, hr', hr₀, ha⟩ := h.record n hn
      exact ⟨r', r₀, hr', (hcommits n (hlt n hn)).trans hr₀, ha⟩
    · have hne : st.slotStatus n ≠ .empty := by
        rcases hn with hn | hn <;>
          · change st.slotStatus n = _ at hn
            simp [hn]
      exact (hspares.outcome (hlt n hne)).trans (h.validated n r' hn hr')
    · have hne : st.slotStatus n ≠ .empty := by
        change st.slotStatus n = _ at hn
        simp [hn]
      exact (hspares.outcome (hlt n hne)).trans (h.aborted n hn)
    · obtain ⟨hs, hd, r', hr', hv'⟩ := h.version i k n v hv
      have hne : st.slotStatus n ≠ .empty := by rcases hs with hs | hs <;> simp [hs]
      exact ⟨hs, hdurable n hd, r', (hspares.outcome (hlt n hne)).trans hr', hv'⟩
    · have hne : st.slotStatus n ≠ .empty := by
        change st.slotStatus n = _ at hn
        simp [hn]
      obtain ⟨hd, hw⟩ := h.complete n hn
      refine ⟨hdurable n hd, fun r' hr' => hw r' ?_⟩
      exact (hspares.outcome (hlt n hne)).symm.trans hr'
  · simp [MVCCStorage.sequencedWrite, commitAt_append_commit, hnone]
  · rw [hstatuses]
    cases hs : st.log.statusAt st.nextSequenceNumber with
    | none => rfl
    | some b =>
      obtain ⟨r', hr'⟩ := h.wellFormed.commitAt_of_statusAt hs
      rw [hnone] at hr'
      cases hr'

theorem StorageOk.persist {b : Bool} (hslot : st.slotStatus n = if b then .applied else .aborted)
    (hnone : st.log.statusAt n = none) :
    StorageOk first (st.persistCommitStatus n b) ∧
      Spares (some n) st (st.persistCommitStatus n b) := by
  have hcommits : ∀ m, (st.persistCommitStatus n b).log.commitAt m = st.log.commitAt m := fun m =>
    commitAt_append_status _ _ _ _ _
  have hspares : Spares (some n) st (st.persistCommitStatus n b) := by
    refine { refl (some n) st with
      commits := fun m _ => hcommits m
      extends_log := ⟨_, rfl⟩
      statuses := fun m hm => ?_ }
    have hne : n ≠ m := fun h => hm (congrArg some h)
    simp [MVCCStorage.persistCommitStatus, statusAt_append_status, hne]
  have hout : ∀ m, (st.persistCommitStatus n b).log.outcome m = st.log.outcome m := fun m =>
    outcome_congr fun p _ => hcommits p
  have hdurable : ∀ m, st.Durable m → (st.persistCommitStatus n b).Durable m := fun m ⟨r', hr'⟩ =>
    ⟨r', hspares.position hr'⟩
  refine ⟨?_, hspares⟩
  have hrec : st.log.commitAt n ≠ none := by
    obtain ⟨-, r₀, -, hr₀, -⟩ := h.record n (by cases b <;> simp [hslot])
    simp [hr₀]
  have hwf := h.wellFormed.status n b hrec hnone
  refine { h with
    wellFormed := hwf
    record := fun m hm => ?_
    validated := fun m r' hm hr' => (hout m).trans (h.validated m r' hm hr')
    aborted := fun m hm => (hout m).trans (h.aborted m hm)
    version := fun i k m v hv => ?_
    complete := fun m hm => ?_
    status := fun m b' hb' => ?_
    synced_le := h.synced_le.trans (List.length_append ▸ Nat.le_add_right _ _) }
  · obtain ⟨r', r₀, hr', hr₀, ha⟩ := h.record m hm
    exact ⟨r', r₀, hr', (hcommits m).trans hr₀, ha⟩
  · obtain ⟨hs, hd, r', hr', hv'⟩ := h.version i k m v hv
    exact ⟨hs, hdurable m hd, r', (hout m).trans hr', hv'⟩
  · obtain ⟨hd, hw⟩ := h.complete m hm
    exact ⟨hdurable m hd, fun r' hr' => hw r' ((hout m).symm.trans hr')⟩
  · have happend : (st.persistCommitStatus n b).log.statusAt m =
        (st.log.statusAt m).or (if n = m then some b else none) :=
      statusAt_append_status _ _ _ _ _
    rw [happend] at hb'
    cases hs : st.log.statusAt m with
    | some b'' =>
      rw [hs, some_or] at hb'
      exact h.status m b' (hs.trans hb')
    | none =>
      rw [hs, none_or] at hb'
      split_ifs at hb' with hnm
      obtain rfl := hnm
      cases hb'
      exact hslot

theorem StorageOk.sync (own : Option Nat) : StorageOk first st.sync ∧ Spares own st st.sync := by
  have hdurable : ∀ n, st.Durable n → st.sync.Durable n := by
    rintro n ⟨r', hr'⟩
    refine ⟨r', ?_⟩
    have happend := commitAt_append_of_some (st.log.drop st.synced) hr'
    rw [List.take_append_drop] at happend
    change commitAt (st.log.take st.log.length) n = some r'
    rwa [List.take_length]
  refine ⟨{ h with
    version := fun i k n v hv => ?_
    complete := fun n hn => (h.complete n hn).imp_left (hdurable n)
    synced_le := le_rfl }, { refl own st with synced_le := h.synced_le }⟩
  obtain ⟨hs, hd, hout⟩ := h.version i k n v hv
  exact ⟨hs, hdurable n hd, hout⟩

end Changes

end Shared

end TypeDB.Storage
