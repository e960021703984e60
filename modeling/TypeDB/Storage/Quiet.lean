import TypeDB.Storage.Handover

/-! Between transactions. From a state in which no thread is on its way, every transaction that
commits was opened at the watermark of that state or later. -/

namespace TypeDB.Storage
open Threads

variable {K V : Type*} [LinearOrder K]

def Pc.isQuiet : Pc K V → Bool
  | .idle | .committed | .rejected | .closed | .failed | .panicked => true
  | _ => false

def Pc.isReading : Pc K V → Bool
  | .recordReader | .incrementReaders _ | .opened => true
  | _ => false

structure Database.Settled (db : Database K V) : Prop where
  done : db.shared.watermark + 1 = db.shared.nextSequenceNumber
  threads : ∀ i, (db.threads i).pc.isQuiet = true

theorem Pc.handedOver_of_isQuiet {pc : Pc K V} (h : pc.isQuiet = true) : pc.handedOver = none := by
  cases pc <;> first | rfl | cases h

structure Database.Since (base : Nat) (db : Database K V) : Prop where
  watermark : base ≤ db.shared.watermark
  waiting : ∀ i target, (db.threads i).pc = .waiting target →
    (db.threads i).call.registers = true → (db.threads i).call.fixed = none
  reading : ∀ i, (db.threads i).pc.isReading = true → (db.threads i).call.registers = true →
    base ≤ (db.threads i).openSequenceNumber

theorem Database.Settled.since {db : Database K V} (h : db.Settled) :
    db.Since db.shared.watermark where
  watermark := le_rfl
  waiting i target hpc := by
    have := h.threads i
    rw [hpc] at this
    cases this
  reading i hpc := by
    have := h.threads i
    revert this hpc
    cases (db.threads i).pc <;> nofun

theorem After.pc_not_reading (a : After) :
    (a.pc : Pc K V).isReading = false ∧ ∀ target, (a.pc : Pc K V) ≠ .waiting target := by
  cases a <;> exact ⟨rfl, nofun⟩

theorem Pc.not_reading_of_owns {pc : Pc K V} (h : pc.stage.owns = true) :
    pc.isReading = false ∧ ∀ target, pc ≠ .waiting target := by
  cases pc <;> first | cases h; done | exact ⟨rfl, nofun⟩

section Steps
variable [DecidableEq V] {st st' : MVCCStorage K V} {t t' : Transaction K V} {first base : Nat}
  {db db' : Database K V} {a : Action K V}

theorem step_reading (h : t.step st = some (st', t')) :
    (∀ target, t'.pc ≠ .waiting target) ∧ (t'.pc.isReading = true → t'.call = t.call ∧
      ((∃ target, t.pc = .waiting target ∧ t'.openSequenceNumber = t.call.fixed.getD st.watermark) ∨
        t.pc.isReading = true ∧ t'.openSequenceNumber = t.openSequenceNumber)) := by
  have hnot : t'.pc.isReading = false ∧ (∀ target, t'.pc ≠ .waiting target) →
      (∀ target, t'.pc ≠ .waiting target) ∧ (t'.pc.isReading = true → t'.call = t.call ∧
        ((∃ target, t.pc = .waiting target ∧
            t'.openSequenceNumber = t.call.fixed.getD st.watermark) ∨
          t.pc.isReading = true ∧ t'.openSequenceNumber = t.openSequenceNumber)) :=
    fun hpc => ⟨hpc.2, fun hreading => absurd (hpc.1.symm.trans hreading) Bool.false_ne_true⟩
  unfold Transaction.step at h
  dsimp only at h
  repeat' split at h
  all_goals first
    | contradiction
    | exact hnot (Pc.not_reading_of_owns (handle_frame (Option.some.inj h)).2.1)
    | cases h
      exact hnot ⟨rfl, nofun⟩
    | cases h
      exact hnot (After.pc_not_reading _)
    | cases h
      exact ⟨nofun, fun _ => ⟨rfl, .inl ⟨_, by assumption, rfl⟩⟩⟩
    | have hpc : t.pc.isReading = true := by simp_all [Pc.isReading]
      cases h
      exact ⟨nofun, fun _ => ⟨rfl, .inr ⟨hpc, rfl⟩⟩⟩

theorem Database.Since.step (h : db.Since base) (hok : db.Ok first)
    (ha : ∀ i n, a ≠ .open i (.writeAt n)) (hstep : db.step a = some db') : db'.Since base := by
  have hev := (hok.step hstep).2
  have hthread : ∀ i, ((∀ target, (db'.threads i).pc = .waiting target →
      (db'.threads i).call.registers = true → (db'.threads i).call.fixed = none) ∧
      ((db'.threads i).pc.isReading = true → (db'.threads i).call.registers = true →
        base ≤ (db'.threads i).openSequenceNumber)) := by
    intro i
    by_cases hi : a.thread = some i
    swap
    · rw [step_threads hstep hi]
      exact ⟨h.waiting i, h.reading i⟩
    cases step_cases hstep with
    | sync => cases hi
    | call j a t hcall =>
      obtain rfl := Option.some.inj (hcall.thread.symm.trans hi)
      rw [System.move_self]
      cases hcall with
      | opening call target htarget hpc =>
        refine ⟨fun target _ hregisters => ?_, by rintro ⟨⟩⟩
        cases call with
        | writeAt n => exact absurd rfl (ha j n)
        | readAt n => cases hregisters
        | _ => rfl
      | _ => exact ⟨by rintro _ ⟨⟩, by rintro ⟨⟩⟩
    | run j st t hrun =>
      obtain rfl := Option.some.inj hi
      rw [System.move_self]
      obtain ⟨hnot, hreading⟩ := step_reading hrun
      refine ⟨fun target hpc => absurd hpc (hnot target), fun hpc hregisters => ?_⟩
      obtain ⟨hcall, ⟨target, hwaiting, hopen⟩ | ⟨hpc', hopen⟩⟩ := hreading hpc
      · rw [hopen, h.waiting j target hwaiting (hcall ▸ hregisters)]
        exact h.watermark
      · exact hopen ▸ h.reading j hpc' (hcall ▸ hregisters)
  exact ⟨h.watermark.trans hev.watermark_le, fun i => (hthread i).1, fun i => (hthread i).2⟩

end Steps
end TypeDB.Storage
