import TypeDB.Database.Reservations

/-! `Database::reset` among the reservations: it takes a schema reservation, has several ways out
before it gives the reservation back, and runs while nothing else uses the database. -/

namespace TypeDB.Database
open Runs Counting State Guard Attempt

/-- What a reset finds of the parts of the database: how many snapshots and readers refer to the
storage, whether its reset fails, and which other parts are referred to from elsewhere as well. -/
structure Parts where
  storageUsers : Nat
  storageResetFails : Bool
  definitionKeyGeneratorShared : Bool
  typeVertexGeneratorShared : Bool
  thingVertexGeneratorShared : Bool
  thingStatisticsShared : Bool

inductive ResetError
  | transaction
  | storageInUse
  | corruptionPartialResetStorageInUse
  | corruptionPartialResetKeyGeneratorInUse
  | corruptionPartialResetTypeVertexGeneratorInUse
  | corruptionPartialResetThingVertexGeneratorInUse
  deriving DecidableEq

inductive ResetOutcome
  | ok
  | error (error : ResetError)
  | panicked
  deriving DecidableEq

/-- `create` and `load` hand the storage to the statistics updater and to the checkpointer, which
run as long as the database is there. -/
def Parts.storageStrongCount (parts : Parts) : Nat := 1 + 2 + parts.storageUsers

/-- What `reset` does between taking its reservation and giving it back. -/
def Parts.reset (parts : Parts) : ResetOutcome :=
  -- `Arc::get_mut`
  if parts.storageStrongCount ≠ 1 then .error .storageInUse
  else if parts.storageResetFails then .error .corruptionPartialResetStorageInUse
  else if parts.definitionKeyGeneratorShared then .error .corruptionPartialResetKeyGeneratorInUse
  else if parts.typeVertexGeneratorShared then
    .error .corruptionPartialResetTypeVertexGeneratorInUse
  else if parts.thingVertexGeneratorShared then
    .error .corruptionPartialResetThingVertexGeneratorInUse
  else if parts.thingStatisticsShared then .panicked
  else .ok

theorem Parts.reset_eq (parts : Parts) : parts.reset = .error .storageInUse :=
  if_pos (by unfold storageStrongCount; omega)

variable {ι : Type} [DecidableEq ι]

/-- `Database::reset`, as attempt `i`. It has the database to itself, so the lock is free, and a
reservation that is not given at once is not given before the time is up. -/
def State.reset (s : State ι) (i : ι) (parts : Parts) : ResetOutcome × State ι :=
  let (granted, guard) := s.guard.reserveSchemaTransaction i
  if granted then
    match parts.reset with
    | .ok =>
      -- no request waits, since the reservation was given at once
      (.ok, { s with guard := (guard.release .schema).2 }.set i .released)
    | outcome => (outcome, { s with guard := guard }.set i .released)
  else (.error .transaction, { s with guard := guard }.set i .timedOut)

inductive Event (ι : Type)
  | act (action : Action ι)
  | reset (i : ι) (parts : Parts)

variable (s : State ι)

def State.stepEvent : Event ι → Option (State ι)
  | .act action => s.step action
  | .reset i parts => some (s.reset i parts).2

/-- No attempt is under way: a transaction holds the database, and so does who asks for one. -/
def State.Quiet : Prop :=
  ∀ i, s.attempts i = .idle ∨ s.attempts i = .timedOut ∨ s.attempts i = .released

/-- `reset` has the database as `&mut self`. -/
def Owned : Event ι → Prop
  | .act _ => True
  | .reset i _ => s.Quiet ∧ s.attempts i = .idle

/-- A reset that returns an error has given back the reservation it took, and the same
transactions are accepted as before it. -/
def State.Restores (i : ι) (parts : Parts) : Prop :=
  ∀ e, (s.reset i parts).1 = .error e →
    (s.reset i parts).2.guard.hasSchemaTransaction = s.guard.hasSchemaTransaction ∧
      ∀ j kind, ((s.reset i parts).2.guard.reserve j kind).1 = (s.guard.reserve j kind).1

/-- Requests wait only while something will look at them. -/
def State.Attended : Prop :=
  s.guard.notifyQueue ≠ [] →
    s.guard.hasSchemaTransaction = true ∨ 0 < s.guard.runningWriteTransactions ∨ s.lock.isSome

/-- The state a failed reset leaves: a schema reservation that no attempt has. -/
def State.Leaked : Prop :=
  s.guard.hasSchemaTransaction = true ∧
    ∀ i, s.attempts i = .idle ∨ s.attempts i = .timedOut ∨ s.attempts i = .released ∨
      ∃ kind, s.attempts i = .acquiring kind ∨ s.attempts i = .waiting kind

section Steps
variable {s s' : State ι} {i : ι} {parts : Parts}

theorem State.Attended.proceed (h : s.Attended) (hok : s.Ok) (hstep : s.proceed i = some s') :
    s'.Attended := by
  have hlock := hok.lock i
  unfold State.proceed at hstep
  cases hi : s.attempts i with
  | acquiring kind =>
    cases kind <;>
      grind [Attended, reserve, reserveWriteTransaction, reserveSchemaTransaction]
  | releasing kind => cases kind <;> grind [Attended, release]
  | fulfilling => grind [Attended, nextRequest, fulfills]
  | sending kind r => grind [Attended, fulfills]
  | recording kind r => cases kind <;> grind [Attended]
  | _ => simp [hi] at hstep

theorem State.Attended.step {action : Action ι} (h : s.Attended) (hok : s.Ok)
    (hstep : s.step action = some s') : s'.Attended := by
  cases action with
  | run i => exact h.proceed hok hstep
  | _ =>
    simp only [State.step] at hstep
    split at hstep <;> grind [State.Attended]

omit [DecidableEq ι] in
theorem Guard.reserve_of_schema {guard : Guard ι} (h : guard.hasSchemaTransaction = true) (j : ι)
    (kind : Kind) : (guard.reserve j kind).1 = false ∧
      (guard.reserve j kind).2.hasSchemaTransaction = true := by
  cases kind <;> simp [reserve, reserveWriteTransaction, reserveSchemaTransaction, h]

theorem State.Leaked.step {action : Action ι} (h : s.Leaked) (hstep : s.step action = some s') :
    s'.Leaked := by
  obtain ⟨hhas, hattempts⟩ := h
  cases action with
  | run i =>
    have hi := hattempts i
    simp only [State.step, State.proceed] at hstep
    rcases hi with hi | hi | hi | ⟨kind, hi | hi⟩ <;> simp only [hi, reduceCtorEq] at hstep
    obtain ⟨hgranted, hhas'⟩ := reserve_of_schema hhas i kind
    simp only [hgranted, Bool.false_eq_true, if_false] at hstep
    split_ifs at hstep with hlock
    cases hstep
    exact ⟨hhas', by grind⟩
  | _ =>
    simp only [State.step] at hstep
    split at hstep <;> grind [State.Leaked]

theorem State.reset_of_schema (h : s.guard.hasSchemaTransaction = true) (i : ι) (parts : Parts) :
    (s.reset i parts).1 = .error .transaction ∧
      (s.reset i parts).2.guard.hasSchemaTransaction = true := by
  simp [reset, reserveSchemaTransaction, h]

omit [DecidableEq ι] in
theorem State.guard_of_quiet (hok : s.Ok) (hattended : s.Attended) (hquiet : s.Quiet) :
    s.guard = ⟨false, 0, []⟩ := by
  have hidle : ∀ kind j, ¬ s.Granted kind j := by
    intro kind j hgranted
    have hholds := hgranted.1
    rcases hquiet j with hj | hj | hj <;> simp [hj, Holds] at hholds
  have hwrites := hok.writes.eq_zero (hidle .write)
  have hschemas := hok.schemas.eq_zero (hidle .schema)
  have hlock : s.lock = none := by
    cases hl : s.lock with
    | none => rfl
    | some j =>
      have hfulfills := (hok.lock j).mpr hl
      rcases hquiet j with hj | hj | hj <;> simp [hj, fulfills] at hfulfills
  have hhas : s.guard.hasSchemaTransaction = false := by simpa using hschemas
  have hqueue : s.guard.notifyQueue = [] := by
    by_contra hne
    simpa [hhas, hwrites, hlock] using hattended hne
  cases hguard : s.guard
  simp_all

theorem State.reset_of_free (h : s.guard = ⟨false, 0, []⟩) (i : ι) (parts : Parts) :
    s.reset i parts =
      (.error .storageInUse, { s with guard := ⟨true, 0, []⟩ }.set i .released) := by
  simp [reset, reserveSchemaTransaction, h, parts.reset_eq]

/-- Either every reservation is one that an attempt has, or a reset has left one behind. -/
theorem State.stepEvent_ok {event : Event ι} (howned : Owned s event)
    (h : (s.Ok ∧ s.Attended) ∨ s.Leaked) (hstep : s.stepEvent event = some s') :
    (s'.Ok ∧ s'.Attended) ∨ s'.Leaked := by
  cases event with
  | act action =>
    rcases h with ⟨hok, hattended⟩ | hleaked
    · exact .inl ⟨hok.step hstep, hattended.step hok hstep⟩
    · exact .inr (hleaked.step hstep)
  | reset i parts =>
    obtain ⟨hquiet, hi⟩ := howned
    cases hstep
    rcases h with ⟨hok, hattended⟩ | ⟨hhas, hattempts⟩
    · right
      rw [reset_of_free (guard_of_quiet hok hattended hquiet)]
      refine ⟨rfl, fun j => ?_⟩
      have hj := hquiet j
      grind
    · right
      have hreset := reset_of_schema hhas i parts
      refine ⟨hreset.2, fun j => ?_⟩
      have hj := hattempts j
      simp only [reset, reserveSchemaTransaction, hhas, Bool.true_or, if_true]
      grind

theorem State.ok_or_leaked (h : Reach stepEvent Owned new s) : (s.Ok ∧ s.Attended) ∨ s.Leaked :=
  h.invariant (.inl ⟨ok_new, fun hne => absurd rfl hne⟩)
    fun _ _ _ hinv howned hs => stepEvent_ok howned hinv hs

/-- A reset always fails. It leaves the reservation it takes, and only one that finds it taken
takes none. -/
theorem State.reset_restores_iff (h : Reach State.stepEvent Owned State.new s) (hquiet : s.Quiet)
    (i : ι) (parts : Parts) : s.Restores i parts ↔ s.guard.hasSchemaTransaction = true := by
  rcases ok_or_leaked h with ⟨hok, hattended⟩ | ⟨hhas, -⟩
  · have hfree := guard_of_quiet hok hattended hquiet
    rw [Restores, reset_of_free hfree, hfree]
    exact iff_of_false (fun hrestores => absurd (hrestores _ rfl).1 nofun) nofun
  · refine iff_of_true (fun e _ => ?_) hhas
    have hafter := (reset_of_schema hhas i parts).2
    refine ⟨hafter.trans hhas.symm, fun j kind => ?_⟩
    rw [(reserve_of_schema hafter j kind).1, (reserve_of_schema hhas j kind).1]

end Steps

omit [DecidableEq ι] in
theorem State.new_quiet : (new : State ι).Quiet := fun _ => .inl rfl

/-- No one else has a reference to any of the parts. -/
def ownParts : Parts := ⟨0, false, false, false, false, false⟩

/-- A new database on which a reset has failed. -/
def resetOnce : State Nat := (State.new.reset 0 ownParts).2

theorem resetOnce_reached : Reach State.stepEvent Owned State.new resetOnce :=
  .tail .refl (a := .reset 0 ownParts) ⟨new_quiet, rfl⟩ rfl

theorem resetOnce_quiet : resetOnce.Quiet := by
  intro j
  by_cases hj : j = 0
  · exact .inr (.inr (by rw [hj]; rfl))
  · left
    change Function.update _ _ _ _ = _
    rw [Function.update_of_ne hj]
    rfl

theorem resetOnce_restores : resetOnce.Restores 1 ownParts :=
  (reset_restores_iff resetOnce_reached resetOnce_quiet 1 ownParts).mpr rfl

/-- On a new database, with no one else at any of its parts: the reset fails, and after it neither
a write nor a schema transaction is accepted. -/
theorem reset_new_leaks : ∃ s : State Nat, Reach State.stepEvent Owned State.new s ∧
    s.Quiet ∧ ¬ s.Restores 0 ownParts ∧
    ∀ j kind, (s.guard.reserve j kind).1 = true ∧
      ((s.reset 0 ownParts).2.guard.reserve j kind).1 = false := by
  refine ⟨new, .refl, new_quiet, fun h => ?_, fun j kind => ?_⟩
  · exact absurd (h .storageInUse rfl).1 (by decide)
  · cases kind <;> exact ⟨rfl, rfl⟩

end TypeDB.Database
