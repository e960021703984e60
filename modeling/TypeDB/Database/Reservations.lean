import TypeDB.Foundations.Counting
import TypeDB.Foundations.Runs

/-! Reservations of write and schema transactions: the state behind the exclusivity lock, the
queue of requests that wait, and the hand-over of a reservation through a channel to a requester
that may have given up. An attempt is one call of `reserve` with what its caller does after. -/

namespace TypeDB.Database
open Counting Option Runs

inductive Kind
  | write
  | schema
  deriving DecidableEq

variable {ι : Type}

/-- `SchemaWriteTransactionState`. A request holds the sender of a channel without capacity, whose
receiver is the attempt that made it. -/
structure Guard (ι : Type) where
  hasSchemaTransaction : Bool
  runningWriteTransactions : Nat
  notifyQueue : List (Kind × ι)

/-- `reserve_write_transaction` with the lock: whether the reservation is given at once. -/
def Guard.reserveWriteTransaction (guard : Guard ι) (i : ι) : Bool × Guard ι :=
  if guard.hasSchemaTransaction || !guard.notifyQueue.isEmpty then
    (false, { guard with notifyQueue := guard.notifyQueue ++ [(.write, i)] })
  else (true, { guard with runningWriteTransactions := guard.runningWriteTransactions + 1 })

def Guard.reserveSchemaTransaction (guard : Guard ι) (i : ι) : Bool × Guard ι :=
  if guard.hasSchemaTransaction || decide (guard.runningWriteTransactions > 0) ||
      !guard.notifyQueue.isEmpty then
    (false, { guard with notifyQueue := guard.notifyQueue ++ [(.schema, i)] })
  else (true, { guard with hasSchemaTransaction := true })

def Guard.reserve (guard : Guard ι) (i : ι) : Kind → Bool × Guard ι
  | .write => guard.reserveWriteTransaction i
  | .schema => guard.reserveSchemaTransaction i

/-- What a release does before it looks at the requests, and whether it does look. -/
def Guard.release (guard : Guard ι) : Kind → Bool × Guard ι
  | .write =>
    let running := guard.runningWriteTransactions - 1
    (decide (running = 0), { guard with runningWriteTransactions := running })
  | .schema => (true, { guard with hasSchemaTransaction := false })

/-- One round of `fulfill_reservation_requests`: the request that is taken off the queue. -/
def Guard.nextRequest (guard : Guard ι) : Option ((Kind × ι) × Guard ι) :=
  match guard.notifyQueue with
  | [] => none
  | (.schema, r) :: rest =>
    if guard.runningWriteTransactions > 0 then none
    else some ((.schema, r), { guard with notifyQueue := rest })
  | (.write, r) :: rest => some ((.write, r), { guard with notifyQueue := rest })

inductive Attempt (ι : Type)
  | idle
  | acquiring (kind : Kind)
  /-- In `recv_timeout`. -/
  | waiting (kind : Kind)
  | timedOut
  | holding (kind : Kind)
  /-- The caller is done and waits for the lock. -/
  | releasing (kind : Kind)
  /-- In the loop of `fulfill_reservation_requests`, with the lock. -/
  | fulfilling
  | sending (kind : Kind) (requester : ι)
  /-- The request was received and is yet to be counted. -/
  | recording (kind : Kind) (requester : ι)
  | released

structure State (ι : Type) where
  guard : Guard ι
  lock : Option ι
  attempts : ι → Attempt ι

def State.new : State ι := ⟨⟨false, 0, []⟩, none, fun _ => .idle⟩

inductive Action (ι : Type)
  | reserve (i : ι) (kind : Kind)
  | timeOut (i : ι)
  | release (i : ι)
  | run (i : ι)

variable [DecidableEq ι] (s : State ι)

def State.set (i : ι) (attempt : Attempt ι) : State ι :=
  { s with attempts := Function.update s.attempts i attempt }

/-- The next thing attempt `i` does. The part of `reserve` between taking and dropping the lock is
one step, and so is that of a release that does not look at the requests. -/
def State.proceed (i : ι) : Option (State ι) :=
  match s.attempts i with
  | .acquiring kind =>
    if s.lock.isSome then none
    else
      let (granted, guard) := s.guard.reserve i kind
      some ({ s with guard := guard }.set i (if granted then .holding kind else .waiting kind))
  | .releasing kind =>
    if s.lock.isSome then none
    else
      let (fulfills, guard) := s.guard.release kind
      if fulfills then some ({ s with guard := guard, lock := some i }.set i .fulfilling)
      else some ({ s with guard := guard }.set i .released)
  | .fulfilling =>
    match s.guard.nextRequest with
    | none => some ({ s with lock := none }.set i .released)
    | some ((kind, r), guard) => some ({ s with guard := guard }.set i (.sending kind r))
  | .sending kind r =>
    match s.attempts r with
    | .waiting kind' => some ((s.set r (.holding kind')).set i (.recording kind r))
    | .timedOut => some (s.set i .fulfilling)
    | _ => none
  | .recording .schema _ =>
    some ({ s with guard := { s.guard with hasSchemaTransaction := true }, lock := none }.set i
      .released)
  | .recording .write _ =>
    some ({ s with guard := { s.guard with
      runningWriteTransactions := s.guard.runningWriteTransactions + 1 } }.set i .fulfilling)
  | _ => none

def State.step : Action ι → Option (State ι)
  | .reserve i kind =>
    match s.attempts i with
    | .idle => some (s.set i (.acquiring kind))
    | _ => none
  | .timeOut i =>
    match s.attempts i with
    | .acquiring _ => some (s.set i .timedOut)
    | .waiting _ => some (s.set i .timedOut)
    | _ => none
  | .release i =>
    match s.attempts i with
    | .holding kind => some (s.set i (.releasing kind))
    | _ => none
  | .run i => s.proceed i

def Attempt.Holds (kind : Kind) : Attempt ι → Prop
  | .holding k => k = kind
  | .releasing k => k = kind
  | _ => False

def Attempt.fulfills : Attempt ι → Prop
  | .fulfilling => True
  | .sending _ _ => True
  | .recording _ _ => True
  | _ => False

variable {kind : Kind}

omit [DecidableEq ι] in
theorem Attempt.Holds.not_fulfills {a : Attempt ι} (h : a.Holds kind) : ¬ a.fulfills := by
  cases a <;> first | exact h.elim | exact id

omit [DecidableEq ι] in
theorem Attempt.Holds.unique {kind kind' : Kind} {a : Attempt ι} (h : a.Holds kind)
    (h' : a.Holds kind') : kind = kind' := by
  cases a <;> first | exact h.elim | exact h.symm.trans h'

def State.InFlight (i : ι) : Prop := ∃ j k, s.attempts j = .recording k i

def State.Granted (kind : Kind) (i : ι) : Prop :=
  (s.attempts i).Holds kind ∧ ¬ s.InFlight i

structure State.Ok (s : State ι) : Prop where
  lock : ∀ i, (s.attempts i).fulfills ↔ s.lock = some i
  distinct : (s.guard.notifyQueue.map Prod.snd).Nodup
  queued : ∀ k r, (k, r) ∈ s.guard.notifyQueue → s.attempts r = .waiting k ∨ s.attempts r = .timedOut
  sending : ∀ i k r, s.attempts i = .sending k r →
    (s.attempts r = .waiting k ∨ s.attempts r = .timedOut) ∧
      r ∉ s.guard.notifyQueue.map Prod.snd
  recording : ∀ i k r, s.attempts i = .recording k r → (s.attempts r).Holds k
  fulfilling : ∀ i, (s.attempts i).fulfills → s.guard.hasSchemaTransaction = false
  schema : ∀ i r, s.attempts i = .sending .schema r ∨ s.attempts i = .recording .schema r →
    s.guard.runningWriteTransactions = 0
  exclusive : s.guard.hasSchemaTransaction = true → s.guard.runningWriteTransactions = 0
  writes : Counted (s.Granted .write) s.guard.runningWriteTransactions
  schemas : Counted (s.Granted .schema) s.guard.hasSchemaTransaction.toNat

section Steps
variable {s s' : State ι} {i : ι} {b : Attempt ι}

@[simp, grind =]
theorem State.attempts_set (s : State ι) (i j : ι) (b : Attempt ι) :
    (s.set i b).attempts j = if j = i then b else s.attempts j := by
  simp [State.set, Function.update_apply]

@[simp, grind =]
theorem State.guard_set (s : State ι) (i : ι) (b : Attempt ι) : (s.set i b).guard = s.guard := rfl

@[simp, grind =]
theorem State.lock_set (s : State ι) (i : ι) (b : Attempt ι) : (s.set i b).lock = s.lock := rfl

open Attempt

theorem State.inFlight_set (hf : ¬ (s.attempts i).fulfills) (hf' : ¬ b.fulfills) (r : ι) :
    (s.set i b).InFlight r ↔ s.InFlight r := by
  constructor
  · rintro ⟨j, k, hj⟩
    exact ⟨j, k, by grind [fulfills]⟩
  · rintro ⟨j, k, hj⟩
    exact ⟨j, k, by grind [fulfills]⟩

theorem State.granted_set (hf : ¬ (s.attempts i).fulfills) (hf' : ¬ b.fulfills)
    (hholds : ∀ kind, b.Holds kind ↔ (s.attempts i).Holds kind) (kind : Kind) (j : ι) :
    s.Granted kind j ↔ (s.set i b).Granted kind j := by
  rw [Granted, Granted, inFlight_set hf hf']
  grind

theorem State.Ok.neutral (h : s.Ok) (hf : ¬ (s.attempts i).fulfills) (hf' : ¬ b.fulfills)
    (hholds : ∀ kind, b.Holds kind ↔ (s.attempts i).Holds kind)
    (hwait : ∀ k, s.attempts i = .waiting k ∨ s.attempts i = .timedOut → b = .timedOut) :
    (s.set i b).Ok := by
  constructor
  case writes => exact h.writes.congr (granted_set hf hf' hholds .write)
  case schemas => exact h.schemas.congr (granted_set hf hf' hholds .schema)
  all_goals grind [fulfills, cases State.Ok]

theorem State.Ok.enqueue (h : s.Ok) (hi : s.attempts i = .acquiring kind) :
    ({ s with guard := { s.guard with notifyQueue := s.guard.notifyQueue ++ [(kind, i)] } }.set i
      (.waiting kind)).Ok := by
  have hf : ¬ (s.attempts i).fulfills := by simp [hi, fulfills]
  have hf' : ¬ (waiting kind : Attempt ι).fulfills := by simp [fulfills]
  have hgranted := granted_set hf hf' (by simp [hi, Holds])
  have hnew : i ∉ s.guard.notifyQueue.map Prod.snd := by
    intro hmem
    obtain ⟨⟨k, r⟩, hr, rfl⟩ := List.mem_map.mp hmem
    have := h.queued k r hr
    simp [hi] at this
  constructor
  case distinct =>
    simpa [List.nodup_append] using ⟨h.distinct, fun r k hr heq => hnew (heq ▸ List.mem_map_of_mem hr)⟩
  case writes => exact h.writes.congr (hgranted .write)
  case schemas => exact h.schemas.congr (hgranted .schema)
  all_goals grind [fulfills, Holds, cases State.Ok]

omit [DecidableEq ι] in
theorem State.granted_iff_holds (h : ∀ j k r, s.attempts j ≠ .recording k r) (kind : Kind) (j : ι) :
    s.Granted kind j ↔ (s.attempts j).Holds kind :=
  and_iff_left fun ⟨i, k, hi⟩ => h i k j hi

omit [DecidableEq ι] in
theorem State.Ok.not_fulfills (h : s.Ok) (hlock : s.lock = none) (j : ι) :
    ¬ (s.attempts j).fulfills := by
  rw [h.lock, hlock]
  simp

theorem State.Ok.grant {guard : Guard ι} (h : s.Ok)
    (hi : s.attempts i = .acquiring kind) (hlock : s.lock = none) (hqueue : guard.notifyQueue = [])
    (hfree : s.guard.hasSchemaTransaction = false)
    (hcount : match kind with
      | .write => guard.hasSchemaTransaction = false ∧
          guard.runningWriteTransactions = s.guard.runningWriteTransactions + 1
      | .schema => guard.hasSchemaTransaction = true ∧ guard.runningWriteTransactions = 0 ∧
          s.guard.runningWriteTransactions = 0) :
    ({ s with guard := guard }.set i (.holding kind)).Ok := by
  have hnof := h.not_fulfills hlock
  have hbefore : ∀ kind j, s.Granted kind j ↔ _ := granted_iff_holds (by grind [fulfills])
  have hafter : ∀ kind' j, ({ s with guard := guard }.set i (.holding kind)).Granted kind' j ↔ _ :=
    granted_iff_holds (by grind [fulfills])
  constructor
  case distinct => simp [hqueue]
  case writes =>
    cases kind with
    | write =>
      rw [guard_set, hcount.2]
      refine h.writes.add (i := i) ?_ fun j => ?_ <;> grind [Holds]
    | schema =>
      rw [guard_set, hcount.2.1, ← hcount.2.2]
      refine h.writes.congr fun j => ?_
      grind [Holds]
  case schemas =>
    cases kind with
    | write =>
      rw [guard_set, hcount.1, ← hfree]
      refine h.schemas.congr fun j => ?_
      grind [Holds]
    | schema =>
      have hschemas := hfree ▸ h.schemas
      rw [guard_set, hcount.1]
      refine hschemas.add (i := i) ?_ fun j => ?_ <;> grind [Holds]
  all_goals grind [fulfills, cases State.Ok]

theorem State.Ok.takeBack {guard : Guard ι} {lock : Option ι} (h : s.Ok)
    (hi : s.attempts i = .releasing kind) (hlock : s.lock = none)
    (hqueue : guard.notifyQueue = s.guard.notifyQueue)
    (hcount : match kind with
      | .write => guard.hasSchemaTransaction = s.guard.hasSchemaTransaction ∧
          guard.runningWriteTransactions = s.guard.runningWriteTransactions - 1
      | .schema => guard.hasSchemaTransaction = false ∧
          guard.runningWriteTransactions = s.guard.runningWriteTransactions)
    (hnext : b = .released ∧ lock = none ∨ b = .fulfilling ∧ lock = some i) :
    ({ s with guard := guard, lock := lock }.set i b).Ok := by
  have hnof := h.not_fulfills hlock
  have hbefore : ∀ kind j, s.Granted kind j ↔ _ := granted_iff_holds (by grind [fulfills])
  have hafter : ∀ kind' j, ({ s with guard := guard, lock := lock }.set i b).Granted kind' j ↔ _ :=
    granted_iff_holds (by grind [fulfills])
  -- a write reservation that is released was counted, so there is no schema transaction
  have hwrite : kind = .write → s.guard.hasSchemaTransaction = false := by
    rintro rfl
    have hpos := h.writes.pos ((hbefore .write i).mpr (by simp [hi, Holds]))
    grind [cases State.Ok]
  constructor
  case distinct => simpa [hqueue] using h.distinct
  case writes =>
    cases kind with
    | write =>
      rw [guard_set, hcount.2]
      refine h.writes.remove (i := i) ?_ fun j => ?_ <;> grind [Holds]
    | schema =>
      rw [guard_set, hcount.2]
      refine h.writes.congr fun j => ?_
      grind [Holds]
  case schemas =>
    cases kind with
    | write =>
      rw [guard_set, hcount.1]
      refine h.schemas.congr fun j => ?_
      grind [Holds]
    | schema =>
      rw [guard_set, hcount.1]
      have hheld : s.Granted .schema i := (hbefore .schema i).mpr (by simp [hi, Holds])
      have hone : s.guard.hasSchemaTransaction.toNat - 1 = 0 := by
        cases s.guard.hasSchemaTransaction <;> rfl
      rw [show false.toNat = s.guard.hasSchemaTransaction.toNat - 1 from hone.symm]
      refine h.schemas.remove hheld fun j => ?_
      grind [Holds]
  all_goals cases kind <;> grind [fulfills, cases State.Ok]

omit [DecidableEq ι] in
theorem State.Ok.only_fulfills (h : s.Ok) (hi : (s.attempts i).fulfills) {j : ι}
    (hj : (s.attempts j).fulfills) : j = i :=
  some.inj (((h.lock j).mp hj).symm.trans ((h.lock i).mp hi))

theorem State.Ok.serve {queue : List (Kind × ι)} {lock : Option ι} (h : s.Ok)
    (hi : (s.attempts i).fulfills) (hrec : ∀ k r, s.attempts i ≠ .recording k r)
    (hb : b = .released ∧ lock = none ∧ queue = s.guard.notifyQueue ∨
      b = .fulfilling ∧ lock = s.lock ∧ queue = s.guard.notifyQueue ∨
      ∃ kind r, b = .sending kind r ∧ lock = s.lock ∧ s.guard.notifyQueue = (kind, r) :: queue ∧
        (kind = .schema → s.guard.runningWriteTransactions = 0)) :
    ({ s with guard := { s.guard with notifyQueue := queue }, lock := lock }.set i b).Ok := by
  have hother := fun j => h.only_fulfills hi (j := j)
  have hnorec : ∀ j k r, s.attempts j ≠ .recording k r := by
    intro j k r hj
    have hji := hother j (by rw [hj]; trivial)
    exact hrec k r (hji ▸ hj)
  have hbefore : ∀ kind j, s.Granted kind j ↔ _ := granted_iff_holds hnorec
  have hafter : ∀ kind j, ({ s with
      guard := { s.guard with notifyQueue := queue }, lock := lock }.set i b).Granted kind j ↔
        (s.attempts j).Holds kind := by
    intro kind j
    rw [granted_iff_holds (by grind)]
    have hnot : (s.attempts j).Holds kind → _ := Holds.not_fulfills
    grind [Holds]
  constructor
  case writes => exact h.writes.congr fun j => by rw [hbefore, hafter]
  case schemas => exact h.schemas.congr fun j => by rw [hbefore, hafter]
  all_goals grind [fulfills, cases State.Ok]

theorem State.Ok.rendezvous {kind kind' : Kind} {r : ι} (h : s.Ok)
    (hi : s.attempts i = .sending kind r) (hr : s.attempts r = .waiting kind') :
    ((s.set r (.holding kind')).set i (.recording kind r)).Ok := by
  have hother := fun j => h.only_fulfills (i := i) (j := j) (by rw [hi]; trivial)
  have hnorec : ∀ j k r, s.attempts j ≠ .recording k r := by
    intro j k r hj
    have := hother j (by rw [hj]; trivial)
    grind
  have hbefore : ∀ kind j, s.Granted kind j ↔ _ := granted_iff_holds hnorec
  have hflight : ∀ j, ((s.set r (.holding kind')).set i (.recording kind r)).InFlight j ↔ j = r := by
    intro j
    constructor
    · rintro ⟨j', k, hj'⟩
      grind
    · rintro rfl
      exact ⟨i, kind, by simp⟩
  have hafter : ∀ kind'' j, ((s.set r (.holding kind')).set i (.recording kind r)).Granted kind'' j ↔
      (s.attempts j).Holds kind'' := by
    intro kind'' j
    rw [Granted, hflight]
    grind [Holds]
  obtain ⟨hwait, hnotin⟩ := h.sending i kind r hi
  obtain rfl : kind' = kind := by grind
  constructor
  case queued =>
    intro k q hq
    have hne : q ≠ r := fun heq => hnotin (heq ▸ List.mem_map_of_mem hq)
    have := h.queued k q hq
    grind
  case writes => exact h.writes.congr fun j => by rw [hbefore, hafter]
  case schemas => exact h.schemas.congr fun j => by rw [hbefore, hafter]
  all_goals grind [fulfills, Holds, cases State.Ok]

theorem State.Ok.record {r : ι} {guard : Guard ι} {lock : Option ι} (h : s.Ok)
    (hi : s.attempts i = .recording kind r) (hqueue : guard.notifyQueue = s.guard.notifyQueue)
    (hcount : match kind with
      | .write => guard.hasSchemaTransaction = s.guard.hasSchemaTransaction ∧
          guard.runningWriteTransactions = s.guard.runningWriteTransactions + 1 ∧
          b = .fulfilling ∧ lock = s.lock
      | .schema => guard.hasSchemaTransaction = true ∧
          guard.runningWriteTransactions = s.guard.runningWriteTransactions ∧
          b = .released ∧ lock = none) :
    ({ s with guard := guard, lock := lock }.set i b).Ok := by
  have hother := fun j => h.only_fulfills (i := i) (j := j) (by rw [hi]; trivial)
  have hheld := h.recording i kind r hi
  have hflight : ∀ j, s.InFlight j ↔ j = r := by
    intro j
    constructor
    · rintro ⟨j', k, hj'⟩
      have := hother j' (by rw [hj']; trivial)
      grind
    · rintro rfl
      exact ⟨i, kind, hi⟩
  have hbefore : ∀ kind' j, s.Granted kind' j ↔ (s.attempts j).Holds kind' ∧ j ≠ r := by
    intro kind' j
    rw [Granted, hflight]
  have hafter : ∀ kind' j, ({ s with guard := guard, lock := lock }.set i b).Granted kind' j ↔
      (s.attempts j).Holds kind' := by
    intro kind' j
    have hnorec : ∀ j k q,
        ({ s with guard := guard, lock := lock }.set i b).attempts j ≠ .recording k q := by
      intro j k q hj
      have := hother j
      cases kind <;> grind [fulfills]
    rw [granted_iff_holds hnorec]
    cases kind <;> grind [Holds]
  have hfree := h.fulfilling i (by rw [hi]; trivial)
  have hzero := h.schema i r
  have hkind : ∀ kind', (s.attempts r).Holds kind' → kind = kind' := fun _ => hheld.unique
  constructor
  case distinct => simpa [hqueue] using h.distinct
  case writes =>
    cases kind with
    | write =>
      rw [guard_set, hcount.2.1]
      refine h.writes.add (i := r) ?_ fun j => ?_ <;> grind [Holds]
    | schema =>
      rw [guard_set, hcount.2.1]
      refine h.writes.congr fun j => ?_
      grind [Holds]
  case schemas =>
    cases kind with
    | write =>
      rw [guard_set, hcount.1]
      refine h.schemas.congr fun j => ?_
      grind [Holds]
    | schema =>
      have hschemas := hfree ▸ h.schemas
      rw [guard_set, hcount.1]
      refine hschemas.add (i := r) ?_ fun j => ?_ <;> grind [Holds]
  all_goals cases kind <;> grind [fulfills, cases State.Ok]

open Guard

theorem State.Ok.acquire (h : s.Ok) (hi : s.attempts i = .acquiring kind)
    (hlock : s.lock = none) :
    ({ s with guard := (s.guard.reserve i kind).2 }.set i
      (if (s.guard.reserve i kind).1 then .holding kind else .waiting kind)).Ok := by
  cases kind with
  | write =>
    by_cases hwait : s.guard.hasSchemaTransaction || !s.guard.notifyQueue.isEmpty
    · simpa [reserve, reserveWriteTransaction, hwait] using h.enqueue hi
    · simp only [reserve, reserveWriteTransaction, if_neg hwait]
      simp only [Bool.or_eq_true, not_or, Bool.not_eq_true, Bool.not_eq_false',
        List.isEmpty_iff] at hwait
      refine h.grant hi hlock ?_ hwait.1 ⟨?_, rfl⟩
      · exact hwait.2
      · exact hwait.1
  | schema =>
    by_cases hwait : s.guard.hasSchemaTransaction ||
        decide (s.guard.runningWriteTransactions > 0) || !s.guard.notifyQueue.isEmpty
    · simpa [reserve, reserveSchemaTransaction, hwait] using h.enqueue hi
    · simp only [reserve, reserveSchemaTransaction, if_neg hwait]
      simp only [Bool.or_eq_true, not_or, Bool.not_eq_true, Bool.not_eq_false',
        List.isEmpty_iff, decide_eq_false_iff_not, not_lt, Nat.le_zero] at hwait
      refine h.grant hi hlock ?_ hwait.1.1 ⟨rfl, ?_, hwait.1.2⟩
      · exact hwait.2
      · exact hwait.1.2

theorem State.Ok.fulfill (h : s.Ok) (hi : s.attempts i = .fulfilling)
    (hstep : (match s.guard.nextRequest with
      | none => some ({ s with lock := none }.set i .released)
      | some ((kind, r), guard) => some ({ s with guard := guard }.set i (.sending kind r))) =
        some s') : s'.Ok := by
  have hf : (s.attempts i).fulfills := by rw [hi]; trivial
  have hrec : ∀ k r, s.attempts i ≠ .recording k r := by simp [hi]
  unfold nextRequest at hstep
  cases hqueue : s.guard.notifyQueue with
  | nil =>
    simp only [hqueue, some.injEq] at hstep
    subst hstep
    exact h.serve hf hrec (.inl ⟨rfl, rfl, rfl⟩)
  | cons request rest =>
    obtain ⟨kind, r⟩ := request
    cases kind with
    | write =>
      simp only [hqueue, some.injEq] at hstep
      subst hstep
      exact h.serve hf hrec (.inr (.inr ⟨.write, r, rfl, rfl, hqueue, by simp⟩))
    | schema =>
      simp only [hqueue] at hstep
      by_cases hrunning : s.guard.runningWriteTransactions > 0
      · simp only [if_pos hrunning, some.injEq] at hstep
        subst hstep
        exact h.serve hf hrec (.inl ⟨rfl, rfl, rfl⟩)
      · simp only [if_neg hrunning, some.injEq] at hstep
        subst hstep
        exact h.serve hf hrec (.inr (.inr ⟨.schema, r, rfl, rfl, hqueue, fun _ => by omega⟩))

theorem State.Ok.proceed (h : s.Ok) (hstep : s.proceed i = some s') : s'.Ok := by
  unfold State.proceed at hstep
  cases hi : s.attempts i with
  | acquiring kind =>
    simp only [hi] at hstep
    split at hstep
    · cases hstep
    · rename_i hlock
      cases hstep
      exact h.acquire hi (not_isSome_iff_eq_none.mp hlock)
  | releasing kind =>
    simp only [hi] at hstep
    split_ifs at hstep with hlock hfulfills
    · cases hstep
      refine h.takeBack hi (not_isSome_iff_eq_none.mp hlock) ?_ ?_ (.inr ⟨rfl, rfl⟩)
      · cases kind <;> rfl
      · cases kind <;> exact ⟨rfl, rfl⟩
    · have hnone := not_isSome_iff_eq_none.mp hlock
      cases hstep
      refine h.takeBack hi hnone ?_ ?_ (.inl ⟨rfl, hnone⟩)
      · cases kind <;> rfl
      · cases kind <;> exact ⟨rfl, rfl⟩
  | fulfilling =>
    simp only [hi] at hstep
    exact h.fulfill hi hstep
  | sending kind r =>
    have hf : (s.attempts i).fulfills := by rw [hi]; trivial
    have hrec : ∀ k r, s.attempts i ≠ .recording k r := by simp [hi]
    simp only [hi] at hstep
    split at hstep
    · rename_i kind' hr
      cases hstep
      exact h.rendezvous hi hr
    · cases hstep
      exact h.serve hf hrec (.inr (.inl ⟨rfl, rfl, rfl⟩))
    · cases hstep
  | recording kind r =>
    cases kind <;> simp only [hi, some.injEq] at hstep <;> subst hstep
    · exact h.record hi rfl ⟨rfl, rfl, rfl, rfl⟩
    · exact h.record hi rfl ⟨rfl, rfl, rfl, rfl⟩
  | _ => simp [hi] at hstep

theorem State.Ok.step {action : Action ι} (h : s.Ok) (hstep : s.step action = some s') : s'.Ok := by
  cases action with
  | run i => exact h.proceed hstep
  | _ =>
    simp only [State.step] at hstep
    split at hstep <;> cases hstep
    all_goals
      rename_i hi
      refine h.neutral ?_ ?_ ?_ ?_ <;> simp [hi, fulfills, Holds]

theorem State.holding_proceed {j : ι} (h : s.attempts i = .holding kind)
    (hstep : s.proceed j = some s') : s'.attempts i = .holding kind := by
  rw [State.proceed] at hstep
  split at hstep <;> grind

theorem State.holding_step {action : Action ι} (h : s.attempts i = .holding kind)
    (hrelease : action ≠ .release i) (hstep : s.step action = some s') :
    s'.attempts i = .holding kind := by
  cases action with
  | run j => exact State.holding_proceed h hstep
  | _ =>
    simp only [State.step] at hstep
    split at hstep <;> grind

omit [DecidableEq ι] in
theorem State.ok_new : (State.new : State ι).Ok := by
  constructor
  case writes | schemas => exact counted_zero fun i h => h.1
  all_goals simp [State.new, fulfills]

theorem State.ok_of_reaches (h : Reaches State.step State.new s) : s.Ok :=
  h.invariant ok_new fun _ _ _ hok _ hs => hok.step hs

omit [DecidableEq ι] in
theorem State.Ok.alone {j : ι} (h : s.Ok) (hi : (s.attempts i).Holds .schema)
    (hj : (s.attempts j).Holds kind) : i = j := by
  have hgranted : ∀ k q, (s.attempts q).Holds k → s.Granted k q ∨ s.InFlight q := by
    intro k q hq
    by_cases hf : s.InFlight q
    · exact .inr hf
    · exact .inl ⟨hq, hf⟩
  have hschemas : ∀ q, s.Granted .schema q → s.guard.hasSchemaTransaction = true := by
    intro q hq
    have := h.schemas.pos hq
    cases hs : s.guard.hasSchemaTransaction with
    | true => rfl
    | false => simp [hs] at this
  -- a hand-over is only under way while there is no schema transaction
  have hflight : ∀ q, s.InFlight q → s.guard.hasSchemaTransaction = false := by
    rintro q ⟨p, k, hp⟩
    exact h.fulfilling p (by rw [hp]; trivial)
  rcases hgranted .schema i hi with hgi | ⟨p, k, hp⟩
  · have hhas := hschemas i hgi
    rcases hgranted kind j hj with hgj | hfj
    · cases kind with
      | write =>
        have := h.writes.pos hgj
        rw [h.exclusive hhas] at this
        exact absurd this (lt_irrefl 0)
      | schema => exact h.schemas.eq_of_le_one (by simp [hhas]) hgi hgj
    · simp [hflight j hfj] at hhas
  · obtain rfl := hi.unique (h.recording p k i hp)
    have hfree := hflight i ⟨p, _, hp⟩
    rcases hgranted kind j hj with hgj | ⟨q, k', hq⟩
    · cases kind with
      | write =>
        have := h.writes.pos hgj
        rw [h.schema p i (.inr hp)] at this
        exact absurd this (lt_irrefl 0)
      | schema => simp [hschemas j hgj] at hfree
    · obtain rfl := h.only_fulfills (i := q) (j := p) (by rw [hq]; trivial) (by rw [hp]; trivial)
      rw [hp] at hq
      cases hq
      rfl

end Steps

/-- In every state reached, a schema reservation excludes all others; the counters are the numbers
of reservations received and counted; and between critical sections every reservation that was
received is counted. -/
theorem reservations_exclusive {s : State ι} (h : Reaches State.step State.new s) :
    (∀ i j kind, (s.attempts i).Holds .schema → (s.attempts j).Holds kind → i = j) ∧
      Counted (s.Granted .write) s.guard.runningWriteTransactions ∧
      Counted (s.Granted .schema) s.guard.hasSchemaTransaction.toNat ∧
      (s.lock = none → ∀ kind i, (s.attempts i).Holds kind ↔ s.Granted kind i) := by
  have hok := State.ok_of_reaches h
  refine ⟨fun i j kind => hok.alone, hok.writes, hok.schemas, fun hlock kind i => ?_⟩
  refine (State.granted_iff_holds (fun j k r hj => ?_) kind i).symm
  exact hok.not_fulfills hlock j (by rw [hj]; trivial)

def timedOutAhead : List (Action Nat) :=
  [.reserve 0 .write, .run 0, .reserve 1 .schema, .run 1, .reserve 2 .write, .run 2, .timeOut 1,
    .release 0] ++ List.replicate 7 (.run 0)

theorem timedOutAhead_run : (run State.step State.new timedOutAhead).isSome := by decide

def timedOutAheadEnd : State Nat := (run State.step State.new timedOutAhead).get timedOutAhead_run

theorem timedOutAhead_counted :
    timedOutAheadEnd.guard.runningWriteTransactions = 1 ∧
      Counted (timedOutAheadEnd.Granted .write) timedOutAheadEnd.guard.runningWriteTransactions :=
  ⟨by decide, (reservations_exclusive (reaches_of_run (some_get timedOutAhead_run).symm)).2.1⟩

section Waiting
variable {s s' : State ι} {i : ι}

open Attempt Guard

/-- No request is lost, and none waits for nothing. -/
structure State.Kept (s : State ι) : Prop where
  waiting : ∀ k r, s.attempts r = .waiting k →
    (k, r) ∈ s.guard.notifyQueue ∨ ∃ i, s.lock = some i ∧ s.attempts i = .sending k r
  busy : s.lock = none → s.guard.notifyQueue ≠ [] →
    s.guard.hasSchemaTransaction = true ∨ 0 < s.guard.runningWriteTransactions

theorem State.Kept.proceed (h : s.Kept) (hok : s.Ok) (hstep : s.proceed i = some s') :
    s'.Kept := by
  have hlock := hok.lock i
  unfold State.proceed at hstep
  cases hi : s.attempts i with simp only [hi] at hstep
  | acquiring kind =>
    cases kind <;> constructor <;>
      grind [reserve, reserveWriteTransaction, reserveSchemaTransaction, cases State.Kept]
  | releasing kind => cases kind <;> constructor <;> grind [release, cases State.Kept]
  | fulfilling => constructor <;> grind [nextRequest, fulfills, cases State.Kept]
  | sending kind r => constructor <;> grind [fulfills, cases State.Kept, cases State.Ok]
  | recording kind r => cases kind <;> constructor <;> grind [fulfills, cases State.Kept]
  | _ => cases hstep

theorem State.Kept.step {action : Action ι} (h : s.Kept) (hok : s.Ok)
    (hstep : s.step action = some s') : s'.Kept := by
  cases action with
  | run i => exact h.proceed hok hstep
  | _ =>
    simp only [State.step] at hstep
    constructor <;> grind [cases State.Kept]

theorem State.kept_of_reaches (h : Reaches State.step State.new s) : s.Kept :=
  (h.invariant (P := fun s => s.Ok ∧ s.Kept) ⟨ok_new, by constructor <;> simp [State.new]⟩
    fun _ _ _ h _ hstep => ⟨h.1.step hstep, h.2.step h.1 hstep⟩).2

/-- While a request waits, a release that hands out reservations can go on, or the request is in
the queue and somebody has a reservation whose release will look at the queue. -/
theorem waiting_served (h : Reaches State.step State.new s) {r : ι}
    (hr : s.attempts r = .waiting kind) :
    (∃ i, s.lock = some i ∧ (s.proceed i).isSome) ∨
      s.lock = none ∧ (kind, r) ∈ s.guard.notifyQueue ∧ ∃ i k, (s.attempts i).Holds k := by
  have hok := State.ok_of_reaches h
  have hkept := State.kept_of_reaches h
  cases hlock : s.lock with
  | some i =>
    refine .inl ⟨i, rfl, ?_⟩
    have hi := (hok.lock i).mpr hlock
    rw [State.proceed]
    cases hat : s.attempts i with
    | sending k r => rcases (hok.sending i k r hat).1 with hwait | hwait <;> simp [hwait]
    | recording k r => cases k <;> rfl
    | fulfilling => cases s.guard.nextRequest <;> rfl
    | _ => simp [hat, fulfills] at hi
  | none =>
    have hmem := (hkept.waiting kind r hr).resolve_right (by simp [hlock])
    refine .inr ⟨rfl, hmem, ?_⟩
    by_contra hno
    have hnone : ∀ k i, ¬ s.Granted k i := fun k i hi => hno ⟨i, k, hi.1⟩
    have hwrites := hok.writes.eq_zero (hnone .write)
    have hschemas := hok.schemas.eq_zero (hnone .schema)
    rcases hkept.busy hlock (List.ne_nil_of_mem hmem) with hbusy | hbusy
    · simp [hbusy] at hschemas
    · omega

theorem timedOutAhead_served : ∃ s : State Nat, s.lock = none ∧ s.attempts 2 = .waiting .write ∧
    ∃ i k, (s.attempts i).Holds k := by
  let s : State Nat := (run State.step State.new (timedOutAhead.take 6)).get rfl
  have hr : Reaches State.step State.new s := reaches_of_run (some_get rfl).symm
  have hwait : s.attempts 2 = .waiting .write := rfl
  refine ⟨s, rfl, hwait, ?_⟩
  rcases waiting_served hr hwait with ⟨i, hi, -⟩ | ⟨-, -, hholds⟩
  · cases hi
  · exact hholds

end Waiting
end TypeDB.Database
