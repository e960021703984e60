import TypeDB.Executor.Rows

/-! The `require` stage of a pipeline. It peeks at the row before it and steps on only with a row
that it gives: a row with a required variable unbound, or an error, is peeked at forever. -/

namespace TypeDB.Executor
open List

/-- What the stage before gives is a finite list of rows and errors. -/
structure RequireStageIterator (α ε : Type) where
  required : List Nat
  previous : List (Except ε (Row α))

namespace RequireStageIterator
variable {α ε : Type} [DecidableEq α]

/-- Whether all positions are bound in a row; one past its end panics. -/
def allBound (row : Row α) : List Nat → Option Bool
  | [] => some true
  | pos :: rest => do
    let value ← row.values[pos]?
    if value = ⊥ then some false else allBound row rest

/-- One call, with a bound on the rounds of its loop: `none` if it panics or has not returned. -/
def next : Nat → RequireStageIterator α ε →
    Option (Option (Except ε (Row α)) × RequireStageIterator α ε)
  | 0, _ => none
  | rounds + 1, it =>
    match it.previous with
    | [] => some (none, it)
    | .error err :: _ => some (some (.error err), it)
    | .ok row :: rest => do
      if ← allBound row it.required then some (some (.ok row), { it with previous := rest })
      else next rounds it

/-- All items up to the first `None`, within so many calls. -/
def drain (rounds : Nat) : Nat → RequireStageIterator α ε → Option (List (Except ε (Row α)))
  | 0, _ => none
  | calls + 1, it => do
    match ← next rounds it with
    | (none, _) => some []
    | (some item, it) => (drain rounds calls it).map (item :: ·)

/-- What the stage is for: the errors, and the rows with all required positions bound. -/
def passes (required : List Nat) : Except ε (Row α) → Bool
  | .error _ => true
  | .ok row => required.all fun pos => decide (row.get pos ≠ ⊥)

def Filters (it : RequireStageIterator α ε) : Prop :=
  ∃ rounds calls, it.drain rounds calls = some (it.previous.filter (passes it.required))

def IsBound (required : List Nat) (item : Except ε (Row α)) : Prop :=
  ∃ row, item = .ok row ∧ allBound row required = some true

variable {required : List Nat} {item : Except ε (Row α)} {rest : List (Except ε (Row α))}

theorem IsBound.passes (h : IsBound required item) : passes required item = true := by
  obtain ⟨row, rfl, hbound⟩ := h
  induction required with
  | nil => rfl
  | cons pos required ih =>
    cases hvalue : row.values[pos]? with
    | none => simp [allBound, hvalue] at hbound
    | some value =>
      by_cases hnone : value = ⊥
      · simp [allBound, hvalue, hnone] at hbound
      · have hrest := ih (by simpa [allBound, hvalue, hnone] using hbound)
        simp_all [RequireStageIterator.passes, Row.get]

theorem IsBound.drain (h : IsBound required item) (rounds calls : Nat) :
    drain (rounds + 1) (calls + 1) ⟨required, item :: rest⟩ =
      (drain (rounds + 1) calls ⟨required, rest⟩).map (item :: ·) := by
  obtain ⟨row, rfl, hbound⟩ := h
  simp [RequireStageIterator.drain, next, hbound]

theorem next_none {row : Row α} (h : allBound row required ≠ some true) (rounds : Nat) :
    next rounds (⟨required, .ok row :: rest⟩ : RequireStageIterator α ε) = none := by
  induction rounds with
  | zero => rfl
  | succ rounds ih =>
    cases hbound : allBound row required with
    | none => simp [next, hbound]
    | some bound =>
      cases bound with
      | false => simpa [next, hbound] using ih
      | true => exact absurd hbound h

/-- A row that is not given is never left behind, and neither is an error. -/
theorem drain_none (h : ¬ IsBound required item) (rounds calls : Nat) :
    drain rounds calls ⟨required, item :: rest⟩ = none := by
  induction calls with
  | zero => rfl
  | succ calls ih =>
    cases item with
    | error err =>
      cases rounds with
      | zero => rfl
      | succ rounds => simp [drain, next, ih]
    | ok row => simp [drain, next_none fun hbound => h ⟨row, rfl, hbound⟩]

/-- Draining the stage ends with what it is for exactly if there is nothing to drop and no error:
every item before it is a row with all required positions bound. -/
theorem filters_iff (it : RequireStageIterator α ε) :
    it.Filters ↔ ∀ item ∈ it.previous, IsBound it.required item := by
  obtain ⟨required, previous⟩ := it
  constructor
  · rintro ⟨rounds, calls, hdrain⟩
    induction previous generalizing calls with
    | nil => simp
    | cons item rest ih =>
      have hbound : IsBound required item := by
        by_contra h
        rw [drain_none h] at hdrain
        cases hdrain
      cases calls with
      | zero => cases hdrain
      | succ calls =>
        cases rounds with
        | zero => cases hdrain
        | succ rounds =>
          rw [hbound.drain, filter_cons_of_pos hbound.passes] at hdrain
          simp only [Option.map_eq_some_iff, cons.injEq, true_and, exists_eq_right] at hdrain
          exact forall_mem_cons.mpr ⟨hbound, ih calls hdrain⟩
  · intro hall
    refine ⟨1, previous.length + 1, ?_⟩
    rw [filter_eq_self.mpr fun item hitem => (hall item hitem).passes]
    induction previous with
    | nil => rfl
    | cons item rest ih =>
      obtain ⟨hbound, hrest⟩ := forall_mem_cons.mp hall
      rw [length_cons, hbound.drain, ih hrest]
      rfl

def unboundRow : RequireStageIterator Nat Unit := ⟨[0], [.ok ⟨[⊥], 1, 0⟩]⟩

def failed : RequireStageIterator Nat Unit := ⟨[0], [.error ()]⟩

/-- A row with nothing in it keeps `next` from returning; an error is given forever. -/
theorem unboundRow_failed_not_filters :
    (∀ rounds, unboundRow.next rounds = none) ∧ ¬ unboundRow.Filters ∧ ¬ failed.Filters := by
  have hrow : ∀ rounds, unboundRow.next rounds = none := next_none (by decide)
  have herror : ∀ rounds calls, failed.drain rounds calls = none :=
    drain_none fun ⟨_, h, _⟩ => by cases h
  refine ⟨hrow, ?_, ?_⟩
  · rintro ⟨rounds, calls, h⟩
    cases calls <;> simp [drain, hrow] at h
  · rintro ⟨rounds, calls, h⟩
    rw [herror] at h
    cases h

end RequireStageIterator

end TypeDB.Executor
