import Mathlib.Tactic

/-! Validation in a total order. Records are numbered; each was opened at an earlier number and
is resolved, in order, against the committed records between its opening and itself. A record
commits when every one of these resolutions succeeds, so that all decisions are a function of
the records alone. -/

namespace TypeDB.Validation
variable {R : Type*} (resolve : R → R → Option R) (opened : R → Nat)

section Against
variable (recs : Nat → Option R) (committed : Nat → Bool)

def against (r : R) (low : Nat) : Nat → Option R
  | 0 => some r
  | high + 1 => do
    let r ← against r low high
    if low ≤ high ∧ committed high then
      match recs high with
      | some p => resolve r p
      | none => some r
    else some r

def outcomeWith (n : Nat) : Option R := do
  let r ← recs n
  against resolve recs committed r (opened r + 1) n

end Against

def committedBelow (recs : Nat → Option R) : Nat → Nat → Bool
  | 0, _ => false
  | n + 1, p =>
    if p = n then (outcomeWith resolve opened recs (committedBelow recs n) n).isSome
    else committedBelow recs n p

def committed (recs : Nat → Option R) (n : Nat) : Bool :=
  committedBelow resolve opened recs (n + 1) n

def outcome (recs : Nat → Option R) (n : Nat) : Option R :=
  outcomeWith resolve opened recs (committed resolve opened recs) n

section Lemmas
variable {resolve : R → R → Option R} {opened : R → Nat} {recs recs' : Nat → Option R}
  {c c' : Nat → Bool} {r r' p : R} {low m n : Nat}

theorem against_of_le (h : n ≤ low) : against resolve recs c r low n = some r := by
  induction n with
  | zero => rfl
  | succ n ih =>
    have hlow : ¬ low ≤ n := by omega
    rw [against, ih (by omega)]
    simp [hlow]

theorem against_succ_committed (h : against resolve recs c r low n = some r') (hlow : low ≤ n)
    (hc : c n = true) (hp : recs n = some p) :
    against resolve recs c r low (n + 1) = resolve r' p := by
  rw [against, h]
  simp [hlow, hc, hp]

theorem against_succ_skip (h : against resolve recs c r low n = some r') (hc : c n = false) :
    against resolve recs c r low (n + 1) = some r' := by
  rw [against, h]
  simp [hc]

theorem against_none_mono (h : against resolve recs c r low m = none) (hle : m ≤ n) :
    against resolve recs c r low n = none := by
  induction n, hle using Nat.le_induction with
  | base => exact h
  | succ n _ ih =>
    rw [against, ih]
    rfl

theorem against_some_of_le (h : against resolve recs c r low n = some r') (hle : m ≤ n) :
    ∃ r'', against resolve recs c r low m = some r'' := by
  cases hm : against resolve recs c r low m with
  | some r'' => exact ⟨r'', rfl⟩
  | none =>
    rw [against_none_mono hm hle] at h
    cases h

theorem against_congr (hrecs : ∀ p < n, recs p = recs' p) (hc : ∀ p < n, c p = c' p) :
    against resolve recs c r low n = against resolve recs' c' r low n := by
  induction n with
  | zero => rfl
  | succ n ih =>
    rw [against, against, ih (fun p hp => hrecs p (by omega)) (fun p hp => hc p (by omega)),
      hrecs n (by omega), hc n (by omega)]

theorem committedBelow_eq (h : m < n) :
    committedBelow resolve opened recs n m = committed resolve opened recs m := by
  induction n with
  | zero => omega
  | succ n ih =>
    rcases Nat.lt_succ_iff_lt_or_eq.mp h with hlt | rfl
    · rw [committedBelow, if_neg (by omega), ih hlt]
    · rfl

theorem outcomeWith_congr (hrecs : ∀ p ≤ n, recs p = recs' p) (hc : ∀ p < n, c p = c' p) :
    outcomeWith resolve opened recs c n = outcomeWith resolve opened recs' c' n := by
  rw [outcomeWith, outcomeWith, hrecs n le_rfl]
  cases recs' n with
  | none => rfl
  | some r => exact against_congr (fun p hp => hrecs p hp.le) hc

theorem committed_eq_isSome (n : Nat) :
    committed resolve opened recs n = (outcome resolve opened recs n).isSome := by
  rw [committed, committedBelow, if_pos rfl, outcome,
    outcomeWith_congr (fun _ _ => rfl) fun p hp => committedBelow_eq hp]

theorem outcome_congr (h : ∀ p ≤ n, recs p = recs' p) :
    outcome resolve opened recs n = outcome resolve opened recs' n := by
  induction n using Nat.strong_induction_on with
  | _ n ih =>
    refine outcomeWith_congr h fun p hp => ?_
    rw [committed_eq_isSome, committed_eq_isSome, ih p hp fun q hq => h q (by omega)]

theorem committed_congr (h : ∀ p ≤ n, recs p = recs' p) :
    committed resolve opened recs n = committed resolve opened recs' n := by
  rw [committed_eq_isSome, committed_eq_isSome, outcome_congr h]

theorem outcome_eq (h : recs n = some r) : outcome resolve opened recs n =
      against resolve recs (committed resolve opened recs) r (opened r + 1) n := by
  rw [outcome, outcomeWith, h]
  rfl

theorem outcome_none (h : recs n = none) : outcome resolve opened recs n = none := by
  rw [outcome, outcomeWith, h]
  rfl

end Lemmas
end TypeDB.Validation
