import Mathlib.Logic.Relation
import Mathlib.Tactic.SplitIfs

/-! Runs of a system given by a partial step function. A run may be required to meet a
condition at every step, so that a result can be stated for all runs or only for those
that keep off one branch. -/

namespace TypeDB.Runs
variable {σ α : Type*}

def run (step : σ → α → Option σ) : σ → List α → Option σ
  | s, [] => some s
  | s, a :: as => (step s a).bind fun s' => run step s' as

/-- `s'` is reached from `s` by steps that all meet `ok` in the state before the step. -/
inductive Reach (step : σ → α → Option σ) (ok : σ → α → Prop) (s : σ) : σ → Prop
  | refl : Reach step ok s s
  | tail {s' s'' : σ} {a : α} :
      Reach step ok s s' → ok s' a → step s' a = some s'' → Reach step ok s s''

abbrev Reaches (step : σ → α → Option σ) : σ → σ → Prop := Reach step fun _ _ => True

variable {step : σ → α → Option σ} {ok ok' : σ → α → Prop} {s s' s'' : σ} {as : List α}

theorem Reach.mono (h : Reach step ok s s') (hok : ∀ t a, ok t a → ok' t a) :
    Reach step ok' s s' := by
  induction h with
  | refl => exact .refl
  | tail _ hg hs ih => exact .tail ih (hok _ _ hg) hs

theorem Reach.reaches (h : Reach step ok s s') : Reaches step s s' := h.mono fun _ _ _ => trivial

theorem Reach.trans (h : Reach step ok s s') (h' : Reach step ok s' s'') : Reach step ok s s'' := by
  induction h' with
  | refl => exact h
  | tail _ hg hs ih => exact .tail ih hg hs

theorem Reach.head {a : α} (hok : ok s a) (hs : step s a = some s') (h : Reach step ok s' s'') :
    Reach step ok s s'' := (Reach.tail .refl hok hs).trans h

theorem reach_of_run (hok : ∀ a ∈ as, ∀ t, ok t a) (h : run step s as = some s') :
    Reach step ok s s' := by
  induction as generalizing s with
  | nil =>
    cases h
    exact .refl
  | cons a as ih =>
    obtain ⟨t, ht, hrest⟩ := Option.bind_eq_some_iff.mp h
    exact Reach.head (hok a List.mem_cons_self s) ht
      (ih (fun b hb => hok b (List.mem_cons_of_mem _ hb)) hrest)

theorem reaches_of_run (h : run step s as = some s') : Reaches step s s' :=
  reach_of_run (fun _ _ _ => trivial) h

/-- `run` with a check before every step. -/
def runIf (step : σ → α → Option σ) (check : σ → α → Bool) : σ → List α → Option σ
  | s, [] => some s
  | s, a :: as => if check s a then (step s a).bind fun s' => runIf step check s' as else none

theorem reach_of_runIf {check : σ → α → Bool} (hok : ∀ t a, check t a = true → ok t a)
    (h : runIf step check s as = some s') : Reach step ok s s' := by
  induction as generalizing s with
  | nil =>
    cases h
    exact .refl
  | cons a as ih =>
    rw [runIf] at h
    split_ifs at h with hcheck
    obtain ⟨t, ht, hrest⟩ := Option.bind_eq_some_iff.mp h
    exact Reach.head (hok s a hcheck) ht (ih hrest)

theorem Reach.invariant {P : σ → Prop} (h : Reach step ok s s') (h₀ : P s)
    (hstep : ∀ t a t', P t → ok t a → step t a = some t' → P t') : P s' := by
  induction h with
  | refl => exact h₀
  | tail _ hg hs ih => exact hstep _ _ _ ih hg hs

def attempt (step : σ → α → Option σ) (s : σ) (a : α) : σ := (step s a).getD s

theorem reach_attempt {a : α} (hok : ok s a) : Reach step ok s (attempt step s a) := by
  rw [attempt]
  cases h : step s a with
  | none => exact .refl
  | some s' => exact .tail .refl hok h

theorem reaches_attempt (step : σ → α → Option σ) (s : σ) (a : α) :
    Reaches step s (attempt step s a) := reach_attempt trivial

theorem reach_attempts (hok : ∀ a ∈ as, ∀ t, ok t a) (s : σ) :
    Reach step ok s (as.foldl (attempt step) s) := by
  induction as generalizing s with
  | nil => exact .refl
  | cons a as ih =>
    exact (reach_attempt (hok a List.mem_cons_self s)).trans
      (ih (fun b hb => hok b (List.mem_cons_of_mem a hb)) _)

theorem reaches_foldl {ι : Type*} {round : σ → ι → σ} (h : ∀ s i, Reaches step s (round s i))
    (s : σ) (is : List ι) : Reaches step s (is.foldl round s) := by
  induction is generalizing s with
  | nil => exact .refl
  | cons i is ih => exact (h s i).trans (ih _)

end TypeDB.Runs
