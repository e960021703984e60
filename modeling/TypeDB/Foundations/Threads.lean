import Mathlib.Logic.Function.Basic
import Mathlib.Tactic
import TypeDB.Foundations.Runs

/-! Threads over a shared state. An invariant has a part on the shared state, one on each thread
and one on each pair; a step of one thread has to restore its own part and to spare the others. -/

namespace TypeDB.Threads
open Runs System
variable {σ τ : Type*}

structure System (σ τ : Type*) where
  shared : σ
  threads : Nat → τ

def System.move (s : System σ τ) (i : Nat) (x : σ) (t : τ) : System σ τ :=
  ⟨x, Function.update s.threads i t⟩

@[simp] theorem System.move_shared (s : System σ τ) (i : Nat) (x : σ) (t : τ) :
    (s.move i x t).shared = x := rfl

@[simp] theorem System.move_self (s : System σ τ) (i : Nat) (x : σ) (t : τ) :
    (s.move i x t).threads i = t := by simp [move]

theorem System.move_of_ne (s : System σ τ) {i j : Nat} (h : j ≠ i) (x : σ) (t : τ) :
    (s.move i x t).threads j = s.threads j := by simp [move, h]

structure Inv (shared : σ → Prop) (own : σ → τ → Prop) (pair : τ → τ → Prop)
    (s : System σ τ) : Prop where
  shared : shared s.shared
  own : ∀ i, own s.shared (s.threads i)
  pair : ∀ i j, i ≠ j → pair (s.threads i) (s.threads j)

variable {shared : σ → Prop} {own : σ → τ → Prop} {pair : τ → τ → Prop} {s : System σ τ}

theorem Inv.move (h : Inv shared own pair s) (hsymm : ∀ t u, pair t u → pair u t) {i : Nat}
    {x : σ} {t : τ} (hshared : shared x) (hown : own x t)
    (hothers : ∀ u, own s.shared u → pair (s.threads i) u → own x u ∧ pair t u) :
    Inv shared own pair (s.move i x t) := by
  have hother : ∀ j, j ≠ i → own x (s.threads j) ∧ pair t (s.threads j) := fun j hj =>
    hothers _ (h.own j) (h.pair i j (Ne.symm hj))
  refine ⟨hshared, fun j => ?_, fun j k hjk => ?_⟩
  · by_cases hj : j = i
    · rw [hj, System.move_self]
      exact hown
    · rw [System.move_of_ne s hj]
      exact (hother j hj).1
  · by_cases hj : j = i
    · rw [hj, System.move_self, System.move_of_ne s (fun hk => hjk (hj.trans hk.symm))]
      exact (hother k fun hk => hjk (hj.trans hk.symm)).2
    · by_cases hk : k = i
      · rw [hk, System.move_self, System.move_of_ne s hj]
        exact hsymm _ _ (hother j hj).2
      · rw [System.move_of_ne s hj, System.move_of_ne s hk]
        exact h.pair j k hjk

section Drive
variable {α : Type*}

/-- One thread by itself, up to a step that `check` refuses. -/
def drive (thread : σ → τ → Option (σ × τ)) (check : σ → τ → Bool) : Nat → σ × τ → σ × τ
  | 0, p => p
  | fuel + 1, p =>
    match check p.1 p.2, thread p.1 p.2 with
    | true, some p' => drive thread check fuel p'
    | _, _ => p

def System.drive (thread : σ → τ → Option (σ × τ)) (check : σ → τ → Bool) (s : System σ τ)
    (fuel i : Nat) : System σ τ :=
  let p := Threads.drive thread check fuel (s.shared, s.threads i)
  s.move i p.1 p.2

theorem System.reach_drive {thread : σ → τ → Option (σ × τ)} {check : σ → τ → Bool}
    {step : System σ τ → α → Option (System σ τ)} {ok : System σ τ → α → Prop} {a : α} {i : Nat}
    (hstep : ∀ s, step s a = (thread s.shared (s.threads i)).map fun p => s.move i p.1 p.2)
    (s : System σ τ) (hok : ∀ x t, check x t = true → ok (s.move i x t) a) (fuel : Nat) :
    Reach step ok s (s.drive thread check fuel i) := by
  have hmove : ∀ x t, Reach step ok (s.move i x t)
      (s.move i (Threads.drive thread check fuel (x, t)).1
        (Threads.drive thread check fuel (x, t)).2) := by
    induction fuel with
    | zero => exact fun _ _ => .refl
    | succ fuel ih =>
      intro x t
      rw [Threads.drive]
      dsimp only
      split
      · rename_i p hcheck hthread
        refine Reach.head (hok x t hcheck) ?_ (ih p.1 p.2)
        rw [hstep, move_self, move_shared, hthread, Option.map_some]
        simp only [move, Function.update_idem]
      · exact .refl
  have hself : s.move i s.shared (s.threads i) = s := by
    rw [move, Function.update_eq_self]
  have := hmove s.shared (s.threads i)
  rwa [hself] at this

end Drive

section Play
variable {α : Type*}

/-- What a thread does in a round: a call, or steps of its own. -/
inductive Act (α : Type*)
  | call (a : α)
  | drive (fuel : Nat)

/-- Long runs by rounds. In a round one thread acts while the others rest, and the round counts
only if the thread rests after it. -/
structure Play (σ τ α : Type*) where
  thread : σ → τ → Option (σ × τ)
  step : System σ τ → α → Option (System σ τ)
  run : Nat → α
  calls : Nat → α → Bool
  check : σ → τ → Bool
  rests : τ → Bool

namespace Play
variable (p : Play σ τ α)

def perform (i : Nat) (s : System σ τ) : Act α → System σ τ
  | .call a => if p.calls i a then attempt p.step s a else s
  | .drive fuel => s.drive p.thread p.check fuel i

def round (s : System σ τ) (r : Nat × List (Act α)) : System σ τ :=
  let s' := r.2.foldl (p.perform r.1) s
  if p.rests (s'.threads r.1) then s' else s

def rounds (s : System σ τ) (rs : List (Nat × List (Act α))) : System σ τ := rs.foldl p.round s

structure Keeps (ok : System σ τ → α → Prop) : Prop where
  step_run : ∀ s i, p.step s (p.run i) =
    (p.thread s.shared (s.threads i)).map fun q => s.move i q.1 q.2
  others : ∀ i a s s', p.calls i a = true → p.step s a = some s' → ∀ j ≠ i,
    s'.threads j = s.threads j
  ok_call : ∀ i a s, p.calls i a = true → ok s a
  ok_run : ∀ i s, (∀ j ≠ i, p.rests (s.threads j) = true) →
    p.check s.shared (s.threads i) = true → ok s (p.run i)

variable {p} {ok : System σ τ → α → Prop}

theorem Keeps.perform (h : p.Keeps ok) {i : Nat} {s : System σ τ}
    (hrests : ∀ j ≠ i, p.rests (s.threads j) = true) (act : Act α) :
    Reach p.step ok s (p.perform i s act) ∧
      ∀ j ≠ i, p.rests ((p.perform i s act).threads j) = true := by
  cases act with
  | call a =>
    rw [Play.perform]
    split_ifs with hcall
    · refine ⟨reach_attempt (h.ok_call i a s hcall), fun j hj => ?_⟩
      rw [attempt]
      cases hstep : p.step s a with
      | none => exact hrests j hj
      | some s' =>
        rw [Option.getD_some, h.others i a s s' hcall hstep j hj]
        exact hrests j hj
    · exact ⟨.refl, hrests⟩
  | drive fuel =>
    refine ⟨System.reach_drive (h.step_run · i) s (fun x t hcheck => h.ok_run i _ ?_ ?_) fuel,
      fun j hj => ?_⟩
    · intro j hj
      rw [System.move_of_ne s hj]
      exact hrests j hj
    · rwa [System.move_shared, System.move_self]
    · rw [Play.perform, System.drive, System.move_of_ne s hj]
      exact hrests j hj

theorem Keeps.performs (h : p.Keeps ok) {i : Nat} {s : System σ τ}
    (hrests : ∀ j ≠ i, p.rests (s.threads j) = true) (acts : List (Act α)) :
    Reach p.step ok s (acts.foldl (p.perform i) s) ∧
      ∀ j ≠ i, p.rests ((acts.foldl (p.perform i) s).threads j) = true := by
  induction acts generalizing s with
  | nil => exact ⟨.refl, hrests⟩
  | cons act acts ih =>
    obtain ⟨hreach, hothers⟩ := h.perform hrests act
    obtain ⟨hreach', hothers'⟩ := ih hothers
    exact ⟨hreach.trans hreach', hothers'⟩

theorem Keeps.rounds (h : p.Keeps ok) {s : System σ τ}
    (hrests : ∀ j, p.rests (s.threads j) = true) (rs : List (Nat × List (Act α))) :
    Reach p.step ok s (p.rounds s rs) ∧ ∀ j, p.rests ((p.rounds s rs).threads j) = true := by
  induction rs generalizing s with
  | nil => exact ⟨.refl, hrests⟩
  | cons r rs ih =>
    have hround : Reach p.step ok s (p.round s r) ∧
        ∀ j, p.rests ((p.round s r).threads j) = true := by
      obtain ⟨hreach, hothers⟩ := h.performs (fun j _ => hrests j) r.2
      rw [Play.round]
      split_ifs with hself
      · refine ⟨hreach, fun j => ?_⟩
        by_cases hj : j = r.1
        · rwa [hj]
        · exact hothers j hj
      · exact ⟨.refl, hrests⟩
    obtain ⟨hreach, hrests'⟩ := ih hround.2
    exact ⟨hround.1.trans hreach, hrests'⟩

end Play
end Play

end TypeDB.Threads
