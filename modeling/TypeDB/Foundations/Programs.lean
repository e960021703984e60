import Mathlib.Tactic

/-! Programs over a state that return, fail, keeping what they have written, or panic. A triple
says where a program that starts in `P` ends, and that it panics only if `panics`: with `False` it
does not panic, with `True` nothing is said of the runs that do. -/

namespace TypeDB.Programs
universe u
variable {ε σ α β : Type u} {panics : Prop}

/-- The value, if there is one, satisfies `Q`; there is none only if `panics`. -/
def Returns (panics : Prop) (o : Option α) (Q : α → Prop) : Prop :=
  match o with
  | none => panics
  | some a => Q a

section Returns
variable {o : Option α} {f : α → Option β} {Q Q' : α → Prop} {R : β → Prop}

theorem Returns.mono (h : Returns panics o Q) (hQ : ∀ a, Q a → Q' a) : Returns panics o Q' := by
  cases o with
  | none => exact h
  | some a => exact hQ a h

theorem Returns.bind (h : Returns panics o Q) (hf : ∀ a, Q a → Returns panics (f a) R) :
    Returns panics (o.bind f) R := by
  cases o with
  | none => exact h
  | some a => exact hf a h

theorem Returns.exists (h : Returns False o Q) : ∃ a, o = some a ∧ Q a := by
  cases o with
  | none => exact h.elim
  | some a => exact ⟨a, rfl, h⟩

theorem returns_of_eq {a : α} (h : o = some a) (hQ : Q a) : Returns panics o Q := h ▸ hQ

theorem Returns.of_some {a : α} (h : Returns panics o Q) (ho : o = some a) : Q a := by
  rwa [ho] at h

/-- The rule for a loop over a list: what is left of the list may stand in the invariant. -/
theorem returns_foldlM {f : σ → β → Option σ} {I : List β → σ → Prop}
    (hf : ∀ x xs s, I (x :: xs) s → Returns panics (f s x) (I xs)) :
    ∀ {xs : List β} {s : σ}, I xs s → Returns panics (xs.foldlM f s) (I [])
  | [], _, h => h
  | x :: xs, s, h => by
    rw [List.foldlM_cons]
    exact (hf x xs s h).bind fun s' h' => returns_foldlM hf h'

end Returns

/-- A branch on what is asked of the state, where nothing is said of the answer. -/
theorem returns_ite {o : Option Bool} {yes no : Option α} {Q : α → Prop}
    (hyes : Returns True yes Q) (hno : o = some false → Returns True no Q) :
    Returns True (o.bind fun b => if b then yes else no) Q := by
  cases o with
  | none => trivial
  | some b =>
    cases b with
    | true => exact hyes
    | false => exact hno rfl

/-- Repeat a pass until it reports that it changed nothing; `none` also when the fuel is spent. -/
def whileChanged (pass : σ → Option (σ × Bool)) : Nat → σ → Option σ
  | 0, _ => none
  | fuel + 1, s => (pass s).bind fun r => if r.2 then whileChanged pass fuel r.1 else some r.1

/-- `none` is a panic; a failure comes with the state it leaves. -/
abbrev Program (ε σ α : Type u) := ExceptT ε (StateT σ Option) α

def exec (m : Program ε σ α) (s : σ) : Option (Except ε α × σ) := m.run.run s

def check (test : σ → Bool) (error : ε) : Program ε σ PUnit := do
  if test (← get) then pure ⟨⟩ else throw error

def update (f : σ → Option σ) : Program ε σ PUnit :=
  ExceptT.mk fun s => (f s).map fun s' => (.ok ⟨⟩, s')

def read (f : σ → α) : Program ε σ α := do return f (← get)

/-- `Q` of the result and the state, if the program returns, and `E` of the state, if it fails. -/
def outcome (Q : α → σ → Prop) (E : σ → Prop) : Except ε α × σ → Prop
  | (.ok a, s) => Q a s
  | (.error _, s) => E s

def Triple (panics : Prop) (P : σ → Prop) (m : Program ε σ α) (Q : α → σ → Prop)
    (E : σ → Prop) : Prop := ∀ s, P s → Returns panics (exec m s) (outcome Q E)

section Rules
variable {P P' : σ → Prop} {Q Q' : α → σ → Prop} {R : β → σ → Prop} {E : σ → Prop}
  {m : Program ε σ α} {f : α → Program ε σ β}

theorem exec_bind (m : Program ε σ α) (f : α → Program ε σ β) (s : σ) :
    exec (m >>= f) s = (exec m s).bind fun r => match r with
      | (.ok a, s') => exec (f a) s'
      | (.error e, s') => some (.error e, s') := by
  change (exec m s).bind _ = _
  congr 1
  funext r
  obtain ⟨r | r, s'⟩ := r <;> rfl

theorem exec_check (test : σ → Bool) (error : ε) (s : σ) : exec (check test error) s =
      some (if test s then .ok ⟨⟩ else .error error, s) := by
  change exec (if test s then pure ⟨⟩ else throw error : Program ε σ PUnit) s = _
  cases test s <;> rfl

theorem exec_update (f : σ → Option σ) (s : σ) :
    exec (update f : Program ε σ PUnit) s = (f s).map fun s' => (.ok ⟨⟩, s') := rfl

theorem exec_read (f : σ → α) (s : σ) : exec (read f : Program ε σ α) s = some (.ok (f s), s) := rfl

theorem Triple.pure {a : α} (h : ∀ s, P s → Q a s) :
    Triple panics P (pure a : Program ε σ α) Q E := h

theorem Triple.bind (hm : Triple panics P m Q E) (hf : ∀ a, Triple panics (Q a) (f a) R E) :
    Triple panics P (m >>= f) R E := by
  intro s hs
  rw [exec_bind]
  refine (hm s hs).bind fun r hr => ?_
  obtain ⟨r | a, s'⟩ := r
  · exact hr
  · exact hf a s' hr

theorem Triple.check {test : σ → Bool} {error : ε} (hE : ∀ s, P s → E s) :
    Triple panics P (check test error) (fun _ s => P s ∧ test s = true) E := by
  intro s hs
  rw [exec_check]
  cases htest : test s with
  | true => exact ⟨hs, htest⟩
  | false => exact hE s hs

theorem Triple.post (hm : Triple panics P m Q E) (hQ : ∀ a s, Q a s → Q' a s) :
    Triple panics P m Q' E := by
  intro s hs
  refine (hm s hs).mono ?_
  rintro ⟨r | a, s'⟩ h
  · exact h
  · exact hQ a s' h

theorem Triple.checked {test : σ → Bool} {error : ε} (hE : ∀ s, P s → E s) :
    Triple panics P (Programs.check test error) (fun _ => P) E :=
  (Triple.check hE).post fun _ _ h => h.1

theorem Triple.guard {c : Bool} {error : ε} {g : PUnit → Program ε σ α} (hE : ∀ s, P s → E s)
    (h : c = true → Triple panics P (g ⟨⟩) Q E) :
    Triple panics P (Programs.check (fun _ => c) error >>= g) Q E := by
  intro s hs
  rw [exec_bind, exec_check]
  cases c with
  | true => exact h rfl s hs
  | false => exact hE s hs

theorem Triple.throw {e : ε} (hE : ∀ s, P s → E s) :
    Triple panics P (throw e : Program ε σ α) Q E := hE

theorem Triple.update {g : σ → Option σ} {Q : σ → Prop}
    (h : ∀ s, P s → Returns panics (g s) Q) :
    Triple panics P (update g : Program ε σ PUnit) (fun _ => Q) E := by
  intro s hs
  rw [exec_update, Option.map_eq_bind]
  exact (h s hs).bind fun s' hs' => hs'

theorem Triple.read {g : σ → α} :
    Triple panics P (read g : Program ε σ α) (fun _ => P) E := by
  intro s hs
  rw [exec_read]
  exact hs

theorem Triple.assume {φ : Prop} (h : φ → Triple panics P m Q E) :
    Triple panics (fun s => P s ∧ φ) m Q E := fun s hs => h hs.2 s hs.1

theorem Triple.pre (hm : Triple panics P m Q E) (hP : ∀ s, P' s → P s) : Triple panics P' m Q E :=
  fun s hs => hm s (hP s hs)

theorem Triple.state {I : σ → Prop} {s : σ} (h : Triple panics P m (fun _ => I) I) (hs : P s) :
    Returns panics ((exec m s).map (·.2)) I := by
  rw [Option.map_eq_bind]
  refine (h s hs).bind fun r hr => ?_
  obtain ⟨r | r, s'⟩ := r <;> exact hr

theorem Triple.forM {I : List β → σ → Prop} {g : β → Program ε σ PUnit}
    (hg : ∀ x xs, Triple panics (I (x :: xs)) (g x) (fun _ => I xs) E) :
    ∀ xs : List β, Triple panics (I xs) (xs.forM g) (fun _ => I []) E
  | [] => .pure fun _ hs => hs
  | x :: xs => (hg x xs).bind fun _ => Triple.forM hg xs

end Rules
end TypeDB.Programs
