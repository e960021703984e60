import Mathlib.Data.List.Basic

/-! Iterators that are called until they have nothing more: a call returns an item or the end,
or panics, which is the outcome `none`. -/

namespace TypeDB.Draining
variable {σ τ β : Type*} {next : σ → Option (Option τ × σ)} {it : σ}

inductive Drains (next : σ → Option (Option τ × σ)) : σ → List τ → Prop
  | done (it it' : σ) (h : next it = some (none, it')) : Drains next it []
  | item (it it' : σ) (a : τ) (items : List τ) (h : next it = some (some a, it'))
      (rest : Drains next it' items) : Drains next it (a :: items)

theorem Drains.unique {l m : List τ} (hl : Drains next it l) (hm : Drains next it m) : l = m := by
  induction hl generalizing m with
  | done it it' h =>
    cases hm with
    | done => rfl
    | item _ _ a items h' => cases h.symm.trans h'
  | item it it' a items h rest ih =>
    cases hm with
    | done _ _ h' => cases h.symm.trans h'
    | item _ _ a' items' h' rest' =>
      cases h.symm.trans h'
      rw [ih rest']

theorem drains_of_before {B : σ → List β → Prop} {f : β → τ}
    (hnext : ∀ it l, B it l → ∃ it', next it = some (l.head?.map f, it') ∧ B it' l.tail)
    {l : List β} (h : B it l) : Drains next it (l.map f) := by
  induction l generalizing it with
  | nil =>
    obtain ⟨it', hit, -⟩ := hnext it [] h
    exact .done it it' hit
  | cons p l ih =>
    obtain ⟨it', hit, htail⟩ := hnext it (p :: l) h
    exact .item it it' (f p) _ hit (ih htail)

theorem not_drains_of_before {B : σ → List τ → Prop}
    (hpanic : ∀ it, B it [] → next it = none)
    (hnext : ∀ it a l, B it (a :: l) → ∃ it', next it = some (some a, it') ∧ B it' l)
    {l m : List τ} (h : B it l) : ¬ Drains next it m := by
  induction l generalizing it m with
  | nil =>
    intro hm
    have hnone := hpanic it h
    cases hm with
    | done _ _ h' | item _ _ _ _ h' => cases hnone.symm.trans h'
  | cons a l ih =>
    intro hm
    obtain ⟨it', hit, hrest⟩ := hnext it a l h
    cases hm with
    | done _ _ h' => cases hit.symm.trans h'
    | item _ _ _ _ h' rest =>
      cases hit.symm.trans h'
      exact ih hrest rest

end TypeDB.Draining
