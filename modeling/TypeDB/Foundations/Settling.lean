import Mathlib.Order.Basic
import TypeDB.Foundations.Programs

/-! Programs that only take away. What they take shows in a measure, so that a run that ends as
high as it began has changed nothing on its way; and what it takes for nothing to be changed can be
put together from what it takes at each step. -/

namespace TypeDB.Settling
open Option Programs

universe u
variable {σ β : Type u} {α : Type*} [Preorder α] {I : σ → Prop} {m : σ → α}

/-- The result, if there is one, is lower than `s` or it is `s`, and it is `s` exactly under `C`. -/
structure Settles (I : σ → Prop) (m : σ → α) (s : σ) (o : Option σ) (C : Prop) : Prop where
  lowers : ∀ t, o = some t → I t ∧ m t ≤ m s ∧ (m s ≤ m t → t = s ∧ C)
  keeps : C → o = some s

structure Passes (I : σ → Prop) (m : σ → α) (s : σ) (o : Option (σ × Bool)) (C : Prop) : Prop where
  lowers : ∀ t b, o = some (t, b) → I t ∧ m t ≤ m s ∧ (m s ≤ m t → t = s ∧ b = false ∧ C)
  keeps : C → o = some (s, false)

section Rules
variable {s : σ} {o : Option σ} {C C' : Prop} {D : σ → Prop} {g : σ → Option σ} {E : β → σ → Prop}

theorem settles_some (hs : I s) : Settles I m s (some s) True :=
  ⟨fun t ht => by
    cases ht
    exact ⟨hs, le_rfl, fun _ => ⟨rfl, trivial⟩⟩, fun _ => rfl⟩

theorem Settles.iff (h : Settles I m s o C) (hC : C ↔ C') : Settles I m s o C' := by
  refine ⟨fun t ht => ?_, fun hc => h.keeps (hC.mpr hc)⟩
  obtain ⟨hI, hle, hsame⟩ := h.lowers t ht
  exact ⟨hI, hle, fun hback => ⟨(hsame hback).1, hC.mp (hsame hback).2⟩⟩

theorem Settles.bind (h : Settles I m s o C) (hg : ∀ t, I t → Settles I m t (g t) (D t)) :
    Settles I m s (o.bind g) (C ∧ D s) := by
  refine ⟨fun u hu => ?_, fun ⟨hC, hD⟩ => ?_⟩
  · obtain ⟨t, ht, hu⟩ := bind_eq_some_iff.mp hu
    obtain ⟨hI, hle, hsame⟩ := h.lowers t ht
    obtain ⟨hI', hle', hsame'⟩ := (hg t hI).lowers u hu
    refine ⟨hI', hle'.trans hle, fun hback => ?_⟩
    -- The way back from the end goes over every state between.
    obtain ⟨rfl, hC⟩ := hsame (hback.trans hle')
    obtain ⟨rfl, hD⟩ := hsame' hback
    exact ⟨rfl, hC, hD⟩
  · have hs := h.keeps hC
    rw [hs, bind_some]
    exact (hg s (h.lowers s hs).1).keeps hD

theorem settles_foldlM {f : σ → β → Option σ} (hf : ∀ t x, I t → Settles I m t (f t x) (E x t))
    (hs : I s) (l : List β) : Settles I m s (l.foldlM f s) (∀ x ∈ l, E x s) := by
  induction l generalizing s with
  | nil => exact (settles_some hs).iff (by simp)
  | cons x l ih =>
    rw [List.foldlM_cons]
    exact ((hf s x hs).bind fun t ht => ih ht).iff (by simp)

theorem passes_some (hs : I s) : Passes I m s (some (s, false)) True :=
  ⟨fun t b ht => by
    obtain ⟨rfl, rfl⟩ := Prod.mk.inj (some.inj ht)
    exact ⟨hs, le_rfl, fun _ => ⟨rfl, rfl, trivial⟩⟩, fun _ => rfl⟩

theorem Passes.iff {o : Option (σ × Bool)} (h : Passes I m s o C) (hC : C ↔ C') :
    Passes I m s o C' := by
  refine ⟨fun t b ht => ?_, fun hc => h.keeps (hC.mpr hc)⟩
  obtain ⟨hI, hle, hsame⟩ := h.lowers t b ht
  exact ⟨hI, hle, fun hback => ⟨(hsame hback).1, (hsame hback).2.1, hC.mp (hsame hback).2.2⟩⟩

theorem passes_foldlM {visit : σ → β → Option (σ × Bool)}
    (hvisit : ∀ t x, I t → Passes I m t (visit t x) (E x t)) (hs : I s) (l : List β) (b : Bool) :
    (∀ t b', l.foldlM (fun r x => (visit r.1 x).map fun r' => (r'.1, r.2 || r'.2)) (s, b) =
        some (t, b') → I t ∧ m t ≤ m s ∧ (m s ≤ m t → t = s ∧ b' = b ∧ ∀ x ∈ l, E x s)) ∧
      ((∀ x ∈ l, E x s) →
        l.foldlM (fun r x => (visit r.1 x).map fun r' => (r'.1, r.2 || r'.2)) (s, b) =
          some (s, b)) := by
  induction l generalizing s b with
  | nil =>
    refine ⟨fun t b' ht => ?_, fun _ => rfl⟩
    obtain ⟨rfl, rfl⟩ := Prod.mk.inj (some.inj ht)
    exact ⟨hs, le_rfl, fun _ => ⟨rfl, rfl, by simp⟩⟩
  | cons x l ih =>
    rw [List.foldlM_cons]
    refine ⟨fun u b' hu => ?_, fun hE => ?_⟩
    · obtain ⟨⟨t, c⟩, ht, hu⟩ := bind_eq_some_iff.mp hu
      obtain ⟨⟨t', c'⟩, hx, heq⟩ := map_eq_some_iff.mp ht
      obtain ⟨rfl, rfl⟩ := Prod.mk.inj heq
      obtain ⟨hI, hle, hsame⟩ := (hvisit s x hs).lowers t' c' hx
      obtain ⟨hI', hle', hsame'⟩ := (ih hI (b || c')).1 u b' hu
      refine ⟨hI', hle'.trans hle, fun hback => ?_⟩
      obtain ⟨rfl, rfl, hE⟩ := hsame (hback.trans hle')
      obtain ⟨rfl, rfl, hl⟩ := hsame' hback
      exact ⟨rfl, Bool.or_false b, List.forall_mem_cons.mpr ⟨hE, hl⟩⟩
    · obtain ⟨hx, hl⟩ := List.forall_mem_cons.mp hE
      rw [(hvisit s x hs).keeps hx]
      simp only [map_some, Bool.or_false, bind_eq_bind, bind_some]
      exact (ih hs b).2 hl

theorem Passes.foldlM {visit : σ → β → Option (σ × Bool)}
    (hvisit : ∀ t x, I t → Passes I m t (visit t x) (E x t)) (hs : I s) (l : List β) :
    Passes I m s
      (l.foldlM (fun r x => (visit r.1 x).map fun r' => (r'.1, r.2 || r'.2)) (s, false))
      (∀ x ∈ l, E x s) :=
  ⟨(passes_foldlM hvisit hs l false).1, (passes_foldlM hvisit hs l false).2⟩

theorem settles_whileChanged {pass : σ → Option (σ × Bool)}
    (hpass : ∀ t, I t → Passes I m t (pass t) (D t)) (hs : I s) (fuel : Nat) :
    Settles I m s (whileChanged pass (fuel + 1) s) (D s) := by
  have hlowers : ∀ fuel s, I s → ∀ t, whileChanged pass fuel s = some t →
      I t ∧ m t ≤ m s ∧ (m s ≤ m t → t = s ∧ D s) := by
    intro fuel
    induction fuel with
    | zero => exact fun _ _ _ ht => nomatch ht
    | succ fuel ih =>
      intro s hs u hu
      rw [whileChanged] at hu
      obtain ⟨⟨t, b⟩, ht, hu⟩ := bind_eq_some_iff.mp hu
      obtain ⟨hI, hle, hsame⟩ := (hpass s hs).lowers t b ht
      cases b with
      | false =>
        cases hu
        exact ⟨hI, hle, fun hback => ⟨(hsame hback).1, (hsame hback).2.2⟩⟩
      | true =>
        obtain ⟨hI', hle', -⟩ := ih t hI u hu
        refine ⟨hI', hle'.trans hle, fun hback => ?_⟩
        exact absurd (hsame (hback.trans hle')).2.1.symm Bool.false_ne_true
  refine ⟨hlowers _ s hs, fun hD => ?_⟩
  rw [whileChanged, (hpass s hs).keeps hD]
  rfl

end Rules

end TypeDB.Settling
