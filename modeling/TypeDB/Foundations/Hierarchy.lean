import Mathlib.Tactic

/-! Types with single inheritance. A type has at most one supertype, and a depth that falls on
the way up makes the chain of supertypes end. -/

namespace TypeDB

structure Hierarchy (T : Type*) where
  types : List T
  supertype : T → Option T
  depth : T → Nat
  depth_lt : ∀ t s, supertype t = some s → depth s < depth t
  mem_types : ∀ t s, supertype t = some s → t ∈ types

namespace Hierarchy
variable {T : Type*}

def supertypesFrom (supertype : T → Option T) : Nat → T → List T
  | 0, _ => []
  | n + 1, t => match supertype t with
    | none => []
    | some s => s :: supertypesFrom supertype n s

def flat : Hierarchy T := ⟨[], fun _ => none, fun _ => 0, nofun, nofun⟩

variable (h : Hierarchy T)

def supertypesTransitive (t : T) : List T := supertypesFrom h.supertype (h.depth t) t

def chain (t : T) : List T := t :: h.supertypesTransitive t

variable {h} {t s u : T}

theorem supertypesFrom_eq_of_le {n m : Nat} (hn : h.depth t ≤ n) (hm : h.depth t ≤ m) :
    supertypesFrom h.supertype n t = supertypesFrom h.supertype m t := by
  induction n generalizing t m with
  | zero =>
    cases hs : h.supertype t with
    | some s =>
      have := h.depth_lt t s hs
      omega
    | none => cases m <;> simp [supertypesFrom, hs]
  | succ n ih =>
    cases hs : h.supertype t with
    | none => cases m <;> simp [supertypesFrom, hs]
    | some s =>
      have hlt := h.depth_lt t s hs
      cases m with
      | zero => omega
      | succ m =>
        simp only [supertypesFrom, hs]
        rw [ih (m := m) (by omega) (by omega)]

theorem supertypesTransitive_eq (h : Hierarchy T) (t : T) :
    h.supertypesTransitive t = match h.supertype t with
      | none => []
      | some s => h.chain s := by
  rw [supertypesTransitive]
  cases hs : h.supertype t with
  | none => cases h.depth t <;> simp [supertypesFrom, hs]
  | some s =>
    have hlt := h.depth_lt t s hs
    obtain ⟨n, hn⟩ : ∃ n, h.depth t = n + 1 := ⟨h.depth t - 1, by omega⟩
    simp only [hn, supertypesFrom, hs, chain]
    rw [supertypesTransitive, supertypesFrom_eq_of_le (by omega : h.depth s ≤ n) le_rfl]

theorem mem_supertypesTransitive_iff :
    u ∈ h.supertypesTransitive t ↔ ∃ s, h.supertype t = some s ∧ u ∈ h.chain s := by
  rw [supertypesTransitive_eq]
  cases h.supertype t <;> simp

theorem mem_chain_iff : s ∈ h.chain t ↔ s = t ∨ s ∈ h.supertypesTransitive t := List.mem_cons

@[simp] theorem self_mem_chain : t ∈ h.chain t := List.mem_cons_self

theorem mem_chain_of_mem (hs : s ∈ h.supertypesTransitive t) : s ∈ h.chain t :=
  List.mem_cons_of_mem t hs

theorem supertypesTransitive_trans (hs : s ∈ h.chain t) (hu : u ∈ h.supertypesTransitive s) :
    u ∈ h.supertypesTransitive t := by
  induction hd : h.depth t using Nat.strong_induction_on generalizing t with
  | _ d ih =>
    rcases mem_chain_iff.mp hs with rfl | hs
    · exact hu
    · obtain ⟨r, hr, hsr⟩ := mem_supertypesTransitive_iff.mp hs
      have := ih _ (hd ▸ h.depth_lt t r hr) hsr rfl
      exact mem_supertypesTransitive_iff.mpr ⟨r, hr, mem_chain_of_mem this⟩

theorem chain_trans (hs : s ∈ h.chain t) (hu : u ∈ h.chain s) : u ∈ h.chain t := by
  rcases mem_chain_iff.mp hu with rfl | hu
  · exact hs
  · exact mem_chain_of_mem (supertypesTransitive_trans hs hu)

theorem depth_lt_of_mem (hs : s ∈ h.supertypesTransitive t) : h.depth s < h.depth t := by
  induction hd : h.depth t using Nat.strong_induction_on generalizing t with
  | _ d ih =>
    obtain ⟨r, hr, hsr⟩ := mem_supertypesTransitive_iff.mp hs
    have hlt := hd ▸ h.depth_lt t r hr
    rcases mem_chain_iff.mp hsr with rfl | hsr
    · exact hlt
    · exact (ih _ hlt hsr rfl).trans hlt

theorem chain_antisymm (hs : s ∈ h.chain t) (ht : t ∈ h.chain s) : s = t := by
  rcases mem_chain_iff.mp hs with rfl | hs
  · rfl
  · rcases mem_chain_iff.mp ht with rfl | ht
    · rfl
    · exact absurd (depth_lt_of_mem hs) (not_lt_of_gt (depth_lt_of_mem ht))

theorem chain_total (hs : s ∈ h.chain t) (hu : u ∈ h.chain t) : s ∈ h.chain u ∨ u ∈ h.chain s := by
  induction hd : h.depth t using Nat.strong_induction_on generalizing t with
  | _ d ih =>
    rcases mem_chain_iff.mp hs with rfl | hs
    · exact .inr hu
    · rcases mem_chain_iff.mp hu with rfl | hu
      · exact .inl (mem_chain_of_mem hs)
      · obtain ⟨r, hr, hsr⟩ := mem_supertypesTransitive_iff.mp hs
        obtain ⟨r', hr', hur⟩ := mem_supertypesTransitive_iff.mp hu
        obtain rfl := Option.some.inj (hr.symm.trans hr')
        exact ih _ (hd ▸ h.depth_lt t r hr) hsr hur rfl

variable [DecidableEq T]

def subtypesTransitive (h : Hierarchy T) (t : T) : List T :=
  h.types.filter fun u => decide (t ∈ h.supertypesTransitive u)

def withSubtypes (h : Hierarchy T) (t : T) : List T := t :: h.subtypesTransitive t

theorem mem_subtypesTransitive : u ∈ h.subtypesTransitive t ↔ t ∈ h.supertypesTransitive u := by
  rw [subtypesTransitive, List.mem_filter, decide_eq_true_iff, and_iff_right_iff_imp]
  intro ht
  obtain ⟨s, hs, -⟩ := mem_supertypesTransitive_iff.mp ht
  exact h.mem_types u s hs

theorem mem_withSubtypes : u ∈ h.withSubtypes t ↔ t ∈ h.chain u := by
  rw [withSubtypes, List.mem_cons, mem_subtypesTransitive, mem_chain_iff, eq_comm]

end Hierarchy
end TypeDB
