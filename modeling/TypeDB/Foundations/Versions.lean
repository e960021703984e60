import Mathlib.Tactic

/-! Versions of one thing, each under a number: the newest one up to a number, and how it moves
as versions are added. -/

namespace TypeDB.Versions
variable {α : Type*} {f g : Nat → Option α} {a : α} {m n s : Nat}

def newest (f : Nat → Option α) : Nat → Option α
  | 0 => f 0
  | s + 1 => match f (s + 1) with
    | some a => some a
    | none => newest f s

theorem newest_succ_of_none (h : f (s + 1) = none) : newest f (s + 1) = newest f s := by
  rw [newest, h]

theorem newest_of_some (h : f s = some a) : newest f s = some a := by
  cases s with
  | zero => exact h
  | succ s => rw [newest, h]

theorem newest_eq_of_none (hle : m ≤ s) (h : ∀ n, m < n → n ≤ s → f n = none) :
    newest f s = newest f m := by
  induction s, hle using Nat.le_induction with
  | base => rfl
  | succ s hle ih =>
    rw [newest_succ_of_none (h _ (Nat.lt_succ_of_le hle) le_rfl)]
    exact ih fun n hm hn => h n hm (Nat.le_succ_of_le hn)

theorem newest_congr (h : ∀ n ≤ s, f n = g n) : newest f s = newest g s := by
  induction s with
  | zero => exact h 0 le_rfl
  | succ s ih => rw [newest, newest, h _ le_rfl, ih fun n hn => h n (Nat.le_succ_of_le hn)]

theorem newest_eq_some_iff :
    newest f s = some a ↔ ∃ n ≤ s, f n = some a ∧ ∀ m, n < m → m ≤ s → f m = none := by
  induction s with
  | zero =>
    refine ⟨fun h => ⟨0, le_rfl, h, fun m h₁ h₂ => by omega⟩, ?_⟩
    rintro ⟨n, hn, h, -⟩
    obtain rfl : n = 0 := by omega
    exact h
  | succ s ih =>
    cases hf : f (s + 1) with
    | some b =>
      rw [newest_of_some hf]
      constructor
      · intro h
        cases h
        exact ⟨s + 1, le_rfl, hf, fun m h₁ h₂ => by omega⟩
      · rintro ⟨n, hn, h, hnone⟩
        rcases Nat.lt_or_ge n (s + 1) with hlt | hge
        · rw [hnone _ hlt le_rfl] at hf
          cases hf
        · obtain rfl : n = s + 1 := by omega
          exact hf.symm.trans h
    | none =>
      rw [newest_succ_of_none hf, ih]
      constructor
      · rintro ⟨n, hn, h, hnone⟩
        refine ⟨n, Nat.le_succ_of_le hn, h, fun m h₁ h₂ => ?_⟩
        rcases Nat.lt_or_ge m (s + 1) with hlt | hge
        · exact hnone m h₁ (Nat.le_of_lt_succ hlt)
        · obtain rfl : m = s + 1 := by omega
          exact hf
      · rintro ⟨n, hn, h, hnone⟩
        have hne : n ≠ s + 1 := by
          rintro rfl
          rw [hf] at h
          cases h
        exact ⟨n, by omega, h, fun m h₁ h₂ => hnone m h₁ (Nat.le_succ_of_le h₂)⟩

end TypeDB.Versions
