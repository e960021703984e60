import Mathlib.Data.Finset.Card
import Mathlib.Tactic

/-! Counting the members of a type that have a property, where finitely many have it. -/

namespace TypeDB.Counting
open Finset
variable {ι : Type*} {P Q : ι → Prop} {n : Nat} {i : ι}

/-- Exactly `n` members have the property. -/
def Counted (P : ι → Prop) (n : Nat) : Prop := ∃ s : Finset ι, (∀ i, i ∈ s ↔ P i) ∧ s.card = n

theorem counted_zero (h : ∀ i, ¬ P i) : Counted P 0 :=
  ⟨∅, fun i => iff_of_false (notMem_empty i) (h i), rfl⟩

section
variable (h : Counted P n)
include h

theorem Counted.congr (hpq : ∀ i, P i ↔ Q i) : Counted Q n := by
  obtain ⟨s, hs, hcard⟩ := h
  exact ⟨s, fun i => (hs i).trans (hpq i), hcard⟩

theorem Counted.add (hi : ¬ P i) (hq : ∀ j, Q j ↔ j = i ∨ P j) :
    Counted Q (n + 1) := by
  classical
  obtain ⟨s, hs, rfl⟩ := h
  refine ⟨insert i s, fun j => ?_, card_insert_of_notMem fun hmem => hi ((hs i).mp hmem)⟩
  rw [mem_insert, hs, hq]

theorem Counted.remove (hi : P i) (hq : ∀ j, Q j ↔ j ≠ i ∧ P j) :
    Counted Q (n - 1) := by
  classical
  obtain ⟨s, hs, rfl⟩ := h
  refine ⟨s.erase i, fun j => ?_, card_erase_of_mem ((hs i).mpr hi)⟩
  rw [mem_erase, hs, hq]

theorem Counted.pos (hi : P i) : 0 < n := by
  obtain ⟨s, hs, rfl⟩ := h
  exact card_pos.mpr ⟨i, (hs i).mpr hi⟩

theorem Counted.eq_zero (hno : ∀ i, ¬ P i) : n = 0 := by
  obtain ⟨s, hs, rfl⟩ := h
  exact card_eq_zero.mpr (eq_empty_of_forall_notMem fun i hi => hno i ((hs i).mp hi))

theorem Counted.eq_of_le_one (hn : n ≤ 1) {j : ι} (hi : P i) (hj : P j) :
    i = j := by
  obtain ⟨s, hs, rfl⟩ := h
  exact card_le_one.mp hn i ((hs i).mpr hi) j ((hs j).mpr hj)

end

end TypeDB.Counting
