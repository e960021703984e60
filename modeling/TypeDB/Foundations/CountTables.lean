import Mathlib.Algebra.BigOperators.Group.Finset.Basic
import Mathlib.Data.Fintype.Basic
import TypeDB.Foundations.OrderedMap

/-! Counts kept in maps that are nested up to three deep: changing one count by a signed amount,
dropping a key, and what that does to the counts and their sums. A count that is absent is zero. -/

namespace TypeDB.CountTables
open Option OrderedMap
variable {α β γ ν : Type} [LinearOrder α] [LinearOrder β] [LinearOrder γ]

def checkedAddSigned (count : Nat) (delta : Int) : Option Nat :=
  if 0 ≤ count + delta ∧ count + delta < 2 ^ 64 then some (count + delta).toNat else none

def entryOr (default : ν) (m : OrderedMap α ν) (k : α) (change : ν → Option ν) :
    Option (OrderedMap α ν) :=
  (change ((m.get? k).getD default)).map (m.insert k)

def bump (m : OrderedMap α Nat) (a : α) (delta : Int) : Option (OrderedMap α Nat) :=
  entryOr 0 m a (checkedAddSigned · delta)

variable (m : OrderedMap α (OrderedMap β Nat))

def bump₂ (a : α) (b : β) (delta : Int) :
    Option (OrderedMap α (OrderedMap β Nat)) :=
  entryOr .empty m a (bump · b delta)

def bump₃ (m : OrderedMap α (OrderedMap β (OrderedMap γ Nat))) (a : α) (b : β) (k : γ)
    (delta : Int) : Option (OrderedMap α (OrderedMap β (OrderedMap γ Nat))) :=
  entryOr .empty m a (bump₂ · b k delta)

def count (m : OrderedMap α Nat) (a : α) : Nat := (m.get? a).getD 0

def count₂ (a : α) (b : β) : Nat :=
  count ((m.get? a).getD .empty) b

def count₃ (m : OrderedMap α (OrderedMap β (OrderedMap γ Nat))) (a : α) (b : β) (k : γ) : Nat :=
  count₂ ((m.get? a).getD .empty) b k

def retain (keep : ν → Bool) (m : OrderedMap α ν) : OrderedMap α ν :=
  ⟨m.entries.filter fun p => keep p.2, m.sorted.filter _⟩

def dropInner (b : β) : OrderedMap α (OrderedMap β Nat) :=
  retain (fun inner => !inner.entries.isEmpty) (m.mapValues fun _ inner => inner.erase b)

section Counts
variable {m m' : OrderedMap α Nat} {n n' : OrderedMap α (OrderedMap β Nat)}
  {l l' : OrderedMap α (OrderedMap β (OrderedMap γ Nat))} {a : α} {b : β} {k : γ} {delta : Int}

theorem checkedAddSigned_eq {i j : Nat} (h : checkedAddSigned i delta = some j) :
    (j : Int) = i + delta := by
  unfold checkedAddSigned at h
  split_ifs at h with hrange
  cases h
  exact Int.toNat_of_nonneg hrange.1

theorem entryOr_eq {default : ν} {m m' : OrderedMap α ν} {change : ν → Option ν}
    (h : entryOr default m a change = some m') :
    ∃ v, change ((m.get? a).getD default) = some v ∧ m' = m.insert a v := by
  obtain ⟨v, hv, rfl⟩ := map_eq_some_iff.mp h
  exact ⟨v, hv, rfl⟩

theorem count_bump (h : bump m a delta = some m') (a' : α) [Decidable (a' = a)] :
    (count m' a' : Int) = count m a' + if a' = a then delta else 0 := by
  obtain ⟨v, hv, rfl⟩ := entryOr_eq h
  have hv := checkedAddSigned_eq hv
  by_cases ha : a' = a
  · subst ha
    simpa [count] using hv
  · simp [count, ha]

theorem count₂_bump₂ (h : bump₂ n a b delta = some n') (a' : α) (b' : β)
    [Decidable (a' = a ∧ b' = b)] :
    (count₂ n' a' b' : Int) = count₂ n a' b' + if a' = a ∧ b' = b then delta else 0 := by
  obtain ⟨inner, hinner, rfl⟩ := entryOr_eq h
  have hcount := count_bump hinner b'
  by_cases ha : a' = a
  · subst ha
    simpa [count₂] using hcount
  · simp [count₂, ha]

theorem count₃_bump₃ (h : bump₃ l a b k delta = some l') (a' : α) (b' : β) (k' : γ)
    [Decidable (a' = a ∧ b' = b ∧ k' = k)] :
    (count₃ l' a' b' k' : Int) =
      count₃ l a' b' k' + if a' = a ∧ b' = b ∧ k' = k then delta else 0 := by
  obtain ⟨inner, hinner, rfl⟩ := entryOr_eq h
  have hcount := count₂_bump₂ hinner b' k'
  by_cases ha : a' = a
  · subst ha
    simpa [count₃] using hcount
  · simp [count₃, ha]

theorem exists_of_count_ne_zero (h : count m a ≠ 0) :
    ∃ p ∈ m.entries, p.1 = a ∧ p.2 ≠ 0 := by
  cases hget : m.get? a with
  | none => exact absurd (by rw [count, hget]; rfl) h
  | some i =>
    rw [count, hget] at h
    exact ⟨(a, i), mem_entries.mpr hget, rfl, h⟩

theorem exists_of_count₂_ne_zero (h : count₂ n a b ≠ 0) :
    ∃ p ∈ n.entries, ∃ q ∈ p.2.entries, p.1 = a ∧ q.1 = b ∧ q.2 ≠ 0 := by
  obtain ⟨q, hq, hb, hcount⟩ := exists_of_count_ne_zero h
  cases hget : n.get? a with
  | none =>
    rw [hget] at hq
    cases hq
  | some inner =>
    rw [hget] at hq
    exact ⟨(a, inner), mem_entries.mpr hget, q, hq, rfl, hb, hcount⟩

theorem exists_of_count₃_ne_zero (h : count₃ l a b k ≠ 0) :
    ∃ p ∈ l.entries, ∃ q ∈ p.2.entries, ∃ r ∈ q.2.entries,
      p.1 = a ∧ q.1 = b ∧ r.1 = k ∧ r.2 ≠ 0 := by
  obtain ⟨q, hq, r, hr, hb, hk, hcount⟩ := exists_of_count₂_ne_zero h
  cases hget : l.get? a with
  | none =>
    rw [hget] at hq
    cases hq
  | some inner =>
    rw [hget] at hq
    exact ⟨(a, inner), mem_entries.mpr hget, q, hq, r, hr, rfl, hb, hk, hcount⟩

theorem get?_retain (keep : ν → Bool) (m : OrderedMap α ν) (a : α) :
    (retain keep m).get? a = (m.get? a).filter keep := by
  refine Option.ext fun v => ?_
  rw [← mem_entries, filter_eq_some_iff, ← mem_entries]
  exact List.mem_filter

theorem count_erase (m : OrderedMap α Nat) (a a' : α) :
    count (m.erase a) a' = if a' = a then 0 else count m a' := by
  rw [count, get?_erase]
  split_ifs <;> rfl

theorem count₂_erase (n : OrderedMap α (OrderedMap β Nat)) (a a' : α) (b : β) :
    count₂ (n.erase a) a' b = if a' = a then 0 else count₂ n a' b := by
  rw [count₂, get?_erase]
  split_ifs <;> rfl

theorem count₂_dropInner (n : OrderedMap α (OrderedMap β Nat)) (b : β) (a : α) (b' : β) :
    count₂ (dropInner n b) a b' = if b' = b then 0 else count₂ n a b' := by
  rw [count₂, dropInner, get?_retain, get?_mapValues, count₂]
  cases n.get? a with
  | none => simp [count]
  | some inner =>
    rw [map_some, getD_some, ← count_erase]
    by_cases hempty : (inner.erase b).entries = []
    · -- an inner map that is left empty has no counts
      rw [filter_some, if_neg (by simp [hempty]), getD_none, ext_entries (n := .empty) hempty]
    · rw [filter_some, if_pos (by simp [hempty]), getD_some]

theorem sum_bump {ι : Type} [Fintype ι] {f f' : ι → Nat} {i : ι} {p : Prop}
    [Decidable p] [∀ j, Decidable (p ∧ j = i)]
    (h : ∀ j, (f' j : Int) = f j + if p ∧ j = i then delta else 0) :
    ((∑ j, f' j : Nat) : Int) = (∑ j, f j : Nat) + if p then delta else 0 := by
  classical
  push_cast
  simp only [h, Finset.sum_add_distrib]
  congr 1
  split_ifs with hp <;> simp [hp]

end Counts

end TypeDB.CountTables
