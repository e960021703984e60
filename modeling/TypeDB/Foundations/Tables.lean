import Mathlib.Data.List.ReduceOption
import TypeDB.Foundations.Rekeying

/-! Arrays and maps that are filled pair by pair from what is read for a list of keys. A later pair
takes the place of an earlier one with its key; where all are read by one function, there is no
difference between the two. -/

namespace TypeDB.Tables
open List OrderedMap

section Reading
variable {κ α ε : Type} {keys : List κ} {read : κ → Except ε α} {l : List (κ × α)} {p : κ × α}

def readAll (keys : List κ) (read : κ → Except ε α) : Except ε (List (κ × α)) :=
  keys.mapM fun k => do return (k, ← read k)

theorem bind_eq_ok_iff {β : Type} {x : Except ε α} {f : α → Except ε β} {b : β} :
    x >>= f = .ok b ↔ ∃ a, x = .ok a ∧ f a = .ok b := by
  cases x <;> simp [bind, Except.bind]

theorem mem_readAll (h : readAll keys read = .ok l) :
    p ∈ l ↔ p.1 ∈ keys ∧ read p.1 = .ok p.2 := by
  induction keys generalizing l with
  | nil =>
    cases h
    simp
  | cons k keys ih =>
    simp only [readAll, mapM_cons, bind_eq_ok_iff] at h
    obtain ⟨_, ⟨a, ha, hpair⟩, rest, hrest, hl⟩ := h
    cases hpair
    cases hl
    rw [mem_cons, mem_cons, ih hrest, or_and_right]
    refine or_congr_left ⟨?_, ?_⟩
    · rintro rfl
      exact ⟨rfl, ha⟩
    · rintro ⟨hk, hread⟩
      rw [hk, ha] at hread
      exact Prod.ext hk (Except.ok.inj hread).symm

/-- No key has two values. -/
def Functional (l : List (κ × α)) : Prop := ∀ p ∈ l, ∀ q ∈ l, p.1 = q.1 → p = q

theorem functional_readAll (h : readAll keys read = .ok l) : Functional l := by
  intro p hp q hq hk
  have hread := ((mem_readAll h).mp hp).2
  rw [hk, ((mem_readAll h).mp hq).2] at hread
  exact Prod.ext hk (Except.ok.inj hread).symm

end Reading

section Arrays
variable {α : Type} {l : List (Nat × α)} {table : List (Option (Nat × α))} {p : Nat × α} {i : Nat}

def place (table : List (Option (Nat × α))) (p : Nat × α) : List (Option (Nat × α)) :=
  table.set p.1 (some p)

/-- An array that goes up to the greatest key. -/
def fill (l : List (Nat × α)) : List (Option (Nat × α)) :=
  l.foldl place (replicate ((l.map Prod.fst).foldr max 0 + 1) none)

theorem mem_of_foldl_place (h : (l.foldl place table)[i]? = some (some p)) :
    p ∈ l ∧ p.1 = i ∨ table[i]? = some (some p) := by
  induction l generalizing table with
  | nil => exact .inr h
  | cons q l ih =>
    rcases ih h with ⟨hp, hi⟩ | hp
    · exact .inl ⟨mem_cons_of_mem q hp, hi⟩
    · rw [place, getElem?_set] at hp
      split_ifs at hp with hq
      · obtain rfl := Option.some.inj (Option.some.inj hp)
        exact .inl ⟨mem_cons_self, hq⟩
      · exact .inr hp

theorem getElem?_foldl_place (hl : ∀ q ∈ l, q.1 = p.1 → q = p) (hlen : p.1 < table.length)
    (h : p ∈ l ∨ table[p.1]? = some (some p)) :
    (l.foldl place table)[p.1]? = some (some p) := by
  induction l generalizing table with
  | nil => exact h.resolve_left not_mem_nil
  | cons q l ih =>
    obtain ⟨hq, hl⟩ := forall_mem_cons.mp hl
    refine ih hl (by simpa [place] using hlen) ?_
    by_cases hpq : q.1 = p.1
    · right
      rw [hq hpq, place, getElem?_set_self hlen]
    · rw [place, getElem?_set_ne hpq]
      exact h.imp_left fun hp => (mem_cons.mp hp).resolve_left fun heq => hpq (heq ▸ rfl)

theorem lt_length_of_mem (hp : p ∈ l) : p.1 < (l.map Prod.fst).foldr max 0 + 1 :=
  Nat.lt_succ_of_le (le_max_of_le (mem_map_of_mem hp) le_rfl)

theorem getElem?_fill (hl : Functional l) : (fill l)[i]? = some (some p) ↔ p ∈ l ∧ p.1 = i := by
  constructor
  · intro h
    refine (mem_of_foldl_place h).resolve_right fun hnone => ?_
    exact Option.some_ne_none p (eq_of_mem_replicate (mem_of_getElem? hnone))
  · rintro ⟨hp, rfl⟩
    exact getElem?_foldl_place (fun q hq => hl q hq p hp) (by simpa using lt_length_of_mem hp)
      (.inl hp)

theorem mem_reduceOption_fill (hl : Functional l) : p ∈ (fill l).reduceOption ↔ p ∈ l := by
  rw [reduceOption_mem_iff, mem_iff_getElem?]
  simp only [getElem?_fill hl, exists_and_left, exists_eq', and_true]

end Arrays

section Maps
variable {κ α : Type} [LinearOrder κ] {l : List (κ × α)} {m : OrderedMap κ α} {k : κ} {a : α}

theorem mem_of_get?_insertAll (h : (m.insertAll l).get? k = some a) :
    (k, a) ∈ l ∨ m.get? k = some a := by
  induction l generalizing m with
  | nil => exact .inr h
  | cons p l ih =>
    rcases ih (m := m.insert p.1 p.2) h with hl | hm
    · exact .inl (mem_cons_of_mem p hl)
    · rw [get?_insert] at hm
      split_ifs at hm with hk
      · cases hm
        exact .inl (hk ▸ mem_cons_self)
      · exact .inr hm

theorem mem_of_get?_collect (h : (collect l).get? k = some a) : (k, a) ∈ l :=
  (mem_of_get?_insertAll h).resolve_right (by simp)

theorem isSome_get?_insertAll (h : (∃ a, (k, a) ∈ l) ∨ (m.get? k).isSome) :
    ((m.insertAll l).get? k).isSome := by
  induction l generalizing m with
  | nil => exact h.resolve_left (by simp)
  | cons p l ih =>
    refine ih (m := m.insert p.1 p.2) ?_
    rw [get?_insert]
    split_ifs with hk
    · exact .inr rfl
    · refine h.imp_left ?_
      rintro ⟨a, ha⟩
      exact ⟨a, (mem_cons.mp ha).resolve_left fun heq => hk (congrArg Prod.fst heq)⟩

theorem isSome_get?_collect (h : (k, a) ∈ l) : ((collect l).get? k).isSome :=
  isSome_get?_insertAll (.inl ⟨a, h⟩)

theorem get?_collect (hl : Functional l) : (collect l).get? k = some a ↔ (k, a) ∈ l := by
  refine ⟨mem_of_get?_collect, fun h => ?_⟩
  obtain ⟨b, hb⟩ := Option.isSome_iff_exists.mp (isSome_get?_collect h)
  have heq := hl _ h _ (mem_of_get?_collect hb) rfl
  rw [hb, (Prod.mk.inj heq).2]

variable {η : Type} [LinearOrder η] {name : κ → η} {n : η}

/-- The values whose keys have a name. -/
def groupBy (name : κ → η) (l : List (κ × α)) : OrderedMap η (List α) :=
  l.foldl (fun m p => m.insert (name p.1) ((m.get? (name p.1)).getD [] ++ [p.2])) .empty

omit [LinearOrder κ] in
theorem mem_groupBy :
    a ∈ ((groupBy name l).get? n).getD [] ↔ ∃ k, (k, a) ∈ l ∧ name k = n := by
  induction l using reverseRecOn with
  | nil => simp [groupBy]
  | append_singleton l p ih =>
    rw [groupBy, foldl_append, foldl_cons, foldl_nil, ← groupBy, get?_insert]
    split_ifs with hn
    · subst hn
      rw [Option.getD_some, mem_append, ih, mem_singleton]
      grind
    · rw [ih]
      grind

end Maps

end TypeDB.Tables
