import Mathlib.Order.Basic
import Mathlib.Tactic

/-! Finite maps kept as lists sorted by key, the executable stand-in for a balanced search
tree: what an iteration yields is the list itself. -/

namespace TypeDB
open List

structure OrderedMap (α β : Type*) [LinearOrder α] where
  entries : List (α × β)
  sorted : entries.Pairwise fun a b => a.1 < b.1

namespace OrderedMap
variable {α β γ : Type*} [LinearOrder α] {l : List (α × β)} {m : OrderedMap α β} {k : α} {p : α × β}

def getList (k : α) : List (α × β) → Option β
  | [] => none
  | (a, b) :: l => if k = a then some b else getList k l

def insertList (k : α) (v : β) : List (α × β) → List (α × β)
  | [] => [(k, v)]
  | (a, b) :: l =>
    if k < a then (k, v) :: (a, b) :: l
    else if k = a then (k, v) :: l
    else (a, b) :: insertList k v l

theorem mem_insertList {v : β} (h : p ∈ insertList k v l) : p = (k, v) ∨ p ∈ l := by
  induction l with
  | nil => simpa [insertList] using h
  | cons q l ih =>
    obtain ⟨a, b⟩ := q
    simp only [insertList] at h
    split_ifs at h with h₁ h₂
    · simpa using h
    · rcases mem_cons.mp h with h | h
      · exact .inl h
      · exact .inr (mem_cons_of_mem _ h)
    · rcases mem_cons.mp h with h | h
      · exact .inr (h ▸ mem_cons_self)
      · exact (ih h).imp id (mem_cons_of_mem _)

theorem pairwise_insertList (k : α) (v : β) (h : l.Pairwise fun a b => a.1 < b.1) :
    (insertList k v l).Pairwise fun a b => a.1 < b.1 := by
  induction l with
  | nil => simp [insertList]
  | cons q l ih =>
    obtain ⟨a, b⟩ := q
    obtain ⟨hhead, htail⟩ := pairwise_cons.mp h
    simp only [insertList]
    split_ifs with h₁ h₂
    · refine pairwise_cons.mpr ⟨fun p hp => ?_, h⟩
      rcases mem_cons.mp hp with rfl | hp
      · exact h₁
      · exact h₁.trans (hhead p hp)
    · subst h₂
      exact pairwise_cons.mpr ⟨hhead, htail⟩
    · refine pairwise_cons.mpr ⟨fun p hp => ?_, ih htail⟩
      rcases mem_insertList hp with rfl | hp
      · exact lt_of_le_of_ne (not_lt.mp h₁) (Ne.symm h₂)
      · exact hhead p hp

def empty : OrderedMap α β := ⟨[], .nil⟩

def get? (m : OrderedMap α β) (k : α) : Option β := getList k m.entries

def insert (m : OrderedMap α β) (k : α) (v : β) : OrderedMap α β :=
  ⟨insertList k v m.entries, pairwise_insertList k v m.sorted⟩

def erase (m : OrderedMap α β) (k : α) : OrderedMap α β :=
  ⟨m.entries.filter fun p => decide (p.1 ≠ k), m.sorted.filter _⟩

def mapValues (m : OrderedMap α β) (f : α → β → γ) : OrderedMap α γ :=
  ⟨m.entries.map fun p => (p.1, f p.1 p.2), by
    rw [List.pairwise_map]
    exact m.sorted⟩

instance [DecidableEq β] : DecidableEq (OrderedMap α β) := fun m n =>
  decidable_of_iff (m.entries = n.entries) ⟨fun h => by cases m; cases n; congr, fun h => by rw [h]⟩

theorem ext_entries {m n : OrderedMap α β} (h : m.entries = n.entries) : m = n := by
  cases m; cases n; congr

theorem getList_eq_none (h : ∀ p ∈ l, p.1 ≠ k) : getList k l = none := by
  induction l with
  | nil => rfl
  | cons q l ih =>
    have hq : ¬ k = q.1 := fun e => h q mem_cons_self e.symm
    simp only [getList, if_neg hq]
    exact ih fun p hp => h p (mem_cons_of_mem _ hp)

theorem mem_of_getList {v : β} (h : getList k l = some v) : (k, v) ∈ l := by
  induction l with
  | nil => simp [getList] at h
  | cons q l ih =>
    obtain ⟨a, b⟩ := q
    simp only [getList] at h
    split_ifs at h with hk
    · cases h
      exact hk ▸ mem_cons_self
    · exact mem_cons_of_mem _ (ih h)

theorem exists_getList_of_mem {v : β} (h : (k, v) ∈ l) : ∃ w, getList k l = some w := by
  cases hget : getList k l with
  | some w => exact ⟨w, rfl⟩
  | none =>
    induction l with
    | nil => cases h
    | cons q l ih =>
      simp only [getList] at hget
      split_ifs at hget with hk
      refine ih ((mem_cons.mp h).resolve_left ?_) hget
      rintro rfl
      exact hk rfl

theorem getList_of_mem {v : β} (hs : l.Pairwise fun a b => a.1 < b.1) (h : (k, v) ∈ l) :
    getList k l = some v := by
  induction l with
  | nil => simp at h
  | cons q l ih =>
    obtain ⟨a, b⟩ := q
    obtain ⟨hhead, htail⟩ := pairwise_cons.mp hs
    simp only [getList]
    rcases mem_cons.mp h with h | h
    · simp only [Prod.mk.injEq] at h
      rw [if_pos h.1, h.2]
    · rw [if_neg (hhead _ h).ne', ih htail h]

theorem mem_entries {v : β} : (k, v) ∈ m.entries ↔ m.get? k = some v :=
  ⟨getList_of_mem m.sorted, mem_of_getList⟩

theorem eq_of_pairwise_lt {l l' : List α} (hl : l.Pairwise (· < ·)) (hl' : l'.Pairwise (· < ·))
    (h : ∀ a, a ∈ l ↔ a ∈ l') : l = l' := by
  refine List.Perm.eq_of_pairwise (fun a b _ _ hab hba => absurd hba hab.asymm) hl hl' ?_
  exact (perm_ext_iff_of_nodup (hl.imp ne_of_lt) (hl'.imp ne_of_lt)).mpr h

theorem eq_of_mem_iff {l l' : List (α × β)} (hl : l.Pairwise fun a b => a.1 < b.1)
    (hl' : l'.Pairwise fun a b => a.1 < b.1) (h : ∀ p, p ∈ l ↔ p ∈ l') : l = l' := by
  refine List.Perm.eq_of_pairwise ?_ hl hl' ?_
  · exact fun a b _ _ hab hba => absurd hba hab.asymm
  · refine (perm_ext_iff_of_nodup ?_ ?_).mpr h
    · exact hl.imp fun hab heq => hab.ne (congrArg Prod.fst heq)
    · exact hl'.imp fun hab heq => hab.ne (congrArg Prod.fst heq)

theorem ext_get? {m n : OrderedMap α β} (h : ∀ k, m.get? k = n.get? k) : m = n :=
  ext_entries (eq_of_mem_iff m.sorted n.sorted fun p => by rw [mem_entries, mem_entries, h])

theorem dropWhile_lt_eq_filter [DecidableLT α] [DecidableLE α]
    (hl : l.Pairwise fun a b => a.1 < b.1) (k : α) :
    l.dropWhile (fun p => decide (p.1 < k)) = l.filter fun p => decide (k ≤ p.1) := by
  induction l with
  | nil => rfl
  | cons q l ih =>
    obtain ⟨hhead, htail⟩ := pairwise_cons.mp hl
    by_cases hq : q.1 < k
    · rw [dropWhile_cons_of_pos (by simpa using hq),
        filter_cons_of_neg (by simpa using hq), ih htail]
    · rw [dropWhile_cons_of_neg (by simpa using hq), eq_comm, filter_eq_self]
      intro p hp
      have hle := not_lt.mp hq
      rcases mem_cons.mp hp with rfl | hp
      · simpa using hle
      · simpa using hle.trans (hhead p hp).le

theorem getList_filter (keep : α → Bool) (k : α) (l : List (α × β)) :
    getList k (l.filter fun p => keep p.1) = if keep k then getList k l else none := by
  induction l with
  | nil => simp [getList]
  | cons q l ih =>
    obtain ⟨a, b⟩ := q
    by_cases ha : keep a = true
    · rw [filter_cons_of_pos (by simpa using ha)]
      by_cases hk : k = a
      · simp [getList, hk, ha]
      · simp [getList, hk, ih]
    · rw [filter_cons_of_neg (by simpa using ha), ih]
      by_cases hk : k = a
      · simp [hk, ha]
      · simp [getList, hk]

@[simp] theorem get?_empty (k : α) : (empty : OrderedMap α β).get? k = none := rfl

theorem getList_insertList (k k' : α) (v : β) (l : List (α × β)) :
    getList k' (insertList k v l) = if k' = k then some v else getList k' l := by
  induction l with
  | nil => rfl
  | cons q l ih =>
    obtain ⟨a, b⟩ := q
    simp only [insertList]
    split_ifs with h₁ h₂ h₃ h₃ h₄
    all_goals simp_all [getList]

@[simp] theorem get?_insert (m : OrderedMap α β) (k k' : α) (v : β) :
    (m.insert k v).get? k' = if k' = k then some v else m.get? k' :=
  getList_insertList k k' v m.entries

def insertAll (m : OrderedMap α β) (l : List (α × β)) : OrderedMap α β :=
  l.foldl (fun m p => m.insert p.1 p.2) m

theorem mem_insertAll (hl : l.Pairwise fun a b => a.1 ≠ b.1)
    (hm : ∀ a ∈ l, ∀ b ∈ m.entries, b.1 ≠ a.1) :
    p ∈ (m.insertAll l).entries ↔ p ∈ m.entries ∨ p ∈ l := by
  induction l generalizing m with
  | nil => simp [insertAll]
  | cons a l ih =>
    obtain ⟨hhead, htail⟩ := pairwise_cons.mp hl
    have hinsert : ∀ b, b ∈ (m.insert a.1 a.2).entries ↔ b = a ∨ b ∈ m.entries := by
      rintro ⟨k, v⟩
      rw [mem_entries, mem_entries, get?_insert]
      split_ifs with hk
      · subst hk
        have hnone : m.get? a.1 = none := getList_eq_none (hm a mem_cons_self)
        simp [hnone, Prod.ext_iff, eq_comm]
      · simp [Prod.ext_iff, hk]
    have hrest : ∀ c ∈ l, ∀ b ∈ (m.insert a.1 a.2).entries, b.1 ≠ c.1 := by
      intro c hc b hb
      rcases (hinsert b).mp hb with rfl | hb
      · exact hhead c hc
      · exact hm c (mem_cons_of_mem a hc) b hb
    have hstep : m.insertAll (a :: l) = (m.insert a.1 a.2).insertAll l := rfl
    rw [hstep, ih htail hrest, hinsert, mem_cons]
    tauto

theorem get?_erase (m : OrderedMap α β) (k k' : α) :
    (m.erase k).get? k' = if k' = k then none else m.get? k' := by
  split_ifs with h
  · refine getList_eq_none fun p hp heq => ?_
    have := (mem_filter.mp hp).2
    simp [heq, h] at this
  · refine Option.ext fun v => ?_
    rw [← mem_entries, ← mem_entries]
    simp [erase, h]

@[simp] theorem get?_mapValues (m : OrderedMap α β) (f : α → β → γ) (k : α) :
    (m.mapValues f).get? k = (m.get? k).map (f k) := by
  simp only [get?, mapValues]
  induction m.entries with
  | nil => rfl
  | cons q l ih =>
    obtain ⟨a, b⟩ := q
    simp only [map_cons, getList, ih]
    split_ifs with h
    · rw [h]; rfl
    · rfl

def ofKeys (f : α → Option β) : List α → OrderedMap α β
  | [] => empty
  | k :: l =>
    match f k with
    | some v => (ofKeys f l).insert k v
    | none => ofKeys f l

theorem get?_ofKeys (f : α → Option β) (l : List α) (k : α) :
    (ofKeys f l).get? k = if k ∈ l then f k else none := by
  induction l with
  | nil => rfl
  | cons k' l ih =>
    cases hf : f k' with
    | some v =>
      simp only [ofKeys, hf, get?_insert, ih, mem_cons]
      by_cases hk : k = k'
      · simp [hk, hf]
      · simp [hk]
    | none =>
      simp only [ofKeys, hf, ih, mem_cons]
      by_cases hk : k = k'
      · simp [hk, hf]
      · simp [hk]

end OrderedMap

inductive Bound (α : Type*)
  | included (a : α)
  | excluded (a : α)
  | unbounded

namespace Bound
variable {α : Type*} [LinearOrder α]

def Above : Bound α → α → Prop
  | included a, k => a ≤ k
  | excluded a, k => a < k
  | unbounded, _ => True

def Below : Bound α → α → Prop
  | included a, k => k ≤ a
  | excluded a, k => k < a
  | unbounded, _ => True

instance : ∀ (b : Bound α) (k : α), Decidable (b.Above k)
  | included a, k => inferInstanceAs (Decidable (a ≤ k))
  | excluded a, k => inferInstanceAs (Decidable (a < k))
  | unbounded, _ => inferInstanceAs (Decidable True)

instance : ∀ (b : Bound α) (k : α), Decidable (b.Below k)
  | included a, k => inferInstanceAs (Decidable (k ≤ a))
  | excluded a, k => inferInstanceAs (Decidable (k < a))
  | unbounded, _ => inferInstanceAs (Decidable True)

def inverted : Bound α → Bound α → Bool
  | included a, included b => decide (b < a)
  | included a, excluded b => decide (b < a)
  | excluded a, included b => decide (b < a)
  | excluded a, excluded b => decide (b ≤ a)
  | _, _ => false

end Bound

namespace OrderedMap
variable {α β : Type*} [LinearOrder α]

/-- The entries between two bounds; `none` where a search tree refuses them and panics. -/
def range (m : OrderedMap α β) (lower upper : Bound α) : Option (List (α × β)) :=
  if lower.inverted upper then none
  else some (m.entries.filter fun p => decide (lower.Above p.1 ∧ upper.Below p.1))

end OrderedMap
end TypeDB
