import TypeDB.Foundations.OrderedMap

/-! Maps rebuilt from their entries under other keys, and the way back. -/

namespace TypeDB.OrderedMap
open List
variable {α β ν μ : Type} [LinearOrder α] [LinearOrder β]

def collect (l : List (α × ν)) : OrderedMap α ν := empty.insertAll l

def rekey (f : α × ν → β × μ) (m : OrderedMap α ν) : OrderedMap β μ := collect (m.entries.map f)

def rekeyM (g : α × ν → Option (β × μ)) (m : OrderedMap α ν) : Option (OrderedMap β μ) :=
  (m.entries.mapM g).map collect

theorem mem_collect {l : List (α × ν)} (h : l.Pairwise fun a b => a.1 ≠ b.1) {p : α × ν} :
    p ∈ (collect l).entries ↔ p ∈ l := by
  rw [collect, mem_insertAll h (by simp [empty])]
  simp [empty]

theorem mapM_eq_filterMap {σ τ : Type} {g : σ → Option τ} {l : List σ}
    (h : ∀ x ∈ l, ∃ y, g x = some y) : l.mapM g = some (l.filterMap g) := by
  induction l with
  | nil => rfl
  | cons x l ih =>
    obtain ⟨⟨y, hy⟩, hl⟩ := forall_mem_cons.mp h
    simp [mapM_cons, hy, ih hl]

theorem rekeyM_rekey {f : α × ν → β × μ} {g : β × μ → Option (α × ν)}
    (hg : ∀ p, g (f p) = some p) (hkey : ∀ p q, (f p).1 = (f q).1 → p.1 = q.1)
    (m : OrderedMap α ν) : rekeyM g (rekey f m) = some m := by
  have hdistinct : (m.entries.map f).Pairwise fun a b => a.1 ≠ b.1 := by
    rw [pairwise_map]
    exact m.sorted.imp fun hlt heq => hlt.ne (hkey _ _ heq)
  have hmem : ∀ q, q ∈ (rekey f m).entries ↔ ∃ p ∈ m.entries, f p = q := by
    intro q
    rw [rekey, mem_collect hdistinct, mem_map]
  have hback : ∀ q ∈ (rekey f m).entries, ∀ p, g q = some p → p ∈ m.entries ∧ f p = q := by
    intro q hq p hp
    obtain ⟨p', hp', rfl⟩ := (hmem q).mp hq
    obtain rfl := Option.some.inj ((hg p').symm.trans hp)
    exact ⟨hp', rfl⟩
  have hsome : ∀ q ∈ (rekey f m).entries, ∃ p, g q = some p := by
    intro q hq
    obtain ⟨p, -, rfl⟩ := (hmem q).mp hq
    exact ⟨p, hg p⟩
  have hpair : ((rekey f m).entries.filterMap g).Pairwise fun a b => a.1 ≠ b.1 := by
    rw [pairwise_filterMap]
    refine (rekey f m).sorted.imp_of_mem fun {q q'} hq hq' hlt p hp p' hp' heq => ?_
    obtain ⟨hpm, rfl⟩ := hback q hq p hp
    obtain ⟨hpm', rfl⟩ := hback q' hq' p' hp'
    -- two entries of the map with one key are the same
    have hval := mem_entries.mp hpm
    rw [heq, mem_entries.mp hpm', Option.some.injEq] at hval
    rw [Prod.ext heq hval.symm] at hlt
    exact lt_irrefl _ hlt
  rw [rekeyM, mapM_eq_filterMap hsome, Option.map_some]
  refine congrArg some (ext_entries (eq_of_mem_iff (collect _).sorted m.sorted fun p => ?_))
  rw [mem_collect hpair, mem_filterMap]
  constructor
  · rintro ⟨q, hq, hp⟩
    exact (hback q hq p hp).1
  · intro hp
    exact ⟨f p, (hmem _).mpr ⟨p, hp, rfl⟩, hg p⟩

end TypeDB.OrderedMap
