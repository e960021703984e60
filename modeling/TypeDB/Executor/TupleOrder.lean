import TypeDB.Foundations.KeySorted
import TypeDB.Foundations.Lex
import TypeDB.Executor.TupleIterator

/-! What the calls of an iterator do when its tuples are sorted: they pass over all tuples up to
the end of those that are alike. -/

namespace TypeDB.Executor
open KeySorted List TupleLayout
variable {α : Type} [LinearOrder α] {layout : TupleLayout} {ts : List (Tuple α)} {t u : Tuple α}
  {x : VariableValue α}

section Lists
variable {β : Type*} [LinearOrder β] {l m : List β}

theorem lt_of_take_lt_take {n : Nat} (h : l.take n < m.take n) : l < m := by
  induction n generalizing l m with
  | zero => simp at h
  | succ n ih =>
    cases l with
    | nil =>
      cases m with
      | nil => simp at h
      | cons b m => exact nil_lt_cons b m
    | cons a l =>
      cases m with
      | nil => simp at h
      | cons b m =>
        rw [take_succ_cons, take_succ_cons, cons_lt_cons_iff] at h
        exact cons_lt_cons_iff.mpr (h.imp id fun ⟨hab, hlm⟩ => ⟨hab, ih hlm⟩)

theorem take_le_take (h : l ≤ m) (n : Nat) : l.take n ≤ m.take n :=
  not_lt.mp fun hlt => not_lt.mpr h (lt_of_take_lt_take hlt)

theorem sortedBy_take {ls : List (List β)} (h : ls.Pairwise (· ≤ ·)) (n : Nat) :
    SortedBy (fun l => l.take n) ls := h.imp fun hle => take_le_take hle n

end Lists

namespace TupleIterator

theorem skipUntilChanges_of_ne {w : Nat} (h : (t :: ts).Pairwise (· ≤ ·)) (hw : 0 < w)
    (hne : w ≠ layout.tupleLength) :
    (⟨layout, t :: ts⟩ : TupleIterator α).skipUntilChanges w =
      ⟨layout, (t :: ts).filter fun u => t.take w < u.take w⟩ := by
  have hdrop := (sortedBy_take h w).dropWhile_eq fun u hu => (sortedBy_take h w).head_le hu
  rw [dropWhile_cons_of_pos (by simp)] at hdrop
  simp only [skipUntilChanges, Nat.max_eq_right hw, if_neg hne, hdrop]

end TupleIterator

namespace TupleLayout

def enumeratedWidth (layout : TupleLayout) : Nat := (layout.lastEnumerated.map (· + 1)).getD 0

def countedWidth (layout : TupleLayout) : Nat :=
  (layout.lastEnumeratedOrCounted.map (· + 1)).getD 0

def group (layout : TupleLayout) (t : Tuple α) : Tuple α := t.take layout.enumeratedWidth

theorem getLast?_filter_range {p : Nat → Bool} {n : Nat} {last : Nat}
    (h : ((range n).filter p).getLast? = some last) :
    last < n ∧ p last ∧ ∀ i < n, p i → i ≤ last := by
  have hmem := mem_of_getLast? h
  simp only [mem_filter, mem_range] at hmem
  refine ⟨hmem.1, hmem.2, fun i hi hp => ?_⟩
  have hsorted : ((range n).filter p).Pairwise (· < ·) :=
    pairwise_lt_range.sublist filter_sublist
  obtain ⟨front, hfront⟩ := getLast?_eq_some_iff.mp h
  have hi' : i ∈ front ++ [last] := hfront ▸ mem_filter.mpr ⟨mem_range.mpr hi, hp⟩
  rw [hfront, pairwise_append] at hsorted
  rcases mem_append.mp hi' with hi' | hi'
  · exact (hsorted.2.2 i hi' last mem_cons_self).le
  · exact (mem_singleton.mp hi').le

theorem lt_past_getLast?_filter_range {p : Nat → Bool} {n i : Nat} (hi : i < n) (h : p i) :
    i < ((((range n).filter p).getLast?).map (· + 1)).getD 0 := by
  cases hlast : ((range n).filter p).getLast? with
  | none =>
    rw [getLast?_eq_none_iff, filter_eq_nil_iff] at hlast
    exact absurd h (hlast i (mem_range.mpr hi))
  | some last => exact Nat.lt_succ_of_le ((getLast?_filter_range hlast).2.2 i hi h)

theorem exists_lastEnumeratedOrCounted {last : Nat} (h : layout.lastEnumerated = some last) :
    ∃ c, layout.lastEnumeratedOrCounted = some c ∧ last ≤ c := by
  obtain ⟨hlt, hp, -⟩ := getLast?_filter_range h
  cases hc : layout.lastEnumeratedOrCounted with
  | some c =>
    obtain ⟨-, -, hlast⟩ := getLast?_filter_range hc
    exact ⟨c, rfl, hlast last hlt (by simp [hp])⟩
  | none =>
    rw [lastEnumeratedOrCounted, getLast?_eq_none_iff, filter_eq_nil_iff] at hc
    exact absurd (by simp [hp]) (hc last (mem_range.mpr hlt))

end TupleLayout

namespace TupleIterator

section Counting
variable {e c : Nat}

theorem take_lt_of_take_lt (hec : e ≤ c) (h : t.take e < u.take e) : t.take c < u.take c := by
  refine lt_of_take_lt_take (n := e) ?_
  rwa [take_take, take_take, Nat.min_eq_left hec]

theorem length_leaders (h : (t :: ts).Pairwise (· ≤ ·)) (q : Tuple α → Bool) (hq : q t) (c : Nat) :
    (leaders (fun u : Tuple α => u.take c) ((t :: ts).filter q)).length =
      1 + (leaders (fun u : Tuple α => u.take c)
        (((t :: ts).filter fun u => t.take c < u.take c).filter q)).length := by
  have hsorted := (sortedBy_take h c).filter q
  rw [filter_cons_of_pos hq] at hsorted
  rw [filter_comm, filter_cons_of_pos hq, hsorted.leaders_cons, length_cons, Nat.add_comm]

theorem countLoop_eq (hec : e ≤ c) (h : (t :: ts).Pairwise (· ≤ ·))
    (hskip : ∀ u us, (u :: us).Sublist (t :: ts) →
      (⟨layout, u :: us⟩ : TupleIterator α).skipUntilChanges (c + 1) =
        ⟨layout, (u :: us).filter fun v => u.take (c + 1) < v.take (c + 1)⟩) {fuel : Nat}
    (hfuel : (t :: ts).length ≤ fuel) (count : Nat) :
    countLoop (t.take (e + 1)) e (c + 1) fuel count ⟨layout, t :: ts⟩ =
      (count + (leaders (fun u : Tuple α => u.take (c + 1))
          (((t :: ts).filter fun u => t.take (c + 1) < u.take (c + 1)).filter fun u =>
            u.take (e + 1) = t.take (e + 1))).length,
        ⟨layout, (t :: ts).filter fun u => t.take (e + 1) < u.take (e + 1)⟩) := by
  induction fuel generalizing t ts count with
  | zero => simp at hfuel
  | succ fuel ih =>
    -- what changes in the enumerated part changes in the counted part
    have hpast : ((t :: ts).filter fun u => decide (t.take (e + 1) < u.take (e + 1))) =
        ((t :: ts).filter fun u => decide (t.take (c + 1) < u.take (c + 1))).filter fun u =>
          decide (t.take (e + 1) < u.take (e + 1)) := by
      rw [filter_filter]
      refine filter_congr fun u _ => ?_
      by_cases hlt : t.take (e + 1) < u.take (e + 1)
      · simp [hlt, take_lt_of_take_lt (Nat.succ_le_succ hec) hlt]
      · simp [hlt]
    have hsublist := filter_sublist (l := t :: ts)
      (p := fun u => decide (t.take (c + 1) < u.take (c + 1)))
    have hsub := h.sublist hsublist
    have hlen : ((t :: ts).filter fun u => decide (t.take (c + 1) < u.take (c + 1))).length ≤
        fuel := by
      rw [filter_cons_of_neg (by simp)]
      have := length_filter_le (fun u => decide (t.take (c + 1) < u.take (c + 1))) ts
      rw [length_cons] at hfuel
      omega
    have hge : ∀ u ∈ (t :: ts).filter fun u => decide (t.take (c + 1) < u.take (c + 1)),
        t.take (e + 1) ≤ u.take (e + 1) := fun u hu =>
      (sortedBy_take h (e + 1)).head_le (mem_of_mem_filter hu)
    rw [countLoop, hskip t ts (Sublist.refl _), hpast]
    generalize (t :: ts).filter (fun u => decide (t.take (c + 1) < u.take (c + 1))) = rest at *
    cases rest with
    | nil => simp [leaders]
    | cons u us =>
      by_cases hu : u.take (e + 1) = t.take (e + 1)
      · have hrest := ih hsub (fun v vs hv => hskip v vs (hv.trans hsublist)) hlen (count + 1)
        simp only [hu] at hrest
        have hsize := length_leaders hsub (fun v => decide (v.take (e + 1) = t.take (e + 1)))
          (by simpa using hu) (c + 1)
        simp only [hu, ne_eq, not_true_eq_false, if_false, hrest, hsize, Nat.add_assoc]
      · have hlt : t.take (e + 1) < u.take (e + 1) :=
          lt_of_le_of_ne (hge u mem_cons_self) (Ne.symm hu)
        have hall : ∀ v ∈ u :: us, t.take (e + 1) < v.take (e + 1) := fun v hv =>
          hlt.trans_le ((sortedBy_take hsub (e + 1)).head_le hv)
        have hnone : ((u :: us).filter fun v => decide (v.take (e + 1) = t.take (e + 1))) = [] := by
          rw [filter_eq_nil_iff]
          intro v hv
          simpa using (hall v hv).ne'
        have hself : ((u :: us).filter fun v => decide (t.take (e + 1) < v.take (e + 1))) =
            u :: us := filter_eq_self.mpr fun v hv => by simpa using hall v hv
        simp only [ne_eq, hu, not_false_eq_true, if_true, hnone, hself]
        rfl

end Counting

/-- The number of tuples of a group that differ in what is counted. -/
def groupSize (it : TupleIterator α) (g : Tuple α) : Nat :=
  (leaders (fun u : Tuple α => u.take it.layout.countedWidth)
    (it.tuples.filter fun u => it.layout.group u = g)).length

/-- Advancing passes over the group of the first tuple and counts it, if skipping passes over all
that agree in what is counted. -/
theorem advancePast_eq_of_skip (h : (t :: ts).Pairwise (· ≤ ·)) (he : layout.lastEnumerated ≠ none)
    (hskip : ∀ u us, (u :: us).Sublist (t :: ts) →
      (⟨layout, u :: us⟩ : TupleIterator α).skipUntilChanges layout.countedWidth =
        ⟨layout, (u :: us).filter fun v =>
          u.take layout.countedWidth < v.take layout.countedWidth⟩) :
    (⟨layout, t :: ts⟩ : TupleIterator α).advancePast =
      (groupSize ⟨layout, t :: ts⟩ (layout.group t),
        ⟨layout, (t :: ts).filter fun u => layout.group t < layout.group u⟩) := by
  obtain ⟨e, he⟩ := Option.ne_none_iff_exists'.mp he
  obtain ⟨c, hc, hec⟩ := exists_lastEnumeratedOrCounted he
  simp only [countedWidth, hc, Option.map_some, Option.getD_some] at hskip
  simp only [advancePast, groupSize, group, enumeratedWidth,
    countedWidth, he, hc, Option.map_some, Option.getD_some]
  split_ifs with heq
  · cases heq
    have hone : (leaders (fun u : Tuple α => u.take (e + 1)) ((t :: ts).filter fun u =>
        decide (u.take (e + 1) = t.take (e + 1)))).length = 1 := by
      rw [filter_cons_of_pos (by simp), leaders_cons_of_eq, length_singleton]
      exact fun u hu => of_decide_eq_true (mem_filter.mp hu).2
    rw [hskip t ts (Sublist.refl _), hone]
  · rw [length_leaders h (fun v => decide (v.take (e + 1) = t.take (e + 1))) (by simp) (c + 1)]
    exact countLoop_eq hec h hskip le_rfl 1

end TupleIterator
end TypeDB.Executor
