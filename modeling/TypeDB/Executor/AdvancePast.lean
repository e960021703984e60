import TypeDB.Executor.TupleOrder

/-! Which answers `SortedTupleIterator::advance_past` counts when a stream may repeat a tuple. A
comparison of whole tuples is left out by the iterator, so that repeated tuples count there, and a
stream without anything enumerated is counted from one. -/

namespace TypeDB.Executor
open KeySorted List TupleLayout

namespace TupleLayout

/-- The number of different beginnings up to the last column that is enumerated or counted. -/
def distinct {α : Type} [DecidableEq α] (layout : TupleLayout) (ts : List (Tuple α)) : Nat :=
  (ts.map fun u => u.take layout.countedWidth).dedup.length

end TupleLayout

variable {α : Type} [LinearOrder α] {layout : TupleLayout} {ts : List (Tuple α)} {t : Tuple α}

namespace TupleIterator

/-- Advancing returns the number of different counted parts among the tuples with the current
enumerated part, and moves to the first tuple with another one. -/
def AdvancesExactly (layout : TupleLayout) (t : Tuple α) (ts : List (Tuple α)) : Prop :=
  (⟨layout, t :: ts⟩ : TupleIterator α).advancePast =
    (layout.distinct ((t :: ts).filter fun u => layout.group u = layout.group t),
      ⟨layout, (t :: ts).dropWhile fun u => layout.group u = layout.group t⟩)

end TupleIterator

theorem length_leaders_eq_distinct (ts : List (Tuple α)) :
    (leaders (fun u : Tuple α => u.take layout.countedWidth) ts).length = layout.distinct ts := by
  rw [distinct, ← length_map (fun u : Tuple α => u.take layout.countedWidth)]
  refine ((perm_ext_iff_of_nodup (nodup_leaders _ ts) (nodup_dedup _)).mpr fun p => ?_).length_eq
  rw [mem_dedup, mem_map, mem_map]
  constructor
  · rintro ⟨u, hu, rfl⟩
    exact ⟨u, mem_of_mem_leaders _ hu, rfl⟩
  · rintro ⟨u, hu, rfl⟩
    exact exists_leader _ hu

theorem length_eq_distinct_iff (hlen : ∀ u ∈ ts, u.length ≤ layout.countedWidth) :
    ts.length = layout.distinct ts ↔ ts.Nodup := by
  have hmap : (ts.map fun u => u.take layout.countedWidth) = ts := by
    conv_rhs => rw [← map_id ts]
    exact map_congr_left fun u hu => take_of_length_le (hlen u hu)
  rw [distinct, hmap]
  constructor
  · intro h
    rw [← dedup_eq_self]
    exact (dedup_sublist ts).eq_of_length h.symm
  · intro h
    rw [h.dedup]

section Group
variable (h : (t :: ts).Pairwise (· ≤ ·))

include h

theorem dropWhile_group : ((t :: ts).dropWhile fun u => layout.group u = layout.group t) =
    (t :: ts).filter fun u => layout.group t < layout.group u :=
  (sortedBy_take h _).dropWhile_eq fun _ hu => (sortedBy_take h _).head_le hu

theorem takeWhile_group : ((t :: ts).takeWhile fun u => layout.group u = layout.group t) =
    (t :: ts).filter fun u => layout.group u = layout.group t := by
  have hsorted : SortedBy layout.group (t :: ts) := sortedBy_take h layout.enumeratedWidth
  have hall : ((t :: ts).filter fun u => layout.group t ≤ layout.group u) = t :: ts :=
    filter_eq_self.mpr fun u hu => by simpa using hsorted.head_le hu
  have hsplit := hsorted.filter_le (layout.group t)
  have hdrop : ((t :: ts).dropWhile fun u => layout.group u = layout.group t) = _ :=
    dropWhile_group h
  rw [hall] at hsplit
  refine append_cancel_right (takeWhile_append_dropWhile.trans (hsplit.trans ?_))
  convert rfl using 2
  convert hdrop

end Group

namespace TupleLayout

theorem countedWidth_le (layout : TupleLayout) : layout.countedWidth ≤ layout.tupleLength := by
  cases hc : layout.lastEnumeratedOrCounted with
  | none => simp [countedWidth, hc]
  | some c => simpa [countedWidth, hc] using (getLast?_filter_range hc).1

theorem exists_of_countedWidth_pos (h : 0 < layout.countedWidth) :
    ∃ c, layout.lastEnumeratedOrCounted = some c ∧ layout.countedWidth = c + 1 := by
  cases hc : layout.lastEnumeratedOrCounted with
  | none => simp [countedWidth, hc] at h
  | some c => exact ⟨c, rfl, by simp [countedWidth, hc]⟩

omit [LinearOrder α] in
theorem group_of_none (u : Tuple α) (he : layout.lastEnumerated = none) : layout.group u = [] := by
  simp [group, enumeratedWidth, he]

theorem countedWidth_pos {i : Nat} (hi : i < layout.tupleLength)
    (h : layout.isEnumerated i ∨ layout.isCounted i) : 0 < layout.countedWidth :=
  (Nat.zero_le i).trans_lt (lt_past_getLast?_filter_range hi (by simpa using h))

end TupleLayout

namespace TupleIterator

section Whole
variable {e : Nat}

theorem countLoop_whole {fuel : Nat} (hfuel : (t :: ts).length ≤ fuel) (count : Nat) :
    countLoop (t.take (e + 1)) e layout.tupleLength fuel count ⟨layout, t :: ts⟩ =
      (count + (ts.takeWhile fun u => u.take (e + 1) = t.take (e + 1)).length,
        ⟨layout, ts.dropWhile fun u => u.take (e + 1) = t.take (e + 1)⟩) := by
  induction fuel generalizing t ts count with
  | zero => simp at hfuel
  | succ fuel ih =>
    simp only [countLoop, skipUntilChanges, if_true, advanceSingle, tail_cons]
    cases ts with
    | nil => simp
    | cons u us =>
      by_cases hu : u.take (e + 1) = t.take (e + 1)
      · have hrest : countLoop (u.take (e + 1)) e layout.tupleLength fuel (count + 1)
            ⟨layout, u :: us⟩ = _ := ih (by simpa using hfuel) (count + 1)
        simp only [hu] at hrest
        simp only [hu, ne_eq, not_true_eq_false, if_false, hrest, takeWhile_cons,
          dropWhile_cons, decide_true, if_true, length_cons]
        rw [Nat.add_right_comm, Nat.add_assoc]
      · simp [hu]

end Whole

theorem countRest_eq {w : Nat} (hw : 0 < w) (hne : w ≠ layout.tupleLength)
    (h : ts.Pairwise (· ≤ ·)) {fuel : Nat} (hfuel : ts.length ≤ fuel) (count : Nat) :
    countRest w fuel count ⟨layout, ts⟩ =
      (count + (leaders (fun u : Tuple α => u.take w) ts).length, ⟨layout, []⟩) := by
  induction fuel generalizing ts count with
  | zero =>
    obtain rfl := eq_nil_of_length_eq_zero (Nat.le_zero.mp hfuel)
    rfl
  | succ fuel ih =>
    cases ts with
    | nil => rfl
    | cons t ts =>
      have hshort : ((t :: ts).filter fun u => decide (t.take w < u.take w)).length ≤ fuel := by
        rw [filter_cons_of_neg (by simp)]
        have := length_filter_le (fun u => decide (t.take w < u.take w)) ts
        rw [length_cons] at hfuel
        omega
      rw [(sortedBy_take h w).leaders_cons]
      simp only [countRest, isEmpty_cons, Bool.false_eq_true, if_false,
        skipUntilChanges_of_ne h hw hne, ih (h.sublist filter_sublist) hshort,
        length_cons, Nat.add_assoc, Nat.add_comm]

theorem dropWhile_cons_eq_iff (h : (t :: ts).Pairwise (· ≤ ·))
    (hwhole : ∀ u ∈ t :: ts, layout.group u = u) :
    ts = ((t :: ts).dropWhile fun u => layout.group u = layout.group t) ↔
      ((t :: ts).filter fun u => layout.group u = layout.group t).Nodup := by
  rw [← takeWhile_group h, takeWhile_cons_of_pos (by simp), dropWhile_cons_of_pos (by simp)]
  constructor
  · intro hdrop
    have hnone : (ts.takeWhile fun u => decide (layout.group u = layout.group t)) = [] := by
      have happend := takeWhile_append_dropWhile
        (p := fun u => decide (layout.group u = layout.group t)) (l := ts)
      rw [← hdrop] at happend
      exact append_left_eq_self.mp happend
    rw [hnone]
    exact nodup_singleton t
  · intro hnodup
    cases ts with
    | nil => rfl
    | cons u us =>
      rw [dropWhile_cons_of_neg]
      intro hu
      have hut : u = t := by
        rw [← hwhole u (by simp), of_decide_eq_true hu, hwhole t (by simp)]
      rw [takeWhile_cons, if_pos hu, hut] at hnodup
      simp at hnodup

variable (hlen : ∀ u ∈ t :: ts, u.length = layout.tupleLength) (h : (t :: ts).Pairwise (· ≤ ·))

include h in
theorem advancesExactly_of_lt (hpos : 0 < layout.countedWidth)
    (hlt : layout.countedWidth < layout.tupleLength) :
    AdvancesExactly layout t ts ↔ layout.lastEnumerated ≠ none := by
  by_cases he : layout.lastEnumerated = none
  · -- the group is the whole stream, and one more is counted
    obtain ⟨c, hc, hcw⟩ := exists_of_countedWidth_pos hpos
    have hnlast : c ≠ layout.tupleLength - 1 := by omega
    have hgroup := fun u : Tuple α => group_of_none u he
    refine iff_of_false (fun hexact => ?_) (by simpa using he)
    have hcount := congrArg Prod.fst hexact
    simp only [advancePast, he, hc, reduceCtorEq, if_false, Option.some.injEq, hnlast,
      Option.map_some, Option.getD_some,
      countRest_eq (show 0 < c + 1 by omega) (hcw ▸ hlt.ne) h le_rfl, hgroup, decide_true,
      filter_true] at hcount
    have hsame : _ = layout.distinct (t :: ts) := length_leaders_eq_distinct (t :: ts)
    rw [hcw] at hsame
    omega
  · refine iff_of_true ?_ he
    rw [AdvancesExactly, advancePast_eq_of_skip h he fun u us hu =>
      skipUntilChanges_of_ne (h.sublist hu) hpos hlt.ne, groupSize, length_leaders_eq_distinct,
      dropWhile_group h]

include hlen h in
theorem advancesExactly_of_eq (hpos : 0 < layout.countedWidth)
    (heq : layout.countedWidth = layout.tupleLength) :
    AdvancesExactly layout t ts ↔
      ((t :: ts).filter fun u => layout.group u = layout.group t).Nodup := by
  have hcounted : ∀ us : List (Tuple α), us.Sublist (t :: ts) → ∀ u ∈ us,
      u.length ≤ layout.countedWidth :=
    fun us hus u hu => ((hlen u (hus.subset hu)).trans heq.symm).le
  have hdistinct := length_eq_distinct_iff (hcounted _ (filter_sublist
    (p := fun u => decide (layout.group u = layout.group t))))
  obtain ⟨c, hc, hcw⟩ := exists_of_countedWidth_pos hpos
  replace hcw := hcw.symm.trans heq
  rw [← hdistinct, AdvancesExactly]
  cases he : layout.lastEnumerated with
  | none =>
    have hgroup := fun u : Tuple α => group_of_none u he
    have hlast : c = layout.tupleLength - 1 := by omega
    have hend : ((t :: ts).dropWhile fun u => layout.group u = layout.group t) = _ :=
      dropWhile_group h
    simp only [hgroup, lt_self_iff_false, decide_false, filter_false, decide_true] at hend
    simp only [advancePast, he, hc, reduceCtorEq, if_false, hlast, if_true, hgroup, hend,
      decide_true, filter_true, Prod.mk.injEq, and_true]
  | some e =>
    have hew : layout.enumeratedWidth = e + 1 := by simp [enumeratedWidth, he]
    by_cases hec : e = c
    · subst hec
      have hwhole : ∀ u ∈ t :: ts, layout.group u = u := fun u hu => by
        rw [group, hew, take_of_length_le (by rw [hlen u hu, hcw])]
      have hone :
          layout.distinct ((t :: ts).filter fun u => layout.group u = layout.group t) = 1 := by
        rw [← length_leaders_eq_distinct, filter_cons_of_pos (by simp), leaders_cons_of_eq,
          length_singleton]
        intro u hu
        have hsame := of_decide_eq_true (mem_filter.mp hu).2
        rwa [group, group, hew, hcw, ← heq] at hsame
      rw [hdistinct, ← dropWhile_cons_eq_iff h hwhole]
      simp only [advancePast, he, hc, if_true, Option.map_some, Option.getD_some, hcw,
        skipUntilChanges, advanceSingle, tail_cons, hone, Prod.mk.injEq, true_and,
        TupleIterator.mk.injEq]
    · have hne : (some e : Option Nat) ≠ some c := by simpa using hec
      have hcount : (((t :: ts).filter fun u => decide (layout.group u = layout.group t))).length =
          1 + (ts.takeWhile fun u => u.take (e + 1) = t.take (e + 1)).length := by
        rw [← takeWhile_group h, takeWhile_cons_of_pos (by simp), length_cons, Nat.add_comm]
        simp only [group, hew]
      have hdrop : ((t :: ts).dropWhile fun u => decide (layout.group u = layout.group t)) =
          ts.dropWhile fun u => u.take (e + 1) = t.take (e + 1) := by
        rw [dropWhile_cons_of_pos (by simp)]
        simp only [group, hew]
      rw [hcount, hdrop]
      simp only [advancePast, he, hc, hne, if_false, Option.map_some, Option.getD_some, hcw,
        countUntilEnumeratedChanges, countLoop_whole le_rfl, Prod.mk.injEq, and_true]

include hlen h in
/-- Advancing counts and moves as it should exactly if a part of the tuples is compared and
something is enumerated, or whole tuples are and the current group has no tuple twice. -/
theorem advancePast_exact_iff
    (hsome : ∃ i < layout.tupleLength, layout.isEnumerated i ∨ layout.isCounted i) :
    AdvancesExactly layout t ts ↔
      layout.countedWidth < layout.tupleLength ∧ layout.lastEnumerated ≠ none ∨
      layout.countedWidth = layout.tupleLength ∧
        ((t :: ts).filter fun u => layout.group u = layout.group t).Nodup := by
  obtain ⟨i, hi, hmode⟩ := hsome
  have hpos := countedWidth_pos hi hmode
  rcases layout.countedWidth_le.lt_or_eq with hlt | heq
  · rw [advancesExactly_of_lt h hpos hlt, and_iff_right hlt, or_iff_left fun hand => hlt.ne hand.1]
  · rw [advancesExactly_of_eq hlen h hpos heq, and_iff_right heq,
      or_iff_right fun hand => hand.1.ne heq]

def columns (modes : List VariableMode) : TupleLayout :=
  ⟨(List.range modes.length).map fun i => some (.rowPosition i), fun
    | .rowPosition i => modes.getD i .check
    | .internal _ => .check⟩

/-- One enumerated, one counted and one checked column: two answers, counted once each. -/
theorem advancePast_exact_three :
    AdvancesExactly (columns [.output, .count, .check]) ([1, 2, 3] : Tuple Nat)
      [[1, 2, 4], [1, 3, 3], [2, 0, 0]] :=
  (advancePast_exact_iff (by decide) (by decide) ⟨0, by decide, by decide⟩).mpr (by decide)

/-- An enumerated column whose tuple comes twice is moved to again; a counted column in front of a
checked one gives one answer too many. -/
theorem advancePast_not_exact :
    ¬ AdvancesExactly (columns [.output]) ([1] : Tuple Nat) [[1]] ∧
      ¬ AdvancesExactly (columns [.count, .check]) ([1, 1] : Tuple Nat) [] := by
  constructor
  · intro h
    exact absurd (congrArg (fun result => result.2.tuples) h) (by decide)
  · intro h
    exact absurd (congrArg Prod.fst h) (by decide)

end TupleIterator
end TypeDB.Executor
