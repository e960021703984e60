import Mathlib.Data.List.Lex
import Mathlib.Data.List.Dedup
import Mathlib.Data.Finset.Card

/-! Lists in ascending order of a key, as cursors that only move forward: passing over a key is a
filter. -/

namespace TypeDB.KeySorted
open List
variable {β κ : Type*} [LinearOrder κ] {key : β → κ} {l : List β} {a : β} {x : κ}

def SortedBy (key : β → κ) (l : List β) : Prop := l.Pairwise fun a b => key a ≤ key b

theorem SortedBy.filter (h : SortedBy key l) (p : β → Bool) : SortedBy key (l.filter p) :=
  h.sublist filter_sublist

theorem SortedBy.dropWhile_eq [DecidableEq κ] [DecidableLT κ] (h : SortedBy key l)
    (hx : ∀ a ∈ l, x ≤ key a) :
    (l.dropWhile fun a => key a = x) = l.filter fun a => x < key a := by
  induction l with
  | nil => rfl
  | cons a l ih =>
    obtain ⟨hhead, htail⟩ := pairwise_cons.mp h
    by_cases ha : key a = x
    · rw [dropWhile_cons_of_pos (by simpa using ha), filter_cons_of_neg (by simp [ha])]
      exact ih htail fun b hb => hx b (mem_cons_of_mem a hb)
    · have hlt : x < key a := lt_of_le_of_ne (hx a mem_cons_self) (Ne.symm ha)
      rw [dropWhile_cons_of_neg (by simpa using ha),
        filter_cons_of_pos (by simpa using hlt), filter_eq_self.mpr]
      intro b hb
      simpa using hlt.trans_le (hhead b hb)

theorem SortedBy.filter_le [DecidableEq κ] (h : SortedBy key l) (x : κ) :
    (l.filter fun a => x ≤ key a) =
      (l.filter fun a => key a = x) ++ l.filter fun a => x < key a := by
  induction l with
  | nil => rfl
  | cons a l ih =>
    obtain ⟨hhead, htail⟩ := pairwise_cons.mp h
    rcases lt_trichotomy (key a) x with ha | ha | ha
    · simp [ha.ne, not_le.mpr ha, not_lt.mpr ha.le, ih htail]
    · simp [ha, ih htail]
    · have hnone : (l.filter fun a => decide (key a = x)) = [] := by
        rw [filter_eq_nil_iff]
        intro b hb
        simpa using (ha.trans_le (hhead b hb)).ne'
      have hall : (l.filter fun a => decide (x ≤ key a)) = l.filter fun a => decide (x < key a) := by
        refine filter_congr fun b hb => ?_
        have := ha.trans_le (hhead b hb)
        simp [this, this.le]
      simp [ha.ne', ha.le, ha, hnone, hall]

theorem SortedBy.head_le (h : SortedBy key (a :: l)) {b : β} (hb : b ∈ a :: l) : key a ≤ key b := by
  rcases mem_cons.mp hb with rfl | hb
  · exact le_rfl
  · exact (pairwise_cons.mp h).1 b hb

section Leaders
variable {γ : Type*} [DecidableEq γ] (key : β → γ) {l : List β}

def leaders : List β → List β
  | [] => []
  | a :: l => a :: (leaders l).filter fun b => key b ≠ key a

theorem mem_of_mem_leaders {a : β} (h : a ∈ leaders key l) : a ∈ l := by
  induction l with
  | nil => exact h
  | cons b l ih =>
    rcases mem_cons.mp h with rfl | h
    · exact mem_cons_self
    · exact mem_cons_of_mem b (ih (mem_of_mem_filter h))

theorem exists_leader {a : β} (h : a ∈ l) : ∃ b ∈ leaders key l, key b = key a := by
  induction l with
  | nil => cases h
  | cons b l ih =>
    by_cases hab : key a = key b
    · exact ⟨b, mem_cons_self, hab.symm⟩
    · have ha : a ∈ l := (mem_cons.mp h).resolve_left fun h => hab (h ▸ rfl)
      obtain ⟨c, hc, hkey⟩ := ih ha
      exact ⟨c, mem_cons_of_mem b (mem_filter.mpr ⟨hc, by simpa [hkey] using hab⟩), hkey⟩

theorem nodup_leaders (l : List β) : ((leaders key l).map key).Nodup := by
  induction l with
  | nil => exact nodup_nil
  | cons b l ih =>
    rw [leaders, map_cons, nodup_cons]
    refine ⟨fun h => ?_, ih.sublist (List.filter_sublist.map key)⟩
    obtain ⟨c, hc, hkey⟩ := mem_map.mp h
    simpa [hkey] using (mem_filter.mp hc).2

theorem leaders_cons_of_eq {a : β} (h : ∀ b ∈ l, key b = key a) : leaders key (a :: l) = [a] := by
  rw [leaders, filter_eq_nil_iff.mpr]
  intro b hb
  simpa using h b (mem_of_mem_leaders key hb)

theorem leaders_filter (p : γ → Bool) (l : List β) :
    leaders key (l.filter fun a => p (key a)) = (leaders key l).filter fun a => p (key a) := by
  induction l with
  | nil => rfl
  | cons a l ih =>
    by_cases ha : p (key a) = true
    · simp only [filter_cons, ha, if_true, leaders, ih, filter_filter, Bool.and_comm]
    · simp only [filter_cons, ha, if_false, leaders, ih, filter_filter, Bool.false_eq_true]
      refine filter_congr fun b _ => ?_
      by_cases hb : p (key b)
      · have hne : key b ≠ key a := fun h => ha (h ▸ hb)
        simp [hb, hne]
      · simp [hb]

end Leaders

theorem SortedBy.leaders_cons [DecidableEq κ] [DecidableLT κ] (h : SortedBy key (a :: l)) :
    leaders key (a :: l) = a :: leaders key ((a :: l).filter fun b => key a < key b) := by
  rw [leaders, filter_cons_of_neg (by simp)]
  have hfilter : (l.filter fun b => decide (key a < key b)) =
      l.filter fun b => decide (key b ≠ key a) := by
    refine filter_congr fun b hb => decide_eq_decide.mpr ?_
    exact (h.head_le (mem_cons_of_mem a hb)).lt_iff_ne'
  rw [hfilter]
  exact congrArg (a :: ·) (leaders_filter key (fun x => decide (x ≠ key a)) l).symm

end TypeDB.KeySorted
