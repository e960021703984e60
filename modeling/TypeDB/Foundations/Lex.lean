import TypeDB.Foundations.Bytes

/-! The lexicographic order of strings and their prefixes: strings that differ before either
ends keep their order whatever is appended, and the strings with a given prefix are consecutive. -/

namespace TypeDB.Lex
open ByteString List
variable {α : Type*} [LinearOrder α] {u v w x y : List α} {b b' k : Bytes}

theorem prefix_le (h : u <+: w) : u ≤ w := by
  obtain ⟨x, rfl⟩ := h
  induction u with
  | nil => exact not_lt.mp (not_lt_nil _)
  | cons a u ih => exact cons_le_cons a ih

theorem append_lt_append_left_iff : u ++ x < u ++ y ↔ x < y := by
  induction u with
  | nil => rfl
  | cons a u ih => simp [ih]

theorem take_length_lt_iff : u.take w.length < w ↔ u < w := by
  induction w generalizing u with
  | nil => simp
  | cons b w ih =>
    cases u with
    | nil => simp
    | cons a u =>
      rw [length_cons, take_succ_cons, cons_lt_cons_iff, cons_lt_cons_iff, ih]

def Apart (u w : List α) : Prop := ¬ u <+: w ∧ ¬ w <+: u

theorem Apart.append_lt (h : Apart u w) : u ++ x < w ++ y ↔ u < w := by
  obtain ⟨huw, hwu⟩ := h
  induction u generalizing w with
  | nil => exact absurd nil_prefix huw
  | cons a u ih =>
    cases w with
    | nil => exact absurd nil_prefix hwu
    | cons b w =>
      rw [cons_prefix_cons] at huw hwu
      simp only [cons_append, cons_lt_cons_iff]
      by_cases hab : a = b
      · subst hab
        simp only [lt_self_iff_false, true_and, false_or] at huw hwu ⊢
        exact ih huw hwu
      · simp [hab]

theorem prefix_of_between (hp : u <+: w) (hu : u ≤ v) (hv : v ≤ w) : u <+: v := by
  by_contra hnot
  by_cases hvu : v <+: u
  · obtain rfl := le_antisymm hu (prefix_le hvu)
    exact hnot (prefix_refl _)
  · obtain ⟨x, rfl⟩ := hp
    have hlt : u < v := lt_of_le_of_ne hu fun h => hnot (h ▸ prefix_refl _)
    have hapart : Apart u v := ⟨hnot, hvu⟩
    have := (hapart.append_lt (x := x) (y := [])).mpr hlt
    rw [append_nil] at this
    exact absurd hv (not_le.mpr this)

/-- `u` ends inside `w`. -/
def Cuts (w u : List α) : Prop := u <+: w ∧ u ≠ w

instance [DecidableEq α] : Decidable (Cuts w u) := inferInstanceAs (Decidable (_ ∧ _))

omit [LinearOrder α] in
theorem cuts_nil {a : α} : Cuts (a :: w) [] := by
  refine ⟨?_, by simp⟩
  exact nil_prefix

theorem append_lt_iff (h : ¬ Cuts w u) : u ++ x < w ↔ u < w := by
  by_cases huw : u <+: w
  · obtain rfl : u = w := by
      by_contra hne
      exact h ⟨huw, hne⟩
    have hle : u ≤ u ++ x := prefix_le (prefix_append u x)
    exact iff_of_false (not_lt.mpr hle) (lt_irrefl u)
  · by_cases hwu : w <+: u
    · have h₁ : w ≤ u := prefix_le hwu
      have h₂ : w ≤ u ++ x := prefix_le (hwu.trans (prefix_append u x))
      exact iff_of_false (not_lt.mpr h₂) (not_lt.mpr h₁)
    · have := Apart.append_lt (x := x) (y := []) ⟨huw, hwu⟩
      rwa [append_nil] at this

theorem prefix_append_iff (h : ¬ Cuts w u) : w <+: u ++ x ↔ w <+: u := by
  constructor
  · intro hw
    rcases prefix_or_prefix_of_prefix hw (prefix_append u x) with hwu | huw
    · exact hwu
    · by_contra hnot
      exact h ⟨huw, fun heq => hnot (heq ▸ prefix_refl _)⟩
  · exact fun hw => hw.trans (prefix_append u x)

/-- The big-endian successor of a string of bytes of the same length, unless all are 255. -/
def increment : Bytes → Option Bytes
  | [] => none
  | b :: bs =>
    match increment bs with
    | some bs' => some (b :: bs')
    | none => if h : b.val + 1 < 256 then some (⟨b.val + 1, h⟩ :: bs.map fun _ => 0) else none

theorem increment_cons_of_lt {b : Byte} (h : b.val + 1 < 256) (bs : Bytes) :
    ∃ b', increment (b :: bs) = some b' := by
  rw [increment]
  split
  · exact ⟨_, rfl⟩
  · exact ⟨_, dif_pos h⟩

theorem exists_cons_of_increment {c : Byte} {bs b' : Bytes} (h : increment (c :: bs) = some b') :
    ∃ d ds, b' = d :: ds ∧ d.val ≤ c.val + 1 := by
  rw [increment] at h
  split at h
  · cases h
    exact ⟨c, _, rfl, Nat.le_succ _⟩
  · split_ifs at h with hc
    cases h
    exact ⟨⟨c.val + 1, hc⟩, _, rfl, le_rfl⟩

theorem length_increment {b b' : Bytes} (h : increment b = some b') : b'.length = b.length := by
  induction b generalizing b' with
  | nil => cases h
  | cons c bs ih =>
    rw [increment] at h
    split at h
    · rename_i bs' hbs
      cases h
      rw [length_cons, length_cons, ih hbs]
    · split_ifs at h
      cases h
      simp

theorem increment_none {b k : Bytes} (h : increment b = none) (hlt : b < k) : b <+: k := by
  induction b generalizing k with
  | nil => exact nil_prefix
  | cons c bs ih =>
    simp only [increment] at h
    split at h
    · cases h
    · rename_i hbs
      split_ifs at h with hc
      cases k with
      | nil => simp at hlt
      | cons d k =>
        rw [cons_lt_cons_iff] at hlt
        rcases hlt with hlt | ⟨rfl, hlt⟩
        · have := d.isLt
          have : c.val < d.val := hlt
          omega
        · exact cons_prefix_cons.mpr ⟨rfl, ih hbs hlt⟩

theorem zeros_le {n : Nat} {k : Bytes} (h : ¬ Cuts (replicate n 0) k) :
    replicate n (0 : Byte) ≤ k := by
  induction n generalizing k with
  | zero => exact not_lt.mp (not_lt_nil _)
  | succ n ih =>
    rw [replicate_succ] at h ⊢
    cases k with
    | nil => exact absurd cuts_nil h
    | cons c k =>
      by_cases hc : c = 0
      · subst hc
        refine cons_le_cons 0 (ih fun hcut => h ?_)
        exact ⟨cons_prefix_cons.mpr ⟨rfl, hcut.1⟩, by simpa using hcut.2⟩
      · exact le_of_lt (cons_lt_cons_iff.mpr (.inl (Fin.pos_of_ne_zero hc)))

theorem increment_le_iff (h : increment b = some b') (hk : ¬ Cuts b' k) :
    b' ≤ k ↔ b < k ∧ ¬ b <+: k := by
  induction b generalizing b' k with
  | nil => simp [increment] at h
  | cons c bs ih =>
    cases k with
    | nil =>
      exfalso
      simp only [increment] at h
      split at h
      · cases h
        exact hk cuts_nil
      · split_ifs at h
        cases h
        exact hk cuts_nil
    | cons d ks =>
      simp only [increment] at h
      split at h
      · rename_i bs' hbs
        cases h
        rw [← not_lt, cons_lt_cons_iff, cons_lt_cons_iff, cons_prefix_cons]
        by_cases hcd : c = d
        · subst hcd
          have hks : ¬ Cuts bs' ks := fun hcut =>
            hk ⟨cons_prefix_cons.mpr ⟨rfl, hcut.1⟩, by simpa using hcut.2⟩
          simpa using ih hbs hks
        · rcases lt_or_gt_of_ne hcd with hlt | hlt
          · simp [hlt, hcd, hlt.not_gt, Ne.symm hcd]
          · simp [hlt, hcd, hlt.not_gt]
      · rename_i hbs
        split_ifs at h with hc
        cases h
        have hnone : ¬ (bs < ks ∧ ¬ bs <+: ks) := fun ⟨h₁, h₂⟩ => h₂ (increment_none hbs h₁)
        rw [cons_lt_cons_iff, cons_prefix_cons]
        have hright : (c < d ∨ c = d ∧ bs < ks) ∧ ¬ (c = d ∧ bs <+: ks) ↔ c < d := by
          by_cases hcd : c = d
          · subst hcd
            simpa using hnone
          · simp [hcd]
        rw [hright, ← not_lt, cons_lt_cons_iff]
        rcases lt_trichotomy d ⟨c.val + 1, hc⟩ with hlt | heq | hgt
        · have hle : ¬ c < d := by
            have : d.val < c.val + 1 := hlt
            exact not_lt.mpr (Fin.le_def.mpr (by omega))
          simp [hlt, hle]
        · subst heq
          have hcd : c < ⟨c.val + 1, hc⟩ := Fin.lt_def.mpr (by simp)
          have hzeros : replicate bs.length 0 ≤ ks := by
            refine zeros_le fun hcut => hk ?_
            rw [map_const']
            exact ⟨cons_prefix_cons.mpr ⟨rfl, hcut.1⟩, by simpa using hcut.2⟩
          simp [hcd, hzeros]
        · have hcd : c < d := by
            have : c.val + 1 < d.val := hgt
            exact Fin.lt_def.mpr (by omega)
          simp [hgt.not_gt, hgt.ne', hcd]

/-- Past every extension of `b`, but before its successor. -/
def Skips (b k : Bytes) : Prop := b < k ∧ ¬ b <+: k ∧ ∃ b', increment b = some b' ∧ k < b'

theorem past_of_increment_le (h : increment b = some b') (hle : b' ≤ k) : b < k ∧ ¬ b <+: k := by
  refine (increment_le_iff h fun hcut => ?_).mp hle
  exact hcut.2 (le_antisymm (prefix_le hcut.1) hle)

theorem increment_le_iff_not_skips (h : increment b = some b') :
    b' ≤ k ↔ (b < k ∧ ¬ b <+: k) ∧ ¬ Skips b k := by
  constructor
  · intro hle
    refine ⟨past_of_increment_le h hle, ?_⟩
    rintro ⟨-, -, b'', h'', hlt⟩
    obtain rfl := Option.some.inj (h.symm.trans h'')
    exact absurd hle (not_le.mpr hlt)
  · rintro ⟨⟨hlt, hpre⟩, hskip⟩
    by_contra hle
    exact hskip ⟨hlt, hpre, b', h, not_le.mp hle⟩

theorem lt_increment_iff (h : increment b = some b') : k < b' ↔ (k ≤ b ∨ b <+: k) ∨ Skips b k := by
  rw [← not_le, increment_le_iff_not_skips h]
  by_cases hskip : Skips b k
  · simp [hskip]
  · simp only [hskip, not_false_eq_true, and_true, or_false, not_and_or, not_not, not_lt]

end TypeDB.Lex
