import TypeDB.Foundations.OrderedMap

/-! A sorted list of changes laid over a list of entries. A change has a value for its key or takes
the key away. Where the entries are sorted too, an entry whose key is changed does not show. -/

namespace TypeDB.Overlay
open List OrderedMap
variable {α β ν : Type*} [LinearOrder α] {val : β → Option ν}

def shows (val : β → Option ν) (p : α × β) : List (α × ν) :=
  match val p.2 with
  | some v => [(p.1, v)]
  | none => []

def overlay (val : β → Option ν) : List (α × β) → List (α × ν) → List (α × ν)
  | [], l => l
  | p :: b, [] => shows val p ++ overlay val b []
  | p :: b, q :: l =>
    if p.1 < q.1 then shows val p ++ overlay val b (q :: l)
    else if p.1 = q.1 then shows val p ++ overlay val b l
    else q :: overlay val (p :: b) l
  termination_by b l => b.length + l.length

variable {b : List (α × β)} {l : List (α × ν)} {p : α × β} {q : α × ν} {k : α} {v : ν}

omit [LinearOrder α] in
theorem mem_shows {x : α × ν} : x ∈ shows val p ↔ x.1 = p.1 ∧ val p.2 = some x.2 := by
  obtain ⟨a, c⟩ := x
  rw [shows]
  cases h : val p.2 <;> simp [eq_comm]

@[simp] theorem overlay_nil_left : overlay val ([] : List (α × β)) l = l := by rw [overlay]

theorem overlay_nil_right : overlay val (p :: b) ([] : List (α × ν)) =
    shows val p ++ overlay val b [] := by rw [overlay]

theorem overlay_of_lt (h : p.1 < q.1) :
    overlay val (p :: b) (q :: l) = shows val p ++ overlay val b (q :: l) := by
  rw [overlay, if_pos h]

theorem overlay_of_eq (h : p.1 = q.1) :
    overlay val (p :: b) (q :: l) = shows val p ++ overlay val b l := by
  rw [overlay, if_neg (by simp [h]), if_pos h]

theorem overlay_of_gt (h : q.1 < p.1) :
    overlay val (p :: b) (q :: l) = q :: overlay val (p :: b) l := by
  rw [overlay, if_neg h.asymm, if_neg h.ne']

theorem lt_of_mem_cons {γ : Type*} {a : α} {c : α × γ} {r : List (α × γ)}
    (hr : (c :: r).Pairwise fun a b => a.1 < b.1) (h : a < c.1) : ∀ x ∈ c :: r, a < x.1 := by
  intro x hx
  rcases mem_cons.mp hx with rfl | hx
  · exact h
  · exact h.trans ((pairwise_cons.mp hr).1 x hx)

theorem rel_of_lt {C : α × β → α × β → Prop} {r : α × β}
    (hb : b.Pairwise fun a b => a.1 < b.1) (h : b.Pairwise C) (hp : p ∈ b) (hr : r ∈ b)
    (hlt : p.1 < r.1) : C p r := by
  obtain ⟨front, back, rfl⟩ := append_of_mem hp
  obtain ⟨-, -, hcross⟩ := pairwise_append.mp hb
  rcases mem_append.mp hr with hr | hr
  · exact absurd hlt (hcross r hr p mem_cons_self).asymm
  · rcases mem_cons.mp hr with rfl | hr
    · exact absurd hlt (lt_irrefl _)
    · exact (pairwise_cons.mp (pairwise_append.mp h).2.1).1 r hr

theorem eq_of_pairwise_of_mem_iff {γ : Type*} {R : γ → γ → Prop} {l l' : List γ}
    (hR : ∀ x y, R x y → ¬ R y x) (hl : l.Pairwise R) (hl' : l'.Pairwise R)
    (h : ∀ x, x ∈ l ↔ x ∈ l') : l = l' := by
  have hne : ∀ {x y}, R x y → x ≠ y := by
    rintro x _ hxy rfl
    exact hR x x hxy hxy
  refine List.Perm.eq_of_pairwise ?_ hl hl' ?_
  · exact fun x y _ _ hxy hyx => absurd hyx (hR x y hxy)
  · exact (perm_ext_iff_of_nodup (hl.imp hne) (hl'.imp hne)).mpr h

/-! Entries that are not in the order of their keys, but of another relation: a change is laid
before the first entry whose key is not smaller, and hides only that one. -/

section Unsorted
variable {R : α × ν → α × ν → Prop} {x : α × ν}

/-- No change of the key of `x` is left when `x` is reached. -/
def Kept (R : α × ν → α × ν → Prop) (b : List (α × β)) (l : List (α × ν)) (x : α × ν) : Prop :=
  (∀ p ∈ b, p.1 ≠ x.1) ∨ ∃ a ∈ l, R a x ∧ x.1 ≤ a.1

theorem kept_cons_of_lt (hl : (q :: l).Pairwise R) (h : p.1 < q.1) (hx : x ∈ q :: l) :
    Kept R (p :: b) (q :: l) x ↔ Kept R b (q :: l) x := by
  refine ⟨fun hk => hk.imp_left fun hne r hr => hne r (mem_cons_of_mem p hr), ?_⟩
  rintro (hne | hpassed)
  · by_cases hpx : p.1 = x.1
    · -- the entry at the head is greater and comes first
      have hxl : x ∈ l := (mem_cons.mp hx).resolve_left fun heq => h.ne (heq ▸ hpx)
      exact .inr ⟨q, mem_cons_self, (pairwise_cons.mp hl).1 x hxl, hpx ▸ h.le⟩
    · exact .inl (forall_mem_cons.mpr ⟨hpx, hne⟩)
  · exact .inr hpassed

theorem kept_cons_iff (hl : (q :: l).Pairwise R) (hx : x ∈ l) :
    Kept R b (q :: l) x ↔ (∀ p ∈ b, p.1 ≠ x.1) ∨ x.1 ≤ q.1 ∨ ∃ a ∈ l, R a x ∧ x.1 ≤ a.1 := by
  have hqx := (pairwise_cons.mp hl).1 x hx
  simp [Kept, hqx]

variable (hR : ∀ x y : α × ν, R x y → ¬ R y x)
include hR

theorem kept_head_iff (hl : (q :: l).Pairwise R) :
    Kept R b (q :: l) q ↔ ∀ p ∈ b, p.1 ≠ q.1 := by
  refine or_iff_left ?_
  rintro ⟨a, ha, haq, -⟩
  rcases mem_cons.mp ha with rfl | ha
  · exact hR _ _ haq haq
  · exact hR _ _ haq ((pairwise_cons.mp hl).1 a ha)

omit hR in
theorem kept_of_eq (hb : (p :: b).Pairwise fun a b => a.1 < b.1) (hl : (q :: l).Pairwise R)
    (h : p.1 = q.1) (hx : x ∈ l) : Kept R (p :: b) (q :: l) x ↔ Kept R b l x := by
  have hhead := (pairwise_cons.mp hb).1
  rw [kept_cons_iff hl hx, Kept]
  constructor
  · rintro (hne | hle | hpassed)
    · exact .inl fun r hr => hne r (mem_cons_of_mem p hr)
    · exact .inl fun r hr => ((hle.trans h.ge).trans_lt (hhead r hr)).ne'
    · exact .inr hpassed
  · rintro (hne | hpassed)
    · by_cases hpx : p.1 = x.1
      · exact .inr (.inl (hpx ▸ h.le))
      · exact .inl (forall_mem_cons.mpr ⟨hpx, hne⟩)
    · exact .inr (.inr hpassed)

omit hR in
theorem kept_of_gt (hb : (p :: b).Pairwise fun a b => a.1 < b.1) (hl : (q :: l).Pairwise R)
    (h : q.1 < p.1) (hx : x ∈ l) : Kept R (p :: b) (q :: l) x ↔ Kept R (p :: b) l x := by
  rw [kept_cons_iff hl hx, Kept]
  refine ⟨?_, Or.imp_right .inr⟩
  rintro (hne | hle | hpassed)
  · exact .inl hne
  · exact .inl fun r hr => (hle.trans_lt (lt_of_mem_cons hb h r hr)).ne'
  · exact .inr hpassed

theorem mem_overlay_unsorted (hb : b.Pairwise fun a b => a.1 < b.1) (hl : l.Pairwise R) :
    x ∈ overlay val b l ↔
      (∃ p ∈ b, p.1 = x.1 ∧ val p.2 = some x.2) ∨ x ∈ l ∧ Kept R b l x := by
  induction b, l using overlay.induct with
  | case1 l => simp [Kept]
  | case2 p b ih =>
    rw [overlay_nil_right, mem_append, ih hb.of_cons hl, mem_shows]
    simp [eq_comm]
  | case3 p b q l hlt ih =>
    have hkept : x ∈ q :: l ∧ Kept R (p :: b) (q :: l) x ↔ x ∈ q :: l ∧ Kept R b (q :: l) x :=
      and_congr_right fun hx => kept_cons_of_lt hl hlt hx
    rw [overlay_of_lt hlt, mem_append, ih hb.of_cons hl, mem_shows, hkept]
    simp [or_assoc, eq_comm]
  | case4 p b q l hlt heq ih =>
    have hkept : x ∈ q :: l ∧ Kept R (p :: b) (q :: l) x ↔ x ∈ l ∧ Kept R b l x := by
      rw [mem_cons, or_and_right, or_iff_right]
      · exact and_congr_right fun hx => kept_of_eq hb hl heq hx
      · rintro ⟨rfl, hk⟩
        exact (kept_head_iff hR hl).mp hk p mem_cons_self heq
    rw [overlay_of_eq heq, mem_append, ih hb.of_cons hl.of_cons, mem_shows, hkept]
    simp [or_assoc, eq_comm]
  | case5 p b q l hlt heq ih =>
    have hgt : q.1 < p.1 := lt_of_le_of_ne (not_lt.mp hlt) (Ne.symm heq)
    have hkept : x ∈ q :: l ∧ Kept R (p :: b) (q :: l) x ↔
        x = q ∨ x ∈ l ∧ Kept R (p :: b) l x := by
      rw [mem_cons, or_and_right]
      refine or_congr ?_ (and_congr_right fun hx => kept_of_gt hb hl hgt hx)
      refine and_iff_left_of_imp ?_
      rintro rfl
      exact (kept_head_iff hR hl).mpr fun r hr => (lt_of_mem_cons hb hgt r hr).ne'
    rw [overlay_of_gt hgt, mem_cons, ih hb hl.of_cons, hkept, or_left_comm]

/-- The change of `k` is laid before the entry `x`. -/
def LaidBefore (R : α × ν → α × ν → Prop) (l : List (α × ν)) (k : α) (x : α × ν) : Prop :=
  ∃ a ∈ l, (a = x ∨ R a x) ∧ k ≤ a.1

/-- Where it is laid is where the relation has it. -/
def Placed (R : α × ν → α × ν → Prop) (b : List (α × β)) (l : List (α × ν)) (y : α × ν) : Prop :=
  ∀ x ∈ l, Kept R b l x → (LaidBefore R l y.1 x → R y x) ∧ (¬ LaidBefore R l y.1 x → R x y)

omit hR in
theorem placed_cons_of_le {y : α × ν} (hl : (q :: l).Pairwise R) (h : y.1 ≤ q.1) :
    Placed R b (q :: l) y ↔ ∀ x ∈ q :: l, Kept R b (q :: l) x → R y x := by
  refine forall₂_congr fun x hx => forall_congr' fun _ => ?_
  have hlaid : LaidBefore R (q :: l) y.1 x := by
    refine ⟨q, mem_cons_self, ?_, h⟩
    exact (mem_cons.mp hx).imp Eq.symm ((pairwise_cons.mp hl).1 x)
  simp [hlaid]

omit hR in
theorem laidBefore_cons_of_gt {k : α} (h : q.1 < k) :
    LaidBefore R (q :: l) k x ↔ LaidBefore R l k x := by
  simp [LaidBefore, h]

theorem placed_cons_of_eq {y : α × ν} (hb : (p :: b).Pairwise fun a b => a.1 < b.1)
    (hl : (q :: l).Pairwise R) (h : p.1 = q.1) :
    Placed R (p :: b) (q :: l) y ↔ ∀ x ∈ l, Kept R b l x →
      (LaidBefore R (q :: l) y.1 x → R y x) ∧ (¬ LaidBefore R (q :: l) y.1 x → R x y) := by
  rw [Placed, forall_mem_cons, and_iff_right]
  · exact forall₂_congr fun x hx => by rw [kept_of_eq hb hl h hx]
  · intro hk
    exact absurd h ((kept_head_iff hR hl).mp hk p mem_cons_self)

theorem placed_cons_of_gt {y : α × ν} (hb : (p :: b).Pairwise fun a b => a.1 < b.1)
    (hl : (q :: l).Pairwise R) (h : q.1 < p.1) (hy : q.1 < y.1) :
    Placed R (p :: b) (q :: l) y ↔ R q y ∧ Placed R (p :: b) l y := by
  have hkept : Kept R (p :: b) (q :: l) q :=
    (kept_head_iff hR hl).mpr fun r hr => (lt_of_mem_cons hb h r hr).ne'
  have hlaid : ¬ LaidBefore R (q :: l) y.1 q := by
    rintro ⟨a, ha, haq | haq, hle⟩
    · exact absurd hy (not_lt.mpr (haq ▸ hle))
    · rcases mem_cons.mp ha with rfl | ha
      · exact hR _ _ haq haq
      · exact hR _ _ haq ((pairwise_cons.mp hl).1 a ha)
  rw [Placed, forall_mem_cons]
  refine and_congr (by simp [hkept, hlaid]) (forall₂_congr fun x hx => ?_)
  rw [kept_of_gt hb hl h hx, laidBefore_cons_of_gt hy]

omit [LinearOrder α] hR in
theorem forall_mem_shows {P : α × ν → Prop} :
    (∀ x ∈ shows val p, P x) ↔ ∀ v, val p.2 = some v → P (p.1, v) := by
  refine ⟨fun h v hv => h (p.1, v) (mem_shows.mpr ⟨rfl, hv⟩), fun h x hx => ?_⟩
  obtain ⟨hk, hv⟩ := mem_shows.mp hx
  have := h x.2 hv
  rwa [← hk] at this

theorem forall_mem_overlay {P : α × ν → Prop} (hb : b.Pairwise fun a b => a.1 < b.1)
    (hl : l.Pairwise R) : (∀ y ∈ overlay val b l, P y) ↔
      (∀ p ∈ b, ∀ v, val p.2 = some v → P (p.1, v)) ∧ ∀ x ∈ l, Kept R b l x → P x := by
  simp only [mem_overlay_unsorted hR hb hl]
  constructor
  · exact fun h => ⟨fun p hp v hv => h _ (.inl ⟨p, hp, rfl, hv⟩), fun x hx hk => h x (.inr ⟨hx, hk⟩)⟩
  · rintro ⟨hchanges, hentries⟩ ⟨k, v⟩ (⟨p, hp, rfl, hv⟩ | ⟨hx, hk⟩)
    · exact hchanges p hp v hv
    · exact hentries _ hx hk

omit [LinearOrder α] hR in
theorem pairwise_shows (p : α × β) : (shows val p).Pairwise R := by
  rw [shows]
  split
  · exact pairwise_singleton _ _
  · exact .nil

omit [LinearOrder α] hR in
/-- The change at the head comes before the others, and all are where they should be. -/
theorem changes_cons_iff {F G : α × ν → Prop} (h : ∀ r ∈ b, ∀ v, G (r.1, v) ↔ F (r.1, v)) :
    ((b.Pairwise fun p r => ∀ v, val p.2 = some v → ∀ w, val r.2 = some w → R (p.1, v) (r.1, w)) ∧
        ∀ r ∈ b, ∀ v, val r.2 = some v → F (r.1, v)) ∧
      (∀ v, val p.2 = some v →
        (∀ r ∈ b, ∀ w, val r.2 = some w → R (p.1, v) (r.1, w)) ∧ G (p.1, v)) ↔
    ((p :: b).Pairwise fun p r => ∀ v, val p.2 = some v → ∀ w, val r.2 = some w →
        R (p.1, v) (r.1, w)) ∧
      ∀ r ∈ p :: b, ∀ v, val r.2 = some v → G (r.1, v) := by
  rw [pairwise_cons, forall_mem_cons]
  constructor
  · rintro ⟨⟨hchanges, hrest⟩, hfirst⟩
    exact ⟨⟨fun r hr v hv => (hfirst v hv).1 r hr, hchanges⟩, fun v hv => (hfirst v hv).2,
      fun r hr v hv => (h r hr v).mpr (hrest r hr v hv)⟩
  · rintro ⟨⟨hbefore, hchanges⟩, hfirst, hrest⟩
    exact ⟨⟨hchanges, fun r hr v hv => (h r hr v).mp (hrest r hr v hv)⟩, fun v hv =>
      ⟨fun r hr => hbefore r hr v hv, hfirst v hv⟩⟩

/-- The overlay is in the order of the entries exactly if the changes are, and each is laid where it
belongs. -/
theorem pairwise_overlay_iff (hb : b.Pairwise fun a b => a.1 < b.1) (hl : l.Pairwise R) :
    (overlay val b l).Pairwise R ↔
      (b.Pairwise fun p r => ∀ v, val p.2 = some v → ∀ w, val r.2 = some w →
        R (p.1, v) (r.1, w)) ∧
      ∀ p ∈ b, ∀ v, val p.2 = some v → Placed R b l (p.1, v) := by
  induction b, l using overlay.induct with
  | case1 l => simpa using hl
  | case2 p b ih =>
    have hrest := ih hb.of_cons hl
    rw [overlay_nil_right, pairwise_append, hrest, forall_mem_shows,
      and_iff_right (pairwise_shows p), ← changes_cons_iff fun r hr v => Iff.rfl]
    simp only [forall_mem_overlay hR hb.of_cons hl, Placed, not_mem_nil, false_implies,
      implies_true]
  | case3 p b q l hlt ih =>
    have hrest := ih hb.of_cons hl
    have hplaced : ∀ y : α × ν, Placed R (p :: b) (q :: l) y ↔ Placed R b (q :: l) y := fun y =>
      forall₂_congr fun x hx => by rw [kept_cons_of_lt hl hlt hx]
    rw [overlay_of_lt hlt, pairwise_append, hrest, forall_mem_shows,
      and_iff_right (pairwise_shows p), ← changes_cons_iff fun r _ v => hplaced (r.1, v)]
    simp only [forall_mem_overlay hR hb.of_cons hl, hplaced,
      fun v => placed_cons_of_le (b := b) (y := (p.1, v)) hl hlt.le]
  | case4 p b q l hlt heq ih =>
    have hrest := ih hb.of_cons hl.of_cons
    have hhead := (pairwise_cons.mp hb).1
    have hfirst : ∀ v, Placed R (p :: b) (q :: l) (p.1, v) ↔
        ∀ x ∈ l, Kept R b l x → R (p.1, v) x := fun v => by
      rw [placed_cons_of_eq hR hb hl heq]
      refine forall₂_congr fun x hx => ?_
      have hlaid : LaidBefore R (q :: l) p.1 x :=
        ⟨q, mem_cons_self, .inr ((pairwise_cons.mp hl).1 x hx), heq.le⟩
      simp [hlaid]
    have hplaced : ∀ r ∈ b, ∀ v, Placed R (p :: b) (q :: l) (r.1, v) ↔ Placed R b l (r.1, v) :=
      fun r hr v => by
        rw [placed_cons_of_eq hR hb hl heq]
        have hlt : q.1 < r.1 := heq ▸ hhead r hr
        simp only [laidBefore_cons_of_gt hlt, Placed]
    rw [overlay_of_eq heq, pairwise_append, hrest, forall_mem_shows,
      and_iff_right (pairwise_shows p), ← changes_cons_iff hplaced]
    simp only [forall_mem_overlay hR hb.of_cons hl.of_cons, hfirst]
  | case5 p b q l hlt heq ih =>
    have hgt : q.1 < p.1 := lt_of_le_of_ne (not_lt.mp hlt) (Ne.symm heq)
    have hrest := ih hb hl.of_cons
    have hentries : ∀ x ∈ l, Kept R (p :: b) l x → R q x := fun x hx _ =>
      (pairwise_cons.mp hl).1 x hx
    rw [overlay_of_gt hgt, pairwise_cons, hrest, forall_mem_overlay hR hb hl.of_cons,
      and_iff_left hentries, and_left_comm]
    refine and_congr_right fun _ => ⟨fun h r hr v hv => ?_, fun h => ⟨?_, ?_⟩⟩
    · exact (placed_cons_of_gt hR hb hl hgt (lt_of_mem_cons hb hgt r hr)).mpr
        ⟨h.1 r hr v hv, h.2 r hr v hv⟩
    all_goals
      intro r hr v hv
      obtain ⟨hbefore, hplaced⟩ :=
        (placed_cons_of_gt hR hb hl hgt (lt_of_mem_cons hb hgt r hr)).mp (h r hr v hv)
    · exact hbefore
    · exact hplaced

end Unsorted

/-! Entries in the order of their keys. -/

theorem kept_iff_of_sorted {x : α × ν} :
    Kept (fun a b : α × ν => a.1 < b.1) b l x ↔ ∀ p ∈ b, p.1 ≠ x.1 := by
  refine or_iff_left ?_
  rintro ⟨a, -, hlt, hle⟩
  exact absurd hlt (not_lt.mpr hle)

theorem pairwise_overlay (hb : b.Pairwise fun a b => a.1 < b.1)
    (hl : l.Pairwise fun a b => a.1 < b.1) :
    (overlay val b l).Pairwise fun a b => a.1 < b.1 := by
  refine (pairwise_overlay_iff (fun _ _ h => h.asymm) hb hl).mpr
    ⟨hb.imp fun hlt _ _ _ _ => hlt, fun p hp v _ x hx hkept => ⟨?_, fun hlaid => ?_⟩⟩
  · rintro ⟨a, -, rfl | hlt, hle⟩
    · exact lt_of_le_of_ne hle (kept_iff_of_sorted.mp hkept p hp)
    · exact hle.trans_lt hlt
  · exact not_le.mp fun hle => hlaid ⟨x, hx, .inl rfl, hle⟩

def Seen (val : β → Option ν) (b : List (α × β)) (l : List (α × ν)) (k : α) (v : ν) : Prop :=
  match getList k b with
  | some w => val w = some v
  | none => (k, v) ∈ l

theorem mem_overlay (hb : b.Pairwise fun a b => a.1 < b.1)
    (hl : l.Pairwise fun a b => a.1 < b.1) :
    (k, v) ∈ overlay val b l ↔ Seen val b l k v := by
  rw [mem_overlay_unsorted (fun _ _ h => h.asymm) hb hl, kept_iff_of_sorted, Seen]
  cases hget : getList k b with
  | some w =>
    have hmem := mem_of_getList hget
    constructor
    · rintro (⟨⟨_, w'⟩, hp, rfl, hv⟩ | ⟨-, hne⟩)
      · obtain rfl := Option.some_inj.mp ((getList_of_mem hb hp).symm.trans hget)
        exact hv
      · exact absurd rfl (hne _ hmem)
    · exact fun hv => .inl ⟨_, hmem, rfl, hv⟩
  | none =>
    have hne : ∀ p ∈ b, p.1 ≠ k := by
      rintro ⟨_, w⟩ hp rfl
      rw [getList_of_mem hb hp] at hget
      cases hget
    constructor
    · rintro (⟨p, hp, hk, -⟩ | ⟨hx, -⟩)
      · exact absurd hk (hne p hp)
      · exact hx
    · exact fun hx => .inr ⟨hx, hne⟩

theorem overlay_dropWhile [DecidableLT α] (hb : b.Pairwise fun a b => a.1 < b.1)
    (hl : l.Pairwise fun a b => a.1 < b.1) (target : α) :
    overlay val (b.dropWhile fun p => decide (p.1 < target))
        (l.dropWhile fun q => decide (q.1 < target)) =
      (overlay val b l).dropWhile fun q => decide (q.1 < target) := by
  have hover : (overlay val b l).Pairwise fun a b => a.1 < b.1 := pairwise_overlay hb hl
  rw [dropWhile_lt_eq_filter hb, dropWhile_lt_eq_filter hl, dropWhile_lt_eq_filter hover]
  refine eq_of_mem_iff (pairwise_overlay (hb.filter _) (hl.filter _)) (hover.filter _) ?_
  rintro ⟨k, v⟩
  rw [mem_overlay (hb.filter _) (hl.filter _), mem_filter, mem_overlay hb hl, Seen, Seen,
    getList_filter fun a => decide (target ≤ a)]
  by_cases hk : target ≤ k
  · cases getList k b with
    | some w | none => simp [hk]
  · simp [hk]

end TypeDB.Overlay
