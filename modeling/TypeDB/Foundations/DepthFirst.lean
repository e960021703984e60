import Mathlib.Data.Finset.Card
import Mathlib.Data.List.Nodup
import Mathlib.Logic.Relation

/-! Depth-first search in a finite graph, with a state that is changed where a vertex is entered,
left or met again. A search that labels what it enters comes to what is reached without passing
through labels; labelled backwards from the last finished vertex on, mutually reachable vertices
get one label. -/

namespace TypeDB.DepthFirst

open List Relation Option Function

variable {α β σ : Type}

structure Search (α σ : Type) where
  next : α → List α
  seen : σ → α → Bool
  again : α → σ → σ
  enter : α → σ → σ
  leave : α → σ → σ

def Search.visit (S : Search α σ) : Nat → σ → α → σ
  | 0, s, _ => s
  | fuel + 1, s, a =>
    if S.seen s a then S.again a s
    else S.leave a ((S.next a).foldl (S.visit fuel) (S.enter a s))

/-- Visits one after the other. -/
inductive Each (R : α → σ → σ → Prop) : List α → σ → σ → Prop
  | nil (s : σ) : Each R [] s s
  | cons {a : α} {l : List α} {s t u : σ} : R a s t → Each R l t u → Each R (a :: l) s u

/-- What has to be shown of the hooks for `R` to hold of every visit. -/
structure Search.Keeps (S : Search α σ) (V : Finset α) (I : σ → Prop) (R : α → σ → σ → Prop) :
    Prop where
  next_mem : ∀ a ∈ V, ∀ b ∈ S.next a, b ∈ V
  entered : ∀ a s b, S.seen (S.enter a s) b = true ↔ b = a ∨ S.seen s b = true
  enter : ∀ a ∈ V, ∀ s, I s → S.seen s a = false → I (S.enter a s)
  again : ∀ a s, I s → S.seen s a = true → R a s (S.again a s)
  leave : ∀ a ∈ V, ∀ s t, I s → S.seen s a = false → Each R (S.next a) (S.enter a s) t →
    R a s (S.leave a t)
  keeps : ∀ a s t, I s → R a s t → I t ∧ ∀ b, S.seen s b = true → S.seen t b = true

theorem mem_of_reach {r : α → α → Prop} {V : Finset α} (hV : ∀ a ∈ V, ∀ b, r a b → b ∈ V) {a b : α}
    (h : ReflTransGen r a b) (ha : a ∈ V) : b ∈ V := by
  induction h with
  | refl => exact ha
  | tail _ hstep ih => exact hV _ ih _ hstep

section Visit
variable {S : Search α σ} {V : Finset α} {I : σ → Prop} {R : α → σ → σ → Prop} {s t : σ}

def Search.unseen (S : Search α σ) (V : Finset α) (s : σ) : Finset α :=
  V.filter (S.seen s · = false)

theorem Search.unseen_subset (h : ∀ b, S.seen s b = true → S.seen t b = true) :
    S.unseen V t ⊆ S.unseen V s := by
  refine Finset.monotone_filter_right V fun b _ hb => ?_
  exact Bool.eq_false_iff.mpr fun hs => by simp [h b hs] at hb

theorem Search.Keeps.each (h : S.Keeps V I R) {fuel : Nat}
    (ih : ∀ s a, I s → a ∈ V → (S.unseen V s).card < fuel → R a s (S.visit fuel s a))
    (l : List α) (hs : I s) (hl : ∀ a ∈ l, a ∈ V) (hcard : (S.unseen V s).card < fuel) :
    Each R l s (l.foldl (S.visit fuel) s) := by
  induction l generalizing s with
  | nil => exact .nil s
  | cons a l ihl =>
    have ha := ih s a hs (hl a (mem_cons_self ..)) hcard
    obtain ⟨hI, hseen⟩ := h.keeps a s _ hs ha
    exact .cons ha (ihl hI (fun b hb => hl b (mem_cons_of_mem a hb))
      ((Finset.card_le_card (S.unseen_subset hseen)).trans_lt hcard))

theorem Search.Keeps.visit (h : S.Keeps V I R) {fuel : Nat} (s : σ) (a : α) (hs : I s) (ha : a ∈ V)
    (hcard : (S.unseen V s).card < fuel) : R a s (S.visit fuel s a) := by
  induction fuel generalizing s a with
  | zero => exact absurd hcard (Nat.not_lt_zero _)
  | succ fuel ih =>
    rw [Search.visit]
    split_ifs with hseen
    · exact h.again a s hs hseen
    · have hnot : S.seen s a = false := by simpa using hseen
      refine h.leave a ha s _ hs hnot (h.each ih _ (h.enter a ha s hs hnot) (h.next_mem a ha) ?_)
      -- entering takes the vertex away from those that are unseen
      have hsub := S.unseen_subset (V := V) fun b hb => (h.entered a s b).mpr (.inr hb)
      have hlt := (Finset.ssubset_iff_of_subset hsub).mpr
        ⟨a, Finset.mem_filter.mpr ⟨ha, hnot⟩, by simp [unseen, (h.entered a s a).mpr]⟩
      exact (Finset.card_lt_card hlt).trans_le (Nat.le_of_lt_succ hcard)

/-- Visits from every vertex of a list, with as much fuel as there are vertices. -/
theorem Search.Keeps.visitAll (h : S.Keeps V I R) {fuel : Nat} (hfuel : V.card < fuel) (l : List α)
    (hs : I s) (hl : ∀ a ∈ l, a ∈ V) : Each R l s (l.foldl (S.visit fuel) s) := by
  have hcard (s : σ) : (S.unseen V s).card < fuel :=
    (Finset.card_le_card (Finset.filter_subset _ _)).trans_lt hfuel
  exact h.each (fun s a hs ha _ => h.visit s a hs ha (hcard s)) l hs hl (hcard s)

end Visit

section Labels

/-- Every vertex that is entered gets its label. -/
def labelling [DecidableEq α] (next : α → List α) (label : α → β) : Search α (α → Option β) where
  next := next
  seen m a := (m a).isSome
  again _ m := m
  enter a m := update m a (some (label a))
  leave _ m := m

/-- Steps between vertices of which the second has no label. -/
def Fresh (next : α → List α) (m : α → Option β) (a b : α) : Prop := b ∈ next a ∧ m b = none

structure Labels (next : α → List α) (label : α → β) (starts : List α) (m m' : α → Option β) :
    Prop where
  old : ∀ a, m a ≠ none → m' a = m a
  new : ∀ a, m a = none → m' a ≠ none →
    m' a = some (label a) ∧ ∃ b ∈ starts, m b = none ∧ ReflTransGen (Fresh next m) b a
  start : ∀ a ∈ starts, m' a ≠ none
  closed : ∀ a, m a = none → m' a ≠ none → ∀ b ∈ next a, m' b ≠ none

variable {next : α → List α} {label : α → β} {m m' : α → Option β} {starts : List α} {a : α}

theorem Fresh.mono (h : ∀ b, m' b = none → m b = none) {a b : α}
    (hpath : ReflTransGen (Fresh next m') a b) : ReflTransGen (Fresh next m) a b := by
  have hle : Fresh next m' ≤ Fresh next m := fun _ _ hstep => ⟨hstep.1, h _ hstep.2⟩
  exact ReflTransGen.mono hle _ _ hpath

theorem Labels.refl (h : ∀ a ∈ starts, m a ≠ none) : Labels next label starts m m :=
  ⟨fun _ _ => rfl, fun _ ha hne => absurd ha hne, h, fun _ ha hne => absurd ha hne⟩

theorem Labels.ne_none (h : Labels next label starts m m') (ha : m a ≠ none) : m' a ≠ none := by
  rwa [h.old a ha]

theorem Labels.eq_none (h : Labels next label starts m m') (ha : m' a = none) : m a = none := by
  by_contra hne
  exact h.ne_none hne ha

theorem Labels.of_each (h : Each (fun a => Labels next label [a]) starts m m') :
    Labels next label starts m m' := by
  induction h with
  | nil m => exact .refl (by simp)
  | @cons a l m₁ m₂ m₃ hfirst _ ih =>
    refine ⟨fun x hx => ?_, fun x hx hne => ?_, fun x hx => ?_, fun x hx hne b hb => ?_⟩
    · rw [ih.old x (hfirst.ne_none hx), hfirst.old x hx]
    · by_cases hmid : m₂ x = none
      · obtain ⟨hlabel, b, hb, hnone, hpath⟩ := ih.new x hmid hne
        exact ⟨hlabel, b, mem_cons_of_mem a hb, hfirst.eq_none hnone,
          Fresh.mono (fun _ => hfirst.eq_none) hpath⟩
      · obtain ⟨hlabel, b, hb, hpath⟩ := hfirst.new x hx hmid
        refine ⟨(ih.old x hmid).trans hlabel, b, ?_, hpath⟩
        rw [mem_singleton.mp hb]
        exact mem_cons_self ..
    · rcases mem_cons.mp hx with rfl | hx
      · exact ih.ne_none (hfirst.start x (mem_cons_self ..))
      · exact ih.start x hx
    · by_cases hmid : m₂ x = none
      · exact ih.closed x hmid hne b hb
      · exact ih.ne_none (hfirst.closed x hx hmid b hb)

theorem Labels.enter [DecidableEq α] (ha : m a = none)
    (h : Labels next label (next a) (update m a (some (label a))) m') :
    Labels next label [a] m m' := by
  have hself : m' a = some (label a) := (h.old a (by simp)).trans (by simp)
  have hother {x : α} (hx : x ≠ a) : update m a (some (label a)) x = m x :=
    update_of_ne hx _ _
  have hnone (b : α) (hb : update m a (some (label a)) b = none) : m b = none := by
    rwa [hother] at hb
    rintro rfl
    simp at hb
  refine ⟨fun x hx => ?_, fun x hx hne => ?_, by simp [hself], fun x hx hne b hb => ?_⟩
  · have hxa : x ≠ a := fun heq => hx (heq ▸ ha)
    rw [h.old x (by rwa [hother hxa]), hother hxa]
  · by_cases hxa : x = a
    · subst hxa
      exact ⟨hself, x, mem_cons_self .., ha, .refl⟩
    · obtain ⟨hlabel, b, hb, hb', hpath⟩ := h.new x (by rwa [hother hxa]) hne
      exact ⟨hlabel, a, mem_cons_self .., ha, .head ⟨hb, hnone b hb'⟩ (Fresh.mono hnone hpath)⟩
  · by_cases hxa : x = a
    · exact h.start b (hxa ▸ hb)
    · exact h.closed x (by rwa [hother hxa]) hne b hb

theorem labelling_keeps [DecidableEq α] {V : Finset α} (hV : ∀ a ∈ V, ∀ b ∈ next a, b ∈ V) :
    (labelling next label).Keeps V (fun _ => True) fun a => Labels next label [a] where
  next_mem := hV
  entered a m b := by
    by_cases hb : b = a
    · simp [labelling, hb]
    · simp [labelling, hb]
  enter _ _ _ _ _ := trivial
  again a m _ ha := .refl fun b hb => by
    rw [mem_singleton.mp hb]
    exact ne_none_iff_isSome.mpr ha
  leave a _ m m' _ ha h := .enter (by simpa [labelling] using ha) (.of_each h)
  keeps a m m' _ h := ⟨trivial, fun b hb => ne_none_iff_isSome.mp
    (h.ne_none (ne_none_iff_isSome.mpr hb))⟩

/-- What is labelled anew is what is reached without passing through labels. -/
theorem Labels.iff_reached (h : Labels next label [a] m m') (ha : m a = none) {b : α}
    (hb : m b = none) : m' b ≠ none ↔ ReflTransGen (Fresh next m) a b := by
  constructor
  · intro hne
    obtain ⟨-, c, hc, -, hpath⟩ := h.new b hb hne
    rwa [mem_singleton.mp hc] at hpath
  · intro hpath
    clear hb
    suffices m b = none ∧ m' b ≠ none from this.2
    induction hpath with
    | refl => exact ⟨ha, h.start a (mem_cons_self ..)⟩
    | tail _ hstep ih => exact ⟨hstep.2, h.closed _ ih.1 ih.2 _ hstep.1⟩

end Labels

section Components
variable {next prev : α → List α} {post rem done : List α} {m m' : α → Option α} {r : α}

def Edge (next : α → List α) (a b : α) : Prop := b ∈ next a

def Mutual (next : α → List α) (a b : α) : Prop :=
  ReflTransGen (Edge next) a b ∧ ReflTransGen (Edge next) b a

/-- Before a finished vertex stand those that it led to, and before these what was finished when it
was entered, from where edges lead to no vertex in between. -/
def Blocks (next : α → List α) (opened post : List α) : Prop :=
  ∀ rem a done, post = rem ++ a :: done → ∃ earlier below, rem = earlier ++ below ∧
    (∀ b ∈ below, ReflTransGen (Edge next) a b) ∧
    ∀ b ∈ earlier, ∀ c ∈ next b, c ∈ earlier ∨ c ∈ done ∨ c ∈ opened

/-- Labels are given to all vertices of a component, and are in it. -/
def Components (next : α → List α) (m : α → Option α) : Prop :=
  ∀ a r, m a = some r → ∀ b, m b = some r ↔ Mutual next r b

theorem Mutual.trans {a b c : α} (h : Mutual next a b) (h' : Mutual next b c) : Mutual next a c :=
  ⟨h.1.trans h'.1, h'.2.trans h.2⟩

theorem Mutual.symm {a b : α} (h : Mutual next a b) : Mutual next b a := ⟨h.2, h.1⟩

theorem Components.mutual (h : Components next m) {a : α} (ha : m a = some r) : Mutual next r a :=
  (h a r ha a).mp ha

theorem Components.not_mutual (h : Components next m) (hr : m r = none) {b : α} (hb : m b ≠ none) :
    ¬ Mutual next r b := by
  intro hmutual
  obtain ⟨q, hq⟩ := ne_none_iff_exists'.mp hb
  have := (h b q hq r).mpr ((h.mutual hq).trans hmutual.symm)
  simp [hr] at this

section Backwards
variable (hblocks : Blocks next [] post) (hnodup : post.Nodup)
  (hprev : ∀ a b, b ∈ prev a ↔ a ∈ next b) (hmem : ∀ a b, a ∈ next b → b ∈ post)
include hblocks hnodup hprev hmem

/-- Backwards from the last vertex without a label, fresh vertices are those of its component. -/
theorem fresh_iff_mutual (hpost : post = rem ++ r :: done) (hm : Components next m)
    (hdone : ∀ a ∈ done, m a ≠ none) (hr : m r = none) (b : α) :
    ReflTransGen (Fresh prev m) r b ↔ Mutual next r b := by
  constructor
  · intro hpath
    obtain ⟨earlier, below, rfl, hbelow, hearlier⟩ := hblocks rem r done hpost
    rw [hpost, nodup_middle, nodup_cons] at hnodup
    have hfound : m b = none ∧ b ∈ post ∧ b ∉ earlier ∧ ReflTransGen (Edge next) b r := by
      induction hpath with
      | refl => exact ⟨hr, by simp [hpost], by simp_all, .refl⟩
      | @tail x y _ hstep ih =>
        obtain ⟨hnone, -, hnot, hback⟩ := ih
        have hedge := (hprev _ _).mp hstep.1
        refine ⟨hstep.2, hmem _ _ hedge, fun hy => ?_, .head hedge hback⟩
        rcases hearlier y hy x hedge with h | h | h
        · exact hnot h
        · exact hdone x h hnone
        · cases h
    obtain ⟨hnone, hb, hnot, hback⟩ := hfound
    refine ⟨?_, hback⟩
    rw [hpost, mem_append, mem_append, mem_cons] at hb
    rcases hb with (hb | hb) | rfl | hb
    · exact absurd hb hnot
    · exact hbelow b hb
    · exact .refl
    · exact absurd hnone (hdone b hb)
  · rintro ⟨hto, hfrom⟩
    induction hfrom using ReflTransGen.head_induction_on with
    | refl => exact .refl
    | head hstep hrest ih =>
      refine (ih (hto.tail hstep)).tail ⟨(hprev _ _).mpr hstep, ?_⟩
      by_contra hne
      exact hm.not_mutual hr hne ⟨hto, .head hstep hrest⟩

theorem Components.labels (hpost : post = rem ++ r :: done) (hm : Components next m)
    (hdone : ∀ a ∈ done, m a ≠ none) (h : Labels prev (fun _ => r) [r] m m') :
    Components next m' := by
  by_cases hr : m r = none
  · have hiff (b : α) (hb : m b = none) : m' b ≠ none ↔ Mutual next r b :=
      (h.iff_reached hr hb).trans
        (fresh_iff_mutual hblocks hnodup hprev hmem hpost hm hdone hr b)
    have hown (b : α) : m' b = some r ↔ Mutual next r b := by
      by_cases hb : m b = none
      · rw [← hiff b hb]
        exact ⟨fun heq => by simp [heq], fun hne => (h.new b hb hne).1⟩
      · rw [h.old b hb]
        refine iff_of_false (fun heq => ?_) (hm.not_mutual hr hb)
        exact absurd ((hm b r heq r).mpr ⟨.refl, .refl⟩) (by simp [hr])
    intro a q ha b
    by_cases hqr : q = r
    · rw [hqr]
      exact hown b
    -- another label was there before
    have hnew (x : α) (hx : m x = none) : m' x ≠ some q := fun heq =>
      hqr (some.inj (heq.symm.trans (h.new x hx (by simp [heq])).1))
    have hold : m a = some q := by
      rw [← h.old a fun hnone => hnew a hnone ha]
      exact ha
    by_cases hb : m b = none
    · refine iff_of_false (hnew b hb) fun hmutual => ?_
      exact absurd ((hm a q hold b).mpr hmutual) (by simp [hb])
    · rw [h.old b hb]
      exact hm a q hold b
  · have hsame : m' = m := by
      funext x
      by_cases hx : m x = none
      · by_contra hne
        obtain ⟨-, b, hb, hnone, -⟩ := h.new x hx (by rwa [hx] at hne)
        exact hr (mem_singleton.mp hb ▸ hnone)
      · exact h.old x hx
    rwa [hsame]

/-- Every root in its turn, from the one that was finished last. -/
theorem Components.foldl {visit : (α → Option α) → α → α → Option α}
    (hvisit : ∀ m, ∀ r ∈ post, Labels prev (fun _ => r) [r] m (visit m r))
    (hpost : post = rem ++ done) (hm : Components next m) (hdone : ∀ a ∈ done, m a ≠ none) :
    Components next (rem.reverse.foldl visit m) ∧
      ∀ a ∈ post, rem.reverse.foldl visit m a ≠ none := by
  induction rem using List.reverseRecOn generalizing done m with
  | nil => exact ⟨hm, fun a ha => hdone a (by rwa [hpost] at ha)⟩
  | append_singleton rem r ih =>
    rw [append_assoc, singleton_append] at hpost
    have hlabels := hvisit m r (by simp [hpost])
    rw [reverse_append]
    refine ih hpost (hm.labels hblocks hnodup hprev hmem hpost hdone hlabels) fun a ha => ?_
    rcases mem_cons.mp ha with rfl | ha
    · exact hlabels.start a (mem_cons_self ..)
    · exact hlabels.ne_none (hdone a ha)

end Backwards

theorem Components.eq_iff (hm : Components next m) {a b p q : α} (ha : m a = some p)
    (hb : m b = some q) : p = q ↔ Mutual next a b := by
  constructor
  · rintro rfl
    exact (hm.mutual ha).symm.trans (hm.mutual hb)
  · intro h
    exact some.inj (((hm a p ha b).mpr ((hm.mutual ha).trans h)).symm.trans hb)

end Components

end TypeDB.DepthFirst
