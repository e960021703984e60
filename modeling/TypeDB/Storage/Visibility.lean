import TypeDB.Storage.IteratorStream

/-! Streams read key by key: what a scan of sorted versions shows under each key, which pairs a
range end lets through, and when a stream is the list it should be under every call. -/

namespace TypeDB.Storage
open ByteString List MVCCKey VersionStore

def answers : List KeyValue → List IteratorCall → List (Option KeyValue)
  | _, [] => []
  | l, .peek :: calls => l.head? :: answers l calls
  | l, .next :: calls => l.head? :: answers l.tail calls
  | l, .seek key :: calls => answers (l.dropWhile fun p => decide (p.1 < key)) calls

def IteratorCall.SeeksIn (targets : Bytes → Prop) : IteratorCall → Prop
  | .seek key => targets key
  | _ => True

section Streams
variable {sought : Bytes → Bytes → Stream} {targets : Bytes → Prop} {st : Stream}
  {o : KeyValue} {l m : List KeyValue} {b : Bool}

def Stream.Follows (sought : Bytes → Bytes → Stream) (targets : Bytes → Prop) (st : Stream)
    (l : List KeyValue) : Prop :=
  ∀ calls : List IteratorCall, (∀ call ∈ calls, call.SeeksIn targets) →
    st.run sought calls = some (answers l calls)

theorem Stream.Follows.tail (h : Follows sought targets ⟨o :: l, b⟩ (o :: m)) :
    Follows sought targets ⟨l, b⟩ m := by
  intro calls hcalls
  have hrun := h (.next :: calls) (forall_mem_cons.mpr ⟨trivial, hcalls⟩)
  cases hl : run sought ⟨l, b⟩ calls with
  | none => simp [run, hl] at hrun
  | some items =>
    have : items = answers m calls := by simpa [run, hl, answers] using hrun
    rw [this]

theorem Stream.Follows.eq (h : st.Follows sought targets l) : st = ⟨l, false⟩ := by
  induction l generalizing st with
  | nil =>
    have hrun := h [.next] (by simp [IteratorCall.SeeksIn])
    obtain ⟨_ | ⟨o, outs⟩, _ | _⟩ := st <;> simp [run, answers] at hrun ⊢
  | cons o l ih =>
    have hrun := h [.next] (by simp [IteratorCall.SeeksIn])
    obtain ⟨_ | ⟨o', outs⟩, b⟩ := st
    · cases b <;> simp [run, answers] at hrun
    · obtain rfl : o' = o := by simpa [run, answers] using hrun
      have htail := ih h.tail
      simpa using htail

theorem Stream.Follows.seek (h : Follows sought targets ⟨o :: l, b⟩ m) {key : Bytes}
    (hkey : targets key) (hlt : o.1 < key) :
    (sought o.1 key).Follows sought targets (m.dropWhile fun p => decide (p.1 < key)) := by
  intro calls hcalls
  have hrun := h (.seek key :: calls) (forall_mem_cons.mpr ⟨hkey, hcalls⟩)
  rwa [run, if_pos hlt, answers] at hrun

/-- Behind a smaller key the rest of a sorted list has all that is not below the target. -/
theorem dropWhile_suffix_eq_filter {front : List KeyValue} {key : Bytes}
    (hs : (front ++ o :: l).Pairwise fun a b => a.1 < b.1) (hlt : o.1 < key) :
    (o :: l).dropWhile (fun p => decide (p.1 < key)) =
      (front ++ o :: l).filter fun p => decide (key ≤ p.1) := by
  obtain ⟨-, hback, hcross⟩ := pairwise_append.mp hs
  have hfront : front.filter (fun p => decide (key ≤ p.1)) = [] := by
    rw [filter_eq_nil_iff]
    intro p hp
    have := (hcross p hp o mem_cons_self).trans hlt
    simpa using this
  rw [OrderedMap.dropWhile_lt_eq_filter hback, filter_append, hfront, nil_append]

/-- A stream answers as the list of its items if every forward seek leaves what the list has from the
target on. -/
theorem Stream.follows_of (hsought : ∀ o back, o :: back <:+ l → ∀ key, targets key → o.1 < key →
    sought o.1 key = ⟨(o :: back).dropWhile fun p => decide (p.1 < key), false⟩) :
    Follows sought targets ⟨l, false⟩ l := by
  intro calls hcalls
  -- at any time a suffix of the list is left
  have hrun : ∀ back, back <:+ l →
      run sought ⟨back, false⟩ calls = some (answers back calls) := by
    induction calls with
    | nil => simp [run, answers]
    | cons call calls ih =>
      have hrest := ih fun c hc => hcalls c (mem_cons_of_mem _ hc)
      have hcall := hcalls call mem_cons_self
      intro back hback
      cases back with
      | nil => cases call <;> simp [run, answers, hrest [] nil_suffix]
      | cons o back =>
        have htail : back <:+ l := (suffix_cons o back).trans hback
        cases call with
        | peek => simp [run, answers, hrest _ hback]
        | next => simp [run, answers, hrest _ htail]
        | seek key =>
          rw [run, answers]
          split_ifs with hlt
          · rw [hsought o back hback key hcall hlt]
            exact hrest _ ((dropWhile_suffix _).trans hback)
          · rw [dropWhile_cons_of_neg (by simpa using hlt)]
            exact hrest _ hback
  exact hrun l (suffix_refl l)

/-- A stream answers as a sorted list does exactly when it is that list and every forward seek
leaves what the list has from the target on. -/
theorem Stream.follows_iff (hs : l.Pairwise fun a b => a.1 < b.1) :
    st.Follows sought targets l ↔ st = ⟨l, false⟩ ∧ ∀ o ∈ l, ∀ key, targets key → o.1 < key →
      sought o.1 key = ⟨l.filter fun p => decide (key ≤ p.1), false⟩ := by
  constructor
  · intro h
    obtain rfl := h.eq
    refine ⟨rfl, fun o ho key hkey hlt => ?_⟩
    obtain ⟨front, back, rfl⟩ := append_of_mem ho
    -- the calls that take the front come first
    have hback : Follows sought targets ⟨o :: back, false⟩ (o :: back) := by
      clear ho hs
      induction front with
      | nil => exact h
      | cons p front ih => exact ih h.tail
    rw [(hback.seek hkey hlt).eq, dropWhile_suffix_eq_filter hs hlt]
  · rintro ⟨rfl, hsought⟩
    refine follows_of fun o back hback key hkey hlt => ?_
    obtain ⟨front, rfl⟩ := hback
    rw [hsought o (by simp) key hkey hlt, ← dropWhile_suffix_eq_filter hs hlt]

end Streams

def shown (s : Nat) (l : List KeyValue) (k : Bytes) : Option Bytes :=
  (l.find? fun p => decide (key p.1 = k) && isVisibleTo p.1 s).bind fun p =>
    if operation p.1 = some .insert then some p.2 else none

section Shown
open VersionStore
variable {s : Nat} {k v : Bytes} {p : KeyValue} {l m : List KeyValue} {last : Option Bytes}

theorem shown_cons_self (hk : key p.1 = k) (hv : isVisibleTo p.1 s = true) :
    shown s (p :: l) k = if operation p.1 = some .insert then some p.2 else none := by
  simp [shown, hk, hv]

theorem shown_cons_of_ne (hk : key p.1 ≠ k) : shown s (p :: l) k = shown s l k := by
  simp [shown, hk]

theorem shown_cons_invisible (hv : isVisibleTo p.1 s = false) :
    shown s (p :: l) k = shown s l k := by
  simp [shown, hv]

theorem mem_of_shown (h : shown s l k = some v) : ∃ p ∈ l, key p.1 = k := by
  obtain ⟨p, hp, -⟩ := Option.bind_eq_some_iff.mp h
  have hprop := find?_some hp
  simp only [Bool.and_eq_true, decide_eq_true_eq] at hprop
  exact ⟨p, mem_of_find?_eq_some hp, hprop.1⟩

theorem shown_eq_none (h : ∀ p ∈ l, key p.1 ≠ k) : shown s l k = none := by
  cases hs : shown s l k with
  | none => rfl
  | some v =>
    obtain ⟨p, hp, hk⟩ := mem_of_shown hs
    exact absurd hk (h p hp)

theorem shown_congr (h : (l.filter fun p => decide (key p.1 = k)) =
    m.filter fun p => decide (key p.1 = k)) : shown s l k = shown s m k := by
  have hfilter : ∀ l : List KeyValue, shown s l k =
      shown s (l.filter fun p => decide (key p.1 = k)) k := by
    intro l
    simp only [shown, find?_filter, Bool.and_eq_true, decide_eq_true_eq]
    congr 2
    funext p
    simp
  rw [hfilter l, h, ← hfilter m]

/-- The versions of a key come newest first. -/
def NewestFirst (p q : KeyValue) : Prop :=
  key p.1 = key q.1 → sequenceNumber q.1 < sequenceNumber p.1

theorem VersionStore.After.newestFirst {p q : KeyValue} (h : After p q) : NewestFirst p q := by
  intro hk
  rcases h with hlt | ⟨-, hseq⟩
  · exact absurd hk hlt.ne
  · exact hseq

theorem find?_eq_some_iff_newest (hl : l.Pairwise NewestFirst) :
    (l.find? fun p => decide (key p.1 = k) && isVisibleTo p.1 s) = some p ↔
      p ∈ l ∧ key p.1 = k ∧ sequenceNumber p.1 ≤ s ∧ ∀ q ∈ l, key q.1 = k →
        sequenceNumber q.1 ≤ s → sequenceNumber q.1 ≤ sequenceNumber p.1 := by
  induction l with
  | nil => simp
  | cons a l ih =>
    obtain ⟨hhead, htail⟩ := pairwise_cons.mp hl
    by_cases ha : key a.1 = k ∧ sequenceNumber a.1 ≤ s
    · obtain ⟨hk, hv⟩ := ha
      have hlt : ∀ q ∈ l, key q.1 = k → sequenceNumber q.1 < sequenceNumber a.1 := by
        intro q hq hqk
        exact hhead q hq (hk.trans hqk.symm)
      rw [find?_cons_of_pos (by simp [hk, hv, isVisibleTo])]
      constructor
      · intro h
        cases h
        refine ⟨mem_cons_self, hk, hv, fun q hq hqk _ => ?_⟩
        rcases mem_cons.mp hq with rfl | hq
        · exact le_rfl
        · exact (hlt q hq hqk).le
      · rintro ⟨hp, hpk, -, hnewest⟩
        rcases mem_cons.mp hp with rfl | hp
        · rfl
        · have := hnewest a mem_cons_self hk hv
          exact absurd (hlt p hp hpk) (not_lt.mpr this)
    · rw [find?_cons_of_neg (by simpa [isVisibleTo] using ha), ih htail]
      constructor
      · rintro ⟨hp, hpk, hv, hnewest⟩
        refine ⟨mem_cons_of_mem _ hp, hpk, hv, fun q hq hqk hqv => ?_⟩
        rcases mem_cons.mp hq with rfl | hq
        · exact absurd ⟨hqk, hqv⟩ ha
        · exact hnewest q hq hqk hqv
      · rintro ⟨hp, hpk, hv, hnewest⟩
        rcases mem_cons.mp hp with rfl | hp
        · exact absurd ⟨hpk, hv⟩ ha
        · exact ⟨hp, hpk, hv, fun q hq => hnewest q (mem_cons_of_mem _ hq)⟩

theorem VersionStore.shown_iff_sees (store : VersionStore) :
    shown s store.raw.entries k = some v ↔ store.Sees s k v := by
  rw [shown, Option.bind_eq_some_iff, Sees]
  refine exists_congr fun p => ?_
  rw [find?_eq_some_iff_newest (store.ordered.imp After.newestFirst)]
  constructor
  · rintro ⟨⟨hmem, hk, hv, hnewest⟩, hop⟩
    split_ifs at hop with hins
    exact ⟨⟨hmem, hk, hv, hnewest⟩, hins, Option.some.inj hop⟩
  · rintro ⟨⟨hmem, hk, hv, hnewest⟩, hins, hval⟩
    exact ⟨⟨hmem, hk, hv, hnewest⟩, by rw [if_pos hins, hval]⟩

theorem mem_pick_iff (hl : l.Pairwise VersionStore.After)
    (hlast : ∀ k₀, last = some k₀ → ∀ p ∈ l, k₀ ≤ key p.1) :
    (k, v) ∈ pick s last l ↔ last ≠ some k ∧ shown s l k = some v := by
  induction l generalizing last with
  | nil => simp [pick, shown]
  | cons a l ih =>
    obtain ⟨hhead, htail⟩ := pairwise_cons.mp hl
    have hle : ∀ p ∈ l, key a.1 ≤ key p.1 := by
      intro p hp
      rcases hhead p hp with h | h
      · exact h.le
      · exact h.1.le
    have hself : ∀ k₀, some (key a.1) = some k₀ → ∀ p ∈ l, k₀ ≤ key p.1 := by
      intro k₀ hk₀
      cases hk₀
      exact hle
    have hkeep : ∀ k₀, last = some k₀ → ∀ p ∈ l, k₀ ≤ key p.1 := fun k₀ hk₀ p hp =>
      hlast k₀ hk₀ p (mem_cons_of_mem _ hp)
    rw [pick]
    by_cases hv : isVisibleTo a.1 s = true
    · by_cases hseen : last = some (key a.1)
      · -- an older version of the key seen last
        simp only [hv, hseen, decide_true, Bool.not_true, Bool.and_false, Bool.false_eq_true,
          if_false]
        rw [ih htail (hseen ▸ hkeep)]
        refine and_congr_right fun hne => ?_
        rw [shown_cons_of_ne (by simpa using hne)]
      · have hcond : (isVisibleTo a.1 s && !decide (last = some (key a.1))) = true := by
          simp [hv, hseen]
        rw [if_pos hcond]
        by_cases hk : key a.1 = k
        · -- the version that decides its key
          subst hk
          rw [shown_cons_self rfl hv]
          split_ifs with hop
          · simp [ih htail hself, hseen, eq_comm]
          · simp [ih htail hself]
        · have hrest : (k, v) ∈ pick s (some (key a.1)) l ↔
              last ≠ some k ∧ shown s (a :: l) k = some v := by
            rw [ih htail hself, shown_cons_of_ne hk]
            refine and_congr_left fun hshown => iff_of_true (by simpa using hk) fun hlk => ?_
            -- a key seen last lies before everything that is left
            obtain ⟨p, hp, hpk⟩ := mem_of_shown hshown
            have h₁ := hlast k hlk a mem_cons_self
            have h₂ := hle p hp
            rw [hpk] at h₂
            exact hk (le_antisymm h₂ h₁)
          split_ifs with hop
          · rw [mem_cons, ← hrest, or_iff_right]
            simpa using fun h : k = key a.1 => absurd h.symm hk
          · exact hrest
    · rw [Bool.not_eq_true] at hv
      simp only [hv, Bool.false_and, Bool.false_eq_true, if_false]
      rw [ih htail hkeep, shown_cons_invisible hv]

theorem pairwise_pick (hl : l.Pairwise VersionStore.After) :
    (pick s last l).Pairwise fun a b => a.1 < b.1 := by
  induction l generalizing last with
  | nil => simp [pick]
  | cons a l ih =>
    obtain ⟨hhead, htail⟩ := pairwise_cons.mp hl
    rw [pick]
    split_ifs with hvis hop
    · refine pairwise_cons.mpr ⟨fun o ho => ?_, ih htail⟩
      have hle : ∀ p ∈ l, key a.1 ≤ key p.1 := fun p hp => by
        rcases hhead p hp with h | h
        · exact h.le
        · exact h.1.le
      obtain ⟨hne, hshown⟩ := (mem_pick_iff htail fun k₀ hk₀ => Option.some.inj hk₀ ▸ hle).mp ho
      obtain ⟨p, hp, hpk⟩ := mem_of_shown hshown
      exact lt_of_le_of_ne (hpk ▸ hle p hp) fun h => hne (congrArg some h)
    · exact ih htail
    · exact ih htail

theorem length_pick_le (s : Nat) (last : Option Bytes) (l : List KeyValue) :
    (pick s last l).length ≤ l.length := by
  induction l generalizing last with
  | nil => simp [pick]
  | cons a l ih =>
    rw [pick]
    split_ifs with hvis hop
    · exact Nat.succ_le_succ (ih _)
    · exact (ih _).trans (Nat.le_succ _)
    · exact (ih _).trans (Nat.le_succ _)

end Shown

end TypeDB.Storage
