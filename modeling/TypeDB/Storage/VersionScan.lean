import TypeDB.Storage.RangeExact

/-! Keys that may be prefixes of one another. Their versions need not come in the order of the
keys, and versions of one can come between those of another; the iterator then stops at a key more
than once. A scan is exact where it stops, at the keys that meet another key or a bound, at the
versions that are asked for. -/

namespace TypeDB.Storage
open ByteString List MVCCKey ContinueCondition KeyRange OrderedMap TypeDB.Lex
open Option hiding filter_filter

/-- A visible version of another key before `p`. -/
structure Parts (s : Nat) (p r : KeyValue) : Prop where
  visible : sequenceNumber r.1 ≤ s
  before : r.1 < p.1
  other : key r.1 ≠ key p.1

/-- The iterator stops at a visible insert when the version it saw last is of another key; `last` is
the key it saw before the scan. -/
structure Stops (s : Nat) (last : Option Bytes) (l : List KeyValue) (p : KeyValue) : Prop where
  mem : p ∈ l
  visible : sequenceNumber p.1 ≤ s
  insert : operation p.1 = some .insert
  entered : last = some (key p.1) → ∃ r ∈ l, Parts s p r
  parted : ∀ q ∈ l, sequenceNumber q.1 ≤ s → q.1 < p.1 → key q.1 = key p.1 →
    ∃ r ∈ l, q.1 < r.1 ∧ Parts s p r

section Stops
variable {s : Nat} {last : Option Bytes} {l m : List KeyValue} {a p : KeyValue} {k v : Bytes}

theorem stops_cons (ha : ∀ q ∈ l, a.1 < q.1) :
    Stops s last (a :: l) p ↔
      (p = a ∧ sequenceNumber a.1 ≤ s ∧ last ≠ some (key a.1) ∧ operation a.1 = some .insert) ∨
        Stops s (if sequenceNumber a.1 ≤ s then some (key a.1) else last) l p := by
  -- what comes after `a` is not before it
  have hnot : ∀ {q r : KeyValue}, q ∈ l → r ∈ a :: l → q.1 < r.1 → r ∈ l := by
    intro q r hq hr hqr
    refine (mem_cons.mp hr).resolve_left ?_
    rintro rfl
    exact (ha q hq).asymm hqr
  constructor
  · intro h
    rcases mem_cons.mp h.mem with rfl | hp
    · refine .inl ⟨rfl, h.visible, fun hlast => ?_, h.insert⟩
      obtain ⟨r, hr, -, hlt, -⟩ := h.entered hlast
      rcases mem_cons.mp hr with rfl | hr
      · exact lt_irrefl _ hlt
      · exact (ha r hr).asymm hlt
    · refine .inr ⟨hp, h.visible, h.insert, fun hlast => ?_, fun q hq hqs hqp hqk => ?_⟩
      · split_ifs at hlast with hv
        · obtain ⟨r, hr, har, hparts⟩ :=
            h.parted a mem_cons_self hv (ha p hp) (some.inj hlast)
          refine ⟨r, (mem_cons.mp hr).resolve_left ?_, hparts⟩
          rintro rfl
          exact lt_irrefl _ har
        · obtain ⟨r, hr, hparts⟩ := h.entered hlast
          refine ⟨r, (mem_cons.mp hr).resolve_left ?_, hparts⟩
          rintro rfl
          exact hv hparts.visible
      · obtain ⟨r, hr, hqr, hparts⟩ := h.parted q (mem_cons_of_mem _ hq) hqs hqp hqk
        exact ⟨r, hnot hq hr hqr, hqr, hparts⟩
  · rintro (⟨rfl, hv, hlast, hop⟩ | h)
    · refine ⟨mem_cons_self, hv, hop, fun h => absurd h hlast, fun q hq _ hqa _ => ?_⟩
      rcases mem_cons.mp hq with rfl | hq
      · exact absurd hqa (lt_irrefl _)
      · exact absurd hqa (ha q hq).asymm
    · have hap := ha p h.mem
      refine ⟨mem_cons_of_mem _ h.mem, h.visible, h.insert, fun hlast => ?_,
        fun q hq hqs hqp hqk => ?_⟩
      · by_cases hv : sequenceNumber a.1 ≤ s
        · by_cases hk : key a.1 = key p.1
          · obtain ⟨r, hr, hparts⟩ := h.entered (by rw [if_pos hv, hk])
            exact ⟨r, mem_cons_of_mem _ hr, hparts⟩
          · exact ⟨a, mem_cons_self, hv, hap, hk⟩
        · obtain ⟨r, hr, hparts⟩ := h.entered (by rw [if_neg hv, hlast])
          exact ⟨r, mem_cons_of_mem _ hr, hparts⟩
      · rcases mem_cons.mp hq with rfl | hq
        · obtain ⟨r, hr, hparts⟩ := h.entered (by rw [if_pos hqs, hqk])
          exact ⟨r, mem_cons_of_mem _ hr, ha r hr, hparts⟩
        · obtain ⟨r, hr, hqr, hparts⟩ := h.parted q hq hqs hqp hqk
          exact ⟨r, mem_cons_of_mem _ hr, hqr, hparts⟩

theorem pick_cons (s : Nat) (last : Option Bytes) (a : KeyValue) (l : List KeyValue) :
    pick s last (a :: l) =
      (if sequenceNumber a.1 ≤ s ∧ last ≠ some (key a.1) ∧ operation a.1 = some .insert
        then [(key a.1, a.2)] else []) ++
      pick s (if sequenceNumber a.1 ≤ s then some (key a.1) else last) l := by
  rw [pick, isVisibleTo]
  by_cases hv : sequenceNumber a.1 ≤ s
  · by_cases hlast : last = some (key a.1)
    · simp [hv, hlast]
    · by_cases hop : operation a.1 = some .insert <;> simp [hv, hlast, hop]
  · simp [hv]

theorem mem_pick_iff_stops (hl : l.Pairwise fun p q => p.1 < q.1) :
    (k, v) ∈ pick s last l ↔ ∃ p, Stops s last l p ∧ key p.1 = k ∧ p.2 = v := by
  induction l generalizing last with
  | nil =>
    refine iff_of_false (by simp [pick]) ?_
    rintro ⟨p, h, -⟩
    exact not_mem_nil h.mem
  | cons a l ih =>
    obtain ⟨hhead, htail⟩ := pairwise_cons.mp hl
    simp only [pick_cons, mem_append, stops_cons hhead, ih htail, or_and_right, exists_or]
    refine or_congr_left ?_
    split_ifs with h
    · simp [h, eq_comm]
    · simp [h]

/-- What the iterator gives is in some order of the keys exactly if where it stops is. -/
theorem pairwise_pick_iff {R : Bytes → Bytes → Prop} (hl : l.Pairwise fun p q => p.1 < q.1) :
    (pick s last l).Pairwise (fun a b => R a.1 b.1) ↔
      ∀ p q, Stops s last l p → Stops s last l q → p.1 < q.1 → R (key p.1) (key q.1) := by
  induction l generalizing last with
  | nil => exact iff_of_true .nil fun p q h => absurd h.mem not_mem_nil
  | cons a l ih =>
    obtain ⟨hhead, htail⟩ := pairwise_cons.mp hl
    rw [pick_cons, pairwise_append, ih htail]
    simp only [stops_cons hhead]
    have hfirst : ∀ {last' q}, Stops s last' l q → a.1 < q.1 := fun h => hhead _ h.mem
    constructor
    · rintro ⟨-, hrest, hcross⟩ p q (⟨rfl, hv, hlast, hop⟩ | hp) (⟨rfl, -⟩ | hq) hpq
      · exact absurd hpq (lt_irrefl _)
      · refine hcross (key p.1, p.2) (by simp [hv, hlast, hop]) (key q.1, q.2) ?_
        exact (mem_pick_iff_stops htail).mpr ⟨q, hq, rfl, rfl⟩
      · exact absurd hpq (hfirst hp).asymm
      · exact hrest p q hp hq hpq
    · intro h
      refine ⟨by split_ifs <;> simp, fun p q hp hq => h p q (.inr hp) (.inr hq), ?_⟩
      rintro x hx ⟨k, v⟩ ho
      split_ifs at hx with ha
      · obtain ⟨q, hq, rfl, rfl⟩ := (mem_pick_iff_stops htail).mp ho
        rw [mem_singleton.mp hx]
        exact h a q (.inl ⟨rfl, ha⟩) (.inr hq) (hfirst hq)
      · cases hx

theorem getList_pick (hl : l.Pairwise fun p q => p.1 < q.1) (hp : Stops s last l p)
    (hfirst : ∀ q, Stops s last l q → key q.1 = key p.1 → p.1 ≤ q.1) :
    getList (key p.1) (pick s last l) = some p.2 := by
  induction l generalizing last with
  | nil => exact absurd hp.mem not_mem_nil
  | cons a l ih =>
    obtain ⟨hhead, htail⟩ := pairwise_cons.mp hl
    simp only [stops_cons hhead] at hp hfirst
    rw [pick_cons]
    rcases hp with ⟨rfl, ha⟩ | hp
    · rw [if_pos ha]
      simp [getList]
    · have hrest := ih htail hp fun q hq => hfirst q (.inr hq)
      by_cases ha : sequenceNumber a.1 ≤ s ∧ last ≠ some (key a.1) ∧ operation a.1 = some .insert
      · have hne : key p.1 ≠ key a.1 := fun hk =>
          not_le.mpr (hhead p hp.mem) (hfirst a (.inl ⟨rfl, ha⟩) hk.symm)
        rw [if_pos ha, singleton_append, getList, if_neg hne, hrest]
      · rw [if_neg ha, nil_append, hrest]

/-- Nothing comes between the versions of the key. -/
def Unparted (s : Nat) (l : List KeyValue) (k : Bytes) : Prop :=
  ∀ p ∈ l, ∀ q ∈ l, ∀ r ∈ l, key p.1 = k → key q.1 = k → sequenceNumber q.1 ≤ s →
    sequenceNumber r.1 ≤ s → q.1 < r.1 → r.1 < p.1 → key r.1 = k

theorem stops_iff_of_unparted (hk : Unparted s l (key p.1)) (hlast : last ≠ some (key p.1)) :
    Stops s last l p ↔ p ∈ l ∧ sequenceNumber p.1 ≤ s ∧ operation p.1 = some .insert ∧
      ∀ q ∈ l, sequenceNumber q.1 ≤ s → key q.1 = key p.1 → ¬ q.1 < p.1 := by
  constructor
  · refine fun h => ⟨h.mem, h.visible, h.insert, fun q hq hqs hqk hqp => ?_⟩
    obtain ⟨r, hr, hqr, hparts⟩ := h.parted q hq hqs hqp hqk
    exact hparts.other (hk p h.mem q hq r hr rfl hqk hqs hparts.visible hqr hparts.before)
  · rintro ⟨hp, hv, hop, hfirst⟩
    exact ⟨hp, hv, hop, fun h => absurd h hlast, fun q hq hqs hqp hqk =>
      absurd hqp (hfirst q hq hqs hqk)⟩

end Stops

/-- Versions written through `MVCCKey::build`, one of a key at a number. -/
structure StoredVersions where
  raw : OrderedMap Bytes Bytes
  built : ∀ p ∈ raw.entries, ∃ k n op, n < 2 ^ 64 ∧ p.1 = build k n op
  single : ∀ p ∈ raw.entries, ∀ q ∈ raw.entries, key p.1 = key q.1 →
    sequenceNumber p.1 = sequenceNumber q.1 → p = q

namespace StoredVersions

def Stores (store : StoredVersions) (k : Bytes) : Prop := ∃ p ∈ store.raw.entries, key p.1 = k

def Sees (store : StoredVersions) (s : Nat) (k v : Bytes) : Prop :=
  ∃ p ∈ store.raw.entries, (key p.1 = k ∧ sequenceNumber p.1 ≤ s ∧
      ∀ q ∈ store.raw.entries, key q.1 = k → sequenceNumber q.1 ≤ s →
        sequenceNumber q.1 ≤ sequenceNumber p.1) ∧
    operation p.1 = some .insert ∧ p.2 = v

structure Answers (store : StoredVersions) (range : KeyRange) (s : Nat) (l : List KeyValue) :
    Prop where
  sorted : l.Pairwise fun p q => p.1 < q.1
  mem : ∀ k v, (k, v) ∈ l ↔ range.Contains k ∧ store.Sees s k v

def IteratesExactly (store : StoredVersions) (range : KeyRange) (s : Nat)
    (targets : Bytes → Prop) : Prop :=
  ∃ it l, MVCCRangeIterator.new store.raw.entries range s = some it ∧ store.Answers range s l ∧
    ∀ calls : List IteratorCall, (∀ call ∈ calls, call.SeeksIn targets) →
      it.run calls = some (answers l calls)

def GetsExactly (store : StoredVersions) (s : Nat) : Prop :=
  ∀ k, ∃ value, get store.raw.entries k s = some value ∧ ∀ v, value = some v ↔ store.Sees s k v

/-- Another stored key is a prefix of this one, or has it as a prefix. -/
def Crossed (store : StoredVersions) (k : Bytes) : Prop :=
  ∃ k', store.Stores k' ∧ k' ≠ k ∧ (k' <+: k ∨ k <+: k')

/-- The scan stops at the keys that are checked where it should, and at no key after one that it is a
prefix of. -/
structure ScanFits (store : StoredVersions) (s : Nat) (last : Option Bytes) (l : List KeyValue)
    (checked wanted : Bytes → Prop) : Prop where
  shown : ∀ k, store.Stores k → checked k ∨ store.Crossed k → ∀ v,
    (∃ p, Stops s last l p ∧ key p.1 = k ∧ p.2 = v) ↔ wanted k ∧ store.Sees s k v
  ordered : ∀ p q, Stops s last l p → Stops s last l q → p.1 < q.1 → ¬ key q.1 <+: key p.1

/-- No key reached is too short to be compared with the end, and the scan fits at the keys that a
bound touches or another key crosses. -/
def StartFits (store : StoredVersions) (range : KeyRange) (s : Nat) (start : Bytes) : Prop :=
  range.continueCondition.Readable (range.reached store.raw.entries start) ∧
    store.ScanFits s none (range.continueCondition.accepted (range.reached store.raw.entries start))
      (range.Touches start) range.Contains

/-- The same for a scan from a target past `o`. -/
def SeekFits (store : StoredVersions) (range : KeyRange) (s : Nat) (o target : Bytes) : Prop :=
  range.continueCondition.Readable (fromKey store.raw.entries target) ∧
    store.ScanFits s (some o) (range.continueCondition.accepted (fromKey store.raw.entries target))
      (range.Touches target) fun k => range.Contains k ∧ target ≤ k

/-- The start has a successor where it needs one and all scans fit; and no read of one key stops at
a key whose newest version is not an insert. -/
structure StorageFits (store : StoredVersions) (range : KeyRange) (s : Nat)
    (targets : Bytes → Prop) : Prop where
  scans : ∃ start, range.rangeStart.seekBytes = some start ∧ store.StartFits range s start ∧
    ∀ target, targets target → ∀ o v, range.Contains o → store.Sees s o v → o < target →
      store.SeekFits range s o target
  gets : ∀ p, Stops s none store.raw.entries p → ∃ v, store.Sees s (key p.1) v

variable {store : StoredVersions} {range : KeyRange} {s : Nat} {last : Option Bytes}
  {checked wanted targets : Bytes → Prop} {l m : List KeyValue} {p q r : KeyValue}
  {start target o k v : Bytes}

theorem operation_ne_none (store : StoredVersions) :
    ∀ p ∈ store.raw.entries, operation p.1 ≠ none := by
  intro p hp
  obtain ⟨k, n, op, -, hpk⟩ := store.built p hp
  simp [hpk]

theorem split (hp : p ∈ store.raw.entries) : ∃ x, x ≠ [] ∧ p.1 = key p.1 ++ x := by
  obtain ⟨k, n, op, -, hpk⟩ := store.built p hp
  refine ⟨suffix n op, ?_, by rw [hpk, key_build, build]⟩
  intro hnil
  have := length_suffix n op
  rw [hnil] at this
  cases this

theorem prefix_of_key (hp : p ∈ store.raw.entries) : key p.1 <+: p.1 := by
  obtain ⟨x, -, hpx⟩ := split hp
  conv_rhs => rw [hpx]
  exact prefix_append _ x

/-- Under one key the raw order is newest first. -/
theorem lt_iff_of_key_eq (hp : p ∈ store.raw.entries) (hq : q ∈ store.raw.entries)
    (hk : key p.1 = key q.1) : p.1 < q.1 ↔ sequenceNumber q.1 < sequenceNumber p.1 := by
  obtain ⟨k, n, op, hn, hpk⟩ := store.built p hp
  obtain ⟨k', n', op', hn', hqk⟩ := store.built q hq
  have hsuffix : ∀ {a b : Nat} (o o'), b < 2 ^ 64 → a < b → build k b o < build k a o' :=
    fun _ _ hb hab => append_lt_append_left_iff.mpr (suffix_lt hb hab)
  obtain rfl : k = k' := by simpa [hpk, hqk] using hk
  have hseq : sequenceNumber q.1 < sequenceNumber p.1 ↔ n' < n := by
    rw [hpk, hqk, sequenceNumber_build _ _ hn, sequenceNumber_build _ _ hn']
  rw [hseq]
  rcases lt_trichotomy n n' with hlt | rfl | hlt
  · have hqp := hsuffix op' op hn' hlt
    rw [← hpk, ← hqk] at hqp
    exact iff_of_false hqp.asymm hlt.asymm
  · have heq : p = q := store.single p hp q hq hk (by
      rw [hpk, hqk, sequenceNumber_build _ _ hn, sequenceNumber_build _ _ hn])
    exact iff_of_false (heq ▸ lt_irrefl _) (lt_irrefl _)
  · have hpq := hsuffix op op' hn hlt
    rw [← hpk, ← hqk] at hpq
    exact iff_of_true hpq hlt

theorem key_eq_of_between (hp : p ∈ store.raw.entries) (hr : r ∈ store.raw.entries)
    (hq : q ∈ store.raw.entries) (hk : ¬ store.Crossed k) (hpk : key p.1 = k) (hqk : key q.1 = k)
    (hqr : q.1 < r.1) (hrp : r.1 < p.1) : key r.1 = k := by
  have hpre : k <+: r.1 := by
    refine prefix_of_between (hpk ▸ prefix_of_key hp) ?_ hrp.le
    exact (prefix_le (hqk ▸ prefix_of_key hq)).trans hqr.le
  by_contra hne
  exact hk ⟨key r.1, ⟨r, hr, rfl⟩, hne, prefix_or_prefix_of_prefix (prefix_of_key hr) hpre⟩

theorem unparted_of_not_crossed (hl : l.Sublist store.raw.entries) (hk : ¬ store.Crossed k) :
    Unparted s l k := fun _ hp _ hq _ hr hpk hqk _ _ hqr hrp =>
  key_eq_of_between (hl.subset hp) (hl.subset hr) (hl.subset hq) hk hpk hqk hqr hrp

theorem lt_iff_of_apart (hp : p ∈ store.raw.entries) (hq : q ∈ store.raw.entries)
    (h : Apart (key p.1) (key q.1)) : p.1 < q.1 ↔ key p.1 < key q.1 := by
  obtain ⟨x, -, hpx⟩ := split hp
  obtain ⟨y, -, hqy⟩ := split hq
  conv_lhs => rw [hpx, hqy]
  exact h.append_lt

/-- A key that no other crosses and of which all versions are scanned, or none, is right. -/
theorem stops_iff_sees (hl : l.Sublist store.raw.entries) (hk : ¬ store.Crossed k)
    (hlast : wanted k → last ≠ some k)
    (hscan : ∀ p ∈ store.raw.entries, key p.1 = k → (p ∈ l ↔ wanted k)) :
    (∃ p, Stops s last l p ∧ key p.1 = k ∧ p.2 = v) ↔ wanted k ∧ store.Sees s k v := by
  have hunparted := unparted_of_not_crossed (s := s) hl hk
  constructor
  · rintro ⟨p, h, hpk, hv⟩
    have hp := hl.subset h.mem
    have hw := (hscan p hp hpk).mp h.mem
    obtain ⟨-, hvisible, hop, hfirst⟩ :=
      (stops_iff_of_unparted (hpk ▸ hunparted) (hpk ▸ hlast hw)).mp h
    refine ⟨hw, p, hp, ⟨hpk, hvisible, fun q hq hqk hqs => ?_⟩, hop, hv⟩
    have hnot := hfirst q ((hscan q hq hqk).mpr hw) hqs (hqk.trans hpk.symm)
    rw [lt_iff_of_key_eq hq hp (hqk.trans hpk.symm)] at hnot
    exact not_lt.mp hnot
  · rintro ⟨hw, p, hp, ⟨hpk, hvisible, hnewest⟩, hop, hv⟩
    refine ⟨p, (stops_iff_of_unparted (hpk ▸ hunparted) (hpk ▸ hlast hw)).mpr ?_, hpk, hv⟩
    refine ⟨(hscan p hp hpk).mpr hw, hvisible, hop, fun q hq hqs hqk => ?_⟩
    rw [lt_iff_of_key_eq (hl.subset hq) hp hqk]
    exact not_lt.mpr (hnewest q (hl.subset hq) (hqk.trans hpk) hqs)

/-- Where the keys that are not checked are scanned whole or not at all, a scan is the sorted list of
what is wanted exactly when it fits. -/
theorem pick_eq_iff (hl : l.Sublist store.raw.entries) (hm : m.Pairwise fun p q => p.1 < q.1)
    (hmem : ∀ k v, (k, v) ∈ m ↔ wanted k ∧ store.Sees s k v)
    (hlast : ∀ k, wanted k → last ≠ some k)
    (hscan : ∀ p ∈ store.raw.entries, ¬ checked (key p.1) → (p ∈ l ↔ wanted (key p.1))) :
    pick s last l = m ↔ store.ScanFits s last l checked wanted := by
  have hsorted := store.raw.sorted.sublist hl
  have hmem' : ∀ o : KeyValue, o ∈ m ↔ wanted o.1 ∧ store.Sees s o.1 o.2 := fun o => hmem o.1 o.2
  constructor
  · rintro rfl
    have hordered := (pairwise_pick_iff hsorted).mp hm
    refine ⟨fun k _ _ v => ?_, fun p q hp hq hlt hpre => ?_⟩
    · rw [← hmem, mem_pick_iff_stops hsorted]
    · exact (hordered p q hp hq hlt).not_ge (prefix_le hpre)
  · intro h
    refine eq_of_mem_iff ((pairwise_pick_iff hsorted).mpr fun p q hp hq hlt => ?_) hm ?_
    · have hnot := h.ordered p q hp hq hlt
      by_cases hpre : key p.1 <+: key q.1
      · exact lt_of_le_of_ne (prefix_le hpre) fun heq => hnot (heq ▸ prefix_refl _)
      · exact (lt_iff_of_apart (hl.subset hp.mem) (hl.subset hq.mem) ⟨hpre, hnot⟩).mp hlt
    · rintro ⟨k, v⟩
      rw [mem_pick_iff_stops hsorted, hmem]
      by_cases hk : store.Stores k
      · by_cases hc : checked k ∨ store.Crossed k
        · exact h.shown k hk hc v
        · rw [not_or] at hc
          refine stops_iff_sees hl hc.2 (hlast k) ?_
          rintro p hp rfl
          exact hscan p hp hc.1
      · refine iff_of_false ?_ ?_
        · rintro ⟨p, hp, rfl, -⟩
          exact hk ⟨p, hl.subset hp.mem, rfl⟩
        · rintro ⟨-, p, hp, ⟨rfl, -⟩, -⟩
          exact hk ⟨p, hp, rfl⟩

theorem pick_start_iff (hseek : range.rangeStart.seekBytes = some start)
    (hans : store.Answers range s l)
    (hread : range.continueCondition.Readable (range.reached store.raw.entries start)) :
    pick s none (range.continueCondition.accepted (range.reached store.raw.entries start)) = l ↔
      store.ScanFits s none
        (range.continueCondition.accepted (range.reached store.raw.entries start))
        (range.Touches start) range.Contains := by
  refine pick_eq_iff ((accepted_sublist _ _).trans (range.reached_sublist _ _)) hans.sorted
    hans.mem (fun k _ => by simp) fun p hp hk => ?_
  rw [mem_scanned, and_iff_right hp]
  exact scanned_iff hseek hread hp (split hp) hk

theorem pick_seek_iff (hans : store.Answers range s l)
    (hread : range.continueCondition.Readable (fromKey store.raw.entries target))
    (hc : range.Contains o) (hlt : o < target) :
    pick s (some o) (range.continueCondition.accepted (fromKey store.raw.entries target)) =
        l.filter (fun p => decide (target ≤ p.1)) ↔
      store.ScanFits s (some o)
        (range.continueCondition.accepted (fromKey store.raw.entries target))
        (range.Touches target) fun k => range.Contains k ∧ target ≤ k := by
  have hsub : (fromKey store.raw.entries target).Sublist store.raw.entries := filter_sublist
  refine pick_eq_iff ((accepted_sublist _ _).trans hsub) (hans.sorted.filter _) ?_ ?_ ?_
  · intro k v
    simp only [mem_filter, hans.mem, decide_eq_true_eq]
    exact and_right_comm
  · rintro k ⟨-, hle⟩ heq
    exact (hlt.trans_le hle).ne (some.inj heq)
  · intro p hp hk
    obtain ⟨x, -, hpx⟩ := split hp
    have hle : target ≤ p.1 ↔ target ≤ key p.1 := by
      rw [← not_lt, ← not_lt]
      conv_lhs => rw [hpx]
      exact not_congr (append_lt_iff fun hcut => hk (.inl hcut))
    rw [accepted, mem_filter, mem_fromKey, and_iff_right hp, hle, decide_eq_true_iff, and_comm]
    refine and_congr_left fun htarget => ?_
    rw [accepts_iff hread (mem_fromKey.mpr ⟨hp, hle.mpr htarget⟩) (split hp)
      fun e he hcut => hk (.inr (.inl ⟨e, he, hcut⟩)), Contains, and_iff_right]
    exact hc.1.of_le (hlt.le.trans htarget)

theorem newestFirst (store : StoredVersions) : store.raw.entries.Pairwise NewestFirst :=
  store.raw.sorted.imp_of_mem fun hp hq hlt hk => (lt_iff_of_key_eq hp hq hk).mp hlt

theorem shown_iff_sees : shown s store.raw.entries k = some v ↔ store.Sees s k v := by
  rw [shown, bind_eq_some_iff, Sees]
  simp only [find?_eq_some_iff_newest store.newestFirst]
  constructor
  · rintro ⟨p, ⟨hp, hnewest⟩, hop⟩
    split_ifs at hop with hins
    exact ⟨p, hp, hnewest, hins, some.inj hop⟩
  · rintro ⟨p, hp, hnewest, hins, hv⟩
    exact ⟨p, ⟨hp, hnewest⟩, by rw [if_pos hins, hv]⟩

theorem exists_answers (store : StoredVersions) (range : KeyRange) (s : Nat) :
    ∃ l, store.Answers range s l := by
  -- the keys in range, each with what is seen of it
  let found := ofKeys (fun k => if range.Contains k then shown s store.raw.entries k else none)
    (store.raw.entries.map fun p => key p.1)
  refine ⟨found.entries, found.sorted, fun k v => ?_⟩
  rw [mem_entries, get?_ofKeys, ← shown_iff_sees]
  constructor
  · intro h
    split_ifs at h with hk hc
    exact ⟨hc, h⟩
  · rintro ⟨hc, hshown⟩
    obtain ⟨p, hp, hpk⟩ := mem_of_shown hshown
    rw [if_pos (List.mem_map.mpr ⟨p, hp, hpk⟩), if_pos hc, hshown]

theorem iteratesExactly_iff : store.IteratesExactly range s targets ↔
    ∃ start, range.rangeStart.seekBytes = some start ∧ store.StartFits range s start ∧
      ∀ target, targets target → ∀ o v, range.Contains o → store.Sees s o v → o < target →
        store.SeekFits range s o target := by
  obtain ⟨l, hans⟩ := store.exists_answers range s
  have hiterates : store.IteratesExactly range s targets ↔
      ∃ it, MVCCRangeIterator.new store.raw.entries range s = some it ∧
        ∀ calls : List IteratorCall, (∀ call ∈ calls, call.SeeksIn targets) →
          it.run calls = some (answers l calls) := by
    refine ⟨fun ⟨it, l', hnew, hans', hcalls⟩ => ?_, fun ⟨it, h⟩ => ⟨it, l, h.1, hans, h.2⟩⟩
    obtain rfl : l = l' := eq_of_mem_iff hans.sorted hans'.sorted
      fun ⟨k, v⟩ => by rw [hans.mem, hans'.mem]
    exact ⟨it, hnew, hcalls⟩
  have hstart : ∀ start, range.rangeStart.seekBytes = some start →
      ((range.continueCondition.bounded (range.reached store.raw.entries start)).picked s none =
        ⟨l, false⟩ ↔ store.StartFits range s start) := by
    intro start hseek
    rw [first_stream_iff store.raw.sorted hseek]
    exact and_congr_right (pick_start_iff hseek hans)
  have hsought : ∀ o target v, range.Contains o → store.Sees s o v → o < target →
      (soughtStream store.raw.entries range.continueCondition s o target =
        ⟨l.filter fun p => decide (target ≤ p.1), false⟩ ↔ store.SeekFits range s o target) := by
    intro o target v hc _ hlt
    rw [soughtStream_eq_iff store.raw.sorted hc hlt]
    exact and_congr_right fun hread => pick_seek_iff hans hread hc hlt
  rw [hiterates]
  cases hseek : range.rangeStart.seekBytes with
  | none =>
    refine iff_of_false ?_ (by simp)
    rintro ⟨it, hnew, -⟩
    simp [MVCCRangeIterator.new, KeyspaceRangeIterator.new, hseek] at hnew
  | some start =>
    rw [iterates_iff store.raw.sorted store.operation_ne_none hans.sorted hseek, hstart start hseek]
    simp only [some.injEq, exists_eq_left']
    refine and_congr_right fun _ => ⟨fun h target ht o v hc hsees hlt => ?_,
      fun h o ho target ht hlt => ?_⟩
    · exact (hsought o target v hc hsees hlt).mp (h (o, v) ((hans.mem o v).mpr ⟨hc, hsees⟩) target
        ht hlt)
    · obtain ⟨hc, hsees⟩ := (hans.mem o.1 o.2).mp ho
      exact (hsought o.1 target o.2 hc hsees hlt).mpr (h target ht o.1 o.2 hc hsees hlt)

/-- A read of one key stops where a scan of everything does. -/
theorem stops_within_iff (hpk : key p.1 = k) :
    Stops s none ((newWithin k).continueCondition.accepted
        ((newWithin k).reached store.raw.entries k)) p ↔ Stops s none store.raw.entries p := by
  have hmem : ∀ q, q ∈ (newWithin k).continueCondition.accepted
      ((newWithin k).reached store.raw.entries k) ↔ q ∈ store.raw.entries ∧ k <+: q.1 := by
    intro q
    rw [mem_scanned]
    refine and_congr_right fun _ => ⟨fun h => ?_, fun h => ⟨⟨prefix_le h, rfl⟩, ?_⟩⟩
    · exact isPrefixOf_iff_prefix.mp (some.inj h.2)
    · exact congrArg some <| isPrefixOf_iff_prefix.mpr h
  have hpre : ∀ q ∈ store.raw.entries, key q.1 = k → k <+: q.1 := by
    rintro q hq rfl
    exact prefix_of_key hq
  constructor
  · intro h
    obtain ⟨hp, -⟩ := (hmem p).mp h.mem
    refine ⟨hp, h.visible, h.insert, nofun, fun q hq hqs hqp hqk => ?_⟩
    obtain ⟨r, hr, hqr, hparts⟩ :=
      h.parted q ((hmem q).mpr ⟨hq, hpre q hq (hqk.trans hpk)⟩) hqs hqp hqk
    exact ⟨r, ((hmem r).mp hr).1, hqr, hparts⟩
  · intro h
    refine ⟨(hmem p).mpr ⟨h.mem, hpre p h.mem hpk⟩, h.visible, h.insert, nofun, ?_⟩
    intro q hq hqs hqp hqk
    obtain ⟨hq, hqpre⟩ := (hmem q).mp hq
    obtain ⟨r, hr, hqr, hparts⟩ := h.parted q hq hqs hqp hqk
    -- what is between has the key as a prefix as well
    have hrpre : k <+: r.1 := prefix_of_between (hpre p h.mem hpk)
      ((prefix_le hqpre).trans hqr.le) hparts.before.le
    exact ⟨r, (hmem r).mpr ⟨hr, hrpre⟩, hqr, hparts⟩

/-- The newest version is the first at which a read of its key stops. -/
theorem getList_of_sees (h : store.Sees s k v) :
    getList k (pick s none ((newWithin k).continueCondition.accepted
      ((newWithin k).reached store.raw.entries k))) = some v := by
  obtain ⟨p, hp, ⟨rfl, hvisible, hnewest⟩, hop, rfl⟩ := h
  have hle : ∀ q ∈ store.raw.entries, sequenceNumber q.1 ≤ s → key q.1 = key p.1 → p.1 ≤ q.1 := by
    intro q hq hqs hqk
    rw [← not_lt, lt_iff_of_key_eq hq hp hqk]
    exact not_lt.mpr (hnewest q hq hqk hqs)
  have hstops : Stops s none store.raw.entries p :=
    ⟨hp, hvisible, hop, nofun, fun q hq hqs hqp hqk => absurd hqp (hle q hq hqs hqk).not_gt⟩
  refine getList_pick (store.raw.sorted.sublist ?_) ((stops_within_iff rfl).mpr hstops) ?_
  · exact (accepted_sublist _ _).trans (reached_sublist _ _ _)
  · intro q hq hqk
    have hq := (stops_within_iff hqk).mp hq
    exact hle q hq.mem hq.visible hqk

theorem getsExactly_iff : store.GetsExactly s ↔
    ∀ p, Stops s none store.raw.entries p → ∃ v, store.Sees s (key p.1) v := by
  have hsub : ∀ k, ((newWithin k).continueCondition.accepted
      ((newWithin k).reached store.raw.entries k)).Sublist store.raw.entries := fun k =>
    (accepted_sublist _ _).trans ((newWithin k).reached_sublist _ k)
  have hsorted := fun k => store.raw.sorted.sublist (hsub k)
  simp only [GetsExactly, get_eq store.raw.sorted store.operation_ne_none, some.injEq,
    exists_eq_left']
  constructor
  · intro h p hp
    obtain ⟨v, hget⟩ := exists_getList_of_mem ((mem_pick_iff_stops (hsorted (key p.1))).mpr
      ⟨p, (stops_within_iff rfl).mpr hp, rfl, rfl⟩)
    exact ⟨v, (h _ v).mp hget⟩
  · intro h k v
    constructor
    · intro hget
      obtain ⟨p, hp, rfl, -⟩ := (mem_pick_iff_stops (hsorted k)).mp (mem_of_getList hget)
      obtain ⟨w, hw⟩ := h p ((stops_within_iff rfl).mp hp)
      have := getList_of_sees hw
      obtain rfl := some.inj (hget.symm.trans this)
      exact hw
    · exact getList_of_sees

/-! Where nothing comes between the versions of a key. -/

section Unparted
variable (hl : l.Sublist store.raw.entries) (hk : ∀ k, Unparted s l k)
include hl hk

theorem stops_iff_newest : Stops s none l p ↔ p ∈ l ∧ operation p.1 = some .insert ∧
    sequenceNumber p.1 ≤ s ∧ ∀ q ∈ l, key q.1 = key p.1 → sequenceNumber q.1 ≤ s →
      sequenceNumber q.1 ≤ sequenceNumber p.1 := by
  have hseq : ∀ q ∈ l, p ∈ l → key q.1 = key p.1 →
      (¬ q.1 < p.1 ↔ sequenceNumber q.1 ≤ sequenceNumber p.1) := by
    intro q hq hp hqk
    rw [lt_iff_of_key_eq (hl.subset hq) (hl.subset hp) hqk, not_lt]
  rw [stops_iff_of_unparted (hk _) (by simp)]
  constructor
  · rintro ⟨hp, hv, hop, hfirst⟩
    exact ⟨hp, hop, hv, fun q hq hqk hqs => (hseq q hq hp hqk).mp (hfirst q hq hqs hqk)⟩
  · rintro ⟨hp, hop, hv, hnewest⟩
    exact ⟨hp, hv, hop, fun q hq hqs hqk => (hseq q hq hp hqk).mpr (hnewest q hq hqk hqs)⟩

theorem mem_pick_iff_shown : (k, v) ∈ pick s none l ↔ shown s l k = some v := by
  rw [mem_pick_iff_stops (store.raw.sorted.sublist hl), shown, bind_eq_some_iff]
  simp only [find?_eq_some_iff_newest (store.newestFirst.sublist hl), stops_iff_newest hl hk]
  refine exists_congr fun p => ?_
  constructor
  · rintro ⟨⟨hp, hop, hv, hnewest⟩, rfl, rfl⟩
    exact ⟨⟨hp, rfl, hv, hnewest⟩, by rw [if_pos hop]⟩
  · rintro ⟨⟨hp, rfl, hv, hnewest⟩, hop⟩
    split_ifs at hop with hins
    exact ⟨⟨hp, hins, hv, hnewest⟩, rfl, some.inj hop⟩

theorem pairwise_pick_of_unparted {R : Bytes → Bytes → Prop}
    (hR : ∀ p ∈ l, ∀ q ∈ l, key p.1 ≠ key q.1 → p.1 < q.1 → R (key p.1) (key q.1)) :
    (pick s none l).Pairwise fun a b => R a.1 b.1 := by
  refine (pairwise_pick_iff (store.raw.sorted.sublist hl)).mpr fun p q hp hq hlt => ?_
  refine hR p hp.mem q hq.mem (fun hpq => ?_) hlt
  -- a key is stopped at once
  obtain ⟨-, -, -, hfirst⟩ := (stops_iff_of_unparted (hk _) (by simp)).mp hq
  exact hfirst p hp.mem hp.visible hpq hlt

end Unparted

theorem getsExactly_of_unparted (hk : ∀ k, Unparted s store.raw.entries k) :
    store.GetsExactly s := by
  refine getsExactly_iff.mpr fun p hp => ?_
  obtain ⟨hmem, hop, hv, hnewest⟩ := (stops_iff_newest (Sublist.refl _) hk).mp hp
  exact ⟨p.2, p, hmem, ⟨rfl, hv, hnewest⟩, hop, rfl⟩

theorem storageFits_iff : store.StorageFits range s targets ↔
    store.IteratesExactly range s targets ∧ store.GetsExactly s := by
  rw [iteratesExactly_iff, getsExactly_iff]
  exact ⟨fun h => ⟨h.scans, h.gets⟩, fun h => ⟨h.1, h.2⟩⟩

end StoredVersions
end TypeDB.Storage
