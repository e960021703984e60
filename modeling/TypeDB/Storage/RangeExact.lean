import TypeDB.Storage.Visibility

/-! Ranges of user keys against scans of raw keys: a bound that no stored key is a proper prefix
of falls on the same side of a key and of all its versions. The iterator is exact where the keys
that are such prefixes happen to show what they should. -/

namespace TypeDB.Storage
open ByteString List MVCCKey ContinueCondition KeyRange MVCCRangeIterator RangeStart OrderedMap
open Option hiding filter_filter
open Storage.Stream TypeDB.Lex

def RangeStart.Admits : RangeStart → Bytes → Prop
  | .inclusive b, k => b ≤ k
  | .excludeFirstWithPrefix b, k => b < k
  | .excludePrefix b, k => b < k ∧ ¬ b <+: k

def RangeEnd.Admits (start : Bytes) : RangeEnd → Bytes → Prop
  | .withinStartAsPrefix, k => start <+: k
  | .endPrefixInclusive e, k => k ≤ e ∨ e <+: k
  | .endPrefixExclusive e, k => k < e
  | .unbounded, _ => True

instance : ∀ (r : RangeStart) (k : Bytes), Decidable (r.Admits k)
  | .inclusive b, k => inferInstanceAs (Decidable (b ≤ k))
  | .excludeFirstWithPrefix b, k => inferInstanceAs (Decidable (b < k))
  | .excludePrefix b, k => inferInstanceAs (Decidable (b < k ∧ ¬ b <+: k))

instance (start : Bytes) : ∀ (r : RangeEnd) (k : Bytes), Decidable (r.Admits start k)
  | .withinStartAsPrefix, k => inferInstanceAs (Decidable (start <+: k))
  | .endPrefixInclusive e, k => inferInstanceAs (Decidable (k ≤ e ∨ e <+: k))
  | .endPrefixExclusive e, k => inferInstanceAs (Decidable (k < e))
  | .unbounded, _ => inferInstanceAs (Decidable True)

def KeyRange.Contains (range : KeyRange) (k : Bytes) : Prop :=
  range.rangeStart.Admits k ∧ range.rangeEnd.Admits range.rangeStart.getValue k

instance (range : KeyRange) (k : Bytes) : Decidable (range.Contains k) :=
  inferInstanceAs (Decidable (_ ∧ _))

/-- The raw key `may_skip_start` passes over. -/
def RangeStart.skips : RangeStart → Bytes → Bool
  | .excludeFirstWithPrefix b, raw => decide (raw = b)
  | _, _ => false

def fromKey (entries : List KeyValue) (start : Bytes) : List KeyValue :=
  entries.filter fun p => decide (start ≤ p.1)

def KeyRange.reached (range : KeyRange) (entries : List KeyValue) (start : Bytes) :
    List KeyValue :=
  (fromKey entries start).filter fun p => !range.rangeStart.skips p.1

theorem KeyRange.reached_sublist (range : KeyRange) (entries : List KeyValue) (start : Bytes) :
    (range.reached entries start).Sublist entries :=
  filter_sublist.trans filter_sublist

def ContinueCondition.accepted (cond : ContinueCondition) (l : List KeyValue) : List KeyValue :=
  l.filter fun p => decide (cond.acceptValue p.1 = some true)

theorem ContinueCondition.accepted_sublist (cond : ContinueCondition) (l : List KeyValue) :
    (cond.accepted l).Sublist l := filter_sublist

/-- A key too short for `accept_value` comes only after one that is not accepted. -/
def ContinueCondition.Readable (cond : ContinueCondition) (l : List KeyValue) : Prop :=
  ∀ p ∈ l, cond.acceptValue p.1 = none → ∃ q ∈ l, q.1 < p.1 ∧ cond.acceptValue q.1 = some false

def KeyRange.endBytes (range : KeyRange) : Option Bytes :=
  match range.rangeEnd with
  | .withinStartAsPrefix => some range.rangeStart.getValue
  | .endPrefixInclusive e => some e
  | .endPrefixExclusive e => some e
  | .unbounded => none

/-- A bound ends inside the versions of the key, or is the key that should be left out. -/
def KeyRange.Touches (range : KeyRange) (start k : Bytes) : Prop :=
  Lex.Cuts start k ∨ (∃ e ∈ range.endBytes, Lex.Cuts e k) ∨
    range.rangeStart = .excludeFirstWithPrefix k

namespace ContinueCondition
variable {cond : ContinueCondition} {l : List KeyValue} {u e value : Bytes}

theorem accept_inclusive_true (h : acceptValue (.endPrefixInclusive e) u = some true) :
    u ≤ e ∨ e <+: u := by
  simp only [acceptValue] at h
  split_ifs at h with hpre hlen
  · exact .inl (prefix_le <| isPrefixOf_iff_prefix.mp hpre)
  · rcases lt_or_eq_of_le (of_decide_eq_true (some.inj h)) with hlt | heq
    · exact .inl (take_length_lt_iff.mp hlt).le
    · exact .inr (prefix_iff_eq_take.mpr heq.symm)

theorem accept_inclusive_false (h : acceptValue (.endPrefixInclusive e) u = some false) :
    e < u ∧ ¬ e <+: u := by
  simp only [acceptValue] at h
  split_ifs at h with hpre hlen
  · cases h
  have hlt := not_le.mp (of_decide_eq_false (some.inj h))
  have hne : ¬ e <+: u := fun hp => hlt.ne (prefix_iff_eq_take.mp hp)
  have hle : e ≤ u := not_lt.mp fun hue => hlt.asymm (take_length_lt_iff.mpr hue)
  exact ⟨lt_of_le_of_ne hle fun heq => hne (heq ▸ prefix_refl e), hne⟩

theorem accept_exclusive_true (h : acceptValue (.endPrefixExclusive e) u = some true) :
    u < e ∨ u <+: e := by
  simp only [acceptValue] at h
  split_ifs at h with hpre hlen
  · exact .inr <| isPrefixOf_iff_prefix.mp hpre
  · exact .inl (take_length_lt_iff.mp (of_decide_eq_true (some.inj h)))

theorem accept_exclusive_false (h : acceptValue (.endPrefixExclusive e) u = some false) :
    e ≤ u := by
  simp only [acceptValue] at h
  split_ifs at h with hpre hlen
  · cases h
  have hnot := of_decide_eq_false (some.inj h)
  exact not_lt.mp fun hlt => hnot (take_length_lt_iff.mpr hlt)

def StartsAt (cond : ContinueCondition) (low : Bytes) : Prop :=
  ∀ value, cond = .exactPrefix value → value ≤ low

theorem accept_falls {low w : Bytes} (hlow : cond.StartsAt low) (hu : low ≤ u) (huw : u < w)
    (hfalse : cond.acceptValue u = some false) : cond.acceptValue w ≠ some true := by
  intro htrue
  cases cond with
  | exactPrefix value =>
    simp only [acceptValue, some.injEq] at hfalse htrue
    have hw : value <+: w := isPrefixOf_iff_prefix.mp htrue
    have hvu := prefix_of_between hw ((hlow value rfl).trans hu) huw.le
    have hpre : value.isPrefixOf u = true := isPrefixOf_iff_prefix.mpr hvu
    rw [hpre] at hfalse
    cases hfalse
  | endPrefixInclusive e =>
    obtain ⟨heu, hne⟩ := accept_inclusive_false hfalse
    rcases accept_inclusive_true htrue with hwe | hew
    · exact absurd (huw.trans_le hwe) heu.asymm
    · exact hne (prefix_of_between hew heu.le huw.le)
  | endPrefixExclusive e =>
    have heu := accept_exclusive_false hfalse
    have hwe : w ≤ e := (accept_exclusive_true htrue).elim le_of_lt prefix_le
    exact absurd (heu.trans_lt huw) (not_lt.mpr hwe)
  | always => simp [acceptValue] at hfalse

theorem bounded_panics_iff (hl : l.Pairwise fun a b => a.1 < b.1) :
    (cond.bounded l).panics = false ↔ cond.Readable l := by
  induction l with
  | nil => simp [bounded, Readable]
  | cons a l ih =>
    obtain ⟨hhead, htail⟩ := pairwise_cons.mp hl
    rw [bounded]
    split
    · rename_i hacc
      refine iff_of_false (by simp) fun h => ?_
      obtain ⟨q, hq, hlt, -⟩ := h a mem_cons_self hacc
      rcases mem_cons.mp hq with rfl | hq
      · exact lt_irrefl _ hlt
      · exact hlt.asymm (hhead q hq)
    · rename_i hacc
      refine iff_of_true rfl fun p hp hnone => ⟨a, mem_cons_self, ?_, hacc⟩
      rcases mem_cons.mp hp with rfl | hp
      · rw [hacc] at hnone
        cases hnone
      · exact hhead p hp
    · rename_i hacc
      refine (ih htail).trans ⟨fun h p hp hnone => ?_, fun h p hp hnone => ?_⟩
      · rcases mem_cons.mp hp with rfl | hp
        · rw [hacc] at hnone
          cases hnone
        · obtain ⟨q, hq, hqp⟩ := h p hp hnone
          exact ⟨q, mem_cons_of_mem _ hq, hqp⟩
      · obtain ⟨q, hq, hlt, hfalse⟩ := h p (mem_cons_of_mem _ hp) hnone
        rcases mem_cons.mp hq with rfl | hq
        · rw [hacc] at hfalse
          cases hfalse
        · exact ⟨q, hq, hlt, hfalse⟩

theorem bounded_outs_eq {low : Bytes} (hl : l.Pairwise fun a b => a.1 < b.1)
    (hlow : cond.StartsAt low) (hmem : ∀ p ∈ l, low ≤ p.1) (hread : cond.Readable l) :
    (cond.bounded l).outs = cond.accepted l := by
  induction l with
  | nil => rfl
  | cons a l ih =>
    obtain ⟨hhead, htail⟩ := pairwise_cons.mp hl
    have hpanics := (bounded_panics_iff hl).mpr hread
    rw [bounded] at hpanics ⊢
    rw [accepted]
    split
    · rename_i hacc
      simp [hacc] at hpanics
    · rename_i hacc
      rw [eq_comm, filter_eq_nil_iff]
      intro p hp
      rcases mem_cons.mp hp with rfl | hp
      · simp [hacc]
      · simpa using accept_falls hlow (hmem a mem_cons_self) (hhead p hp) hacc
    · rename_i hacc
      rw [filter_cons_of_pos (by simpa using hacc)]
      simp only [hacc] at hpanics
      have hrest := (bounded_panics_iff htail).mp hpanics
      rw [ih htail (fun p hp => hmem p (mem_cons_of_mem _ hp)) hrest]
      rfl

theorem picked_bounded_iff {low : Bytes} {s : Nat} {last : Option Bytes} {m : List KeyValue}
    (hl : l.Pairwise fun a b => a.1 < b.1) (hlow : cond.StartsAt low) (hmem : ∀ p ∈ l, low ≤ p.1) :
    (cond.bounded l).picked s last = ⟨m, false⟩ ↔
      cond.Readable l ∧ pick s last (cond.accepted l) = m := by
  rw [picked, Stream.mk.injEq, bounded_panics_iff hl, and_comm]
  exact and_congr_right fun hread => by rw [bounded_outs_eq hl hlow hmem hread]

end ContinueCondition

section Bounds
variable {range : KeyRange} {start k x : Bytes}

theorem KeyRange.start_iff (hseek : range.rangeStart.seekBytes = some start)
    (h : ¬ range.Touches start k) :
    start ≤ k ++ x ∧ range.rangeStart.skips (k ++ x) = false ↔ range.rangeStart.Admits k := by
  have hcut : ¬ Cuts start k := fun hc => h (.inl hc)
  have hle : start ≤ k ++ x ↔ start ≤ k := by
    rw [← not_lt, ← not_lt, append_lt_iff hcut]
  rw [hle]
  cases hstart : range.rangeStart with
  | inclusive b =>
    rw [hstart] at hseek
    obtain rfl := some.inj hseek
    simp [skips, Admits]
  | excludeFirstWithPrefix b =>
    have hne : b ≠ k := fun hbk => h (.inr (.inr (hbk ▸ hstart)))
    rw [hstart] at hseek
    obtain rfl := some.inj hseek
    have hskip : k ++ x ≠ b := fun heq =>
      hcut ⟨heq ▸ prefix_append k x, hne.symm⟩
    simp [skips, Admits, hskip, le_iff_lt_or_eq, hne]
  | excludePrefix b =>
    rw [hstart] at hseek
    simpa [skips, Admits] using increment_le_iff hseek hcut

/-- A key past one that the start lets through is let through. -/
theorem RangeStart.Admits.of_le {r : RangeStart} {o k : Bytes} (h : r.Admits o) (hle : o ≤ k) :
    r.Admits k := by
  cases r with
  | inclusive b => exact le_trans h hle
  | excludeFirstWithPrefix b => exact lt_of_lt_of_le h hle
  | excludePrefix b => exact ⟨h.1.trans_le hle, fun hpre => h.2 (prefix_of_between hpre h.1.le hle)⟩

theorem KeyRange.startsAt (hseek : range.rangeStart.seekBytes = some start) :
    range.continueCondition.StartsAt start := by
  intro value hvalue
  have hval : value = range.rangeStart.getValue := by
    rw [continueCondition] at hvalue
    split at hvalue <;> simp_all
  subst hval
  cases hstart : range.rangeStart with
  | inclusive b | excludeFirstWithPrefix b =>
    rw [hstart] at hseek
    exact (some.inj hseek).le
  | excludePrefix b =>
    rw [hstart] at hseek
    have hself : ¬ Cuts start start := fun hc => hc.2 rfl
    exact ((increment_le_iff hseek hself).mp le_rfl).1.le

/-- A key past one of the range still starts after the bound, and a scan from it goes on. -/
theorem KeyRange.startsAt_of_contains {o target : Bytes} (h : range.Contains o) (hlt : o < target) :
    range.continueCondition.StartsAt target := by
  intro value hvalue
  have hpre : value <+: o := by
    have hend := h.2
    rw [continueCondition] at hvalue
    cases hre : range.rangeEnd with
    | withinStartAsPrefix =>
      simp only [hre, exactPrefix.injEq] at hvalue
      rw [hre] at hend
      exact hvalue ▸ hend
    | endPrefixInclusive e | endPrefixExclusive e | unbounded => simp [hre] at hvalue
  exact (prefix_le hpre).trans hlt.le

theorem KeyRange.end_iff (hcut : ∀ e ∈ range.endBytes, ¬ Cuts e k) (hx : x ≠ [])
    (hsome : range.continueCondition.acceptValue (k ++ x) ≠ none) :
    range.continueCondition.acceptValue (k ++ x) = some true ↔
      range.rangeEnd.Admits range.rangeStart.getValue k := by
  rw [continueCondition] at hsome ⊢
  rw [endBytes] at hcut
  cases hend : range.rangeEnd with
  | withinStartAsPrefix =>
    simp only [hend, mem_some_iff, forall_eq'] at hcut
    simp only [acceptValue, some.injEq, isPrefixOf_iff_prefix,
      prefix_append_iff hcut, RangeEnd.Admits]
  | endPrefixInclusive e =>
    simp only [hend, mem_some_iff, forall_eq'] at hcut hsome
    constructor
    · intro htrue
      rcases accept_inclusive_true htrue with hle | hpre
      · rcases lt_or_eq_of_le hle with hlt | heq
        · exact .inl ((append_lt_iff hcut).mp hlt).le
        · have hke : k <+: e := heq ▸ prefix_append k x
          exact .inl (prefix_le hke)
      · exact .inr ((prefix_append_iff hcut).mp hpre)
    · intro hadm
      cases hacc : acceptValue (.endPrefixInclusive e) (k ++ x) with
      | none => exact absurd hacc hsome
      | some b =>
        cases b with
        | true => rfl
        | false =>
          obtain ⟨hlt, hne⟩ := accept_inclusive_false hacc
          rw [prefix_append_iff hcut] at hne
          rcases hadm with hke | hek
          · have hlt' : k < e := lt_of_le_of_ne hke fun h => hne (h ▸ prefix_refl k)
            exact absurd ((append_lt_iff hcut).mpr hlt') hlt.asymm
          · exact absurd hek hne
  | endPrefixExclusive e =>
    simp only [hend, mem_some_iff, forall_eq'] at hcut hsome
    constructor
    · intro htrue
      rcases accept_exclusive_true htrue with hlt | hpre
      · exact (append_lt_iff hcut).mp hlt
      · have hke : k <+: e := (prefix_append k x).trans hpre
        have heq : k = e := by
          by_contra hne
          exact hcut ⟨hke, hne⟩
        have hlen := hpre.length_le
        rw [heq, length_append] at hlen
        exact absurd (length_eq_zero_iff.mp (by omega)) hx
    · intro hadm
      cases hacc : acceptValue (.endPrefixExclusive e) (k ++ x) with
      | none => exact absurd hacc hsome
      | some b =>
        cases b with
        | true => rfl
        | false =>
          have hle := accept_exclusive_false hacc
          exact absurd ((append_lt_iff hcut).mpr hadm) (not_lt.mpr hle)
  | unbounded => simp [acceptValue, RangeEnd.Admits]

theorem KeyRange.end_not_admits {q : Bytes} (hcut : ∀ e ∈ range.endBytes, ¬ Cuts e k)
    (hnone : range.continueCondition.acceptValue (k ++ x) = none)
    (hfalse : range.continueCondition.acceptValue q = some false) (hlt : q < k ++ x) :
    ¬ range.rangeEnd.Admits range.rangeStart.getValue k := by
  rw [continueCondition] at hnone hfalse
  rw [endBytes] at hcut
  cases hend : range.rangeEnd with
  | withinStartAsPrefix => simp [hend, acceptValue] at hnone
  | endPrefixInclusive e =>
    simp only [hend, mem_some_iff, forall_eq'] at hcut hnone hfalse
    have heq := (accept_inclusive_false hfalse).1
    have hek : ¬ k < e := fun hke =>
      (heq.trans hlt).asymm ((append_lt_iff hcut).mpr hke)
    simp only [acceptValue] at hnone
    split_ifs at hnone with hpre hlen
    have hnot : ¬ e <+: k := fun hp => by
      have := hp.length_le
      rw [length_append] at hlen
      omega
    rintro (hke | hp)
    · rcases lt_or_eq_of_le hke with hke | rfl
      · exact hek hke
      · exact hnot (prefix_refl k)
    · exact hnot hp
  | endPrefixExclusive e =>
    simp only [hend, mem_some_iff, forall_eq'] at hcut hnone hfalse
    have heq := accept_exclusive_false hfalse
    exact fun hke => (heq.trans_lt hlt).asymm ((append_lt_iff hcut).mpr hke)
  | unbounded => simp [hend, acceptValue] at hnone

end Bounds

section New
variable {entries : List KeyValue} {range : KeyRange} {s : Nat} {start : Bytes}

theorem KeyspaceRangeIterator.maySkipStart_spec {it : DBIterator} (h : it.WellFormed) {b : Bytes}
    (hs : it.remaining.Pairwise fun p q => p.1 < q.1) (hb : ∀ p ∈ it.remaining, b ≤ p.1) :
    (maySkipStart it b).WellFormed ∧ (maySkipStart it b).entries = it.entries ∧
      (maySkipStart it b).remaining = it.remaining.filter fun p => !decide (p.1 = b) := by
  obtain ⟨hpeek, hrem, hentries, hwf⟩ := DBIterator.peek_spec h
  cases hr : it.remaining with
  | nil =>
    rw [hr] at hpeek hrem
    simp [maySkipStart, hpeek, hwf, hentries, hrem]
  | cons item rest =>
    rw [hr] at hpeek hrem hs hb
    obtain ⟨hhead, -⟩ := pairwise_cons.mp hs
    have hrest : ∀ p ∈ rest, p.1 ≠ b := fun p hp heq => by
      have := (hb item mem_cons_self).trans_lt (hhead p hp)
      exact this.ne' heq
    have hself : rest.filter (fun p => !decide (p.1 = b)) = rest :=
      filter_eq_self.mpr fun p hp => by simpa using hrest p hp
    by_cases hitem : item.1 = b
    · obtain ⟨-, htail, hentries', hwf'⟩ := DBIterator.next_spec hwf
      rw [hrem] at htail
      simp only [maySkipStart, hpeek, head?_cons, if_pos hitem]
      refine ⟨hwf', hentries'.trans hentries, ?_⟩
      rw [htail, filter_cons_of_neg (by simpa using hitem), hself, tail_cons]
    · simp only [maySkipStart, hpeek, head?_cons, if_neg hitem]
      refine ⟨hwf, hentries, ?_⟩
      rw [hrem, filter_cons_of_pos (by simpa using hitem), hself]

theorem KeyspaceRangeIterator.new_reads (hs : entries.Pairwise fun p q => p.1 < q.1)
    (hseek : range.rangeStart.seekBytes = some start) :
    ∃ it, KeyspaceRangeIterator.new entries range = some it ∧
      it.Reads entries range.continueCondition
        (range.continueCondition.bounded (range.reached entries start)) := by
  obtain ⟨hwf, hrem, hentries⟩ := DBIterator.newFrom_spec entries start
  rw [dropWhile_lt_eq_filter hs] at hrem
  -- the three starts differ in whether a pair is skipped
  have hiterator : ∃ iterator : DBIterator,
      KeyspaceRangeIterator.new entries range = some ⟨iterator, range.continueCondition, false⟩ ∧
        iterator.WellFormed ∧ iterator.entries = entries ∧
        iterator.remaining = range.reached entries start := by
    cases hstart : range.rangeStart with
    | excludeFirstWithPrefix b =>
      rw [hstart] at hseek
      obtain rfl := some.inj hseek
      have hspec := maySkipStart_spec hwf (by rw [hrem]; exact hs.filter _) (b := b) (by
        intro p hp
        rw [hrem] at hp
        simpa using (mem_filter.mp hp).2)
      refine ⟨_, by simp only [new, hstart, seekBytes]; rfl, hspec.1, hspec.2.1.trans hentries, ?_⟩
      rw [hspec.2.2, hrem, reached, hstart]
      rfl
    | inclusive b =>
      rw [hstart] at hseek
      obtain rfl := some.inj hseek
      refine ⟨_, by simp only [new, hstart, seekBytes]; rfl, hwf, hentries, ?_⟩
      rw [hrem, reached, hstart, fromKey]
      simp [skips]
    | excludePrefix b =>
      rw [hstart] at hseek
      refine ⟨_, by simp only [new, hstart, hseek]; rfl, hwf, hentries, ?_⟩
      rw [hrem, reached, hstart, fromKey]
      simp [skips]
  obtain ⟨iterator, hnew, hwf', hentries', hrem'⟩ := hiterator
  have hsub := range.reached_sublist entries start
  refine ⟨_, hnew, hwf', hentries', rfl, by simp [stream, hrem'], fun p hp => ?_, ?_⟩
  · exact hsub.subset (mem_of_mem_bounded hp)
  · exact (length_bounded _ _).trans hsub.length_le

theorem MVCCRangeIterator.new_yields (hs : entries.Pairwise fun p q => p.1 < q.1)
    (hseek : range.rangeStart.seekBytes = some start) :
    ∃ it, new entries range s = some it ∧ it.Yields entries range.continueCondition s
        ((range.continueCondition.bounded (range.reached entries start)).picked s none) := by
  obtain ⟨iter, hnew, hreads⟩ := KeyspaceRangeIterator.new_reads hs hseek
  exact ⟨_, by simp only [new, hnew]; rfl, .ready none _ rfl ⟨rfl, hreads, rfl, rfl⟩⟩

end New

section Scanned
variable {entries : List KeyValue} {range : KeyRange} {start : Bytes} {p : KeyValue}

theorem KeyRange.mem_reached : p ∈ range.reached entries start ↔
    p ∈ entries ∧ start ≤ p.1 ∧ range.rangeStart.skips p.1 = false := by
  simp [reached, fromKey, and_comm]

theorem KeyRange.mem_scanned :
    p ∈ range.continueCondition.accepted (range.reached entries start) ↔ p ∈ entries ∧
      (start ≤ p.1 ∧ range.rangeStart.skips p.1 = false) ∧
        range.continueCondition.acceptValue p.1 = some true := by
  rw [accepted, mem_filter, mem_reached, decide_eq_true_iff, and_assoc]

/-- Among readable pairs the end lets a version through as it does its key. -/
theorem KeyRange.accepts_iff {l : List KeyValue} (hread : range.continueCondition.Readable l)
    (hp : p ∈ l) (hsplit : ∃ x, x ≠ [] ∧ p.1 = key p.1 ++ x)
    (hcut : ∀ e ∈ range.endBytes, ¬ Cuts e (key p.1)) :
    range.continueCondition.acceptValue p.1 = some true ↔
      range.rangeEnd.Admits range.rangeStart.getValue (key p.1) := by
  obtain ⟨x, hx, hpx⟩ := hsplit
  cases hacc : range.continueCondition.acceptValue p.1 with
  | none =>
    obtain ⟨q, -, hlt, hfalse⟩ := hread p hp hacc
    rw [hpx] at hacc hlt
    simpa using end_not_admits hcut hacc hfalse hlt
  | some b =>
    have hend := end_iff hcut hx (by rw [← hpx, hacc]; simp)
    rw [← hend, ← hpx, hacc]

/-- A version of a key that no bound touches is scanned exactly when its key is in range. -/
theorem KeyRange.scanned_iff (hseek : range.rangeStart.seekBytes = some start)
    (hread : range.continueCondition.Readable (range.reached entries start)) (hp : p ∈ entries)
    (hsplit : ∃ x, x ≠ [] ∧ p.1 = key p.1 ++ x) (hk : ¬ range.Touches start (key p.1)) :
    (start ≤ p.1 ∧ range.rangeStart.skips p.1 = false) ∧
      range.continueCondition.acceptValue p.1 = some true ↔ range.Contains (key p.1) := by
  obtain ⟨x, hx, hpx⟩ := id hsplit
  have hstart := start_iff (x := x) hseek hk
  rw [← hpx] at hstart
  rw [Contains, ← hstart]
  refine and_congr_right fun hreached => ?_
  exact accepts_iff hread (mem_reached.mpr ⟨hp, hreached⟩) hsplit
    fun e he hc => hk (.inr (.inl ⟨e, he, hc⟩))

end Scanned

section Iterates
variable {entries l : List KeyValue} {range : KeyRange} {s : Nat} {start target o : Bytes}
  {targets : Bytes → Prop}

theorem mem_fromKey {p : KeyValue} :
    p ∈ fromKey entries target ↔ p ∈ entries ∧ target ≤ p.1 := by
  simp [fromKey]

theorem first_stream_iff (hs : entries.Pairwise fun p q => p.1 < q.1)
    (hseek : range.rangeStart.seekBytes = some start) :
    (range.continueCondition.bounded (range.reached entries start)).picked s none = ⟨l, false⟩ ↔
      range.continueCondition.Readable (range.reached entries start) ∧
        pick s none (range.continueCondition.accepted (range.reached entries start)) = l :=
  picked_bounded_iff (hs.sublist (range.reached_sublist _ start)) (startsAt hseek) fun _ hp =>
    (mem_reached.mp hp).2.1

theorem soughtStream_eq_iff (hs : entries.Pairwise fun p q => p.1 < q.1) (hc : range.Contains o)
    (hlt : o < target) :
    soughtStream entries range.continueCondition s o target = ⟨l, false⟩ ↔
      range.continueCondition.Readable (fromKey entries target) ∧
        pick s (some o) (range.continueCondition.accepted (fromKey entries target)) = l := by
  rw [soughtStream, dropWhile_lt_eq_filter hs]
  exact picked_bounded_iff (hs.filter _) (startsAt_of_contains hc hlt) fun _ hp =>
    (mem_fromKey.mp hp).2

/-- The iterator answers as a sorted list does exactly when its first scan is that list and the scan
from each target is what the list has from there on. -/
theorem iterates_iff (hs : entries.Pairwise fun p q => p.1 < q.1)
    (hops : ∀ p ∈ entries, operation p.1 ≠ none) (hl : l.Pairwise fun p q => p.1 < q.1)
    (hseek : range.rangeStart.seekBytes = some start) :
    (∃ it, MVCCRangeIterator.new entries range s = some it ∧
      ∀ calls : List IteratorCall, (∀ call ∈ calls, call.SeeksIn targets) →
        it.run calls = some (answers l calls)) ↔
    (range.continueCondition.bounded (range.reached entries start)).picked s none = ⟨l, false⟩ ∧
      ∀ o ∈ l, ∀ target, targets target → o.1 < target →
        soughtStream entries range.continueCondition s o.1 target =
          ⟨l.filter fun p => decide (target ≤ p.1), false⟩ := by
  obtain ⟨it, hnew, hyields⟩ := new_yields (s := s) hs hseek
  rw [← follows_iff hl]
  constructor
  · rintro ⟨it', hnew', hcalls⟩ calls hin
    obtain rfl : it = it' := some.inj (hnew.symm.trans hnew')
    rw [← hyields.run hops]
    exact hcalls calls hin
  · exact fun h => ⟨it, hnew, fun calls hin => by rw [hyields.run hops]; exact h calls hin⟩

end Iterates

namespace VersionStore
variable (store : VersionStore) {p : KeyValue}

theorem split (hp : p ∈ store.raw.entries) : ∃ x, x ≠ [] ∧ p.1 = key p.1 ++ x := by
  obtain ⟨k, n, op, -, hpk⟩ := store.built p hp
  refine ⟨suffix n op, ?_, by rw [hpk, key_build, build]⟩
  intro hnil
  have := length_suffix n op
  rw [hnil] at this
  cases this

theorem operation_ne_none : ∀ p ∈ store.raw.entries, operation p.1 ≠ none := by
  intro p hp
  obtain ⟨k, n, op, -, hpk⟩ := store.built p hp
  simp [hpk]

theorem lt_of_key_lt {p q : KeyValue} (hp : p ∈ store.raw.entries) (hq : q ∈ store.raw.entries)
    (h : key p.1 < key q.1) : p.1 < q.1 := by
  obtain ⟨x, -, hpx⟩ := store.split hp
  obtain ⟨y, -, hqy⟩ := store.split hq
  have hapart : Apart (key p.1) (key q.1) :=
    ⟨fun hpre => h.ne (store.prefixFree p hp q hq hpre),
      fun hpre => h.ne' (store.prefixFree q hq p hp hpre)⟩
  rw [hpx, hqy]
  exact hapart.append_lt.mpr h

variable {store} {range : KeyRange} {s : Nat} {start k v : Bytes} {l : List KeyValue}
  {target : Bytes}

structure Answers (store : VersionStore) (range : KeyRange) (s : Nat) (l : List KeyValue) :
    Prop where
  sorted : l.Pairwise fun p q => p.1 < q.1
  mem : ∀ k v, (k, v) ∈ l ↔ range.Contains k ∧ store.Sees s k v

theorem exists_answers (store : VersionStore) (range : KeyRange) (s : Nat) :
    ∃ l, store.Answers range s l := by
  have hordered := store.ordered.filter fun p => decide (range.Contains (key p.1))
  refine ⟨pick s none (store.raw.entries.filter fun p => decide (range.Contains (key p.1))),
    pairwise_pick hordered, fun k v => ?_⟩
  rw [mem_pick_iff hordered (by simp), ← shown_iff_sees]
  by_cases hk : range.Contains k
  · rw [shown_congr (m := store.raw.entries)]
    · simp [hk]
    · rw [filter_filter]
      refine filter_congr fun p _ => ?_
      by_cases hpk : key p.1 = k <;> simp [hpk, hk]
  · rw [shown_eq_none]
    · simp [hk]
    · rintro p hp rfl
      exact hk (by simpa using (mem_filter.mp hp).2)

theorem accepted_reached_sublist (store : VersionStore) (range : KeyRange) (start : Bytes) :
    (range.continueCondition.accepted (range.reached store.raw.entries start)).Sublist
      store.raw.entries :=
  (accepted_sublist _ _).trans (range.reached_sublist _ _)

section
variable (hseek : range.rangeStart.seekBytes = some start)
include hseek

theorem scanned_iff_contains
    (hread : range.continueCondition.Readable (range.reached store.raw.entries start))
    (hp : p ∈ store.raw.entries) (hk : ¬ range.Touches start (key p.1)) :
    p ∈ range.continueCondition.accepted (range.reached store.raw.entries start) ↔
      range.Contains (key p.1) := by
  rw [mem_scanned, and_iff_right hp]
  exact scanned_iff hseek hread hp (store.split hp) hk

theorem shown_untouched
    (hread : range.continueCondition.Readable (range.reached store.raw.entries start))
    (hk : ¬ range.Touches start k) :
    shown s (range.continueCondition.accepted (range.reached store.raw.entries start)) k =
      if range.Contains k then shown s store.raw.entries k else none := by
  have hsub := store.accepted_reached_sublist range start
  split_ifs with hc
  · refine shown_congr (eq_of_mem_iff ?_ ?_ fun p => ?_)
    · exact (store.raw.sorted.sublist hsub).filter _
    · exact store.raw.sorted.filter _
    · simp only [mem_filter, decide_eq_true_eq]
      refine and_congr_left ?_
      rintro rfl
      exact ⟨fun h => hsub.subset h, fun hp => (scanned_iff_contains hseek hread hp hk).mpr hc⟩
  · refine shown_eq_none ?_
    rintro p hp rfl
    exact hc ((scanned_iff_contains hseek hread (hsub.subset hp) hk).mp hp)

/-- What a scan shows under a key that one of the bounds touches is what it should. -/
def StartFits (store : VersionStore) (range : KeyRange) (s : Nat) (start : Bytes) : Prop :=
  range.continueCondition.Readable (range.reached store.raw.entries start) ∧
    ∀ k, store.Stores k → range.Touches start k →
      shown s (range.continueCondition.accepted (range.reached store.raw.entries start)) k =
        if range.Contains k then shown s store.raw.entries k else none

theorem StartFits.shown_eq (h : store.StartFits range s start) (k : Bytes) :
    shown s (range.continueCondition.accepted (range.reached store.raw.entries start)) k =
      if range.Contains k then shown s store.raw.entries k else none := by
  by_cases ht : range.Touches start k
  · by_cases hk : store.Stores k
    · exact h.2 k hk ht
    · have hnone : ∀ p ∈ store.raw.entries, key p.1 ≠ k := fun p hp hpk => hk ⟨p, hp, hpk⟩
      rw [shown_eq_none hnone, ite_self]
      exact shown_eq_none fun p hp => hnone p
        ((store.accepted_reached_sublist range start).subset hp)
  · exact shown_untouched hseek h.1 ht

theorem first_scan_iff (hans : store.Answers range s l) :
    (range.continueCondition.bounded (range.reached store.raw.entries start)).picked s none =
      ⟨l, false⟩ ↔ store.StartFits range s start := by
  have hordered := store.ordered.sublist (store.accepted_reached_sublist range start)
  have hmem : ∀ k v, (k, v) ∈ l ↔
      (if range.Contains k then shown s store.raw.entries k else none) = some v := by
    intro k v
    rw [hans.mem, ← shown_iff_sees]
    split_ifs with hk <;> simp [hk]
  rw [first_stream_iff store.raw.sorted hseek]
  constructor
  · rintro ⟨hread, hpick⟩
    refine ⟨hread, fun k _ _ => ext fun v => ?_⟩
    rw [← hmem, ← hpick, mem_pick_iff hordered (by simp)]
    simp
  · intro hfits
    refine ⟨hfits.1, eq_of_mem_iff ?_ hans.sorted fun p => ?_⟩
    · exact pairwise_pick hordered
    · rw [hmem p.1 p.2, ← hfits.shown_eq hseek p.1, mem_pick_iff hordered (by simp)]
      simp

/-- The same for a scan from a seek target past `o`. -/
def SeekFits (store : VersionStore) (range : KeyRange) (s : Nat) (o target : Bytes) : Prop :=
  range.continueCondition.Readable (fromKey store.raw.entries target) ∧
    ∀ k, store.Stores k → Lex.Cuts target k → o < k →
      shown s (range.continueCondition.accepted (fromKey store.raw.entries target)) k = none

omit hseek in
theorem le_key_of_mem_fromKey {p q : KeyValue} (hp : p ∈ store.raw.entries)
    (hlt : key p.1 < target) (hq : q ∈ fromKey store.raw.entries target) : key p.1 ≤ key q.1 := by
  obtain ⟨hqmem, hle⟩ := mem_fromKey.mp hq
  obtain ⟨x, -, hqx⟩ := store.split hqmem
  by_contra hnot
  have hqp := not_le.mp hnot
  have hpre : key q.1 <+: key p.1 := by
    refine prefix_of_between (prefix_append (key q.1) x) hqp.le ?_
    exact hqx ▸ hlt.le.trans hle
  exact hqp.ne (store.prefixFree q hqmem p hp hpre)

theorem shown_fromKey_of_le
    (hp : p ∈ range.reached store.raw.entries start) (hlt : key p.1 < target) (hle : target ≤ k) :
    shown s (range.continueCondition.accepted (fromKey store.raw.entries target)) k =
      shown s (range.continueCondition.accepted (range.reached store.raw.entries start)) k := by
  obtain ⟨hpmem, hstart, -⟩ := mem_reached.mp hp
  have hin : ∀ q ∈ store.raw.entries, key q.1 = k →
      q ∈ fromKey store.raw.entries target ∧ q ∈ range.reached store.raw.entries start := by
    rintro q hq rfl
    have hpq : p.1 < q.1 := store.lt_of_key_lt hpmem hq (hlt.trans_le hle)
    obtain ⟨x, -, hqx⟩ := store.split hq
    refine ⟨mem_fromKey.mpr ⟨hq, hle.trans ?_⟩, mem_reached.mpr ⟨hq, hstart.trans hpq.le, ?_⟩⟩
    · conv_rhs => rw [hqx]
      exact prefix_le (prefix_append _ _)
    · -- only the start itself is skipped, and `p` lies between
      cases hrs : range.rangeStart with
      | excludeFirstWithPrefix b =>
        rw [hrs] at hseek
        cases hseek
        simpa [skips] using (hstart.trans_lt hpq).ne'
      | inclusive b | excludePrefix b => rfl
  have hfrom : (fromKey store.raw.entries target).Sublist store.raw.entries := filter_sublist
  refine shown_congr (eq_of_mem_iff ?_ ?_ fun q => ?_)
  · exact (store.raw.sorted.sublist ((accepted_sublist _ _).trans hfrom)).filter _
  · exact (store.raw.sorted.sublist (store.accepted_reached_sublist range start)).filter _
  · simp only [accepted, mem_filter, decide_eq_true_eq]
    refine and_congr_left fun hqk => and_congr_left fun _ => ⟨fun h => ?_, fun h => ?_⟩
    · exact (hin q (hfrom.subset h) hqk).2
    · exact (hin q ((range.reached_sublist _ _).subset h) hqk).1

theorem sought_iff (hans : store.Answers range s l) (hfits : store.StartFits range s start)
    {o : KeyValue} (ho : o ∈ l) (hlt : o.1 < target) :
    soughtStream store.raw.entries range.continueCondition s o.1 target =
      ⟨l.filter fun p => decide (target ≤ p.1), false⟩ ↔ store.SeekFits range s o.1 target := by
  obtain ⟨hcontains, hsees⟩ := (hans.mem o.1 o.2).mp ho
  -- the version of the last key that the first scan found
  obtain ⟨p, hp, hpk⟩ : ∃ p ∈ range.reached store.raw.entries start, key p.1 = o.1 := by
    have hshown := hfits.shown_eq hseek o.1
    rw [if_pos hcontains, store.shown_iff_sees.mpr hsees] at hshown
    obtain ⟨p, hp, hpk⟩ := mem_of_shown hshown
    exact ⟨p, (accepted_sublist _ _).subset hp, hpk⟩
  have hpmem := (mem_reached.mp hp).1
  have hfrom : (fromKey store.raw.entries target).Sublist store.raw.entries := filter_sublist
  have haccepted := (accepted_sublist range.continueCondition _).trans hfrom
  have hordered := store.ordered.sublist haccepted
  have hmem : ∀ q ∈ fromKey store.raw.entries target, target ≤ q.1 := fun q hq =>
    (mem_fromKey.mp hq).2
  have hlast : ∀ k₀, some o.1 = some k₀ → ∀ q ∈ range.continueCondition.accepted
      (fromKey store.raw.entries target), k₀ ≤ key q.1 := by
    intro k₀ hk₀ q hq
    cases hk₀
    rw [← hpk] at hlt ⊢
    exact le_key_of_mem_fromKey hpmem hlt ((accepted_sublist _ _).subset hq)
  -- what the list has under a key past the target
  have hpast : ∀ k v, target ≤ k → ((k, v) ∈ l ↔
      shown s (range.continueCondition.accepted (fromKey store.raw.entries target)) k = some v) := by
    intro k v hle
    rw [shown_fromKey_of_le hseek hp (hpk ▸ hlt) hle, hfits.shown_eq hseek, hans.mem,
      ← shown_iff_sees]
    split_ifs with hk <;> simp [hk]
  rw [soughtStream_eq_iff store.raw.sorted hcontains hlt, SeekFits]
  refine and_congr_right fun hread => ?_
  constructor
  · intro hpick k _ hcut hok
    by_contra hne
    obtain ⟨v, hv⟩ := ne_none_iff_exists'.mp hne
    have hin : (k, v) ∈ l.filter fun p => decide (target ≤ p.1) := by
      rw [← hpick, mem_pick_iff hordered hlast]
      exact ⟨fun h => hok.ne (some.inj h), hv⟩
    have hle : target ≤ k := by simpa using (mem_filter.mp hin).2
    exact hcut.2 (le_antisymm (prefix_le hcut.1) hle)
  · intro hcuts
    refine eq_of_mem_iff (pairwise_pick hordered) (hans.sorted.filter _) ?_
    rintro ⟨k, v⟩
    rw [mem_pick_iff hordered hlast, mem_filter, decide_eq_true_iff]
    by_cases hle : target ≤ k
    · have hne : some o.1 ≠ some k := fun h => (hlt.trans_le hle).ne (some.inj h)
      rw [hpast k v hle, and_iff_right hne, and_iff_left hle]
    · refine iff_of_false ?_ fun h => hle h.2
      rintro ⟨hne, hshown⟩
      obtain ⟨q, hq, rfl⟩ := mem_of_shown hshown
      have hok : o.1 < key q.1 :=
        lt_of_le_of_ne (hlast o.1 rfl q hq) fun h => hne (congrArg some h)
      by_cases hcut : Cuts target (key q.1)
      · rw [hcuts _ ⟨q, haccepted.subset hq, rfl⟩ hcut hok] at hshown
        cases hshown
      · obtain ⟨x, -, hqx⟩ := store.split (haccepted.subset hq)
        have hqt := (append_lt_iff (x := x) hcut).mpr (not_le.mp hle)
        rw [← hqx] at hqt
        exact absurd hqt (not_lt.mpr (hmem q ((accepted_sublist _ _).subset hq)))

end

end VersionStore

/-- Whatever is called, with seeks to the given targets, the iterator answers as the list of what
the snapshot sees in the range. -/
def VersionStore.IteratesExactly (store : VersionStore) (range : KeyRange) (s : Nat)
    (targets : Bytes → Prop) : Prop :=
  ∃ it l, MVCCRangeIterator.new store.raw.entries range s = some it ∧ store.Answers range s l ∧
    ∀ calls : List IteratorCall, (∀ call ∈ calls, call.SeeksIn targets) →
      it.run calls = some (answers l calls)

def VersionStore.GetsExactly (store : VersionStore) (s : Nat) : Prop :=
  ∀ k, ∃ value, get store.raw.entries k s = some value ∧
    ∀ v, value = some v ↔ store.Sees s k v

/-- The start has a successor where it needs one, no key reached is too short to be compared with
the end, and the stored keys that a bound or a target touches show what they should. -/
def VersionStore.BoundsFit (store : VersionStore) (range : KeyRange) (s : Nat)
    (targets : Bytes → Prop) : Prop :=
  ∃ start, range.rangeStart.seekBytes = some start ∧ store.StartFits range s start ∧
    ∀ target, targets target → ∀ o v, range.Contains o → store.Sees s o v → o < target →
      store.SeekFits range s o target

section Results
variable {store : VersionStore} {range : KeyRange} {s : Nat} {targets : Bytes → Prop}

theorem VersionStore.iteratesExactly_iff :
    store.IteratesExactly range s targets ↔ store.BoundsFit range s targets := by
  obtain ⟨l, hans⟩ := store.exists_answers range s
  cases hseek : range.rangeStart.seekBytes with
  | none =>
    refine iff_of_false ?_ ?_
    · rintro ⟨it, -, hnew, -⟩
      simp [new, KeyspaceRangeIterator.new, hseek] at hnew
    · rintro ⟨start, hstart, -⟩
      rw [hseek] at hstart
      cases hstart
  | some start =>
    have hiterates : store.IteratesExactly range s targets ↔
        ∃ it, MVCCRangeIterator.new store.raw.entries range s = some it ∧
          ∀ calls : List IteratorCall, (∀ call ∈ calls, call.SeeksIn targets) →
            it.run calls = some (answers l calls) := by
      refine ⟨fun ⟨it, l', hnew, hans', hcalls⟩ => ?_, fun ⟨it, h⟩ => ⟨it, l, h.1, hans, h.2⟩⟩
      obtain rfl : l = l' := eq_of_mem_iff hans.sorted hans'.sorted
        fun ⟨k, v⟩ => by rw [hans.mem, hans'.mem]
      exact ⟨it, hnew, hcalls⟩
    rw [hiterates, iterates_iff store.raw.sorted store.operation_ne_none hans.sorted hseek,
      VersionStore.first_scan_iff hseek hans]
    constructor
    · rintro ⟨hfits, hsought⟩
      refine ⟨start, hseek, hfits, fun target ht o v hc hsees hlt => ?_⟩
      have ho : (o, v) ∈ l := (hans.mem o v).mpr ⟨hc, hsees⟩
      exact (sought_iff hseek hans hfits ho hlt).mp (hsought _ ho target ht hlt)
    · rintro ⟨start', hstart', hfits, hseeks⟩
      obtain rfl : start = start' := some.inj (hseek.symm.trans hstart')
      refine ⟨hfits, fun o ho target ht hlt => ?_⟩
      obtain ⟨hc, hsees⟩ := (hans.mem o.1 o.2).mp ho
      exact (sought_iff hseek hans hfits ho hlt).mpr (hseeks target ht o.1 o.2 hc hsees hlt)

theorem MVCCRangeIterator.findKey_eq {entries : List KeyValue} {cond : ContinueCondition}
    {it : MVCCRangeIterator} {l : List KeyValue} {k : Bytes} {fuel : Nat}
    (hops : ∀ p ∈ entries, operation p.1 ≠ none) (h : it.Yields entries cond s ⟨l, false⟩)
    (hfuel : l.length < fuel) :
    it.findKey k fuel = some (getList k l) := by
  induction fuel generalizing it l with
  | zero => omega
  | succ fuel ih =>
    have hnext := h.next hops
    rw [findKey]
    generalize it.next = result at hnext
    generalize hst : (⟨l, false⟩ : Stream) = st at hnext
    cases hnext with
    | panics => cases hst
    | ended it' last hitem h' =>
      obtain rfl : l = [] := congrArg outs hst
      rfl
    | item it' o rest hitem h' hp =>
      obtain rfl : l = o :: pick s (some o.1) rest.outs := congrArg outs hst
      have hpanics : rest.panics = false := (congrArg panics hst).symm
      simp only [bind_eq_bind, bind_some]
      rw [getList]
      split_ifs with hk hk' hk'
      · rfl
      · exact absurd hk.symm hk'
      · exact absurd hk'.symm hk
      · refine ih ?_ (by simpa using hfuel)
        have := Yields.ready (some o.1) rest hitem h'
        rwa [picked, hpanics] at this

theorem get_eq {entries : List KeyValue} (hs : entries.Pairwise fun p q => p.1 < q.1)
    (hops : ∀ p ∈ entries, operation p.1 ≠ none) (k : Bytes) :
    get entries k s = some (getList k (pick s none
      ((newWithin k).continueCondition.accepted ((newWithin k).reached entries k)))) := by
  have hread : (newWithin k).continueCondition.Readable ((newWithin k).reached entries k) := by
    intro p _ hnone
    cases hnone
  have hseek : (newWithin k).rangeStart.seekBytes = some k := rfl
  obtain ⟨it, hnew, hyields⟩ := new_yields (s := s) hs hseek
  rw [(first_stream_iff hs rfl).mpr ⟨hread, rfl⟩] at hyields
  rw [get, hnew]
  refine it.findKey_eq hops hyields (Nat.lt_succ_of_le ?_)
  have hsub := (accepted_sublist (newWithin k).continueCondition _).trans
    ((newWithin k).reached_sublist entries k)
  exact (length_pick_le _ _ _).trans hsub.length_le

/-- A read of one key is always right: nothing but its own versions can answer it. -/
theorem VersionStore.getsExactly (store : VersionStore) (s : Nat) : store.GetsExactly s := by
  intro k
  have hseek : (newWithin k).rangeStart.seekBytes = some k := rfl
  have hread : (newWithin k).continueCondition.Readable
      ((newWithin k).reached store.raw.entries k) := by
    intro p _ hnone
    cases hnone
  have htouch : ¬ (newWithin k).Touches k k := by
    rintro (hc | ⟨e, he, hc⟩ | h)
    · exact hc.2 rfl
    · cases he
      exact hc.2 rfl
    · cases h
  have hcontains : (newWithin k).Contains k := ⟨le_refl k, prefix_refl k⟩
  have hordered := store.ordered.sublist (store.accepted_reached_sublist (newWithin k) k)
  refine ⟨_, get_eq store.raw.sorted store.operation_ne_none k, fun v => ?_⟩
  have hshown := shown_untouched (s := s) hseek hread htouch
  rw [if_pos hcontains] at hshown
  rw [← shown_iff_sees, ← hshown]
  constructor
  · exact fun h => ((mem_pick_iff hordered (by simp)).mp (mem_of_getList h)).2
  · intro h
    refine getList_of_mem (pairwise_pick hordered) ?_
    exact (mem_pick_iff hordered (by simp)).mpr ⟨by simp, h⟩

/-- The iterator and single reads are exact precisely where the bounds fit the stored keys. -/
theorem VersionStore.reads_exact_iff (store : VersionStore) (range : KeyRange) (s : Nat)
    (targets : Bytes → Prop) :
    store.IteratesExactly range s targets ∧ store.GetsExactly s ↔
      store.BoundsFit range s targets :=
  (and_iff_left (store.getsExactly s)).trans iteratesExactly_iff

end Results

def VersionStore.ofVersion (k v : Bytes) (n : Nat) (hn : n < 2 ^ 64) (op : StorageOperation) :
    VersionStore where
  raw := ⟨[(build k n op, v)], pairwise_singleton _ _⟩
  built := by
    intro p hp
    rw [mem_singleton.mp hp]
    exact ⟨k, n, op, hn, rfl⟩
  prefixFree := by
    intro p hp q hq _
    rw [mem_singleton.mp hp, mem_singleton.mp hq]
  single := by
    intro p hp q hq _ _
    rw [mem_singleton.mp hp, mem_singleton.mp hq]

/-- A start that excludes the stored key `[1]` compares it with the raw key, which is longer, and
the key is returned. -/
theorem VersionStore.iterator_returns_excluded :
    ¬ (ofVersion [1] [7] 1 (by decide) .insert).IteratesExactly
      ⟨.excludeFirstWithPrefix [1], .unbounded⟩ 1 (fun _ => False) := by
  rintro ⟨it, l, hnew, hans, hcalls⟩
  have hrun : ((new [(build [1] 1 .insert, [7])]
      ⟨.excludeFirstWithPrefix [1], .unbounded⟩ 1).bind fun it => it.run [.next]) =
        some [some ([1], [7])] := by decide +kernel
  have hnext : it.run [.next] = some [some ([1], [7])] := by
    rw [← hrun]
    exact (congrArg (fun r => bind r fun it => it.run [.next]) hnew).symm
  rw [hcalls [.next] (by simp [IteratorCall.SeeksIn])] at hnext
  have hhead : l.head? = some ([1], [7]) := by simpa [answers] using hnext
  have hcontains := ((hans.mem [1] [7]).mp (mem_of_mem_head? hhead)).1
  exact absurd hcontains (by decide)

end TypeDB.Storage
