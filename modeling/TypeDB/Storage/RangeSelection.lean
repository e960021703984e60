import TypeDB.Foundations.Draining
import TypeDB.Storage.WriteBuffer

/-! Three readers of one range: the buffer of a snapshot, which has user keys, and the iterators
of the two keyspaces, which have versions of them. They select the same keys where the bounds that
the buffer increments pass over none of them, and no bound and no other key ends inside the
versions of a key on the wrong side. -/

namespace TypeDB.Storage
open ByteString Draining List MVCCKey KeyspaceRangeIterator ContinueCondition OrderedMap WriteBuffer
open KeyRange

structure MemoryIterator where
  entries : List KeyValue
  position : Nat

def MemoryIterator.create (data : OrderedMap Bytes Bytes) (startKey : Bytes) :
    Option MemoryIterator :=
  (data.range (.included startKey) .unbounded).map fun entries => ⟨entries, 0⟩

def MemoryIterator.seek (it : MemoryIterator) (key : Bytes) : MemoryIterator :=
  { it with position := (it.entries.takeWhile fun p => decide (p.1 < key)).length }

def MemoryIterator.next (it : MemoryIterator) : Option KeyValue × MemoryIterator :=
  match it.entries[it.position]? with
  | none => (none, it)
  | some item => (some item, { it with position := it.position + 1 })

structure MemoryKeyspaceRangeIterator where
  iterator : MemoryIterator
  continueCondition : ContinueCondition
  isFinished : Bool

namespace MemoryKeyspaceRangeIterator

/-- `may_skip_start` has an empty body here. -/
def new (data : OrderedMap Bytes Bytes) (range : KeyRange) :
    Option MemoryKeyspaceRangeIterator := do
  let iterator ← MemoryIterator.create data range.rangeStart.getValue
  let start ← range.rangeStart.seekBytes
  some ⟨iterator.seek start, range.continueCondition, false⟩

def next (it : MemoryKeyspaceRangeIterator) :
    Option (Option KeyValue × MemoryKeyspaceRangeIterator) :=
  if it.isFinished then some (none, it)
  else
    let (next, iterator) := it.iterator.next
    match next with
    | none => some (none, { it with iterator := iterator, isFinished := true })
    | some item =>
      match it.continueCondition.acceptValue item.1 with
      | none => none
      | some true => some (some item, { it with iterator := iterator })
      | some false => some (none, { it with iterator := iterator, isFinished := true })

def stream (it : MemoryKeyspaceRangeIterator) : Stream :=
  if it.isFinished then ⟨[], false⟩
  else it.continueCondition.bounded (it.iterator.entries.drop it.iterator.position)

theorem next_stream (it : MemoryKeyspaceRangeIterator) :
    match it.stream with
    | ⟨[], true⟩ => it.next = none
    | ⟨[], false⟩ => ∃ it', it.next = some (none, it') ∧ it'.stream = ⟨[], false⟩
    | ⟨item :: rest, b⟩ => ∃ it', it.next = some (some item, it') ∧ it'.stream = ⟨rest, b⟩ := by
  obtain ⟨⟨entries, position⟩, cond, finished⟩ := it
  cases finished with
  | true => exact ⟨_, rfl, rfl⟩
  | false =>
    simp only [stream, next, MemoryIterator.next, Bool.false_eq_true, if_false]
    cases hitem : entries[position]? with
    | none =>
      have hdrop : entries.drop position = [] :=
        drop_eq_nil_iff.mpr (List.getElem?_eq_none_iff.mp hitem)
      rw [hdrop]
      exact ⟨_, rfl, rfl⟩
    | some item =>
      obtain ⟨hlt, rfl⟩ := List.getElem?_eq_some_iff.mp hitem
      rw [drop_eq_getElem_cons hlt, bounded]
      cases hacc : cond.acceptValue entries[position].1 with
      | none => simp only [hacc]
      | some accepted =>
        cases accepted with
        | true | false =>
          simp only [hacc]
          exact ⟨_, rfl, rfl⟩

end MemoryKeyspaceRangeIterator

section Drained
variable {it : MemoryKeyspaceRangeIterator} {outs items : List KeyValue}

theorem MemoryKeyspaceRangeIterator.drains (h : it.stream = ⟨outs, false⟩) :
    Drains next it outs := by
  have hstep : ∀ (it : MemoryKeyspaceRangeIterator) l, it.stream = ⟨l, false⟩ →
      ∃ it', it.next = some (l.head?.map id, it') ∧ it'.stream = ⟨l.tail, false⟩ := by
    intro it l h
    have hnext := it.next_stream
    rw [h] at hnext
    cases l with
    | nil | cons item l => exact hnext
  exact map_id outs ▸ drains_of_before hstep h

theorem MemoryKeyspaceRangeIterator.not_drains (h : it.stream = ⟨outs, true⟩) :
    ¬ Drains next it items := by
  have hpanic : ∀ it : MemoryKeyspaceRangeIterator, it.stream = ⟨[], true⟩ → it.next = none := by
    intro it h
    have hnext := it.next_stream
    rwa [h] at hnext
  have hstep : ∀ (it : MemoryKeyspaceRangeIterator) a l, it.stream = ⟨a :: l, true⟩ →
      ∃ it', it.next = some (some a, it') ∧ it'.stream = ⟨l, true⟩ := by
    intro it a l h
    have hnext := it.next_stream
    rwa [h] at hnext
  exact not_drains_of_before (B := fun it l => stream it = ⟨l, true⟩) hpanic hstep h

variable {entries : List KeyValue} {cond : ContinueCondition} {it : KeyspaceRangeIterator}

theorem KeyspaceRangeIterator.Reads.drains (h : it.Reads entries cond ⟨outs, false⟩) :
    Drains next it outs := by
  have hstep : ∀ (it : KeyspaceRangeIterator) l, it.Reads entries cond ⟨l, false⟩ →
      ∃ it', it.next = some (l.head?.map id, it') ∧ it'.Reads entries cond ⟨l.tail, false⟩ := by
    intro it l h
    cases l with
    | nil => exact h.next_end
    | cons item l =>
      obtain ⟨it', hnext, hreads, -⟩ := h.next_item
      exact ⟨it', hnext, hreads⟩
  exact map_id outs ▸ drains_of_before hstep h

theorem KeyspaceRangeIterator.Reads.not_drains (h : it.Reads entries cond ⟨outs, true⟩) :
    ¬ Drains next it items := by
  have hstep : ∀ (it : KeyspaceRangeIterator) a l, it.Reads entries cond ⟨a :: l, true⟩ →
      ∃ it', it.next = some (some a, it') ∧ it'.Reads entries cond ⟨l, true⟩ := by
    intro it a l h
    obtain ⟨it', hnext, hreads, -⟩ := h.next_item
    exact ⟨it', hnext, hreads⟩
  exact not_drains_of_before (B := fun it l => Reads entries cond it ⟨l, true⟩)
    (fun it h => h.next_panics) hstep h

end Drained

section New
variable {data : OrderedMap Bytes Bytes} {range : KeyRange} {start : Bytes}

theorem RangeStart.getValue_le (hseek : range.rangeStart.seekBytes = some start) :
    range.rangeStart.getValue ≤ start := by
  cases hstart : range.rangeStart with
  | inclusive b | excludeFirstWithPrefix b =>
    rw [hstart] at hseek
    exact (Option.some.inj hseek).le
  | excludePrefix b =>
    rw [hstart] at hseek
    exact (Lex.past_of_increment_le hseek le_rfl).1.le

theorem MemoryKeyspaceRangeIterator.new_stream (hseek : range.rangeStart.seekBytes = some start) :
    ∃ it, MemoryKeyspaceRangeIterator.new data range = some it ∧
      it.stream = range.continueCondition.bounded (fromKey data.entries start) := by
  have hcreate : MemoryIterator.create data range.rangeStart.getValue =
      some ⟨fromKey data.entries range.rangeStart.getValue, 0⟩ := by
    simp [MemoryIterator.create, OrderedMap.range, Bound.inverted, fromKey, Bound.Above,
      Bound.Below]
  refine ⟨_, by simp only [new, hcreate, hseek]; rfl, ?_⟩
  have hsorted : (fromKey data.entries range.rangeStart.getValue).Pairwise
      fun p q => p.1 < q.1 := data.sorted.filter _
  have hdrop : ∀ l : List KeyValue, l.drop (l.takeWhile fun p => decide (p.1 < start)).length =
        l.dropWhile fun p => decide (p.1 < start) := by
    intro l
    induction l with
    | nil => rfl
    | cons p l ih => by_cases hp : p.1 < start <;> simp [hp, ih]
  have hfrom : (fromKey data.entries range.rangeStart.getValue).dropWhile
      (fun p => decide (p.1 < start)) = fromKey data.entries start := by
    rw [OrderedMap.dropWhile_lt_eq_filter hsorted, fromKey, filter_filter, fromKey]
    refine filter_congr fun p _ => ?_
    have hle : start ≤ p.1 → range.rangeStart.getValue ≤ p.1 := (RangeStart.getValue_le hseek).trans
    simpa using hle
  simp only [stream, MemoryIterator.seek, Bool.false_eq_true, if_false, hdrop, hfrom]

end New

structure KeySet where
  buffer : WriteBuffer
  raw : OrderedMap Bytes Bytes
  built : ∀ p ∈ raw.entries, ∃ k n op, n < 2 ^ 64 ∧ p.1 = build k n op
  once : ∀ p ∈ raw.entries, ∀ q ∈ raw.entries, key p.1 = key q.1 → p = q
  same : ∀ k, (∃ write, buffer.writesGet k = some write) ↔ ∃ p ∈ raw.entries, key p.1 = k

namespace KeySet
variable (keys : KeySet) (range : KeyRange)

def Has (k : Bytes) : Prop := ∃ p ∈ keys.raw.entries, key p.1 = k

structure Lists (l : List Bytes) : Prop where
  sorted : l.Pairwise (· < ·)
  mem : ∀ k, k ∈ l ↔ keys.Has k ∧ range.Contains k

/-- The three readers return, and return the keys of the range in their order. -/
def SelectsAlike : Prop :=
  ∃ l, keys.Lists range l ∧
    (∃ it, keys.buffer.iterateRange range = some it ∧ it.inner.map (·.1) = l) ∧
    (∃ it items, KeyspaceRangeIterator.new keys.raw.entries range = some it ∧
      Drains KeyspaceRangeIterator.next it items ∧ items.map (fun p => key p.1) = l) ∧
    ∃ it items, MemoryKeyspaceRangeIterator.new keys.raw range = some it ∧
      Drains MemoryKeyspaceRangeIterator.next it items ∧ items.map (fun p => key p.1) = l

structure RawFits (start : Bytes) : Prop where
  readable : range.continueCondition.Readable (fromKey keys.raw.entries start)
  sides : ∀ p ∈ keys.raw.entries, range.Touches start (key p.1) →
    (start ≤ p.1 ∧ range.continueCondition.acceptValue p.1 = some true ↔ range.Contains (key p.1))
  order : ∀ p ∈ keys.raw.entries, ∀ q ∈ keys.raw.entries, key p.1 <+: key q.1 →
    range.Contains (key p.1) → range.Contains (key q.1) → p.1 ≤ q.1

/-- No key of the set is passed over on the way to an incremented bound, and the versions fit. -/
structure RangeFits : Prop where
  ordered : range.Ordered
  start : ∀ k, keys.Has k → range.rangeStart.Skips k →
    ¬ range.rangeEnd.Admits range.rangeStart.getValue k
  stop : ∀ k, keys.Has k → range.rangeEnd.Skips range.rangeStart.getValue k →
    range.rangeStart.Admits k → range.rangeStart.Skips k
  raw : ∀ start, range.rangeStart.seekBytes = some start → keys.RawFits range start

variable {keys range} {start : Bytes} {p : KeyValue}

theorem split (hp : p ∈ keys.raw.entries) : ∃ x, x ≠ [] ∧ p.1 = key p.1 ++ x := by
  obtain ⟨k, n, op, -, hpk⟩ := keys.built p hp
  refine ⟨suffix n op, ?_, by rw [hpk, key_build, build]⟩
  intro hnil
  have := length_suffix n op
  rw [hnil] at this
  cases this

variable {l : List Bytes}

theorem buffer_selects_iff (hl : keys.Lists range l) :
    (∃ it, keys.buffer.iterateRange range = some it ∧ it.inner.map (·.1) = l) ↔
      range.Ordered ∧ ∀ k, keys.Has k → (Bounded range k ↔ range.Contains k) := by
  -- the keys that the search tree gives
  have hkeys : ∀ b, keys.buffer.writesIn range = some b → (b.map (·.1)).Pairwise (· < ·) ∧
        ∀ k, k ∈ b.map (·.1) ↔ Bounded range k ∧ keys.Has k := by
    intro b hb
    obtain ⟨hsorted, hget⟩ := writesIn_eq_some hb
    refine ⟨pairwise_map.mpr hsorted, fun k => ?_⟩
    rw [Has, ← keys.same k, mem_map]
    constructor
    · rintro ⟨⟨k, write⟩, hmem, rfl⟩
      obtain ⟨hbounded, hwrite⟩ := (hget k write).mp (getList_of_mem hsorted hmem)
      exact ⟨hbounded, write, hwrite⟩
    · rintro ⟨hbounded, write, hwrite⟩
      exact ⟨(k, write), mem_of_getList ((hget k write).mpr ⟨hbounded, hwrite⟩), rfl⟩
  rw [← writesIn_ne_none keys.buffer]
  constructor
  · rintro ⟨it, hit, rfl⟩
    obtain ⟨b, hb, rfl⟩ := Option.map_eq_some_iff.mp hit
    refine ⟨by simp [hb], fun k hk => ?_⟩
    have hiff := (hl.mem k).symm.trans ((hkeys b hb).2 k)
    rw [and_comm, and_congr_left_iff] at hiff
    exact (hiff hk).symm
  · rintro ⟨hne, hbounded⟩
    obtain ⟨b, hb⟩ := Option.ne_none_iff_exists'.mp hne
    refine ⟨⟨b⟩, by rw [iterateRange, hb]; rfl, ?_⟩
    refine eq_of_pairwise_lt (hkeys b hb).1 hl.sorted fun k => ?_
    rw [(hkeys b hb).2, hl.mem, and_comm, and_congr_right_iff]
    exact hbounded k

def scanned (keys : KeySet) (range : KeyRange) (start : Bytes) : List KeyValue :=
  range.continueCondition.accepted (fromKey keys.raw.entries start)

theorem mem_scanned (hp : p ∈ keys.raw.entries) : p ∈ keys.scanned range start ↔
      start ≤ p.1 ∧ range.continueCondition.acceptValue p.1 = some true := by
  rw [scanned, accepted, mem_filter, fromKey, mem_filter]
  simp [hp]

theorem scanned_sublist : (keys.scanned range start).Sublist keys.raw.entries :=
  (accepted_sublist _ _).trans filter_sublist

theorem reached_eq (hplain : ∀ b, range.rangeStart ≠ .excludeFirstWithPrefix b) :
    range.reached keys.raw.entries start = fromKey keys.raw.entries start := by
  have hskips : ∀ raw, range.rangeStart.skips raw = false := by
    intro raw
    cases hstart : range.rangeStart with
    | inclusive b => rfl
    | excludeFirstWithPrefix b => exact absurd hstart (hplain b)
    | excludePrefix b => rfl
  rw [reached, filter_eq_self]
  intro p _
  rw [hskips]
  rfl

theorem scanned_iff_contains (hplain : ∀ b, range.rangeStart ≠ .excludeFirstWithPrefix b)
    (hseek : range.rangeStart.seekBytes = some start) (h : keys.RawFits range start)
    (hp : p ∈ keys.raw.entries) : p ∈ keys.scanned range start ↔ range.Contains (key p.1) := by
  by_cases htouches : range.Touches start (key p.1)
  · rw [mem_scanned hp]
    exact h.sides p hp htouches
  · have hread := h.readable
    rw [← reached_eq hplain] at hread
    rw [← scanned_iff hseek hread hp (keys.split hp) htouches, scanned,
      ← reached_eq hplain, KeyRange.mem_scanned, and_iff_right hp]

/-- Of two versions the one of the smaller key comes first, unless a key ends inside the other. -/
theorem key_lt_of_lt {p q : KeyValue} (hp : p ∈ keys.raw.entries) (hq : q ∈ keys.raw.entries)
    (hlt : p.1 < q.1) (horder : key q.1 <+: key p.1 → q.1 ≤ p.1) : key p.1 < key q.1 := by
  have hne : key p.1 ≠ key q.1 := fun heq => hlt.ne (congrArg Prod.fst (keys.once p hp q hq heq))
  by_cases hqp : key q.1 <+: key p.1
  · exact absurd hlt (not_lt.mpr (horder hqp))
  by_cases hpq : key p.1 <+: key q.1
  · exact lt_of_le_of_ne (Lex.prefix_le hpq) hne
  obtain ⟨x, -, hpx⟩ := keys.split hp
  obtain ⟨y, -, hqy⟩ := keys.split hq
  have hapart : Lex.Apart (key p.1) (key q.1) := ⟨hpq, hqp⟩
  rw [hpx, hqy] at hlt
  exact hapart.append_lt.mp hlt

theorem raw_selects_iff (hplain : ∀ b, range.rangeStart ≠ .excludeFirstWithPrefix b)
    (hseek : range.rangeStart.seekBytes = some start) (hl : keys.Lists range l) :
    range.continueCondition.Readable (fromKey keys.raw.entries start) ∧
      (keys.scanned range start).map (fun p => key p.1) = l ↔ keys.RawFits range start := by
  have hraw : (keys.scanned range start).Pairwise fun p q => p.1 < q.1 :=
    keys.raw.sorted.sublist scanned_sublist
  constructor
  · rintro ⟨hread, rfl⟩
    have hmem : ∀ p ∈ keys.raw.entries, range.Contains (key p.1) →
        p ∈ keys.scanned range start := fun p hp hcontains => by
      obtain ⟨q, hq, heq⟩ := mem_map.mp ((hl.mem _).mpr ⟨⟨p, hp, rfl⟩, hcontains⟩)
      rwa [← keys.once q (scanned_sublist.subset hq) p hp heq]
    refine ⟨hread, fun p hp _ => ?_, fun p hp q hq hpre hcp hcq => ?_⟩
    · rw [← mem_scanned hp]
      exact ⟨fun h => ((hl.mem _).mp (mem_map_of_mem h)).2, hmem p hp⟩
    · by_contra hlt
      -- the versions and the keys are in the same order
      have hboth : (keys.scanned range start).Pairwise fun a b =>
          (a.1 < b.1 ∧ key a.1 < key b.1) ∨ (b.1 < a.1 ∧ key b.1 < key a.1) :=
        (hraw.and (pairwise_map.mp hl.sorted)).imp .inl
      have hsymm : Std.Symm fun a b : KeyValue =>
          (a.1 < b.1 ∧ key a.1 < key b.1) ∨ (b.1 < a.1 ∧ key b.1 < key a.1) := ⟨fun _ _ => Or.symm⟩
      rcases hboth.forall (hmem p hp hcp) (hmem q hq hcq) (by rintro rfl; exact hlt le_rfl)
        with h | h
      · exact hlt h.1.le
      · exact (Lex.prefix_le hpre).not_gt h.2
  · refine fun h => ⟨h.readable, eq_of_pairwise_lt ?_ hl.sorted fun k => ?_⟩
    · refine pairwise_map.mpr (hraw.imp_of_mem fun {p q} hp hq hlt => ?_)
      have hp' := scanned_sublist.subset hp
      have hq' := scanned_sublist.subset hq
      refine key_lt_of_lt hp' hq' hlt fun hpre => h.order q hq' p hp' hpre ?_ ?_
      · exact (scanned_iff_contains hplain hseek h hq').mp hq
      · exact (scanned_iff_contains hplain hseek h hp').mp hp
    · rw [hl.mem, mem_map]
      constructor
      · rintro ⟨p, hp, rfl⟩
        have hp' := scanned_sublist.subset hp
        exact ⟨⟨p, hp', rfl⟩, (scanned_iff_contains hplain hseek h hp').mp hp⟩
      · rintro ⟨⟨p, hp, rfl⟩, hcontains⟩
        exact ⟨p, (scanned_iff_contains hplain hseek h hp).mpr hcontains, rfl⟩

theorem pairwise_fromKey :
    (fromKey keys.raw.entries start).Pairwise fun p q => p.1 < q.1 := keys.raw.sorted.filter _

theorem bounded_eq (hseek : range.rangeStart.seekBytes = some start)
    (hread : range.continueCondition.Readable (fromKey keys.raw.entries start)) :
    range.continueCondition.bounded (fromKey keys.raw.entries start) =
      ⟨keys.scanned range start, false⟩ := by
  refine Stream.ext ?_ ((bounded_panics_iff pairwise_fromKey).mpr hread)
  refine bounded_outs_eq pairwise_fromKey (startsAt hseek)
    (fun p hp => ?_) hread
  simpa using (mem_filter.mp hp).2

theorem exists_lists (keys : KeySet) (range : KeyRange) : ∃ l, keys.Lists range l := by
  refine ⟨(keys.buffer.writes.entries.filter fun p => decide (range.Contains p.1)).map (·.1),
    pairwise_map.mpr (keys.buffer.writes.sorted.filter _), fun k => ?_⟩
  rw [Has, ← keys.same k, mem_map]
  constructor
  · rintro ⟨⟨k, write⟩, hmem, rfl⟩
    obtain ⟨hmem, hcontains⟩ := mem_filter.mp hmem
    exact ⟨⟨write, mem_entries.mp hmem⟩, of_decide_eq_true hcontains⟩
  · rintro ⟨⟨write, hwrite⟩, hcontains⟩
    refine ⟨(k, write), mem_filter.mpr ⟨mem_entries.mpr hwrite, ?_⟩, rfl⟩
    exact decide_eq_true hcontains

section Keyspaces
variable (hplain : ∀ b, range.rangeStart ≠ .excludeFirstWithPrefix b)
  (hseek : range.rangeStart.seekBytes = some start) (hl : keys.Lists range l)
include hplain hseek hl

theorem keyspace_selects_iff : (∃ it items, new keys.raw.entries range = some it ∧
      Drains next it items ∧ items.map (fun p => key p.1) = l) ↔
      keys.RawFits range start := by
  obtain ⟨it, hnew, hreads⟩ := new_reads keys.raw.sorted hseek
  rw [reached_eq hplain] at hreads
  rw [← raw_selects_iff hplain hseek hl]
  constructor
  · rintro ⟨it', items, hnew', hdrains, hitems⟩
    cases hnew.symm.trans hnew'
    have hread : range.continueCondition.Readable (fromKey keys.raw.entries start) := by
      rw [← bounded_panics_iff pairwise_fromKey]
      by_contra hpanics
      rw [Bool.not_eq_false] at hpanics
      have hstream : range.continueCondition.bounded (fromKey keys.raw.entries start) =
        ⟨_, true⟩ := Stream.ext rfl hpanics
      rw [hstream] at hreads
      exact hreads.not_drains hdrains
    rw [bounded_eq hseek hread] at hreads
    exact ⟨hread, hreads.drains.unique hdrains ▸ hitems⟩
  · rintro ⟨hread, hitems⟩
    rw [bounded_eq hseek hread] at hreads
    exact ⟨it, _, hnew, hreads.drains, hitems⟩

theorem memory_selects_iff : (∃ it items, MemoryKeyspaceRangeIterator.new keys.raw range = some it ∧
      Drains MemoryKeyspaceRangeIterator.next it items ∧ items.map (fun p => key p.1) = l) ↔
      keys.RawFits range start := by
  obtain ⟨it, hnew, hstream⟩ := MemoryKeyspaceRangeIterator.new_stream hseek
  rw [← raw_selects_iff hplain hseek hl]
  constructor
  · rintro ⟨it', items, hnew', hdrains, hitems⟩
    cases hnew.symm.trans hnew'
    have hread : range.continueCondition.Readable (fromKey keys.raw.entries start) := by
      rw [← bounded_panics_iff pairwise_fromKey]
      by_contra hpanics
      rw [Bool.not_eq_false] at hpanics
      exact MemoryKeyspaceRangeIterator.not_drains (hstream.trans (Stream.ext rfl hpanics)) hdrains
    rw [bounded_eq hseek hread] at hstream
    exact ⟨hread, (MemoryKeyspaceRangeIterator.drains hstream).unique hdrains ▸ hitems⟩
  · rintro ⟨hread, hitems⟩
    rw [bounded_eq hseek hread] at hstream
    exact ⟨it, _, hnew, MemoryKeyspaceRangeIterator.drains hstream, hitems⟩

end Keyspaces

/-- The three readers of a range agree, on what the range says, exactly where it fits the keys. -/
theorem selectsAlike_iff (keys : KeySet) (range : KeyRange)
    (hplain : ∀ b, range.rangeStart ≠ .excludeFirstWithPrefix b) :
    keys.SelectsAlike range ↔ keys.RangeFits range := by
  constructor
  · rintro ⟨l, hl, hbuffer, hkeyspace, -⟩
    obtain ⟨hordered, hbounded⟩ := (buffer_selects_iff hl).mp hbuffer
    have hskips := fun k hk => bounded_iff_contains_at.mp (hbounded k hk)
    exact ⟨hordered, fun k hk => (hskips k hk).1, fun k hk => (hskips k hk).2,
      fun start hseek => (keyspace_selects_iff hplain hseek hl).mp hkeyspace⟩
  · intro h
    obtain ⟨l, hl⟩ := keys.exists_lists range
    obtain ⟨start, -, hseek, -⟩ := h.ordered
    have hraw := h.raw start hseek
    refine ⟨l, hl, (buffer_selects_iff hl).mpr ⟨h.ordered, fun k hk => ?_⟩,
      (keyspace_selects_iff hplain hseek hl).mpr hraw,
      (memory_selects_iff hplain hseek hl).mpr hraw⟩
    exact bounded_iff_contains_at.mpr ⟨h.start k hk, h.stop k hk⟩

def single (k : Bytes) (n : Nat) (hn : n < 2 ^ 64) : KeySet where
  buffer := WriteBuffer.new.insert k []
  raw := ⟨[(build k n .insert, [])], List.pairwise_singleton _ _⟩
  built := by
    intro p hp
    rw [List.mem_singleton.mp hp]
    exact ⟨k, n, .insert, hn, rfl⟩
  once := by
    intro p hp q hq _
    rw [List.mem_singleton.mp hp, List.mem_singleton.mp hq]
  same := by
    intro k'
    simp [WriteBuffer.writesGet, WriteBuffer.insert, WriteBuffer.new, OrderedMap.get?,
      OrderedMap.insert, OrderedMap.empty, OrderedMap.insertList, OrderedMap.getList, eq_comm]

def upToLast : KeyRange := ⟨.inclusive [1], .endPrefixInclusive [1, 255]⟩

/-- The incremented end of the buffer is `[2, 0]`, and the key `[2]` comes before it. -/
theorem single_not_selectsAlike : ¬ (single [2] 1 (by decide)).SelectsAlike upToLast := by
  rintro ⟨l, hl, hbuffer, -⟩
  have hhas : (single [2] 1 (by decide)).Has [2] :=
    ⟨_, mem_singleton_self _, key_build [2] 1 .insert⟩
  have hbounded : Bounded upToLast [2] :=
    ⟨⟨by decide, nofun⟩, .inr ⟨by decide, by decide, [2, 0], by decide, by decide⟩⟩
  have hcontains := (((buffer_selects_iff hl).mp hbuffer).2 [2] hhas).mp hbounded
  exact absurd hcontains (by decide)

/-- One key before the range, two in it, of which one begins with its end, and one behind it. -/
def around : KeySet where
  buffer := ⟨⟨[([0], .insert []), ([1, 3], .insert []), ([1, 255, 7], .insert []),
    ([3], .insert [])], by decide⟩⟩
  raw := ⟨[(build [0] 1 .insert, []), (build [1, 3] 1 .insert, []),
    (build [1, 255, 7] 1 .insert, []), (build [3] 1 .insert, [])], by decide⟩
  built := by
    simp only [forall_mem_cons]
    exact ⟨⟨[0], 1, .insert, by decide, rfl⟩, ⟨[1, 3], 1, .insert, by decide, rfl⟩,
      ⟨[1, 255, 7], 1, .insert, by decide, rfl⟩, ⟨[3], 1, .insert, by decide, rfl⟩, nofun⟩
  once := by decide +kernel
  same := by
    intro k
    simp only [writesGet, ← mem_entries]
    simp [eq_comm, exists_or]

theorem around_selectsAlike : around.SelectsAlike upToLast := by
  refine (selectsAlike_iff around upToLast (fun _ => by rintro ⟨⟩)).mpr ?_
  refine ⟨⟨[1], [2, 0], rfl, by decide, fun _ => ⟨by decide, by rintro ⟨⟩⟩⟩, fun k _ => by rintro ⟨⟩,
    fun k hk hskips => ?_, fun start hseek => ?_⟩
  · -- the key behind the range is behind the incremented end too
    obtain ⟨p, hp, rfl⟩ := hk
    obtain ⟨hlt, hnot, next, hnext, hle⟩ := hskips
    cases hnext
    have hstop : ∀ p ∈ around.raw.entries, key p.1 ≤ [1, 255] ∨ [1, 255] <+: key p.1 ∨
        [2, 0] < key p.1 := by decide +kernel
    rcases hstop p hp with h | h | h
    · exact absurd hlt h.not_gt
    · exact absurd h hnot
    · exact absurd hle h.not_gt
  · obtain rfl : start = [1] := (Option.some.inj hseek).symm
    have hread : ∀ p ∈ fromKey around.raw.entries [1],
        upToLast.continueCondition.acceptValue p.1 ≠ none := by decide +kernel
    have hsides : ∀ p ∈ around.raw.entries,
        ([1] ≤ p.1 ∧ upToLast.continueCondition.acceptValue p.1 = some true ↔
          upToLast.Contains (key p.1)) := by decide +kernel
    exact ⟨fun p hp hnone => absurd hnone (hread p hp), fun p hp _ => hsides p hp,
      by decide +kernel⟩

end KeySet

end TypeDB.Storage
