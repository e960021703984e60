import TypeDB.Foundations.Lex
import TypeDB.Storage.Operations
import TypeDB.Storage.RangeExact

/-! The writes a snapshot has made to a keyspace, and their part of a range of keys. A bound that
takes every key with a prefix is passed to the search tree as the incremented prefix; the keys
between the two are the ones it gets wrong. A panic is the outcome `none`. -/

namespace TypeDB.Storage
open ByteString OrderedMap RangeStart

namespace Write
variable {V : Type*}

def isDelete : Write V → Bool
  | .delete => true
  | _ => false

def getValue : Write V → Option V
  | .insert value => some value
  | .put value _ => some value
  | .delete => none

theorem getValue_eq_none {write : Write V} : write.getValue = none ↔ write.isDelete = true := by
  cases write <;> simp [getValue, isDelete]

end Write

structure WriteBuffer where
  writes : OrderedMap Bytes (Write Bytes)

variable (buffer : WriteBuffer)

namespace WriteBuffer

def new : WriteBuffer := ⟨OrderedMap.empty⟩

def insert (buffer : WriteBuffer) (key value : Bytes) : WriteBuffer :=
  ⟨buffer.writes.insert key (.insert value)⟩

def uninsert (key expectedValue : Bytes) : Option WriteBuffer :=
  match buffer.writes.get? key with
  | some (.insert value) =>
    if value = expectedValue then some ⟨buffer.writes.erase key⟩ else none
  | _ => none

def put (buffer : WriteBuffer) (key value : Bytes) : WriteBuffer :=
  ⟨buffer.writes.insert key (.put value false)⟩

def putExisting (key value : Bytes) : WriteBuffer :=
  ⟨buffer.writes.insert key (.put value true)⟩

def unput (key expectedValue : Bytes) : Option WriteBuffer :=
  match buffer.writes.get? key with
  | some (.put value _) =>
    if value = expectedValue then some ⟨buffer.writes.erase key⟩ else none
  | _ => none

def delete (buffer : WriteBuffer) (key : Bytes) : WriteBuffer :=
  ⟨buffer.writes.insert key .delete⟩

def writesGet (key : Bytes) : Option (Write Bytes) :=
  buffer.writes.get? key

end WriteBuffer

inductive BufferCall
  | insert (key value : Bytes)
  | uninsert (key expectedValue : Bytes)
  | put (key value : Bytes)
  | putExisting (key value : Bytes)
  | unput (key expectedValue : Bytes)
  | delete (key : Bytes)

namespace WriteBuffer

def call : BufferCall → Option WriteBuffer
  | .insert key value => some (buffer.insert key value)
  | .uninsert key expectedValue => buffer.uninsert key expectedValue
  | .put key value => some (buffer.put key value)
  | .putExisting key value => some (buffer.putExisting key value)
  | .unput key expectedValue => buffer.unput key expectedValue
  | .delete key => some (buffer.delete key)

def ofCalls (calls : List BufferCall) : Option WriteBuffer := calls.foldlM call new

def rangeStartAsBound : RangeStart → Option (Bound Bytes)
  | .inclusive b => some (.included b)
  | .excludeFirstWithPrefix b => some (.excluded b)
  | .excludePrefix b => (Lex.increment b).map .included

def computeExclusiveEnd (start : RangeStart) : RangeEnd → Option Bytes
  | .withinStartAsPrefix => Lex.increment start.getValue
  | .endPrefixInclusive value => Lex.increment value
  | .endPrefixExclusive value => some value
  | .unbounded => some []

def rangeEndAsBound (exclusiveEnd : Bytes) : RangeEnd → Bound Bytes
  | .unbounded => .unbounded
  | _ => .excluded exclusiveEnd

def writesIn (range : KeyRange) : Option (List (Bytes × Write Bytes)) := do
  let exclusiveEnd ← computeExclusiveEnd range.rangeStart range.rangeEnd
  let start ← rangeStartAsBound range.rangeStart
  buffer.writes.range start (rangeEndAsBound exclusiveEnd range.rangeEnd)

def anyNotDeletedInRange (range : KeyRange) : Option Bool :=
  (buffer.writesIn range).map fun writes => writes.any fun p => !p.2.isDelete

end WriteBuffer

structure BufferRangeIterator where
  inner : List (Bytes × Write Bytes)

namespace BufferRangeIterator

variable (it : BufferRangeIterator)

def peek : Option (Bytes × Write Bytes) := it.inner.head?

def next : Option (Bytes × Write Bytes) × BufferRangeIterator :=
  (it.inner.head?, ⟨it.inner.tail⟩)

def seek (target : Bytes) : BufferRangeIterator :=
  ⟨it.inner.dropWhile fun p => decide (p.1 < target)⟩

end BufferRangeIterator

def WriteBuffer.iterateRange (range : KeyRange) :
    Option BufferRangeIterator :=
  (buffer.writesIn range).map BufferRangeIterator.mk

def RangeStart.Skips : RangeStart → Bytes → Prop
  | .excludePrefix b, k => Lex.Skips b k
  | _, _ => False

def RangeEnd.Skips (start : Bytes) : RangeEnd → Bytes → Prop
  | .withinStartAsPrefix, k => Lex.Skips start k
  | .endPrefixInclusive e, k => Lex.Skips e k
  | _, _ => False

/-- The bounds have successors where they need them, and the start is not behind the end. -/
def KeyRange.Ordered (range : KeyRange) : Prop :=
  ∃ low high, range.rangeStart.seekBytes = some low ∧
    WriteBuffer.computeExclusiveEnd range.rangeStart range.rangeEnd = some high ∧
    (range.rangeEnd ≠ .unbounded → low ≤ high ∧
      (range.rangeStart = .excludeFirstWithPrefix low → low < high))

/-- A key that one bound skips is outside of the range by the other, or skipped by both. -/
structure KeyRange.BufferFits (range : KeyRange) : Prop where
  ordered : range.Ordered
  start : ∀ k, range.rangeStart.Skips k → ¬ range.rangeEnd.Admits range.rangeStart.getValue k
  stop : ∀ k, range.rangeEnd.Skips range.rangeStart.getValue k → range.rangeStart.Admits k →
    range.rangeStart.Skips k

namespace WriteBuffer
variable {range : KeyRange} {buffer : WriteBuffer} {k : Bytes} {l : List (Bytes × Write Bytes)}

def Bounded (range : KeyRange) (k : Bytes) : Prop :=
  (range.rangeStart.Admits k ∧ ¬ range.rangeStart.Skips k) ∧
    (range.rangeEnd.Admits range.rangeStart.getValue k ∨
      range.rangeEnd.Skips range.rangeStart.getValue k)

theorem above_iff {low : Bound Bytes} (h : rangeStartAsBound range.rangeStart = some low) :
    low.Above k ↔ range.rangeStart.Admits k ∧ ¬ range.rangeStart.Skips k := by
  cases hstart : range.rangeStart with
  | inclusive b | excludeFirstWithPrefix b =>
    rw [hstart] at h
    cases h
    simp [Bound.Above, Admits, Skips]
  | excludePrefix b =>
    rw [hstart] at h
    obtain ⟨b', hb', rfl⟩ := Option.map_eq_some_iff.mp h
    exact Lex.increment_le_iff_not_skips hb'

theorem below_iff {high : Bytes}
    (h : computeExclusiveEnd range.rangeStart range.rangeEnd = some high)
    (hadmits : range.rangeStart.Admits k) :
    (rangeEndAsBound high range.rangeEnd).Below k ↔
      range.rangeEnd.Admits range.rangeStart.getValue k ∨
        range.rangeEnd.Skips range.rangeStart.getValue k := by
  cases hend : range.rangeEnd with
  | withinStartAsPrefix =>
    rw [hend] at h
    have hle : range.rangeStart.getValue ≤ k := by
      cases hstart : range.rangeStart with
      | inclusive b =>
        rw [hstart] at hadmits
        exact hadmits
      | excludeFirstWithPrefix b =>
        rw [hstart] at hadmits
        exact le_of_lt hadmits
      | excludePrefix b =>
        rw [hstart] at hadmits
        exact hadmits.1.le
    have hpre : k ≤ range.rangeStart.getValue → range.rangeStart.getValue <+: k := fun hk =>
      le_antisymm hle hk ▸ List.prefix_refl _
    change k < high ↔ _
    rw [Lex.lt_increment_iff h, or_iff_right_of_imp hpre]
    rfl
  | endPrefixInclusive e =>
    rw [hend] at h
    exact Lex.lt_increment_iff h
  | endPrefixExclusive e =>
    rw [hend] at h
    cases h
    simp [rangeEndAsBound, Bound.Below, RangeEnd.Admits, RangeEnd.Skips]
  | unbounded => simp [rangeEndAsBound, Bound.Below, RangeEnd.Admits]

theorem writesIn_ne_none (buffer : WriteBuffer) (range : KeyRange) :
    buffer.writesIn range ≠ none ↔ range.Ordered := by
  rw [writesIn, KeyRange.Ordered]
  cases hend : computeExclusiveEnd range.rangeStart range.rangeEnd with
  | none => simp
  | some high =>
    cases hstart : range.rangeStart with
    | inclusive b =>
      cases range.rangeEnd <;>
        simp [seekBytes, rangeStartAsBound, OrderedMap.range, rangeEndAsBound, Bound.inverted]
    | excludeFirstWithPrefix b =>
      cases range.rangeEnd <;>
        simp [seekBytes, rangeStartAsBound, OrderedMap.range, rangeEndAsBound,
          Bound.inverted] <;> exact le_of_lt
    | excludePrefix b =>
      cases Lex.increment b <;> cases range.rangeEnd <;>
        simp [seekBytes, rangeStartAsBound, OrderedMap.range, rangeEndAsBound, Bound.inverted]

theorem writesIn_eq_some (h : buffer.writesIn range = some l) : (l.Pairwise fun a b => a.1 < b.1) ∧
      ∀ k w, getList k l = some w ↔ Bounded range k ∧ buffer.writesGet k = some w := by
  rw [writesIn] at h
  obtain ⟨high, hhigh, h⟩ := Option.bind_eq_some_iff.mp h
  obtain ⟨low, hlow, h⟩ := Option.bind_eq_some_iff.mp h
  rw [OrderedMap.range] at h
  split_ifs at h with hinv
  cases h
  refine ⟨buffer.writes.sorted.filter _, fun k w => ?_⟩
  rw [getList_filter fun k => decide (low.Above k ∧ _), Bounded, ← above_iff hlow, writesGet, get?]
  by_cases habove : low.Above k
  · rw [← below_iff hhigh ((above_iff hlow).mp habove).1]
    simp [habove]
  · simp [habove]

theorem writesIn_new (h : new.writesIn range = some l) : l = [] := by
  obtain ⟨hsorted, hget⟩ := writesIn_eq_some h
  refine List.eq_nil_iff_forall_not_mem.mpr fun ⟨k, write⟩ hmem => ?_
  cases ((hget k write).mp (getList_of_mem hsorted hmem)).2

end WriteBuffer

section Fits
variable {range : KeyRange} {k : Bytes}

theorem RangeStart.admits_of_skips {start : RangeStart} (h : start.Skips k) : start.Admits k := by
  cases start with
  | inclusive b | excludeFirstWithPrefix b => cases h
  | excludePrefix b => exact ⟨h.1, h.2.1⟩

theorem RangeEnd.not_admits_of_skips {start : Bytes} {stop : RangeEnd} (h : stop.Skips start k) :
    ¬ stop.Admits start k := by
  cases stop with
  | withinStartAsPrefix => exact h.2.1
  | endPrefixInclusive e => exact not_or.mpr ⟨not_le.mpr h.1, h.2.1⟩
  | endPrefixExclusive e | unbounded => cases h

theorem KeyRange.bounded_iff_contains_at : (WriteBuffer.Bounded range k ↔ range.Contains k) ↔
      (range.rangeStart.Skips k → ¬ range.rangeEnd.Admits range.rangeStart.getValue k) ∧
        (range.rangeEnd.Skips range.rangeStart.getValue k → range.rangeStart.Admits k →
          range.rangeStart.Skips k) := by
  constructor
  · refine fun h => ⟨fun hskips hadmits => ?_, fun hskips hadmits => ?_⟩
    · exact (h.mpr ⟨admits_of_skips hskips, hadmits⟩).1.2 hskips
    · by_contra hnot
      have hin := h.mp ⟨⟨hadmits, hnot⟩, .inr hskips⟩
      exact RangeEnd.not_admits_of_skips hskips hin.2
  · rintro ⟨hstart, hstop⟩
    constructor
    · rintro ⟨⟨hadmits, hnot⟩, hend | hend⟩
      · exact ⟨hadmits, hend⟩
      · exact absurd (hstop hend hadmits) hnot
    · rintro ⟨hadmits, hend⟩
      exact ⟨⟨hadmits, fun hskips => hstart hskips hend⟩, .inl hend⟩

theorem KeyRange.bounded_iff_contains : (∀ k, WriteBuffer.Bounded range k ↔ range.Contains k) ↔
      (∀ k, range.rangeStart.Skips k → ¬ range.rangeEnd.Admits range.rangeStart.getValue k) ∧
        ∀ k, range.rangeEnd.Skips range.rangeStart.getValue k → range.rangeStart.Admits k →
          range.rangeStart.Skips k := by
  simp only [bounded_iff_contains_at, forall_and]

end Fits

end TypeDB.Storage
