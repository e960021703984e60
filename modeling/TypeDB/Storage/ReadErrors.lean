import TypeDB.Foundations.Draining
import TypeDB.Storage.SnapshotIterator

/-! The iterators of a snapshot over a keyspace iterator that may fail. Both of them look for
their next item in a loop that goes on while there is a pair, and neither tells an error from the
end, so that a read that failed looks like one that is through. -/

namespace TypeDB.Storage.ReadErrors
open ByteString Draining List Option Overlay BufferRangeIterator Write MVCCKey

variable {ε : Type}

inductive MVCCReadError (ε : Type)
  | keyspace (source : ε)

inductive SnapshotIteratorError (ε : Type)
  | mvccRead (source : MVCCReadError ε)

/-- `iterator` is the peekable keyspace iterator, by what it still returns. -/
structure MVCCRangeIterator (ε : Type) where
  iterator : List (Except ε KeyValue)
  openSequenceNumber : Nat
  lastVisibleKey : Option Bytes
  item : Option (Except (MVCCReadError ε) KeyValue)

namespace MVCCRangeIterator

def new (iterator : List (Except ε KeyValue)) (openSequenceNumber : Nat) : MVCCRangeIterator ε :=
  ⟨iterator, openSequenceNumber, none, none⟩

/-- `find_next_state` on the fields that it changes. A panic is the outcome `none`. -/
def findNextState (openSequenceNumber : Nat) : Option Bytes → List (Except ε KeyValue) →
    Option (Bool × Option Bytes × List (Except ε KeyValue))
  | last, .ok (raw, value) :: rest =>
    if isVisibleTo raw openSequenceNumber && !decide (last = some (key raw)) then
      match operation raw with
      | none => none
      | some .insert => some (true, some (key raw), .ok (raw, value) :: rest)
      | some .delete => findNextState openSequenceNumber (some (key raw)) rest
    else findNextState openSequenceNumber last rest
  | last, results => some (false, last, results)

def next (it : MVCCRangeIterator ε) :
    Option (Option (Except (MVCCReadError ε) KeyValue) × MVCCRangeIterator ε) :=
  match it.item with
  | some item => some (some item, { it with item := none })
  | none => do
    let (found, last, iterator) ← findNextState it.openSequenceNumber it.lastVisibleKey it.iterator
    let it := { it with iterator := iterator, lastVisibleKey := last }
    if found then
      let taken := { it with iterator := iterator.tail }
      match iterator.head? with
      | none => some (none, taken)
      | some (.ok (raw, value)) => some (some (.ok (key raw, value)), taken)
      | some (.error error) => some (some (.error (.keyspace error)), taken)
    else some (none, it)

def peek (it : MVCCRangeIterator ε) :
    Option (Option (Except (MVCCReadError ε) KeyValue) × MVCCRangeIterator ε) :=
  match it.item with
  | some item => some (some item, it)
  | none => do
    let (item, it) ← it.next
    some (item, { it with item := item })

end MVCCRangeIterator

structure SnapshotRangeIterator (ε : Type) where
  storageIterator : MVCCRangeIterator ε
  bufferedIterator : Option BufferRangeIterator
  readyItemSource : Option ReadyItemSource

namespace SnapshotRangeIterator

def new (mvccIterator : MVCCRangeIterator ε) (bufferedIterator : Option BufferRangeIterator) :
    SnapshotRangeIterator ε := ⟨mvccIterator, bufferedIterator, none⟩

variable (it : SnapshotRangeIterator ε)

def skipBuffered : SnapshotRangeIterator ε :=
  { it with bufferedIterator := it.bufferedIterator.map fun iter => iter.next.2 }

def findBuffered : SnapshotRangeIterator ε :=
  match it.bufferedIterator with
  | none => it
  | some iter =>
    let iter := ⟨iter.inner.dropWhile fun p => p.2.isDelete⟩
    { it with
      bufferedIterator := some iter
      readyItemSource := if iter.peek.isSome then some .buffered else none }

/-- The loop of `find_next_state`; every round but the last skips a buffered delete. -/
def findNextState : Nat → SnapshotRangeIterator ε → Option (SnapshotRangeIterator ε)
  | 0, it => some it
  | fuel + 1, it => do
    let (peeked, storageIterator) ← it.storageIterator.peek
    let it := { it with storageIterator := storageIterator }
    match peeked with
    | some (.ok (storageKey, _)) =>
      match it.bufferedIterator.bind peek with
      | none => some { it with readyItemSource := some .storage }
      | some (bufferedKey, bufferedWrite) =>
        if bufferedKey < storageKey then
          if bufferedWrite.isDelete then findNextState fuel it.skipBuffered
          else some { it with readyItemSource := some .buffered }
        else if bufferedKey = storageKey then
          if bufferedWrite.isDelete then do
            let (_, storageIterator) ← it.storageIterator.next
            findNextState fuel { it with storageIterator := storageIterator }.skipBuffered
          else some { it with readyItemSource := some .both }
        else some { it with readyItemSource := some .storage }
    -- an error here is taken for the end
    | _ => some it.findBuffered

def writes : List (Bytes × Write Bytes) :=
  it.bufferedIterator.elim [] inner

def rounds : Nat := it.writes.length + 1

def prepare : Option (SnapshotRangeIterator ε) :=
  match it.readyItemSource with
  | none => it.findNextState it.rounds
  | some _ => some it

def storageNext :
    Option (Option (Except (SnapshotIteratorError ε) KeyValue) × SnapshotRangeIterator ε) := do
  let (item, storageIterator) ← it.storageIterator.next
  let taken := { it with storageIterator := storageIterator }
  match item with
  | none => some (none, taken)
  | some (.ok item) => some (some (.ok item), taken)
  | some (.error error) => some (some (.error (.mvccRead error)), taken)

def bufferedNext :
    Option (Option (Except (SnapshotIteratorError ε) KeyValue) × SnapshotRangeIterator ε) := do
  let iter ← it.bufferedIterator
  match iter.peek with
  | none => some (none, it.skipBuffered)
  | some (key, write) => do
    let value ← write.getValue
    some (some (.ok (key, value)), it.skipBuffered)

def next :
    Option (Option (Except (SnapshotIteratorError ε) KeyValue) × SnapshotRangeIterator ε) := do
  let it ← it.prepare
  let taken := { it with readyItemSource := none }
  match it.readyItemSource with
  | some .both => do
    let (_, taken) ← taken.storageNext
    taken.bufferedNext
  | some .storage => taken.storageNext
  | some .buffered => taken.bufferedNext
  | none => some (none, taken)

end SnapshotRangeIterator

/-- Whoever drains the iterator is given every error and every visible pair. -/
def Reports {σ E : Type*} (next : σ → Option (Option (Except E KeyValue) × σ)) (it : σ)
    (wrap : ε → E) (results : List (Except ε KeyValue)) (visible : Bytes → Bytes → Prop) : Prop :=
  ∃ items, Drains next it items ∧ (∀ e, .error e ∈ results → .error (wrap e) ∈ items) ∧
    ∀ k v, visible k v → .ok (k, v) ∈ items

theorem reports_iff {σ E : Type*} {next : σ → Option (Option (Except E KeyValue) × σ)} {it : σ}
    {l : List KeyValue} (h : Drains next it (l.map .ok)) {wrap : ε → E}
    {results : List (Except ε KeyValue)} {visible : Bytes → Bytes → Prop} :
    Reports next it wrap results visible ↔
      (∀ e, .error e ∉ results) ∧ ∀ k v, visible k v → (k, v) ∈ l := by
  constructor
  · rintro ⟨items, hitems, herror, hvisible⟩
    obtain rfl := hitems.unique h
    refine ⟨fun e he => ?_, fun k v hv => ?_⟩
    · obtain ⟨p, -, hp⟩ := mem_map.mp (herror e he)
      cases hp
    · obtain ⟨q, hq, heq⟩ := mem_map.mp (hvisible k v hv)
      cases heq
      exact hq
  · rintro ⟨herror, hvisible⟩
    exact ⟨_, h, fun e he => absurd he (herror e), fun k v hv => mem_map_of_mem (hvisible k v hv)⟩

def untilError : List (Except ε KeyValue) → List KeyValue
  | .ok p :: rest => p :: untilError rest
  | _ => []

def pairs (results : List (Except ε KeyValue)) : List KeyValue :=
  results.filterMap Except.toOption

theorem untilError_eq_pairs {results : List (Except ε KeyValue)}
    (h : ∀ e, .error e ∉ results) : untilError results = pairs results := by
  induction results with
  | nil => rfl
  | cons r results ih =>
    cases r with
    | ok p => rw [untilError, ih fun e he => h e (mem_cons_of_mem _ he)]; rfl
    | error e => exact absurd mem_cons_self (h e)

namespace MVCCRangeIterator

def Built (results : List (Except ε KeyValue)) : Prop :=
  ∀ p, .ok p ∈ results → operation p.1 ≠ none

inductive Before (it : MVCCRangeIterator ε) : List KeyValue → Prop
  | ready (hitem : it.item = none) (hbuilt : Built it.iterator) :
      Before it (pick it.openSequenceNumber it.lastVisibleKey (untilError it.iterator))
  | peeked (o : KeyValue) (hitem : it.item = some (.ok o)) (hbuilt : Built it.iterator)
      (hlast : it.lastVisibleKey = some o.1) :
      Before it (o :: pick it.openSequenceNumber (some o.1) (untilError it.iterator))

inductive Stopped (s : Nat) : List KeyValue →
    Option (Bool × Option Bytes × List (Except ε KeyValue)) → Prop
  | ended (last : Option Bytes) (results : List (Except ε KeyValue)) (hbuilt : Built results)
      (hend : untilError results = []) : Stopped s [] (some (false, last, results))
  | found (raw value : Bytes) (rest : List (Except ε KeyValue)) (hbuilt : Built rest) :
      Stopped s ((key raw, value) :: pick s (some (key raw)) (untilError rest))
        (some (true, some (key raw), .ok (raw, value) :: rest))

theorem findNextState_stopped (s : Nat) (last : Option Bytes) {results : List (Except ε KeyValue)}
    (hbuilt : Built results) :
    Stopped s (pick s last (untilError results)) (findNextState s last results) := by
  induction results generalizing last with
  | nil => exact .ended last [] hbuilt rfl
  | cons r rest ih =>
    have hrest : Built rest := fun p hp => hbuilt p (mem_cons_of_mem _ hp)
    cases r with
    | error e => exact .ended last _ hbuilt rfl
    | ok p =>
      obtain ⟨raw, value⟩ := p
      have hop := hbuilt (raw, value) mem_cons_self
      rw [findNextState, untilError, pick]
      split_ifs with hvisible hinsert
      · rw [hinsert]
        exact .found raw value rest hrest
      · cases hoperation : operation raw with
        | none => exact absurd hoperation hop
        | some operation =>
          cases operation with
          | insert => exact absurd hoperation hinsert
          | delete => exact ih _ hrest
      · exact ih _ hrest

theorem Before.next {it : MVCCRangeIterator ε} {l : List KeyValue} (h : it.Before l) :
    ∃ it', it.next = some (l.head?.map .ok, it') ∧ it'.Before l.tail ∧ it'.item = none ∧
      ∀ o ∈ l.head?, it'.lastVisibleKey = some o.1 := by
  obtain ⟨iterator, s, last, item⟩ := it
  cases h with
  | ready hitem hbuilt =>
    obtain rfl : item = none := hitem
    have hstop := findNextState_stopped s last hbuilt
    simp only [MVCCRangeIterator.next]
    generalize findNextState s last iterator = result at hstop
    generalize pick s last (untilError iterator) = l at hstop
    cases hstop with
    | ended last' results hbuilt' hend =>
      refine ⟨⟨results, s, last', none⟩, rfl, ?_, rfl, by simp⟩
      have hbefore : Before ⟨results, s, last', none⟩ _ := .ready rfl hbuilt'
      rwa [hend] at hbefore
    | found raw value rest hbuilt' =>
      exact ⟨⟨rest, s, some (key raw), none⟩, rfl, .ready rfl hbuilt', rfl, by simp⟩
  | peeked o hitem hbuilt hlast =>
    obtain rfl : item = some (.ok o) := hitem
    obtain rfl : last = some o.1 := hlast
    exact ⟨⟨iterator, s, some o.1, none⟩, rfl, .ready rfl hbuilt, rfl, by simp⟩

theorem Before.peek {it : MVCCRangeIterator ε} {l : List KeyValue} (h : it.Before l) :
    ∃ it', it.peek = some (l.head?.map .ok, it') ∧ it'.Before l := by
  rw [MVCCRangeIterator.peek]
  cases hitem : it.item with
  | some item =>
    cases h with
    | ready hitem' => cases hitem.symm.trans hitem'
    | peeked o hitem' hbuilt hlast =>
      cases hitem.symm.trans hitem'
      exact ⟨it, rfl, .peeked o hitem' hbuilt hlast⟩
  | none =>
    obtain ⟨⟨iterator, s, last, item⟩, hnext, htail, rfl, hlast⟩ := h.next
    rw [hnext]
    refine ⟨_, rfl, ?_⟩
    cases l with
    | nil => exact htail
    | cons o l =>
      obtain rfl : last = some o.1 := hlast o rfl
      cases htail with
      | ready _ hbuilt => exact .peeked o rfl hbuilt rfl
      | peeked o' hitem' => cases hitem'

end MVCCRangeIterator

namespace SnapshotRangeIterator

/-- The iterator stands before the visible pairs up to the next error and the buffered writes. -/
structure Tracks (it : SnapshotRangeIterator ε) (b : List (Bytes × Write Bytes))
    (l : List KeyValue) : Prop where
  storage : it.storageIterator.Before l
  buffered : it.writes = b
  ready : SourceReady it.readyItemSource b l

variable {it : SnapshotRangeIterator ε} {b : List (Bytes × Write Bytes)} {l : List KeyValue}

theorem writes_skipBuffered (it : SnapshotRangeIterator ε) :
    it.skipBuffered.writes = it.writes.tail := by
  rw [writes, writes, skipBuffered]
  cases it.bufferedIterator <;> rfl

theorem peek_writes (it : SnapshotRangeIterator ε) :
    it.bufferedIterator.bind peek = it.writes.head? := by
  rw [writes]
  cases it.bufferedIterator <;> rfl

theorem Tracks.findBuffered (h : it.Tracks b []) (hready : it.readyItemSource = none) :
    ∃ b', it.findBuffered.Tracks b' [] ∧
      overlay getValue b' ([] : List KeyValue) = overlay getValue b [] ∧
      (it.findBuffered.readyItemSource = none → b' = []) := by
  obtain ⟨storage, buffered, source⟩ := it
  obtain rfl : source = none := hready
  obtain ⟨hstorage, rfl, -⟩ := h
  cases buffered with
  | none => exact ⟨[], ⟨hstorage, rfl, .none _ _⟩, rfl, fun _ => rfl⟩
  | some iter =>
    obtain ⟨hready, hend⟩ := sourceReady_dropWhile iter.inner
    exact ⟨_, ⟨hstorage, rfl, hready⟩, overlay_skip_deletes _, hend⟩

theorem findNextState_tracks {fuel : Nat} (h : it.Tracks b l) (hready : it.readyItemSource = none)
    (hfuel : b.length < fuel) :
    ∃ it' b' l', it.findNextState fuel = some it' ∧ it'.Tracks b' l' ∧
      overlay getValue b' l' = overlay getValue b l ∧
      (it'.readyItemSource = none → b' = [] ∧ l' = []) := by
  induction fuel generalizing it b l with
  | zero => exact absurd hfuel (Nat.not_lt_zero _)
  | succ fuel ih =>
    obtain ⟨storage, hpeek, hstorage⟩ := h.storage.peek
    rw [findNextState, hpeek]
    simp only [bind_eq_bind, bind_some]
    cases l with
    | nil =>
      have htracks : Tracks { it with storageIterator := storage } b [] :=
        ⟨hstorage, h.buffered, h.ready⟩
      obtain ⟨b', htracks', hover, hend⟩ := htracks.findBuffered hready
      exact ⟨_, b', [], rfl, htracks', hover, fun hnone => ⟨hend hnone, rfl⟩⟩
    | cons q l =>
      have hwrites := peek_writes { it with storageIterator := storage }
      rw [show writes { it with storageIterator := storage } = b from h.buffered] at hwrites
      simp only [head?_cons, map_some]
      simp only [hwrites]
      cases b with
      | nil =>
        exact ⟨_, [], q :: l, rfl, ⟨hstorage, h.buffered, .storage [] q l (by simp)⟩, rfl, nofun⟩
      | cons p b =>
        have hlength : b.length < fuel := Nat.lt_of_succ_lt_succ hfuel
        simp only [head?_cons]
        split_ifs with hlt hdelete heq hdelete
        · -- a delete of a key that is not stored
          have htracks : Tracks (skipBuffered { it with storageIterator := storage }) b (q :: l) :=
            ⟨hstorage, (writes_skipBuffered _).trans (congrArg tail h.buffered),
              hready ▸ .none _ _⟩
          obtain ⟨it', b', l', hfind, htracks', hover, hend⟩ := ih htracks hready hlength
          refine ⟨it', b', l', hfind, htracks', ?_, hend⟩
          rw [hover, overlay_skip hdelete]
          simpa using hlt
        · exact ⟨_, p :: b, q :: l, rfl,
            ⟨hstorage, h.buffered, .of_lt hdelete (by simpa using hlt)⟩, rfl, nofun⟩
        · -- a delete of the stored key
          obtain ⟨storage', hnext, hstorage', -, -⟩ := hstorage.next
          have htracks : Tracks (skipBuffered { it with storageIterator := storage' }) b l :=
            ⟨hstorage', (writes_skipBuffered _).trans (congrArg tail h.buffered),
              hready ▸ .none _ _⟩
          obtain ⟨it', b', l', hfind, htracks', hover, hend⟩ := ih htracks hready hlength
          rw [hnext]
          refine ⟨it', b', l', hfind, htracks', ?_, hend⟩
          rw [hover, overlay_skip_both hdelete heq]
        · exact ⟨_, p :: b, q :: l, rfl, ⟨hstorage, h.buffered, .of_eq hdelete heq⟩, rfl, nofun⟩
        · exact ⟨_, p :: b, q :: l, rfl, ⟨hstorage, h.buffered, .of_ge hlt heq⟩, rfl, nofun⟩

theorem prepare_tracks (h : it.Tracks b l) : ∃ it' b' l', it.prepare = some it' ∧ it'.Tracks b' l' ∧
      overlay getValue b' l' = overlay getValue b l ∧
      (it'.readyItemSource = none → b' = [] ∧ l' = []) := by
  rw [prepare]
  cases hready : it.readyItemSource with
  | none =>
    refine findNextState_tracks h hready ?_
    rw [rounds, h.buffered]
    exact Nat.lt_succ_self _
  | some source => exact ⟨it, b, l, rfl, h, rfl, by simp [hready]⟩

def Before (it : SnapshotRangeIterator ε) (o : List KeyValue) : Prop :=
  ∃ b l, it.Tracks b l ∧ overlay Write.getValue b l = o

theorem bufferedNext_eq {k v : Bytes} {write : Write Bytes}
    (h : it.writes = (k, write) :: b) (hv : write.getValue = some v) :
    it.bufferedNext = some (some (.ok (k, v)), it.skipBuffered) := by
  rw [writes] at h
  rw [bufferedNext]
  cases hbuffered : it.bufferedIterator with
  | none => simp [hbuffered] at h
  | some iter =>
    rw [hbuffered] at h
    have hinner : iter.inner = (k, write) :: b := h
    simp [peek, hinner, hv]

theorem Before.next {o : List KeyValue} (h : it.Before o) :
    ∃ it', it.next = some (o.head?.map .ok, it') ∧ it'.Before o.tail := by
  obtain ⟨b, l, htracks, rfl⟩ := h
  obtain ⟨⟨storage, buffered, source⟩, b', l', hprepare, htracks', hover, hend⟩ :=
    prepare_tracks htracks
  obtain ⟨hstorage, hbuffered, hready⟩ := htracks'
  rw [SnapshotRangeIterator.next, hprepare, ← hover]
  simp only [bind_eq_bind, bind_some]
  have hskip : ∀ storage' : MVCCRangeIterator ε,
      (skipBuffered ⟨storage', buffered, none⟩).writes = b'.tail := fun storage' =>
    (writes_skipBuffered _).trans (congrArg tail hbuffered)
  cases hready with
  | none =>
    obtain ⟨rfl, rfl⟩ := hend rfl
    rw [overlay_nil_left]
    exact ⟨_, rfl, [], [], ⟨hstorage, hbuffered, .none _ _⟩, overlay_nil_left⟩
  | storage _ q l hlt =>
    obtain ⟨storage', hnext, hstorage', -, -⟩ := hstorage.next
    rw [overlay_storage hlt]
    simp only [storageNext, hnext, bind_eq_bind, bind_some]
    exact ⟨_, rfl, b', l, ⟨hstorage', hbuffered, .none _ _⟩, rfl⟩
  | buffered k write v b l hv hlt =>
    rw [overlay_buffered hv hlt]
    exact ⟨_, bufferedNext_eq hbuffered hv, b, l', ⟨hstorage, hskip storage, .none _ _⟩, rfl⟩
  | both k write v w b l hv =>
    obtain ⟨storage', hnext, hstorage', -, -⟩ := hstorage.next
    rw [overlay_both hv]
    refine ⟨skipBuffered ⟨storage', buffered, none⟩, ?_, b, l,
      ⟨hstorage', hskip storage', .none _ _⟩, rfl⟩
    simp only [storageNext, hnext, bind_eq_bind, bind_some]
    exact bufferedNext_eq hbuffered hv

end SnapshotRangeIterator

structure Reading (ε : Type) where
  results : List (Except ε KeyValue)
  buffered : Option BufferRangeIterator
  built : MVCCRangeIterator.Built results
  ordered : (pairs results).Pairwise VersionStore.After
  sorted : ∀ iter ∈ buffered, iter.inner.Pairwise fun a b => a.1 < b.1

namespace Reading
variable (reading : Reading ε) (s : Nat)

def mvccIterator : MVCCRangeIterator ε := .new reading.results s

def snapshotIterator : SnapshotRangeIterator ε := .new (reading.mvccIterator s) reading.buffered

def writes : List (Bytes × Write Bytes) := reading.buffered.elim [] inner

def Sees (k v : Bytes) : Prop := shown s (pairs reading.results) k = some v

def Shows (k v : Bytes) : Prop :=
  match OrderedMap.getList k reading.writes with
  | some write => write.getValue = some v
  | none => reading.Sees s k v

theorem mvcc_drains : Drains MVCCRangeIterator.next (reading.mvccIterator s)
    ((pick s none (untilError reading.results)).map .ok) := by
  have hbefore : (reading.mvccIterator s).Before _ := .ready rfl reading.built
  refine drains_of_before (fun it l h => ?_) hbefore
  obtain ⟨it', hnext, htail, -, -⟩ := MVCCRangeIterator.Before.next h
  exact ⟨it', hnext, htail⟩

theorem snapshot_drains : Drains SnapshotRangeIterator.next (reading.snapshotIterator s)
    ((overlay getValue reading.writes (pick s none (untilError reading.results))).map .ok) := by
  refine drains_of_before (fun it l h => SnapshotRangeIterator.Before.next h) ?_
  exact ⟨_, _, ⟨.ready rfl reading.built, rfl, .none _ _⟩, rfl⟩

theorem sees_iff_mem {k v : Bytes} :
    reading.Sees s k v ↔ (k, v) ∈ pick s none (pairs reading.results) := by
  have hne : (none : Option Bytes) ≠ some k := nofun
  have hlast : ∀ k₀, (none : Option Bytes) = some k₀ →
      ∀ p ∈ pairs reading.results, k₀ ≤ key p.1 := nofun
  rw [mem_pick_iff reading.ordered hlast, and_iff_right hne]
  rfl

theorem shows_iff_mem {k v : Bytes} : reading.Shows s k v ↔
    (k, v) ∈ overlay getValue reading.writes (pick s none (pairs reading.results)) := by
  have hwrites : reading.writes.Pairwise fun a b => a.1 < b.1 := by
    rw [writes]
    cases hbuffered : reading.buffered with
    | none => exact .nil
    | some iter => exact reading.sorted iter hbuffered
  rw [mem_overlay hwrites (pairwise_pick reading.ordered), Seen, Shows]
  cases OrderedMap.getList k reading.writes with
  | some write => rfl
  | none => exact reading.sees_iff_mem s

/-- Errors reach the consumer of either iterator exactly where there are none. -/
theorem errors_returned_iff :
    (Reports MVCCRangeIterator.next (reading.mvccIterator s) .keyspace reading.results
        (reading.Sees s) ∧
      Reports SnapshotRangeIterator.next (reading.snapshotIterator s)
        (fun e => .mvccRead (.keyspace e)) reading.results (reading.Shows s)) ↔
      ∀ e, .error e ∉ reading.results := by
  rw [reports_iff (reading.mvcc_drains s), reports_iff (reading.snapshot_drains s)]
  refine ⟨fun h => h.1.1, fun herror => ?_⟩
  rw [untilError_eq_pairs herror]
  exact ⟨⟨herror, fun k v => (reading.sees_iff_mem s).mp⟩,
    ⟨herror, fun k v => (reading.shows_iff_mem s).mp⟩⟩

end Reading

def failing : Reading Unit where
  results := [.ok (build [1] 1 .insert, [7]), .error (),
    .ok (build [2] 1 .insert, [8])]
  buffered := some ⟨[([3], .put [9] false)]⟩
  built := by
    intro p hp
    simp only [mem_cons, Except.ok.injEq, reduceCtorEq, not_mem_nil, or_false,
      false_or] at hp
    rcases hp with rfl | rfl <;> simp
  ordered := pairwise_pair.mpr (.inl (by simp only [key_build]; decide))
  sorted := by
    intro iter hiter
    obtain rfl := Option.some.inj hiter
    exact pairwise_singleton _ _

theorem pick_failing : pick 1 none (untilError failing.results) = [([1], [7])] := by
  decide +kernel

/-- The consumer is given the pair before the failed read and what is buffered, and neither the
error nor the pair behind it. -/
theorem failing_swallowed :
    (Drains MVCCRangeIterator.next (failing.mvccIterator 1) [.ok ([1], [7])] ∧
      ¬ Reports MVCCRangeIterator.next (failing.mvccIterator 1) .keyspace failing.results
        (failing.Sees 1)) ∧
    Drains SnapshotRangeIterator.next (failing.snapshotIterator 1)
        [.ok ([1], [7]), .ok ([3], [9])] ∧
      ¬ Reports SnapshotRangeIterator.next (failing.snapshotIterator 1)
        (fun e => .mvccRead (.keyspace e)) failing.results (failing.Shows 1) := by
  have hmvcc := failing.mvcc_drains 1
  have hsnapshot := failing.snapshot_drains 1
  have herror : ¬ ∀ e, .error e ∉ failing.results := fun h =>
    h () (mem_cons_of_mem _ mem_cons_self)
  refine ⟨⟨?_, fun h => herror ((reports_iff hmvcc).mp h).1⟩, ?_,
    fun h => herror ((reports_iff hsnapshot).mp h).1⟩
  · rwa [pick_failing] at hmvcc
  · have hwrites : failing.writes = [([3], .put [9] false)] := rfl
    have hlt : (([1], [7]) : KeyValue).1 < (([3], .put [9] false) : Bytes × Write Bytes).1 := by
      decide
    rwa [pick_failing, hwrites, overlay_of_gt hlt, overlay_nil_right, overlay_nil_left]
      at hsnapshot

end TypeDB.Storage.ReadErrors
