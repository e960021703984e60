import TypeDB.Storage.RangeIterator

/-! What remains of the iterators when their states are forgotten: the list of the items still
to come, and whether a panic waits at its end. A forward seek starts a new list, and each
iterator is shown to follow its list through every call. -/

namespace TypeDB.Storage
open ByteString List Option MVCCRangeIterator DBIterator ContinueCondition MVCCKey

def DBIterator.remaining (it : DBIterator) : List KeyValue :=
  match it.state with
  | .none => it.cursor.tail
  | .some _ => it.cursor
  | .finished => []

def DBIterator.WellFormed (it : DBIterator) : Prop :=
  ∀ item, it.state = .some item → it.cursor.head? = some item

section Raw
variable {it : DBIterator}

theorem DBIterator.recordIteratorState_spec (it : DBIterator) :
    it.recordIteratorState.WellFormed ∧ it.recordIteratorState.remaining = it.cursor ∧
      it.recordIteratorState.entries = it.entries := by
  cases hc : it.cursor with
  | nil | cons item rest => simp [recordIteratorState, WellFormed, remaining, hc]

theorem DBIterator.newFrom_spec (entries : List KeyValue) (start : Bytes) :
    (newFrom entries start).WellFormed ∧
      (newFrom entries start).remaining = entries.dropWhile (fun p => decide (p.1 < start)) ∧
      (newFrom entries start).entries = entries :=
  recordIteratorState_spec _

theorem DBIterator.nextInternal_spec (h : it.WellFormed) :
    match it.remaining with
    | [] => it.nextInternal.1 = .finished ∧ it.nextInternal.2.remaining = []
    | item :: rest => it.nextInternal.1 = .some item ∧ it.nextInternal.2.remaining = rest ∧
        it.nextInternal.2.cursor = item :: rest := by
  obtain ⟨entries, cursor, state⟩ := it
  cases state with
  | none =>
    cases hc : cursor.tail with
    | nil | cons item rest => simp [remaining, nextInternal, recordIteratorState, hc,
        IteratorItemState.takeValueElseRetain]
  | some item =>
    have hhead : cursor.head? = some item := h item rfl
    obtain ⟨rest, rfl⟩ := head?_eq_some_iff.mp hhead
    simp [remaining, nextInternal, IteratorItemState.takeValueElseRetain]
  | finished => simp [remaining, nextInternal, IteratorItemState.takeValueElseRetain]

theorem DBIterator.nextInternal_entries (it : DBIterator) :
    it.nextInternal.2.entries = it.entries ∧ it.nextInternal.2.WellFormed := by
  obtain ⟨entries, cursor, state⟩ := it
  cases state with
  | none =>
    cases hc : cursor.tail with
    | nil => simp [nextInternal, recordIteratorState, hc, IteratorItemState.takeValueElseRetain,
        WellFormed]
    | cons item rest => simp [nextInternal, recordIteratorState, hc,
        IteratorItemState.takeValueElseRetain, WellFormed]
  | some item | finished => simp [nextInternal, IteratorItemState.takeValueElseRetain, WellFormed]

theorem DBIterator.next_spec (h : it.WellFormed) :
    it.next.1 = it.remaining.head? ∧ it.next.2.remaining = it.remaining.tail ∧
      it.next.2.entries = it.entries ∧ it.next.2.WellFormed := by
  have hspec := nextInternal_spec h
  obtain ⟨hentries, hwf⟩ := it.nextInternal_entries
  cases hr : it.remaining with
  | nil =>
    rw [hr] at hspec
    exact ⟨by simp [next, hspec.1, IteratorItemState.item], hspec.2, hentries, hwf⟩
  | cons item rest =>
    rw [hr] at hspec
    exact ⟨by simp [next, hspec.1, IteratorItemState.item], hspec.2.1, hentries, hwf⟩

theorem DBIterator.peek_spec (h : it.WellFormed) :
    it.peek.1 = it.remaining.head? ∧ it.peek.2.remaining = it.remaining ∧
      it.peek.2.entries = it.entries ∧ it.peek.2.WellFormed := by
  have hspec := nextInternal_spec h
  obtain ⟨hentries, -⟩ := it.nextInternal_entries
  cases hr : it.remaining with
  | nil =>
    rw [hr] at hspec
    refine ⟨by simp [peek, hspec.1, IteratorItemState.item], ?_, hentries, ?_⟩
    · simp [peek, hspec.1, remaining]
    · simp [peek, hspec.1, WellFormed]
  | cons item rest =>
    rw [hr] at hspec
    refine ⟨by simp [peek, hspec.1, IteratorItemState.item], ?_, hentries, ?_⟩
    · simp [peek, hspec.1, remaining, hspec.2.2]
    · simp [peek, hspec.1, WellFormed, hspec.2.2]

theorem DBIterator.seek_spec (hstate : it.state = .none) (key : Bytes) :
    ∃ it', it.seek key = some it' ∧ it'.WellFormed ∧ it'.entries = it.entries ∧
      it'.remaining = it.entries.dropWhile fun p => decide (p.1 < key) := by
  obtain ⟨hwf, hrem, hentries⟩ := (it.rawSeek key).recordIteratorState_spec
  exact ⟨_, by simp [seek, hstate], hwf, hentries, hrem⟩

theorem DBIterator.next_state (h : it.WellFormed) (hne : it.remaining ≠ []) :
    it.next.2.state = .none := by
  obtain ⟨entries, cursor, state⟩ := it
  cases state with
  | none =>
    cases hc : cursor.tail with
    | nil => simp [remaining, hc] at hne
    | cons item rest => simp [next, nextInternal, recordIteratorState, hc,
        IteratorItemState.takeValueElseRetain]
  | some item => simp [next, nextInternal, IteratorItemState.takeValueElseRetain]
  | finished => simp [remaining] at hne

end Raw

@[ext] structure Stream where
  outs : List KeyValue
  panics : Bool
  deriving DecidableEq

def ContinueCondition.bounded (cond : ContinueCondition) : List KeyValue → Stream
  | [] => ⟨[], false⟩
  | item :: rest =>
    match cond.acceptValue item.1 with
    | none => ⟨[], true⟩
    | some false => ⟨[], false⟩
    | some true => ⟨item :: (cond.bounded rest).outs, (cond.bounded rest).panics⟩

/-- The visible versions among the raw pairs; `last` is the key whose version was seen last. -/
def pick (s : Nat) : Option Bytes → List KeyValue → List KeyValue
  | _, [] => []
  | last, item :: rest =>
    if isVisibleTo item.1 s && !decide (last = some (key item.1)) then
      if operation item.1 = some .insert then
        (key item.1, item.2) :: pick s (some (key item.1)) rest
      else pick s (some (key item.1)) rest
    else pick s last rest

def Stream.picked (s : Nat) (last : Option Bytes) (st : Stream) : Stream :=
  ⟨pick s last st.outs, st.panics⟩

theorem ContinueCondition.length_bounded (cond : ContinueCondition) (l : List KeyValue) :
    (cond.bounded l).outs.length ≤ l.length := by
  induction l with
  | nil => simp [bounded]
  | cons item rest ih =>
    rw [bounded]
    split <;> simp [ih]

theorem ContinueCondition.mem_of_mem_bounded {cond : ContinueCondition} {l : List KeyValue}
    {p : KeyValue} (h : p ∈ (cond.bounded l).outs) : p ∈ l := by
  induction l with
  | nil => simp [bounded] at h
  | cons item rest ih =>
    rw [bounded] at h
    split at h
    · cases h
    · cases h
    · rcases mem_cons.mp h with rfl | h
      · exact mem_cons_self
      · exact mem_cons_of_mem _ (ih h)

def KeyspaceRangeIterator.stream (it : KeyspaceRangeIterator) : Stream :=
  if it.isFinished then ⟨[], false⟩ else it.continueCondition.bounded it.iterator.remaining

section Range
variable {entries : List KeyValue} {cond : ContinueCondition}

/-- The range iterator over `entries` has the items of `st` before it. -/
structure KeyspaceRangeIterator.Reads (entries : List KeyValue) (cond : ContinueCondition)
    (it : KeyspaceRangeIterator) (st : Stream) : Prop where
  wellFormed : it.iterator.WellFormed
  entries_eq : it.iterator.entries = entries
  condition : it.continueCondition = cond
  stream_eq : it.stream = st
  mem : ∀ p ∈ st.outs, p ∈ entries
  length_le : st.outs.length ≤ entries.length

def KeyspaceRangeIterator.Positioned (it : KeyspaceRangeIterator) : Prop :=
  it.isFinished = false ∧ it.iterator.state = .none

namespace KeyspaceRangeIterator
variable {it : KeyspaceRangeIterator} {b : Bool} {item : KeyValue} {rest : List KeyValue}

theorem Reads.next_panics (h : it.Reads entries cond ⟨[], true⟩) : it.next = none := by
  have hst := h.stream_eq
  obtain ⟨hnext, -, -, -⟩ := next_spec h.wellFormed
  rw [stream] at hst
  split_ifs at hst with hf
  · cases hst
  · cases hr : it.iterator.remaining with
    | nil => rw [hr] at hst; cases hst
    | cons item rest =>
      rw [hr] at hst hnext
      rw [bounded] at hst
      split at hst
      · rename_i hacc
        simp [next, hf, hnext, hacc]
      · cases hst
      · cases hst

theorem Reads.next_end (h : it.Reads entries cond ⟨[], false⟩) :
    ∃ it', it.next = some (none, it') ∧ it'.Reads entries cond ⟨[], false⟩ := by
  have hst := h.stream_eq
  obtain ⟨hnext, -, hentries, hwf⟩ := next_spec h.wellFormed
  rw [stream] at hst
  split_ifs at hst with hf
  · exact ⟨it, by simp [next, hf], h⟩
  · have hdone : Reads entries cond
        { it with iterator := it.iterator.next.2, isFinished := true } ⟨[], false⟩ :=
      ⟨hwf, hentries.trans h.entries_eq, h.condition, rfl, by simp, by simp⟩
    refine ⟨_, ?_, hdone⟩
    cases hr : it.iterator.remaining with
    | nil =>
      rw [hr] at hnext
      simp [next, hf, hnext]
    | cons item rest =>
      rw [hr] at hst hnext
      rw [bounded] at hst
      split at hst
      · cases hst
      · rename_i hacc
        simp [next, hf, hnext, hacc]
      · cases hst

theorem Reads.next_item (h : it.Reads entries cond ⟨item :: rest, b⟩) :
    ∃ it', it.next = some (some item, it') ∧ it'.Reads entries cond ⟨rest, b⟩ ∧ it'.Positioned := by
  have hst := h.stream_eq
  obtain ⟨hnext, htail, hentries, hwf⟩ := next_spec h.wellFormed
  rw [stream] at hst
  split_ifs at hst with hf
  · cases hst
  cases hr : it.iterator.remaining with
  | nil => rw [hr] at hst; cases hst
  | cons first others =>
    have hnone := next_state h.wellFormed (by simp [hr])
    rw [hr] at hst hnext htail
    rw [bounded] at hst
    split at hst
    · cases hst
    · cases hst
    · rename_i hacc
      obtain ⟨⟨rfl, rfl⟩, rfl⟩ :
          (first = item ∧ (it.continueCondition.bounded others).outs = rest) ∧
            (it.continueCondition.bounded others).panics = b := by simpa using hst
      refine ⟨{ it with iterator := it.iterator.next.2 }, by simp [next, hf, hnext, hacc],
        ⟨hwf, hentries.trans h.entries_eq, h.condition, ?_, ?_, ?_⟩, ?_, hnone⟩
      · simp only [stream, hf, htail, tail_cons]
        rfl
      · exact fun p hp => h.mem p (mem_cons_of_mem _ hp)
      · exact (Nat.le_succ _).trans h.length_le
      · simpa using hf

theorem Reads.seek {st : Stream} (h : it.Reads entries cond st) (hp : it.Positioned)
    (key : Bytes) :
    ∃ it', it.seek key = some it' ∧
      it'.Reads entries cond (cond.bounded (entries.dropWhile fun p => decide (p.1 < key))) := by
  obtain ⟨iterator, hseek, hwf, hentries, hrem⟩ := seek_spec hp.2 key
  have hsuffix : entries.dropWhile (fun p => decide (p.1 < key)) <:+ entries :=
    dropWhile_suffix _
  refine ⟨{ it with iterator := iterator }, by simp [KeyspaceRangeIterator.seek, hp.1, hseek], hwf,
    hentries.trans h.entries_eq, h.condition, ?_, fun p hmem => ?_, ?_⟩
  · simp [stream, hp.1, hrem, h.entries_eq, h.condition]
  · exact hsuffix.subset (mem_of_mem_bounded hmem)
  · exact (cond.length_bounded _).trans hsuffix.length_le

end KeyspaceRangeIterator

structure MVCCRangeIterator.Reads (entries : List KeyValue) (cond : ContinueCondition) (s : Nat)
    (it : MVCCRangeIterator) (last : Option Bytes) (st : Stream) : Prop where
  buffered : it.iterator.item = none
  reads : it.iterator.iter.Reads entries cond st
  opened : it.openSequenceNumber = s
  last_eq : it.lastVisibleKey = last

namespace MVCCRangeIterator
variable {s : Nat} {it : MVCCRangeIterator} {last : Option Bytes} {st : Stream}

structure Found (entries : List KeyValue) (cond : ContinueCondition) (s : Nat)
    (it : MVCCRangeIterator) (raw : KeyValue) (st : Stream) : Prop where
  buffered : it.iterator.item = some raw
  reads : it.iterator.iter.Reads entries cond st
  positioned : it.iterator.iter.Positioned
  opened : it.openSequenceNumber = s
  last_eq : it.lastVisibleKey = some (key raw.1)

inductive Stopped (entries : List KeyValue) (cond : ContinueCondition) (s : Nat)
    (item : Option KeyValue) : Stream → Option (Bool × MVCCRangeIterator) → Prop
  | panics : Stopped entries cond s item ⟨[], true⟩ none
  | ended (it : MVCCRangeIterator) (last : Option Bytes) (hitem : it.item = item)
      (h : it.Reads entries cond s last ⟨[], false⟩) :
      Stopped entries cond s item ⟨[], false⟩ (some (false, it))
  | found (it : MVCCRangeIterator) (raw : KeyValue) (st : Stream) (hitem : it.item = item)
      (h : it.Found entries cond s raw st) :
      Stopped entries cond s item
        ⟨(key raw.1, raw.2) :: pick s (some (key raw.1)) st.outs, st.panics⟩
        (some (true, it))

section Yields
variable (hops : ∀ p ∈ entries, operation p.1 ≠ none)
include hops

theorem findNextState_spec {fuel : Nat} (hfuel : st.outs.length < fuel)
    (h : it.Reads entries cond s last st) :
    Stopped entries cond s it.item (st.picked s last) (it.findNextState fuel) := by
  -- each round takes one raw pair, so the induction on the fuel follows the list
  induction fuel generalizing it last st with
  | zero => omega
  | succ fuel ih =>
    obtain ⟨⟨iter, buffered⟩, openSeq, lastKey, item⟩ := it
    obtain ⟨rfl, hreads, rfl, rfl⟩ := h
    obtain ⟨outs, b⟩ := st
    cases outs with
    | nil =>
      cases b with
      | true =>
        have hnext := hreads.next_panics
        simp only [findNextState, PeekableRange.peek, hnext]
        exact .panics
      | false =>
        obtain ⟨iter', hnext, hreads'⟩ := hreads.next_end
        simp only [findNextState, PeekableRange.peek, hnext]
        exact .ended _ _ rfl ⟨rfl, hreads', rfl, rfl⟩
    | cons raw rest =>
      obtain ⟨iter', hnext, hreads', hpos⟩ := hreads.next_item
      have hlen : rest.length < fuel := Nat.lt_of_succ_lt_succ hfuel
      simp only [findNextState, PeekableRange.peek, PeekableRange.next, hnext, bind_eq_bind,
        bind_some, Stream.picked, pick]
      split_ifs with hvis hop
      · rw [hop]
        exact .found _ raw ⟨rest, b⟩ rfl ⟨rfl, hreads', hpos, rfl, rfl⟩
      · have hdel : operation raw.1 = some .delete := by
          have := hops raw (hreads.mem raw mem_cons_self)
          cases hop' : operation raw.1 with
          | none => exact absurd hop' this
          | some op => cases op with
            | insert => exact absurd hop' hop
            | delete => rfl
        rw [hdel]
        exact @ih ⟨⟨iter', none⟩, openSeq, _, item⟩ _ ⟨rest, b⟩ hlen ⟨rfl, hreads', rfl, rfl⟩
      · exact @ih ⟨⟨iter', none⟩, openSeq, _, item⟩ _ ⟨rest, b⟩ hlen ⟨rfl, hreads', rfl, rfl⟩

inductive Yields (entries : List KeyValue) (cond : ContinueCondition) (s : Nat)
    (it : MVCCRangeIterator) : Stream → Prop
  | ready (last : Option Bytes) (st : Stream) (hitem : it.item = none)
      (h : it.Reads entries cond s last st) : Yields entries cond s it (st.picked s last)
  | peeked (o : KeyValue) (st : Stream) (hitem : it.item = some o)
      (h : it.Reads entries cond s (some o.1) st) (hp : it.iterator.iter.Positioned) :
      Yields entries cond s it ⟨o :: pick s (some o.1) st.outs, st.panics⟩

inductive Advanced (entries : List KeyValue) (cond : ContinueCondition) (s : Nat) :
    Stream → Option (Option KeyValue × MVCCRangeIterator) → Prop
  | panics : Advanced entries cond s ⟨[], true⟩ none
  | ended (it : MVCCRangeIterator) (last : Option Bytes) (hitem : it.item = none)
      (h : it.Reads entries cond s last ⟨[], false⟩) :
      Advanced entries cond s ⟨[], false⟩ (some (none, it))
  | item (it : MVCCRangeIterator) (o : KeyValue) (st : Stream) (hitem : it.item = none)
      (h : it.Reads entries cond s (some o.1) st) (hp : it.iterator.iter.Positioned) :
      Advanced entries cond s ⟨o :: pick s (some o.1) st.outs, st.panics⟩ (some (some o, it))

theorem Reads.next (hitem : it.item = none) (h : it.Reads entries cond s last st) :
    Advanced entries cond s (st.picked s last) it.next := by
  have hrounds : st.outs.length < it.rounds := by
    rw [rounds, h.reads.entries_eq]
    exact Nat.lt_succ_of_le h.reads.length_le
  have hstop := findNextState_spec hops hrounds h
  rw [MVCCRangeIterator.next, hitem]
  rw [hitem] at hstop
  generalize it.findNextState it.rounds = result at hstop
  generalize st.picked s last = picked at hstop
  cases hstop with
  | panics => exact .panics
  | ended it' last' hitem' h' => exact .ended it' last' hitem' h'
  | found it' raw rest hitem' h' =>
    obtain ⟨⟨iter, buffered⟩, openSeq, lastKey, item⟩ := it'
    obtain ⟨rfl, hreads, hpos, rfl, rfl⟩ := h'
    exact .item _ (key raw.1, raw.2) rest hitem' ⟨rfl, hreads, rfl, rfl⟩ hpos

theorem Yields.next (h : it.Yields entries cond s st) : Advanced entries cond s st it.next := by
  cases h with
  | ready last st hitem h => exact h.next hops hitem
  | peeked o st hitem h hp =>
    rw [next, hitem]
    exact .item _ o st rfl ⟨h.buffered, h.reads, h.opened, h.last_eq⟩ hp

inductive Peeked (entries : List KeyValue) (cond : ContinueCondition) (s : Nat) :
    Stream → Option (Option KeyValue × MVCCRangeIterator) → Prop
  | panics : Peeked entries cond s ⟨[], true⟩ none
  | ended (it : MVCCRangeIterator) (h : it.Yields entries cond s ⟨[], false⟩) :
      Peeked entries cond s ⟨[], false⟩ (some (none, it))
  | item (it : MVCCRangeIterator) (o : KeyValue) (st : Stream) (hitem : it.item = some o)
      (h : it.Reads entries cond s (some o.1) st) (hp : it.iterator.iter.Positioned) :
      Peeked entries cond s ⟨o :: pick s (some o.1) st.outs, st.panics⟩ (some (some o, it))

theorem Yields.peek (h : it.Yields entries cond s st) : Peeked entries cond s st it.peek := by
  cases h with
  | ready last st hitem h =>
    have hadv := h.next hops hitem
    rw [peek, hitem]
    generalize it.next = result at hadv
    generalize st.picked s last = picked at hadv
    cases hadv with
    | panics => exact .panics
    | ended it' last' hitem' h' =>
      exact .ended _ (.ready last' ⟨[], false⟩ rfl ⟨h'.buffered, h'.reads, h'.opened, h'.last_eq⟩)
    | item it' o rest hitem' h' hp =>
      exact .item _ o rest rfl ⟨h'.buffered, h'.reads, h'.opened, h'.last_eq⟩ hp
  | peeked o st hitem h hp =>
    rw [peek, hitem]
    exact .item _ o st hitem h hp

end Yields

end MVCCRangeIterator

def soughtStream (entries : List KeyValue) (cond : ContinueCondition) (s : Nat)
    (last key : Bytes) : Stream :=
  (cond.bounded (entries.dropWhile fun p => decide (p.1 < key))).picked s (some last)

/-- The calls on a stream; `sought` is what a forward seek leaves. -/
def Stream.run (sought : Bytes → Bytes → Stream) :
    Stream → List IteratorCall → Option (List (Option KeyValue))
  | _, [] => some []
  | ⟨[], true⟩, _ :: _ => none
  | ⟨[], false⟩, .peek :: calls => do
    let items ← run sought ⟨[], false⟩ calls
    some (none :: items)
  | ⟨[], false⟩, .next :: calls => do
    let items ← run sought ⟨[], false⟩ calls
    some (none :: items)
  | ⟨[], false⟩, .seek _ :: calls => run sought ⟨[], false⟩ calls
  | ⟨o :: outs, b⟩, .peek :: calls => do
    let items ← run sought ⟨o :: outs, b⟩ calls
    some (some o :: items)
  | ⟨o :: outs, b⟩, .next :: calls => do
    let items ← run sought ⟨outs, b⟩ calls
    some (some o :: items)
  | ⟨o :: outs, b⟩, .seek key :: calls =>
    if o.1 < key then run sought (sought o.1 key) calls else run sought ⟨o :: outs, b⟩ calls

theorem MVCCRangeIterator.Yields.seek {s : Nat} {it : MVCCRangeIterator} {o : KeyValue}
    {outs : List KeyValue} {b : Bool} (hops : ∀ p ∈ entries, operation p.1 ≠ none)
    (h : it.Yields entries cond s ⟨o :: outs, b⟩) {key : Bytes} (hlt : o.1 < key) :
    ∃ it', it.seek key = some it' ∧
      it'.Yields entries cond s (soughtStream entries cond s o.1 key) := by
  have hpeek := h.peek hops
  rw [MVCCRangeIterator.seek]
  generalize it.peek = result at hpeek
  cases hpeek with
  | item it' _ rest hitem' h' hp =>
    obtain ⟨iter, hseek, hreads⟩ := h'.reads.seek hp key
    simp only [PeekableRange.seek, h'.buffered, hseek, bind_eq_bind, bind_some, if_pos hlt]
    exact ⟨_, rfl, .ready (some o.1) _ rfl ⟨rfl, hreads, h'.opened, h'.last_eq⟩⟩

theorem MVCCRangeIterator.Yields.run {s : Nat} {it : MVCCRangeIterator} {st : Stream}
    (hops : ∀ p ∈ entries, operation p.1 ≠ none) (h : it.Yields entries cond s st)
    (calls : List IteratorCall) :
    it.run calls = st.run (soughtStream entries cond s) calls := by
  induction calls generalizing it st with
  | nil => simp [MVCCRangeIterator.run, Stream.run]
  | cons call calls ih =>
    cases call with
    | peek =>
      have hpeek := h.peek hops
      rw [MVCCRangeIterator.run]
      generalize it.peek = result at hpeek
      cases hpeek with
      | panics => rfl
      | ended it' h' =>
        simp only [bind_eq_bind, bind_some, ih h', Stream.run]
      | item it' o rest hitem' h' hp =>
        simp only [bind_eq_bind, bind_some, ih (.peeked o rest hitem' h' hp), Stream.run]
    | next =>
      have hnext := h.next hops
      rw [MVCCRangeIterator.run]
      generalize it.next = result at hnext
      cases hnext with
      | panics => rfl
      | ended it' last hitem' h' =>
        simp only [bind_eq_bind, bind_some, ih (.ready last _ hitem' h'), Stream.run]
        rfl
      | item it' o rest hitem' h' hp =>
        simp only [bind_eq_bind, bind_some, ih (.ready _ rest hitem' h'), Stream.run]
        rfl
    | seek key =>
      have hpeek := h.peek hops
      rw [MVCCRangeIterator.run, MVCCRangeIterator.seek]
      generalize it.peek = result at hpeek
      cases hpeek with
      | panics => rfl
      | ended it' h' => simp only [bind_eq_bind, bind_some, ih h', Stream.run]
      | item it' o rest hitem' h' hp =>
        simp only [bind_eq_bind, bind_some, Stream.run]
        split_ifs with hlt
        · obtain ⟨iter, hseek, hreads⟩ := h'.reads.seek hp key
          simp only [PeekableRange.seek, h'.buffered, hseek, bind_eq_bind, bind_some]
          exact ih (.ready (some o.1) _ rfl ⟨rfl, hreads, h'.opened, h'.last_eq⟩)
        · exact ih (.peeked o rest hitem' h' hp)

end Range

end TypeDB.Storage
