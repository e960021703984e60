import TypeDB.Storage.MvccKey

/-! The iterators a snapshot reads through, one wrapped in the other: the raw iterator of a
keyspace, the range iterator that stops it at a bound, a peekable one, and the one that picks
the visible version of each key. A panic is the outcome `none`. -/

namespace TypeDB.Storage
open ByteString MVCCKey

abbrev KeyValue := Bytes × Bytes

inductive RangeStart
  | inclusive (value : Bytes)
  | excludeFirstWithPrefix (value : Bytes)
  | excludePrefix (value : Bytes)
  deriving DecidableEq

def RangeStart.getValue : RangeStart → Bytes
  | .inclusive b => b
  | .excludeFirstWithPrefix b => b
  | .excludePrefix b => b

inductive RangeEnd
  | withinStartAsPrefix
  | endPrefixInclusive (value : Bytes)
  | endPrefixExclusive (value : Bytes)
  | unbounded
  deriving DecidableEq

structure KeyRange where
  rangeStart : RangeStart
  rangeEnd : RangeEnd
  deriving DecidableEq

def KeyRange.newWithin (value : Bytes) : KeyRange := ⟨.inclusive value, .withinStartAsPrefix⟩

inductive IteratorItemState
  | none
  | some (item : KeyValue)
  | finished
  deriving DecidableEq

/-- The raw iterator: `cursor` is what lies from the pair it points at on. In state `none` that
pair was handed out already. -/
structure DBIterator where
  entries : List KeyValue
  cursor : List KeyValue
  state : IteratorItemState

variable (it : DBIterator)

def DBIterator.recordIteratorState : DBIterator :=
  { it with state := match it.cursor with
    | [] => .finished
    | item :: _ => .some item }

def DBIterator.rawSeek (key : Bytes) : DBIterator :=
  { it with cursor := it.entries.dropWhile fun p => decide (p.1 < key) }

def DBIterator.newFrom (entries : List KeyValue) (start : Bytes) : DBIterator :=
  ((⟨entries, entries, .none⟩ : DBIterator).rawSeek start).recordIteratorState

def IteratorItemState.takeValueElseRetain :
    IteratorItemState → IteratorItemState × IteratorItemState
  | .none => (.none, .none)
  | .some item => (.some item, .none)
  | .finished => (.finished, .finished)

def DBIterator.nextInternal : IteratorItemState × DBIterator :=
  let it := match it.state with
    | .none => DBIterator.recordIteratorState { it with cursor := it.cursor.tail }
    | _ => it
  let (taken, left) := it.state.takeValueElseRetain
  (taken, { it with state := left })

def IteratorItemState.item : IteratorItemState → Option KeyValue
  | .some item => Option.some item
  | _ => Option.none

def DBIterator.peek : Option KeyValue × DBIterator :=
  let (state, it) := it.nextInternal
  (state.item, { it with state := state })

def DBIterator.next : Option KeyValue × DBIterator :=
  let (state, it) := it.nextInternal
  (state.item, it)

def DBIterator.seek (key : Bytes) : Option DBIterator :=
  match it.state with
  | .finished => some it
  | .some item =>
    if item.1 < key then some (it.rawSeek key).recordIteratorState
    else if item.1 = key then some it
    else none
  | .none => some (it.rawSeek key).recordIteratorState

inductive ContinueCondition
  | exactPrefix (value : Bytes)
  | endPrefixInclusive (value : Bytes)
  | endPrefixExclusive (value : Bytes)
  | always

/-- `accept_value`; `none` where a slice longer than the key is taken. -/
def ContinueCondition.acceptValue : ContinueCondition → Bytes → Option Bool
  | .exactPrefix value, key => some (value.isPrefixOf key)
  | .endPrefixInclusive value, key =>
    if key.isPrefixOf value then some true
    else if key.length < value.length then none
    else some (decide (key.take value.length ≤ value))
  | .endPrefixExclusive value, key =>
    if key.isPrefixOf value then some true
    else if key.length < value.length then none
    else some (decide (key.take value.length < value))
  | .always, _ => some true

structure KeyspaceRangeIterator where
  iterator : DBIterator
  continueCondition : ContinueCondition
  isFinished : Bool

/-- Where the raw iterator is first put; `none` where the increment is unwrapped. -/
def RangeStart.seekBytes : RangeStart → Option Bytes
  | .inclusive b => some b
  | .excludeFirstWithPrefix b => some b
  | .excludePrefix b => Lex.increment b

def KeyspaceRangeIterator.maySkipStart (excluded : Bytes) : DBIterator :=
  let (peeked, it) := it.peek
  match peeked with
  | some item => if item.1 = excluded then it.next.2 else it
  | none => it

def KeyRange.continueCondition (range : KeyRange) : ContinueCondition :=
  match range.rangeEnd with
  | .withinStartAsPrefix => .exactPrefix range.rangeStart.getValue
  | .endPrefixInclusive e => .endPrefixInclusive e
  | .endPrefixExclusive e => .endPrefixExclusive e
  | .unbounded => .always

def KeyspaceRangeIterator.new (entries : List KeyValue) (range : KeyRange) :
    Option KeyspaceRangeIterator := do
  let start ← range.rangeStart.seekBytes
  let iterator := DBIterator.newFrom entries start
  let iterator := match range.rangeStart with
    | .excludeFirstWithPrefix b => maySkipStart iterator b
    | _ => iterator
  some ⟨iterator, range.continueCondition, false⟩

def KeyspaceRangeIterator.next (it : KeyspaceRangeIterator) :
    Option (Option KeyValue × KeyspaceRangeIterator) :=
  if it.isFinished then some (none, it)
  else
    let (next, iterator) := it.iterator.next
    match next with
    | none => some (none, { it with iterator := iterator, isFinished := true })
    | some item =>
      match it.continueCondition.acceptValue item.1 with
      | none => none
      | some true => some (some item, { it with iterator := iterator })
      | some false => some (none, { it with iterator := iterator, isFinished := true })

def KeyspaceRangeIterator.seek (it : KeyspaceRangeIterator) (key : Bytes) :
    Option KeyspaceRangeIterator :=
  if it.isFinished then some it
  else do
    let iterator ← it.iterator.seek key
    some { it with iterator := iterator }

structure PeekableRange where
  iter : KeyspaceRangeIterator
  item : Option KeyValue

def PeekableRange.peek (it : PeekableRange) : Option (Option KeyValue × PeekableRange) :=
  match it.item with
  | some item => some (some item, it)
  | none => do
    let (item, iter) ← it.iter.next
    some (item, ⟨iter, item⟩)

def PeekableRange.next (it : PeekableRange) : Option (Option KeyValue × PeekableRange) :=
  match it.item with
  | some item => some (some item, { it with item := none })
  | none => do
    let (item, iter) ← it.iter.next
    some (item, { it with iter := iter })

def PeekableRange.seek (it : PeekableRange) (key : Bytes) : Option PeekableRange :=
  match it.item with
  | some item =>
    if item.1 < key then do some ⟨← it.iter.seek key, none⟩
    else if item.1 = key then some it
    else none
  | none => do some ⟨← it.iter.seek key, none⟩

structure MVCCRangeIterator where
  iterator : PeekableRange
  openSequenceNumber : Nat
  lastVisibleKey : Option Bytes
  item : Option KeyValue

def MVCCRangeIterator.new (entries : List KeyValue) (range : KeyRange) (openSequenceNumber : Nat) :
    Option MVCCRangeIterator := do
  let iterator ← KeyspaceRangeIterator.new entries range
  some ⟨⟨iterator, none⟩, openSequenceNumber, none, none⟩

/-- The loop of `find_next_state`, which moves the raw iterator on in every round. -/
def MVCCRangeIterator.findNextState :
    Nat → MVCCRangeIterator → Option (Bool × MVCCRangeIterator)
  | 0, it => some (false, it)
  | fuel + 1, it => do
    let (peeked, iterator) ← it.iterator.peek
    let it := { it with iterator := iterator }
    match peeked with
    | none => some (false, it)
    | some (raw, _) =>
      let isVisible := isVisibleTo raw it.openSequenceNumber &&
        !decide (it.lastVisibleKey = some (key raw))
      if isVisible then
        let it := { it with lastVisibleKey := some (key raw) }
        match operation raw with
        | none => none
        | some .insert => some (true, it)
        | some .delete => do
          let (_, iterator) ← it.iterator.next
          findNextState fuel { it with iterator := iterator }
      else do
        let (_, iterator) ← it.iterator.next
        findNextState fuel { it with iterator := iterator }

/-- There is at most one round for each pair of the keyspace, and one to find the end. -/
def MVCCRangeIterator.rounds (it : MVCCRangeIterator) : Nat :=
  it.iterator.iter.iterator.entries.length + 1

def MVCCRangeIterator.next (it : MVCCRangeIterator) :
    Option (Option KeyValue × MVCCRangeIterator) :=
  match it.item with
  | some item => some (some item, { it with item := none })
  | none => do
    let (found, it) ← it.findNextState it.rounds
    if found then
      let (next, iterator) ← it.iterator.next
      let it := { it with iterator := iterator }
      some (next.map fun p => (key p.1, p.2), it)
    else some (none, it)

def MVCCRangeIterator.peek (it : MVCCRangeIterator) :
    Option (Option KeyValue × MVCCRangeIterator) :=
  match it.item with
  | some item => some (some item, it)
  | none => do
    let (item, it) ← it.next
    some (item, { it with item := item })

def MVCCRangeIterator.seek (it : MVCCRangeIterator) (key : Bytes) : Option MVCCRangeIterator := do
  let (peeked, it) ← it.peek
  match peeked with
  | some (peek, _) =>
    if peek < key then do
      let iterator ← it.iterator.seek key
      some { it with item := none, iterator := iterator }
    else some it
  | none => some it

/-- The loop of `get_mapped`. -/
def MVCCRangeIterator.findKey (key : Bytes) : Nat → MVCCRangeIterator → Option (Option Bytes)
  | 0, _ => some none
  | fuel + 1, it => do
    let (next, it) ← it.next
    match next with
    | none => some none
    | some (k, v) => if k = key then some (some v) else findKey key fuel it

def get (entries : List KeyValue) (key : Bytes) (openSequenceNumber : Nat) :
    Option (Option Bytes) := do
  let it ← MVCCRangeIterator.new entries (KeyRange.newWithin key) openSequenceNumber
  it.findKey key (entries.length + 1)

inductive IteratorCall
  | peek
  | next
  | seek (key : Bytes)

/-- What the calls return one after the other; a seek returns nothing. -/
def MVCCRangeIterator.run : MVCCRangeIterator → List IteratorCall → Option (List (Option KeyValue))
  | _, [] => some []
  | it, .peek :: calls => do
    let (item, it) ← it.peek
    let items ← it.run calls
    some (item :: items)
  | it, .next :: calls => do
    let (item, it) ← it.next
    let items ← it.run calls
    some (item :: items)
  | it, .seek key :: calls => do
    let it ← it.seek key
    it.run calls

end TypeDB.Storage
