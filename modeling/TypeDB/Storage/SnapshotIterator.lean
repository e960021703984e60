import TypeDB.Foundations.Overlay
import TypeDB.Storage.WriteBuffer

/-! The iterator of a snapshot that writes: the visible pairs of the keyspace merged with the
buffered writes, which hide the stored pair of their key. Where the two sides are what they should
be, the merge is the overlay of the writes, under any calls. -/

namespace TypeDB.Storage
open ByteString List Option Overlay Write

inductive ReadyItemSource
  | storage
  | buffered
  | both
  deriving DecidableEq

structure SnapshotRangeIterator where
  storageIterator : MVCCRangeIterator
  bufferedIterator : Option BufferRangeIterator
  readyItemSource : Option ReadyItemSource

namespace SnapshotRangeIterator

def new (mvccIterator : MVCCRangeIterator) (bufferedIterator : Option BufferRangeIterator) :
    SnapshotRangeIterator := ⟨mvccIterator, bufferedIterator, none⟩

variable (it : SnapshotRangeIterator)

def skipBuffered : SnapshotRangeIterator :=
  { it with bufferedIterator := it.bufferedIterator.map fun iter => iter.next.2 }

def findBuffered : SnapshotRangeIterator :=
  match it.bufferedIterator with
  | none => it
  | some iter =>
    let iter := ⟨iter.inner.dropWhile fun p => p.2.isDelete⟩
    { it with
      bufferedIterator := some iter
      readyItemSource := if iter.peek.isSome then some .buffered else none }

/-- The loop of `find_next_state`; every round but the last skips a buffered delete. -/
def findNextState : Nat → SnapshotRangeIterator → Option SnapshotRangeIterator
  | 0, it => some it
  | fuel + 1, it => do
    let (peeked, storageIterator) ← it.storageIterator.peek
    let it := { it with storageIterator := storageIterator }
    match peeked with
    | none => some it.findBuffered
    | some (storageKey, _) =>
      match it.bufferedIterator.bind BufferRangeIterator.peek with
      | none => some { it with readyItemSource := some .storage }
      | some (bufferedKey, bufferedWrite) =>
        if bufferedKey < storageKey then
          if bufferedWrite.isDelete then findNextState fuel it.skipBuffered
          else some { it with readyItemSource := some .buffered }
        else if bufferedKey = storageKey then
          if bufferedWrite.isDelete then do
            let (_, storageIterator) ← it.storageIterator.next
            findNextState fuel { it with storageIterator := storageIterator }.skipBuffered
          else some { it with readyItemSource := some .both }
        else some { it with readyItemSource := some .storage }

def rounds : Nat :=
  (it.bufferedIterator.elim 0 fun iter => iter.inner.length) + 1

def prepare : Option SnapshotRangeIterator :=
  match it.readyItemSource with
  | none => it.findNextState it.rounds
  | some _ => some it

def bufferedPeek : Option (Option KeyValue) := do
  let iter ← it.bufferedIterator
  match iter.peek with
  | none => some none
  | some (key, write) => do
    let value ← write.getValue
    some (some (key, value))

def peek (it : SnapshotRangeIterator) : Option (Option KeyValue × SnapshotRangeIterator) := do
  let it ← it.prepare
  match it.readyItemSource with
  | none => some (none, it)
  | some .storage => do
    let (item, storageIterator) ← it.storageIterator.peek
    some (item, { it with storageIterator := storageIterator })
  | some _ => do
    let item ← it.bufferedPeek
    some (item, it)

def storageNext :
    Option (Option KeyValue × SnapshotRangeIterator) := do
  let (item, storageIterator) ← it.storageIterator.next
  some (item, { it with storageIterator := storageIterator })

def bufferedNext :
    Option (Option KeyValue × SnapshotRangeIterator) := do
  let item ← it.bufferedPeek
  some (item, it.skipBuffered)

def next : Option (Option KeyValue × SnapshotRangeIterator) := do
  let it ← it.prepare
  let taken := { it with readyItemSource := none }
  match it.readyItemSource with
  | some .both => do
    let (_, taken) ← taken.storageNext
    taken.bufferedNext
  | some .storage => taken.storageNext
  | some .buffered => taken.bufferedNext
  | none => some (none, taken)

def seek (it : SnapshotRangeIterator) (key : Bytes) : Option SnapshotRangeIterator := do
  let (peeked, it) ← it.peek
  match peeked with
  | some (peek, _) =>
    if peek < key then do
      let bufferedIterator := it.bufferedIterator.map fun iter => iter.seek key
      let storageIterator ← it.storageIterator.seek key
      prepare ⟨storageIterator, bufferedIterator, none⟩
    else some it
  | none => some it

def run : SnapshotRangeIterator → List IteratorCall → Option (List (Option KeyValue))
  | _, [] => some []
  | it, .peek :: calls => do
    let (item, it) ← it.peek
    let items ← it.run calls
    some (item :: items)
  | it, .next :: calls => do
    let (item, it) ← it.next
    let items ← it.run calls
    some (item :: items)
  | it, .seek key :: calls => do
    let it ← it.seek key
    it.run calls

end SnapshotRangeIterator

/-- `WriteSnapshot` and `SchemaSnapshot`, on the keyspace of what is asked for. -/
structure WriteSnapshot where
  entries : List KeyValue
  writes : WriteBuffer
  openSequenceNumber : Nat

namespace WriteSnapshot

def get (snapshot : WriteSnapshot) (key : Bytes) : Option (Option Bytes) :=
  match snapshot.writes.writesGet key with
  | some (.insert value) => some (some value)
  | some (.put value _) => some (some value)
  | some .delete => some none
  | none => Storage.get snapshot.entries key snapshot.openSequenceNumber

def contains (snapshot : WriteSnapshot) (key : Bytes) : Option Bool :=
  (snapshot.get key).map Option.isSome

def iterateRange (snapshot : WriteSnapshot) (range : KeyRange) :
    Option SnapshotRangeIterator := do
  let bufferedIterator ← snapshot.writes.iterateRange range
  let storageIterator ← MVCCRangeIterator.new snapshot.entries range snapshot.openSequenceNumber
  some (.new storageIterator (some bufferedIterator))

def anyInRange (snapshot : WriteSnapshot) (range : KeyRange) (bufferedOnly : Bool) :
    Option Bool := do
  let buffered ← snapshot.writes.anyNotDeletedInRange range
  if buffered then some true
  else if bufferedOnly then some false
  else do
    let it ← snapshot.iterateRange range
    let (item, _) ← it.next
    some item.isSome

end WriteSnapshot

section Merge
variable {targets : Bytes → Prop} {l : List KeyValue} {b : List (Bytes × Write Bytes)}
  {o : List KeyValue}

def MVCCRangeIterator.Behaves (targets : Bytes → Prop) (it : MVCCRangeIterator)
    (l : List KeyValue) : Prop :=
  ∀ calls : List IteratorCall, (∀ call ∈ calls, call.SeeksIn targets) →
    it.run calls = some (answers l calls)

namespace MVCCRangeIterator
variable {it : MVCCRangeIterator}

theorem behaves_of_call {result : Option (Option KeyValue × MVCCRangeIterator)}
    {item : Option KeyValue} (h : ∀ calls : List IteratorCall,
      (∀ call ∈ calls, call.SeeksIn targets) → (result.bind fun (item, it) =>
        (it.run calls).bind fun items => some (item :: items)) = some (item :: answers l calls)) :
    ∃ it', result = some (item, it') ∧ it'.Behaves targets l := by
  cases result with
  | none => simpa using h [] (by simp)
  | some r =>
    obtain ⟨item', it'⟩ := r
    simp only [bind_some, bind_eq_some_iff, some.injEq, List.cons.injEq] at h
    obtain ⟨-, -, hitem, -⟩ := h [] (by simp)
    refine ⟨it', by rw [hitem], fun calls hin => ?_⟩
    obtain ⟨items, hrun, -, rfl⟩ := h calls hin
    exact hrun

theorem Behaves.peek (h : it.Behaves targets l) :
    ∃ it', it.peek = some (l.head?, it') ∧ it'.Behaves targets l :=
  behaves_of_call fun calls hin => h (.peek :: calls) (forall_mem_cons.mpr ⟨trivial, hin⟩)

theorem Behaves.next (h : it.Behaves targets l) :
    ∃ it', it.next = some (l.head?, it') ∧ it'.Behaves targets l.tail :=
  behaves_of_call fun calls hin => h (.next :: calls) (forall_mem_cons.mpr ⟨trivial, hin⟩)

theorem Behaves.seek (h : it.Behaves targets l) {key : Bytes} (hkey : targets key) :
    ∃ it', it.seek key = some it' ∧
      it'.Behaves targets (l.dropWhile fun p => decide (p.1 < key)) := by
  have hcall := fun calls hin => h (.seek key :: calls) (forall_mem_cons.mpr ⟨hkey, hin⟩)
  simp only [run, answers] at hcall
  cases hseek : it.seek key with
  | none => simpa [hseek] using hcall [] (by simp)
  | some it' =>
    simp only [hseek, bind_eq_bind, bind_some] at hcall
    exact ⟨it', rfl, hcall⟩

end MVCCRangeIterator

/-- What the source that is ready says about the two lists. -/
inductive SourceReady :
    Option ReadyItemSource → List (Bytes × Write Bytes) → List KeyValue → Prop
  | none (b : List (Bytes × Write Bytes)) (l : List KeyValue) : SourceReady none b l
  | storage (b : List (Bytes × Write Bytes)) (q : KeyValue) (l : List KeyValue)
      (hlt : ∀ p ∈ b.head?, q.1 < p.1) : SourceReady (some .storage) b (q :: l)
  | buffered (k : Bytes) (write : Write Bytes) (v : Bytes) (b : List (Bytes × Write Bytes))
      (l : List KeyValue) (hv : write.getValue = some v) (hlt : ∀ q ∈ l.head?, k < q.1) :
      SourceReady (some .buffered) ((k, write) :: b) l
  | both (k : Bytes) (write : Write Bytes) (v w : Bytes) (b : List (Bytes × Write Bytes))
      (l : List KeyValue) (hv : write.getValue = some v) :
      SourceReady (some .both) ((k, write) :: b) ((k, w) :: l)

variable {p : Bytes × Write Bytes}

theorem SourceReady.of_lt (hp : ¬ p.2.isDelete = true)
    (hlt : ∀ q ∈ l.head?, p.1 < q.1) : SourceReady (some .buffered) (p :: b) l := by
  obtain ⟨v, hv⟩ := ne_none_iff_exists'.mp (mt getValue_eq_none.mp hp)
  exact .buffered p.1 p.2 v b l hv hlt

theorem SourceReady.of_eq {q : KeyValue} (hp : ¬ p.2.isDelete = true)
    (heq : p.1 = q.1) : SourceReady (some .both) (p :: b) (q :: l) := by
  obtain ⟨v, hv⟩ := ne_none_iff_exists'.mp (mt getValue_eq_none.mp hp)
  obtain ⟨k, write⟩ := p
  obtain ⟨k', w⟩ := q
  obtain rfl : k = k' := heq
  exact .both k write v w b l hv

theorem SourceReady.of_ge {q : KeyValue} (hlt : ¬ p.1 < q.1)
    (hne : p.1 ≠ q.1) : SourceReady (some .storage) (p :: b) (q :: l) :=
  .storage _ q l (by simpa using lt_of_le_of_ne (not_lt.mp hlt) hne.symm)

/-- The source that `findBuffered` sets. -/
theorem sourceReady_dropWhile (b : List (Bytes × Write Bytes)) :
    let found := b.dropWhile fun p => p.2.isDelete
    let source := if found.head?.isSome then some .buffered else none
    SourceReady source found [] ∧ (source = none → found = []) := by
  have hhead := head?_dropWhile_not (fun p : Bytes × Write Bytes => p.2.isDelete) b
  dsimp only
  generalize b.dropWhile (fun p => p.2.isDelete) = found at hhead
  cases found with
  | nil => exact ⟨.none _ _, fun _ => rfl⟩
  | cons p found => exact ⟨.of_lt (by simpa using hhead) (by simp), by simp⟩

namespace SnapshotRangeIterator
variable {it : SnapshotRangeIterator}

/-- The two sides of the merge; the pairs of the storage have to be sorted only for seeks. -/
structure Tracks (targets : Bytes → Prop) (it : SnapshotRangeIterator)
    (b : List (Bytes × Write Bytes)) (l : List KeyValue) : Prop where
  storage : it.storageIterator.Behaves targets l
  buffered : it.bufferedIterator = some ⟨b⟩
  ready : SourceReady it.readyItemSource b l
  sortedWrites : b.Pairwise fun a b => a.1 < b.1
  sortedPairs : ∀ target, targets target → l.Pairwise fun a b => a.1 < b.1

end SnapshotRangeIterator

theorem overlay_skip (h : p.2.isDelete = true)
    (hlt : ∀ q ∈ l.head?, p.1 < q.1) :
    overlay getValue (p :: b) l = overlay getValue b l := by
  have hshows : shows getValue p = [] := by
    rw [shows, getValue_eq_none.mpr h]
  cases l with
  | nil => rw [overlay_nil_right, hshows, nil_append]
  | cons q l => rw [overlay_of_lt (hlt q rfl), hshows, nil_append]

theorem overlay_skip_both {q : KeyValue} (h : p.2.isDelete = true)
    (heq : p.1 = q.1) :
    overlay getValue (p :: b) (q :: l) = overlay getValue b l := by
  rw [overlay_of_eq heq, shows, getValue_eq_none.mpr h, nil_append]

theorem overlay_storage {q : KeyValue} (h : ∀ p ∈ b.head?, q.1 < p.1) :
    overlay getValue b (q :: l) = q :: overlay getValue b l := by
  cases b with
  | nil => rw [overlay_nil_left, overlay_nil_left]
  | cons p b => exact overlay_of_gt (h p rfl)

theorem overlay_buffered {k v : Bytes} {write : Write Bytes} (hv : write.getValue = some v)
    (h : ∀ q ∈ l.head?, k < q.1) :
    overlay getValue ((k, write) :: b) l = (k, v) :: overlay getValue b l := by
  have hshows : shows getValue (k, write) = [(k, v)] := by rw [shows, hv]
  cases l with
  | nil => rw [overlay_nil_right, hshows, singleton_append]
  | cons q l => rw [overlay_of_lt (h q rfl), hshows, singleton_append]

theorem overlay_both {k v w : Bytes} {write : Write Bytes} (hv : write.getValue = some v) :
    overlay getValue ((k, write) :: b) ((k, w) :: l) = (k, v) :: overlay getValue b l := by
  have hshows : shows getValue (k, write) = [(k, v)] := by rw [shows, hv]
  rw [overlay_of_eq (by rfl), hshows, singleton_append]

theorem overlay_skip_deletes (b : List (Bytes × Write Bytes)) :
    overlay getValue (b.dropWhile fun p => p.2.isDelete) ([] : List KeyValue) =
      overlay getValue b [] := by
  induction b with
  | nil => rfl
  | cons p b ih =>
    by_cases hp : p.2.isDelete = true
    · rw [dropWhile_cons_of_pos (by exact hp), ih, overlay_skip hp (by simp)]
    · rw [dropWhile_cons_of_neg (by exact hp)]

namespace SnapshotRangeIterator
variable {it : SnapshotRangeIterator}

open SnapshotRangeIterator

theorem Tracks.findBuffered (h : it.Tracks targets b []) :
    ∃ b', it.findBuffered.Tracks targets b' [] ∧
      overlay getValue b' ([] : List KeyValue) = overlay getValue b [] ∧
      (it.findBuffered.readyItemSource = none → b' = []) := by
  have hfound : it.findBuffered = { it with
      bufferedIterator := some ⟨b.dropWhile fun p => p.2.isDelete⟩
      readyItemSource := if (b.dropWhile fun p => p.2.isDelete).head?.isSome
        then some .buffered else none } := by
    rw [SnapshotRangeIterator.findBuffered, h.buffered]
    rfl
  obtain ⟨hready, hend⟩ := sourceReady_dropWhile b
  rw [hfound]
  exact ⟨_, ⟨h.storage, rfl, hready, h.sortedWrites.sublist (dropWhile_sublist _), fun _ _ => .nil⟩,
    overlay_skip_deletes b, hend⟩

theorem findNextState_spec {fuel : Nat} (h : it.Tracks targets b l)
    (hready : it.readyItemSource = none) (hfuel : b.length < fuel) :
    ∃ it' b' l', it.findNextState fuel = some it' ∧ it'.Tracks targets b' l' ∧
      overlay getValue b' l' = overlay getValue b l ∧
      (it'.readyItemSource = none → b' = [] ∧ l' = []) := by
  induction fuel generalizing it b l with
  | zero => omega
  | succ fuel ih =>
    obtain ⟨storage, hpeek, hstorage⟩ := h.storage.peek
    have htracks : Tracks targets { it with storageIterator := storage } b l :=
      { h with storage := hstorage }
    rw [findNextState, hpeek]
    simp only [bind_eq_bind, bind_some, h.buffered]
    cases l with
    | nil =>
      obtain ⟨b', htracks', hover, hend⟩ := htracks.findBuffered
      simp only [h.buffered] at htracks' hend
      exact ⟨_, b', [], rfl, htracks', hover, fun hnone => ⟨hend hnone, rfl⟩⟩
    | cons q l =>
      cases b with
      | nil =>
        refine ⟨_, [], q :: l, rfl, ⟨hstorage, rfl, ?_, .nil, h.sortedPairs⟩, rfl, nofun⟩
        exact .storage [] q l (by simp)
      | cons p b =>
        have hrest := (pairwise_cons.mp h.sortedWrites).2
        have hlength : b.length < fuel := Nat.lt_of_succ_lt_succ hfuel
        simp only [head?_cons, BufferRangeIterator.peek]
        split_ifs with hlt hdelete heq hdelete
        · -- a delete of a key that is not stored
          have hskip : Tracks targets (skipBuffered { it with
              storageIterator := storage, bufferedIterator := some ⟨p :: b⟩ }) b (q :: l) :=
            ⟨hstorage, rfl, hready ▸ .none _ _, hrest, h.sortedPairs⟩
          obtain ⟨it', b', l', hfind, htracks', hover, hend⟩ := ih hskip hready hlength
          refine ⟨it', b', l', hfind, htracks', ?_, hend⟩
          rw [hover, overlay_skip hdelete]
          simpa using hlt
        · exact ⟨_, p :: b, q :: l, rfl, ⟨hstorage, rfl, .of_lt hdelete (by simpa using hlt),
            h.sortedWrites, h.sortedPairs⟩, rfl, nofun⟩
        · -- a delete of the stored key
          obtain ⟨storage', hnext, hstorage'⟩ := hstorage.next
          have hskip : Tracks targets (skipBuffered { it with
              storageIterator := storage', bufferedIterator := some ⟨p :: b⟩ }) b l :=
            ⟨hstorage', rfl, hready ▸ .none _ _, hrest, fun target ht => (h.sortedPairs target ht).of_cons⟩
          obtain ⟨it', b', l', hfind, htracks', hover, hend⟩ := ih hskip hready hlength
          rw [hnext]
          refine ⟨it', b', l', hfind, htracks', ?_, hend⟩
          rw [hover, overlay_skip_both hdelete heq]
        · exact ⟨_, p :: b, q :: l, rfl,
            ⟨hstorage, rfl, .of_eq hdelete heq, h.sortedWrites, h.sortedPairs⟩, rfl, nofun⟩
        · exact ⟨_, p :: b, q :: l, rfl,
            ⟨hstorage, rfl, .of_ge hlt heq, h.sortedWrites, h.sortedPairs⟩, rfl, nofun⟩

theorem prepare_spec (h : it.Tracks targets b l) :
    ∃ it' b' l', it.prepare = some it' ∧ it'.Tracks targets b' l' ∧
      overlay getValue b' l' = overlay getValue b l ∧
      (it'.readyItemSource = none → b' = [] ∧ l' = []) := by
  rw [prepare]
  cases hready : it.readyItemSource with
  | none =>
    refine findNextState_spec h hready ?_
    simp [rounds, h.buffered]
  | some source => exact ⟨it, b, l, rfl, h, rfl, by simp [hready]⟩

/-- Under any calls the iterator has the overlay before it. -/
def Follows (targets : Bytes → Prop) (it : SnapshotRangeIterator) (o : List KeyValue) : Prop :=
  ∃ b l, it.Tracks targets b l ∧ overlay Write.getValue b l = o

theorem Follows.peek (h : it.Follows targets o) :
    ∃ it', it.peek = some (o.head?, it') ∧ it'.Follows targets o := by
  obtain ⟨b, l, htracks, rfl⟩ := h
  obtain ⟨⟨storage, buffered, source⟩, b', l', hprepare, htracks', hover, hend⟩ :=
    prepare_spec htracks
  obtain ⟨hstorage, rfl, hready, hwrites, hpairs⟩ := htracks'
  rw [peek, hprepare, ← hover]
  simp only [bind_eq_bind, bind_some]
  cases hready with
  | none =>
    obtain ⟨rfl, rfl⟩ := hend rfl
    rw [overlay_nil_left]
    exact ⟨_, rfl, [], [], ⟨hstorage, rfl, .none _ _, .nil, fun _ _ => .nil⟩, overlay_nil_left⟩
  | storage _ q l hlt =>
    obtain ⟨storage', hpeek, hstorage'⟩ := hstorage.peek
    rw [hpeek, overlay_storage hlt]
    exact ⟨_, rfl, b', q :: l, ⟨hstorage', rfl, .storage _ _ _ hlt, hwrites, hpairs⟩,
      overlay_storage hlt⟩
  | buffered k write v b l hv hlt =>
    rw [overlay_buffered hv hlt]
    refine ⟨_, ?_, _, _, ⟨hstorage, rfl, .buffered k write v b _ hv hlt, hwrites, hpairs⟩,
      overlay_buffered hv hlt⟩
    simp [bufferedPeek, BufferRangeIterator.peek, hv]
  | both k write v w b l hv =>
    rw [overlay_both hv]
    refine ⟨_, ?_, _, _, ⟨hstorage, rfl, .both k write v w b l hv, hwrites, hpairs⟩,
      overlay_both hv⟩
    simp [bufferedPeek, BufferRangeIterator.peek, hv]

theorem Follows.next (h : it.Follows targets o) :
    ∃ it', it.next = some (o.head?, it') ∧ it'.Follows targets o.tail := by
  obtain ⟨b, l, htracks, rfl⟩ := h
  obtain ⟨⟨storage, buffered, source⟩, b', l', hprepare, htracks', hover, hend⟩ :=
    prepare_spec htracks
  obtain ⟨hstorage, rfl, hready, hwrites, hpairs⟩ := htracks'
  rw [next, hprepare, ← hover]
  simp only [bind_eq_bind, bind_some]
  cases hready with
  | none =>
    obtain ⟨rfl, rfl⟩ := hend rfl
    rw [overlay_nil_left]
    exact ⟨_, rfl, [], [], ⟨hstorage, rfl, .none _ _, .nil, fun _ _ => .nil⟩, overlay_nil_left⟩
  | storage _ q l hlt =>
    obtain ⟨storage', hnext, hstorage'⟩ := hstorage.next
    rw [overlay_storage hlt]
    simp only [storageNext, hnext, bind_eq_bind, bind_some]
    exact ⟨_, rfl, b', l, ⟨hstorage', rfl, .none _ _, hwrites,
      fun target ht => (hpairs target ht).of_cons⟩, rfl⟩
  | buffered k write v b l hv hlt =>
    rw [overlay_buffered hv hlt]
    refine ⟨⟨storage, some ⟨b⟩, none⟩, ?_, b, l',
      ⟨hstorage, rfl, .none _ _, hwrites.of_cons, hpairs⟩, rfl⟩
    simp [bufferedNext, bufferedPeek, BufferRangeIterator.peek, hv, skipBuffered,
      BufferRangeIterator.next]
  | both k write v w b l hv =>
    obtain ⟨storage', hnext, hstorage'⟩ := hstorage.next
    rw [overlay_both hv]
    refine ⟨⟨storage', some ⟨b⟩, none⟩, ?_, b, l,
      ⟨hstorage', rfl, .none _ _, hwrites.of_cons,
        fun target ht => (hpairs target ht).of_cons⟩, rfl⟩
    simp [storageNext, hnext, bufferedNext, bufferedPeek, BufferRangeIterator.peek, hv,
      skipBuffered, BufferRangeIterator.next]

theorem Follows.seek (h : it.Follows targets o) {key : Bytes} (hkey : targets key) :
    ∃ it', it.seek key = some it' ∧
      it'.Follows targets (o.dropWhile fun p => decide (p.1 < key)) := by
  obtain ⟨it', hpeek, hfollows⟩ := h.peek
  rw [SnapshotRangeIterator.seek, hpeek]
  simp only [bind_eq_bind, bind_some]
  cases o with
  | nil => exact ⟨it', rfl, hfollows⟩
  | cons item o =>
    simp only [head?_cons]
    split_ifs with hlt
    · obtain ⟨b, l, htracks, hover⟩ := hfollows
      obtain ⟨storage, hseek, hstorage⟩ := htracks.storage.seek hkey
      have hsought : Tracks targets
          ⟨storage, some ⟨b.dropWhile fun p => decide (p.1 < key)⟩, none⟩
          (b.dropWhile fun p => decide (p.1 < key)) (l.dropWhile fun p => decide (p.1 < key)) :=
        ⟨hstorage, rfl, .none _ _, htracks.sortedWrites.sublist (dropWhile_sublist _),
          fun target ht => (htracks.sortedPairs target ht).sublist (dropWhile_sublist _)⟩
      obtain ⟨it'', b', l', hprepare, htracks', hover', -⟩ := prepare_spec hsought
      refine ⟨it'', ?_, b', l', htracks', ?_⟩
      · simp only [hseek, bind_some, htracks.buffered, map_some]
        exact hprepare
      · rw [hover', overlay_dropWhile htracks.sortedWrites (htracks.sortedPairs key hkey), hover]
    · rw [dropWhile_cons_of_neg (by simpa using hlt)]
      exact ⟨it', rfl, hfollows⟩

theorem Follows.run (h : it.Follows targets o) {calls : List IteratorCall}
    (hcalls : ∀ call ∈ calls, call.SeeksIn targets) : it.run calls = some (answers o calls) := by
  induction calls generalizing it o with
  | nil => rfl
  | cons call calls ih =>
    obtain ⟨hcall, hrest⟩ := forall_mem_cons.mp hcalls
    cases call with
    | peek =>
      obtain ⟨it', hpeek, hfollows⟩ := h.peek
      simp [run, hpeek, ih hfollows hrest, answers]
    | next =>
      obtain ⟨it', hnext, hfollows⟩ := h.next
      simp [run, hnext, ih hfollows hrest, answers]
    | seek key =>
      obtain ⟨it', hseek, hfollows⟩ := h.seek hcall
      simp [run, hseek, ih hfollows hrest, answers]

end SnapshotRangeIterator
end Merge
end TypeDB.Storage
