import TypeDB.Foundations.Draining
import TypeDB.Storage.SnapshotCommit

/-! What a snapshot reads just before it commits against what one reads that is opened afterwards,
when no other commit comes between. Reads of single keys agree. In a range the writes are merged by
the order of the keys and between the buffer's bounds before the commit; afterwards they are versions
like the others, in the order of the raw keys and between the raw bounds. -/

namespace TypeDB.Storage
open ByteString Draining List MVCCKey Option Overlay SnapshotRangeIterator WriteBuffer OrderedMap
open Write Storage.Stream ContinueCondition MVCCRangeIterator.Yields KeyRange

structure ReadSnapshot where
  entries : List KeyValue
  openSequenceNumber : Nat

namespace ReadSnapshot

def get (snapshot : ReadSnapshot) (key : Bytes) : Option (Option Bytes) :=
  Storage.get snapshot.entries key snapshot.openSequenceNumber

def iterateRange (snapshot : ReadSnapshot) (range : KeyRange) : Option SnapshotRangeIterator := do
  let mvccIterator ← MVCCRangeIterator.new snapshot.entries range snapshot.openSequenceNumber
  some (.new mvccIterator none)

def Returns (snapshot : ReadSnapshot) (range : KeyRange) (l : List KeyValue) : Prop :=
  ∃ it, snapshot.iterateRange range = some it ∧ Drains SnapshotRangeIterator.next it l

end ReadSnapshot

def WriteSnapshot.Returns (snapshot : WriteSnapshot) (range : KeyRange) (l : List KeyValue) :
    Prop :=
  ∃ it, snapshot.iterateRange range = some it ∧ Drains SnapshotRangeIterator.next it l

def BufferCall.isPutExisting : BufferCall → Bool
  | .putExisting _ _ => true
  | _ => false

def WriteBuffer.Unassumed (buffer : WriteBuffer) : Prop :=
  ∀ k v, buffer.writesGet k ≠ some (.put v true)

theorem WriteBuffer.Unassumed.call {buffer buffer' : WriteBuffer} {c : BufferCall}
    (h : buffer.Unassumed) (hc : c.isPutExisting = false) (hcall : buffer.call c = some buffer') :
    buffer'.Unassumed := by
  -- an erased key has no write, and an inserted one is known
  have herase : ∀ key, (mk (buffer.writes.erase key)).Unassumed := by
    intro key k v
    rw [writesGet, get?_erase]
    split_ifs
    · nofun
    · exact h k v
  have hinsert : ∀ key write, (∀ v, write ≠ .put v true) →
      (mk (buffer.writes.insert key write)).Unassumed := by
    intro key write hwrite k v
    rw [writesGet, get?_insert]
    split_ifs
    · exact fun heq => hwrite v (some.inj heq)
    · exact h k v
  cases c with
  | insert key value | put key value | delete key =>
    cases hcall
    exact hinsert key _ nofun
  | putExisting key value => cases hc
  | uninsert key value =>
    simp only [WriteBuffer.call, uninsert] at hcall
    split at hcall
    · split_ifs at hcall
      cases hcall
      exact herase key
    · cases hcall
  | unput key value =>
    simp only [WriteBuffer.call, unput] at hcall
    split at hcall
    · split_ifs at hcall
      cases hcall
      exact herase key
    · cases hcall

theorem WriteBuffer.Unassumed.calls {calls : List BufferCall} {buffer buffer' : WriteBuffer}
    (h : buffer.Unassumed) (hcalls : ∀ c ∈ calls, c.isPutExisting = false)
    (hrun : calls.foldlM WriteBuffer.call buffer = some buffer') : buffer'.Unassumed := by
  induction calls generalizing buffer with
  | nil =>
    cases hrun
    exact h
  | cons c calls ih =>
    obtain ⟨hc, hrest⟩ := forall_mem_cons.mp hcalls
    obtain ⟨next, hnext, hrun⟩ := bind_eq_some_iff.mp hrun
    exact ih (h.call hc hnext) hrest hrun

namespace SnapshotRangeIterator
variable {entries : List KeyValue} {cond : ContinueCondition} {s : Nat}
  {it : SnapshotRangeIterator} {st : Stream} {o : KeyValue} {outs l : List KeyValue} {b : Bool}

structure Plain (entries : List KeyValue) (cond : ContinueCondition) (s : Nat)
    (it : SnapshotRangeIterator) (st : Stream) : Prop where
  yields : it.storageIterator.Yields entries cond s st
  buffered : it.bufferedIterator = none
  ready : it.readyItemSource = none

section Drains
variable (hops : ∀ p ∈ entries, operation p.1 ≠ none)
include hops

theorem Plain.next_panics (h : it.Plain entries cond s ⟨[], true⟩) : it.next = none := by
  obtain ⟨storage, buffered, source⟩ := it
  obtain ⟨hyields, rfl, rfl⟩ := h
  have hpeek := hyields.peek hops
  simp only [next, prepare, rounds, findNextState]
  generalize storage.peek = result at hpeek
  cases hpeek
  rfl

theorem Plain.next_some (h : it.Plain entries cond s ⟨outs, b⟩) (hne : b = true → outs ≠ []) :
    ∃ it', it.next = some (outs.head?, it') ∧ it'.Plain entries cond s ⟨outs.tail, b⟩ := by
  obtain ⟨storage, buffered, source⟩ := it
  obtain ⟨hyields, rfl, rfl⟩ := h
  have hpeek := hyields.peek hops
  simp only [next, prepare, rounds, findNextState]
  generalize storage.peek = result at hpeek
  cases hpeek with
  | panics => exact absurd rfl (hne rfl)
  | ended storage' h' => exact ⟨_, rfl, h', rfl, rfl⟩
  | item storage' o rest hitem h' hp =>
    simp only [bind_eq_bind, bind_some, bind_none, storageNext, MVCCRangeIterator.next, hitem]
    exact ⟨_, rfl, .ready (some o.1) rest rfl ⟨h'.buffered, h'.reads, h'.opened, h'.last_eq⟩,
      rfl, rfl⟩

theorem Plain.drains_iff (h : it.Plain entries cond s st) : Drains next it l ↔ st = ⟨l, false⟩ := by
  obtain ⟨outs, b⟩ := st
  cases b with
  | true =>
    refine iff_of_false ?_ (by simp)
    exact not_drains_of_before (B := fun it l => Plain entries cond s it ⟨l, true⟩)
      (fun it h => h.next_panics hops) (fun it a l h => h.next_some hops (by simp)) h
  | false =>
    have hstep : ∀ (it : SnapshotRangeIterator) l, it.Plain entries cond s ⟨l, false⟩ →
        ∃ it', it.next = some (l.head?.map id, it') ∧ it'.Plain entries cond s ⟨l.tail, false⟩ :=
      fun it l h => by simpa using h.next_some hops (by simp)
    have hdrains := map_id outs ▸ drains_of_before hstep h
    exact ⟨fun hl => by rw [hl.unique hdrains], fun hst => by cases hst; exact hdrains⟩

structure Doomed (entries : List KeyValue) (cond : ContinueCondition) (s : Nat)
    (it : SnapshotRangeIterator) : Prop where
  yields : ∃ outs, it.storageIterator.Yields entries cond s ⟨outs, true⟩
  buffered : ∃ b, it.bufferedIterator = some ⟨b⟩

def BufferReady (it : SnapshotRangeIterator) : Prop :=
  it.readyItemSource = some .storage ∨ it.readyItemSource ≠ none ∧
    ∃ k write v b, it.bufferedIterator = some ⟨(k, write) :: b⟩ ∧ write.getValue = some v

theorem Doomed.findNextState {fuel : Nat} (h : it.Doomed entries cond s)
    (hready : it.readyItemSource = none)
    (hfuel : ∀ b, it.bufferedIterator = some ⟨b⟩ → b.length < fuel) :
    ∀ it', it.findNextState fuel = some it' → it'.Doomed entries cond s ∧ it'.BufferReady := by
  induction fuel generalizing it with
  | zero =>
    obtain ⟨b, hb⟩ := h.buffered
    exact absurd (hfuel b hb) (Nat.not_lt_zero _)
  | succ fuel ih =>
    intro it' hfind
    obtain ⟨storage, buffered, source⟩ := it
    obtain ⟨⟨outs, hyields⟩, b, hb⟩ := h
    obtain rfl : buffered = some ⟨b⟩ := hb
    obtain rfl : source = none := hready
    have hlength : b.length < fuel + 1 := hfuel b rfl
    rw [findNextState] at hfind
    obtain ⟨⟨peeked, storage'⟩, hpeek, hfind⟩ := bind_eq_some_iff.mp hfind
    have hpeeked := hyields.peek hops
    rw [hpeek] at hpeeked
    generalize hst : (⟨outs, true⟩ : Stream) = st at hpeeked
    cases hpeeked with
    | ended _ h' => cases hst
    | item _ o rest hitem h' hp =>
      have hpanics : rest.panics = true := (congrArg panics hst).symm
      have hleft := peeked o rest hitem h' hp
      rw [hpanics] at hleft
      cases b with
      | nil =>
        cases hfind
        exact ⟨⟨⟨_, hleft⟩, [], rfl⟩, .inl rfl⟩
      | cons p b =>
        obtain ⟨k, write⟩ := p
        have hvalue : ¬ write.isDelete = true → ∃ v, write.getValue = some v := fun hp => by
          rwa [← ne_none_iff_exists', Ne, getValue_eq_none]
        have hrest : ∀ b', (some ⟨b⟩ : Option BufferRangeIterator) = some ⟨b'⟩ →
            b'.length < fuel := by
          intro b' hb'
          cases hb'
          exact Nat.lt_of_succ_lt_succ hlength
        simp only [bind_some, BufferRangeIterator.peek, head?_cons] at hfind
        split_ifs at hfind with hlt hdelete heq hdelete
        · -- a delete before the stored key is passed over
          exact ih ⟨⟨_, hleft⟩, b, rfl⟩ rfl hrest it' hfind
        · cases hfind
          obtain ⟨v, hv⟩ := hvalue hdelete
          exact ⟨⟨⟨_, hleft⟩, _, rfl⟩, .inr ⟨by rintro ⟨⟩, k, write, v, b, rfl, hv⟩⟩
        · simp only [MVCCRangeIterator.next, hitem, bind_eq_bind, bind_some] at hfind
          have hnext : MVCCRangeIterator.Yields entries cond s { storage' with item := none }
              (rest.picked s (some o.1)) :=
            .ready (some o.1) rest rfl ⟨h'.buffered, h'.reads, h'.opened, h'.last_eq⟩
          rw [picked, hpanics] at hnext
          exact ih ⟨⟨_, hnext⟩, b, rfl⟩ rfl hrest it' hfind
        · cases hfind
          obtain ⟨v, hv⟩ := hvalue hdelete
          exact ⟨⟨⟨_, hleft⟩, _, rfl⟩, .inr ⟨by rintro ⟨⟩, k, write, v, b, rfl, hv⟩⟩
        · cases hfind
          exact ⟨⟨⟨_, hleft⟩, _, rfl⟩, .inl rfl⟩

theorem Doomed.storageNext (h : it.Doomed entries cond s) {item : Option KeyValue}
    {it' : SnapshotRangeIterator} (hnext : it.storageNext = some (item, it')) :
    item ≠ none ∧ it'.Doomed entries cond s ∧ it'.bufferedIterator = it.bufferedIterator ∧
      it'.readyItemSource = it.readyItemSource := by
  obtain ⟨outs, hyields⟩ := h.yields
  obtain ⟨⟨taken, storage⟩, hstorage, hit⟩ := bind_eq_some_iff.mp hnext
  cases hit
  have hadvanced := hyields.next hops
  rw [hstorage] at hadvanced
  generalize hst : (⟨outs, true⟩ : Stream) = st at hadvanced
  cases hadvanced with
  | ended _ last hitem h' => cases hst
  | item _ o rest hitem h' hp =>
    have hleft := ready (some o.1) rest hitem h'
    rw [picked, (congrArg panics hst).symm] at hleft
    exact ⟨by rintro ⟨⟩, ⟨⟨_, hleft⟩, h.buffered⟩, rfl, rfl⟩

omit hops in
theorem bufferedNext_of_cons {k v : Bytes} {write : Write Bytes} {b : List (Bytes × Write Bytes)}
    (hb : it.bufferedIterator = some ⟨(k, write) :: b⟩) (hv : write.getValue = some v) :
    it.bufferedNext = some (some (k, v), { it with bufferedIterator := some ⟨b⟩ }) := by
  simp [bufferedNext, bufferedPeek, skipBuffered, hb, BufferRangeIterator.peek,
    BufferRangeIterator.next, hv]

theorem Doomed.next (h : it.Doomed entries cond s) (hready : it.readyItemSource = none)
    {item : Option KeyValue} {it' : SnapshotRangeIterator} (hnext : it.next = some (item, it')) :
    item ≠ none ∧ it'.Doomed entries cond s ∧ it'.readyItemSource = none := by
  obtain ⟨found, hprepare, hnext⟩ := bind_eq_some_iff.mp hnext
  have hfound : found.Doomed entries cond s ∧ found.BufferReady := by
    rw [prepare, hready] at hprepare
    refine h.findNextState hops hready (fun b hb => ?_) found hprepare
    simp [rounds, hb]
  obtain ⟨⟨hyields, hbuffered⟩, hsource⟩ := hfound
  have htaken : Doomed entries cond s { found with readyItemSource := none } := ⟨hyields, hbuffered⟩
  rcases hsource with hstorage | ⟨hne, k, write, v, b, hb, hv⟩
  · rw [hstorage] at hnext
    obtain ⟨hitem, hdoomed, -, hnone⟩ := htaken.storageNext hops hnext
    exact ⟨hitem, hdoomed, hnone⟩
  · cases hsource : found.readyItemSource with
    | none => exact absurd hsource hne
    | some source =>
      rw [hsource] at hnext
      cases source with
      | storage =>
        obtain ⟨hitem, hdoomed, -, hnone⟩ := htaken.storageNext hops hnext
        exact ⟨hitem, hdoomed, hnone⟩
      | buffered =>
        have hbuffer : bufferedNext { found with readyItemSource := none } = _ :=
          bufferedNext_of_cons hb hv
        cases hbuffer.symm.trans hnext
        exact ⟨by rintro ⟨⟩, ⟨hyields, b, rfl⟩, rfl⟩
      | both =>
        obtain ⟨⟨dropped, passed⟩, hstorage, hnext⟩ := bind_eq_some_iff.mp hnext
        obtain ⟨-, hdoomed, hkept, hnone⟩ := htaken.storageNext hops hstorage
        cases (bufferedNext_of_cons (hkept.trans hb) hv).symm.trans hnext
        exact ⟨by rintro ⟨⟩, ⟨hdoomed.yields, b, rfl⟩, hnone⟩

theorem Doomed.not_drains (h : it.Doomed entries cond s) (hready : it.readyItemSource = none) :
    ¬ Drains SnapshotRangeIterator.next it l := by
  intro hdrains
  induction hdrains with
  | done it it' hnext => exact (h.next hops hready hnext).1 rfl
  | item it it' a items hnext rest ih =>
    obtain ⟨-, hdoomed, hnone⟩ := h.next hops hready hnext
    exact ih hdoomed hnone

end Drains

theorem Follows.drains {targets : Bytes → Prop} (h : it.Follows targets l) :
    Drains SnapshotRangeIterator.next it l := by
  have hstep : ∀ (it : SnapshotRangeIterator) l, it.Follows targets l →
      ∃ it', it.next = some (l.head?.map id, it') ∧ it'.Follows targets l.tail := by
    intro it l h
    rw [Option.map_id_fun]
    exact h.next
  exact map_id l ▸ drains_of_before hstep h

end SnapshotRangeIterator

/-- The raw key is reached by a scan from the start. -/
def KeyRange.Reaches (range : KeyRange) (start raw : Bytes) : Prop :=
  start ≤ raw ∧ range.rangeStart.skips raw = false

/-- It is reached and the end lets it through. -/
def KeyRange.Scans (range : KeyRange) (start raw : Bytes) : Prop :=
  range.Reaches start raw ∧ range.continueCondition.acceptValue raw = some true

instance (range : KeyRange) (start raw : Bytes) : Decidable (range.Reaches start raw) :=
  inferInstanceAs (Decidable (_ ∧ _))

instance (range : KeyRange) (start raw : Bytes) : Decidable (range.Scans start raw) :=
  inferInstanceAs (Decidable (_ ∧ _))

namespace StoredVersions

def reader (store : StoredVersions) (r : Nat) : ReadSnapshot := ⟨store.raw.entries, r⟩

def scan (store : StoredVersions) (range : KeyRange) (start : Bytes) : List KeyValue :=
  range.continueCondition.accepted (range.reached store.raw.entries start)

def Readable (store : StoredVersions) (range : KeyRange) (start : Bytes) : Prop :=
  range.continueCondition.Readable (range.reached store.raw.entries start)

/-- A put of the value that is seen already becomes no version. -/
def Repeats (store : StoredVersions) (s : Nat) (k : Bytes) (write : Write Bytes) : Prop :=
  ∃ v known, write = .put v known ∧ store.Sees s k v

/-- The versions there are once the writes are versions too. -/
def Joins (store : StoredVersions) (buffer : WriteBuffer) (s n : Nat) (p : KeyValue) : Prop :=
  p ∈ store.raw.entries ∨ ∃ k write, buffer.writesGet k = some write ∧
    ¬ store.Repeats s k write ∧ p = newVersion n k write

/-- No version of a key comes between two of another. -/
def Whole (store : StoredVersions) (buffer : WriteBuffer) (s n : Nat) : Prop :=
  ∀ p q r, store.Joins buffer s n p → store.Joins buffer s n q → store.Joins buffer s n r →
    key p.1 = key q.1 → q.1 < r.1 → r.1 < p.1 → key r.1 = key p.1

/-- The versions of `k` come before those of `k'`. -/
def Precedes (store : StoredVersions) (buffer : WriteBuffer) (s n : Nat) (k k' : Bytes) : Prop :=
  k ≠ k' ∧ ∃ p q, store.Joins buffer s n p ∧ store.Joins buffer s n q ∧ key p.1 = k ∧
    key q.1 = k' ∧ p.1 < q.1

variable (store : StoredVersions) (buffer : WriteBuffer) (range : KeyRange) (s n : Nat)
  (start : Bytes)

/-- The scan of what is stored returns the key. -/
def Returned (k : Bytes) : Prop := shown s (store.scan range start) k ≠ none

/-- Before it the scan returns a key that is not smaller, so that a write of the key is merged in
front of that one. -/
def Overtaken (k : Bytes) : Prop :=
  ∃ k', store.Returned range s start k' ∧ store.Precedes buffer s n k' k ∧ k ≤ k'

/-- A write of `k` is merged in front of the pair of `k'`. -/
def MergedBefore (k k' : Bytes) : Prop :=
  ∃ k'', store.Returned range s start k'' ∧ (k'' = k' ∨ store.Precedes buffer s n k'' k') ∧ k ≤ k''

/-- The write is between the bounds given to the buffer. -/
def Taken (buffer : WriteBuffer) (range : KeyRange) (k : Bytes) (write : Write Bytes) : Prop :=
  Bounded range k ∧ buffer.writesGet k = some write

/-- The write becomes a version between the raw bounds. -/
def Adds (k : Bytes) (write : Write Bytes) : Prop :=
  ¬ store.Repeats s k write ∧ range.Scans start (newVersion n k write).1

/-- What a write needs. If the pair of its key is returned behind a greater key, it cannot replace the
pair: it has to be a delete whose version is not scanned. Otherwise it has to be on the same side of
the buffer's bounds and of the raw ones, or make no difference. -/
def WriteFits (k : Bytes) (write : Write Bytes) : Prop :=
  (Bounded range k ∧ store.Returned range s start k ∧ store.Overtaken buffer range s n start k →
    write.getValue = none ∧ ¬ store.Adds range s n start k write) ∧
  (¬ (Bounded range k ∧ store.Returned range s start k ∧
      store.Overtaken buffer range s n start k) →
    (Bounded range k ↔ store.Adds range s n start k write) ∨
      shown s (store.scan range start) k = write.getValue)

/-- The raw keys there are after the commit can be compared with the end, the writes fit, and the
values written come in the order of their versions, among themselves and among the other pairs. -/
structure CommitFits : Prop where
  readable : ∀ p, store.Joins buffer s n p → range.Reaches start p.1 →
    range.continueCondition.acceptValue p.1 = none → ∃ q, store.Joins buffer s n q ∧
      range.Reaches start q.1 ∧ q.1 < p.1 ∧ range.continueCondition.acceptValue q.1 = some false
  writes : ∀ k write, buffer.writesGet k = some write →
    store.WriteFits buffer range s n start k write
  ascending : ∀ k write k' write', Taken buffer range k write → Taken buffer range k' write' →
    write.getValue ≠ none → write'.getValue ≠ none → k < k' → store.Precedes buffer s n k k'
  placed : ∀ k write, Taken buffer range k write → write.getValue ≠ none →
    ∀ k', store.Returned range s start k' →
      ((∀ write', ¬ Taken buffer range k' write') ∨ store.Overtaken buffer range s n start k') →
      (store.MergedBefore buffer range s n start k k' → store.Precedes buffer s n k k') ∧
        (¬ store.MergedBefore buffer range s n start k k' → store.Precedes buffer s n k' k)

/-- The store after a commit at `n` of a snapshot that was opened at `s`, past all versions. -/
structure Commits (after : StoredVersions) : Prop where
  unassumed : buffer.Unassumed
  latest : ∀ p ∈ store.raw.entries, sequenceNumber p.1 ≤ s
  later : s < n
  fits : n < 2 ^ 64
  whole : store.Whole buffer s n
  commit : snapshotCommit store.raw buffer s n = some after.raw

variable {store buffer range s n start} {after : StoredVersions} {r : Nat} {k v : Bytes}
  {write : Write Bytes} {b : List (Bytes × Write Bytes)} {l : List KeyValue} {p q : KeyValue}

theorem mem_scan : p ∈ store.scan range start ↔
    p ∈ store.raw.entries ∧ range.Scans start p.1 := mem_scanned

theorem scan_sublist (store : StoredVersions) (range : KeyRange) (start : Bytes) :
    (store.scan range start).Sublist store.raw.entries :=
  (accepted_sublist _ _).trans (range.reached_sublist _ _)

theorem scan_eq_filter : store.scan range start =
    store.raw.entries.filter fun p => decide (range.Scans start p.1) := by
  refine eq_of_mem_iff (store.raw.sorted.sublist (store.scan_sublist range start))
    (store.raw.sorted.filter _) fun p => ?_
  rw [mem_scan, mem_filter, decide_eq_true_iff]

theorem shown_of_latest {l : List KeyValue} (hs : ∀ p ∈ l, sequenceNumber p.1 ≤ s) (hr : s ≤ r) :
    shown r l k = shown s l k := by
  have hvisible : ∀ p ∈ l, (decide (key p.1 = k) && isVisibleTo p.1 r) =
      (decide (key p.1 = k) && isVisibleTo p.1 s) := by
    intro p hp
    simp [isVisibleTo, hs p hp, (hs p hp).trans hr]
  rw [shown, shown, find?_congr hvisible]

section After
variable (h : store.Commits buffer s n after)
include h

theorem Commits.unparted (hl : l.Sublist store.raw.entries) (k : Bytes) :
    Unparted s l k := fun p hp q hq m hm hpk hqk _ _ hqm hmp =>
  (h.whole p q m (.inl (hl.subset hp)) (.inl (hl.subset hq)) (.inl (hl.subset hm))
    (hpk.trans hqk.symm) hqm hmp).trans hpk

theorem Commits.gets : store.GetsExactly s :=
  getsExactly_of_unparted (h.unparted (Sublist.refl _))

theorem Commits.leavesOut_iff (hw : buffer.writesGet k = some write) :
    store.leavesOut s k write = true ↔ store.Repeats s k write := by
  obtain ⟨value, hget, hvalue⟩ := h.gets k
  cases write with
  | insert value | delete => simp [leavesOut, Repeats]
  | put v known =>
    have hknown : known = false := by
      cases known with
      | false => rfl
      | true => exact absurd hw (h.unassumed k v)
    simp [leavesOut, Repeats, hknown, hget, hvalue]

theorem Commits.mem : p ∈ after.raw.entries ↔ store.Joins buffer s n p := by
  obtain ⟨raw, hcommit, hmem⟩ := store.snapshotCommit_spec buffer s h.fits
    fun p hp => (h.latest p hp).trans_lt h.later
  obtain rfl : raw = after.raw := some.inj (hcommit.symm.trans h.commit)
  rw [hmem, Joins]
  refine or_congr_right (exists₂_congr fun k write => and_congr_right fun hw => ?_)
  rw [← h.leavesOut_iff hw, Bool.not_eq_true]

theorem Commits.unparted_after (hl : l.Sublist after.raw.entries) (k : Bytes) :
    Unparted r l k := fun p hp q hq m hm hpk hqk _ _ hqm hmp =>
  (h.whole p q m (h.mem.mp (hl.subset hp)) (h.mem.mp (hl.subset hq)) (h.mem.mp (hl.subset hm))
    (hpk.trans hqk.symm) hqm hmp).trans hpk

theorem Commits.sequenceNumber_le (hp : p ∈ after.raw.entries) : sequenceNumber p.1 ≤ n := by
  rcases h.mem.mp hp with hp | ⟨k, write, -, -, rfl⟩
  · exact (h.latest p hp).trans h.later.le
  · exact (sequenceNumber_newVersion h.fits k write).le

/-- A new version decides its key wherever it is looked at. -/
theorem Commits.shown_added (hr : n ≤ r) (f : KeyValue → Bool)
    (hw : buffer.writesGet k = some write) (hnew : ¬ store.Repeats s k write)
    (hf : f (newVersion n k write) = true) :
    shown r (after.raw.entries.filter f) k = write.getValue := by
  have hmem : newVersion n k write ∈ after.raw.entries := h.mem.mpr (.inr ⟨k, write, hw, hnew, rfl⟩)
  have hseq := sequenceNumber_newVersion h.fits k write
  have hfind : (after.raw.entries.filter f).find?
      (fun p => decide (key p.1 = k) && isVisibleTo p.1 r) = some (newVersion n k write) := by
    refine (find?_eq_some_iff_newest (after.newestFirst.filter f)).mpr
      ⟨mem_filter.mpr ⟨hmem, hf⟩, key_newVersion n k write, hseq.le.trans hr, fun q hq _ _ => ?_⟩
    rw [hseq]
    exact h.sequenceNumber_le (mem_filter.mp hq).1
  rw [shown, hfind]
  exact newVersion_value n k write

theorem Commits.shown_kept (hr : n ≤ r) (f : KeyValue → Bool)
    (hnone : ∀ write, buffer.writesGet k = some write → ¬ store.Repeats s k write →
      f (newVersion n k write) = false) :
    shown r (after.raw.entries.filter f) k = shown s (store.raw.entries.filter f) k := by
  rw [← shown_of_latest (s := s) (r := r) (fun p hp => h.latest p (mem_filter.mp hp).1)
    (h.later.le.trans hr)]
  refine shown_congr (eq_of_mem_iff ((after.raw.sorted.filter _).filter _)
    ((store.raw.sorted.filter _).filter _) fun p => ?_)
  simp only [mem_filter, decide_eq_true_eq, h.mem, Joins]
  refine and_congr_left fun hpk => and_congr_left fun hf => or_iff_left ?_
  rintro ⟨k', write, hw, hnew, rfl⟩
  obtain rfl : k' = k := by simpa using hpk
  rw [hnone write hw hnew] at hf
  cases hf

theorem Commits.sees_iff_shows (hr : n ≤ r) : after.Sees r k v ↔ store.Shows buffer s k v := by
  have hall : ∀ store : StoredVersions, store.raw.entries =
      store.raw.entries.filter fun _ => true := fun store => by simp
  rw [← shown_iff_sees, hall after, Shows]
  cases hw : buffer.writesGet k with
  | none =>
    rw [h.shown_kept hr _ (by simp [hw]), ← hall store]
    exact shown_iff_sees
  | some write =>
    change _ ↔ write.getValue = some v
    by_cases hnew : store.Repeats s k write
    · have hkept := h.shown_kept hr (k := k) (fun _ => true) (by
        rintro _ hw' hnew'
        obtain rfl := some.inj (hw.symm.trans hw')
        exact absurd hnew hnew')
      obtain ⟨w, known, rfl, hsees⟩ := hnew
      rw [hkept, ← hall store, shown_iff_sees.mpr hsees]
      rfl
    · rw [h.shown_added hr _ hw hnew rfl]

theorem Commits.gets_iff (hr : n ≤ r) (k : Bytes) :
    ∃ value, (store.snapshot buffer s).get k = some value ∧
      (after.reader r).get k = some value := by
  obtain ⟨value, hget, hvalue⟩ := snapshot_get h.gets buffer k
  obtain ⟨value', hget', hvalue'⟩ :=
    getsExactly_of_unparted (h.unparted_after (r := r) (Sublist.refl _)) k
  obtain rfl : value = value' := Option.ext fun v =>
    (hvalue v).trans ((h.sees_iff_shows hr).symm.trans (hvalue' v).symm)
  exact ⟨value, hget, hget'⟩

theorem Commits.precedes_asymm {k k' : Bytes} (hk : store.Precedes buffer s n k k') :
    ¬ store.Precedes buffer s n k' k := by
  rintro ⟨-, q', p', hq', hp', hq'k, hp'k, hlt'⟩
  obtain ⟨hne, p, q, hp, hq, hpk, hqk, hlt⟩ := hk
  -- otherwise the versions of one of the two come between those of the other
  rcases lt_trichotomy q.1 p'.1 with hqp | hqp | hqp
  · have := h.whole p' p q hp' hp hq (hp'k.trans hpk.symm) hlt hqp
    exact hne (hp'k.symm.trans (this.symm.trans hqk))
  · exact hne (hp'k.symm.trans ((congrArg key hqp).symm.trans hqk))
  · have := h.whole q q' p' hq hq' hp' (hqk.trans hq'k.symm) hlt' hqp
    exact hne (hp'k.symm.trans (this.trans hqk))

theorem Commits.pairwise_scan :
    (pick s none (store.scan range start)).Pairwise
      fun a b => store.Precedes buffer s n a.1 b.1 := by
  have hsub := store.scan_sublist range start
  refine pairwise_pick_of_unparted hsub (h.unparted hsub) fun p hp q hq hne hlt => ?_
  exact ⟨hne, p, q, .inl (hsub.subset hp), .inl (hsub.subset hq), rfl, rfl, hlt⟩

theorem Commits.pairwise_scan_after :
    (pick r none (after.scan range start)).Pairwise
      fun a b => store.Precedes buffer s n a.1 b.1 := by
  have hsub := after.scan_sublist range start
  refine pairwise_pick_of_unparted hsub (h.unparted_after hsub) fun p hp q hq hne hlt => ?_
  exact ⟨hne, p, q, h.mem.mp (hsub.subset hp), h.mem.mp (hsub.subset hq), rfl, rfl, hlt⟩

theorem Commits.mem_scan_iff :
    (k, v) ∈ pick s none (store.scan range start) ↔ shown s (store.scan range start) k = some v :=
  mem_pick_iff_shown (store.scan_sublist range start) (h.unparted (store.scan_sublist range start))

theorem Commits.returned_iff :
    store.Returned range s start k ↔ ∃ v, (k, v) ∈ pick s none (store.scan range start) := by
  simp only [h.mem_scan_iff]
  exact ne_none_iff_exists'

/-- After the commit a key that is written is returned with the written value if its new version is
scanned, and any other one as before. -/
theorem Commits.mem_scan_after_iff (hr : n ≤ r) :
    (k, v) ∈ pick r none (after.scan range start) ↔
      (∃ write, buffer.writesGet k = some write ∧ store.Adds range s n start k write ∧
        write.getValue = some v) ∨
      ((∀ write, buffer.writesGet k = some write → ¬ store.Adds range s n start k write) ∧
        shown s (store.scan range start) k = some v) := by
  have hsub := after.scan_sublist range start
  rw [mem_pick_iff_shown hsub (h.unparted_after hsub), scan_eq_filter, scan_eq_filter]
  by_cases hadds : ∃ write, buffer.writesGet k = some write ∧ store.Adds range s n start k write
  · obtain ⟨write, hw, hadds⟩ := hadds
    rw [h.shown_added hr _ hw hadds.1 (by simpa using hadds.2)]
    simp [hw, hadds]
  · rw [h.shown_kept hr]
    · grind
    · intro write hw hnew
      simpa using fun hscans => hadds ⟨write, hw, hnew, hscans⟩

section Merge
variable (hwrites : buffer.writesIn range = some b)
include hwrites

omit h in
theorem mem_writesIn_iff : (k, write) ∈ b ↔ Taken buffer range k write := by
  obtain ⟨hsorted, hget⟩ := writesIn_eq_some hwrites
  rw [Taken, ← hget]
  exact ⟨getList_of_mem hsorted, mem_of_getList⟩

theorem Commits.kept_iff {x : KeyValue} :
    Kept (fun a b => store.Precedes buffer s n a.1 b.1) b (pick s none (store.scan range start)) x ↔
      (∀ write, ¬ Taken buffer range x.1 write) ∨ store.Overtaken buffer range s n start x.1 := by
  refine or_congr ?_ ?_
  · constructor
    · exact fun hne write ht => hne _ ((mem_writesIn_iff hwrites).mpr ht) rfl
    · rintro hnone ⟨k, write⟩ hp rfl
      exact hnone write ((mem_writesIn_iff hwrites).mp hp)
  · simp only [Overtaken, h.returned_iff]
    constructor
    · rintro ⟨⟨k, v⟩, ha, hlt, hle⟩
      exact ⟨k, ⟨v, ha⟩, hlt, hle⟩
    · rintro ⟨k, ⟨v, ha⟩, hlt, hle⟩
      exact ⟨(k, v), ha, hlt, hle⟩

omit hwrites in
theorem Commits.laidBefore_iff {x : KeyValue} (hx : x ∈ pick s none (store.scan range start)) :
    LaidBefore (fun a b => store.Precedes buffer s n a.1 b.1) (pick s none (store.scan range start))
        k x ↔ store.MergedBefore buffer range s n start k x.1 := by
  simp only [MergedBefore, h.returned_iff]
  constructor
  · rintro ⟨⟨k', v⟩, ha, heq | hlt, hle⟩
    · exact ⟨k', ⟨v, ha⟩, .inl (congrArg Prod.fst heq), hle⟩
    · exact ⟨k', ⟨v, ha⟩, .inr hlt, hle⟩
  · rintro ⟨k', ⟨v, ha⟩, heq | hlt, hle⟩
    · exact ⟨x, hx, .inl rfl, heq ▸ hle⟩
    · exact ⟨(k', v), ha, .inr hlt, hle⟩

theorem Commits.mem_merge_iff :
    (k, v) ∈ overlay getValue b (pick s none (store.scan range start)) ↔
      (∃ write, Taken buffer range k write ∧ write.getValue = some v) ∨
        shown s (store.scan range start) k = some v ∧
          ((∀ write, ¬ Taken buffer range k write) ∨ store.Overtaken buffer range s n start k) := by
  rw [mem_overlay_unsorted (fun _ _ => h.precedes_asymm) (writesIn_eq_some hwrites).1
    h.pairwise_scan, h.kept_iff hwrites, h.mem_scan_iff]
  refine or_congr_left ⟨?_, fun ⟨write, ht, hv⟩ =>
    ⟨(k, write), (mem_writesIn_iff hwrites).mpr ht, rfl, hv⟩⟩
  rintro ⟨⟨_, write⟩, hp, rfl, hv⟩
  exact ⟨write, (mem_writesIn_iff hwrites).mp hp, hv⟩

/-- The merge is in the order of the versions exactly where the written values are. -/
theorem Commits.pairwise_merge_iff :
    (overlay getValue b (pick s none (store.scan range start))).Pairwise
        (fun a b => store.Precedes buffer s n a.1 b.1) ↔
      (∀ k write k' write', Taken buffer range k write → Taken buffer range k' write' →
        write.getValue ≠ none → write'.getValue ≠ none → k < k' →
          store.Precedes buffer s n k k') ∧
      ∀ k write, Taken buffer range k write → write.getValue ≠ none →
        ∀ k', store.Returned range s start k' →
          ((∀ write', ¬ Taken buffer range k' write') ∨ store.Overtaken buffer range s n start k') →
          (store.MergedBefore buffer range s n start k k' → store.Precedes buffer s n k k') ∧
            (¬ store.MergedBefore buffer range s n start k k' → store.Precedes buffer s n k' k) := by
  have hsorted := (writesIn_eq_some hwrites).1
  rw [pairwise_overlay_iff (fun _ _ => h.precedes_asymm) hsorted h.pairwise_scan]
  refine and_congr ⟨fun hasc k write k' write' ht ht' hv hv' hlt => ?_, fun hasc => ?_⟩
    ⟨fun hplaced k write ht hv k' hk' hkept => ?_, fun hplaced p hp v hv x hx hkept => ?_⟩
  · obtain ⟨v, hv⟩ := ne_none_iff_exists'.mp hv
    obtain ⟨v', hv'⟩ := ne_none_iff_exists'.mp hv'
    exact rel_of_lt hsorted hasc ((mem_writesIn_iff hwrites).mpr ht)
      ((mem_writesIn_iff hwrites).mpr ht') hlt v hv v' hv'
  · refine hsorted.imp_of_mem fun {p r} hp hr hlt v hv w hw => ?_
    exact hasc p.1 p.2 r.1 r.2 ((mem_writesIn_iff hwrites).mp hp) ((mem_writesIn_iff hwrites).mp hr)
      (by simp [hv]) (by simp [hw]) hlt
  · obtain ⟨v, hv⟩ := ne_none_iff_exists'.mp hv
    obtain ⟨v', hx⟩ := h.returned_iff.mp hk'
    have := hplaced (k, write) ((mem_writesIn_iff hwrites).mpr ht) v hv (k', v') hx
      ((h.kept_iff hwrites).mpr hkept)
    rwa [h.laidBefore_iff hx] at this
  · have := hplaced p.1 p.2 ((mem_writesIn_iff hwrites).mp hp) (by simp [hv]) x.1
      (h.returned_iff.mpr ⟨x.2, hx⟩) ((h.kept_iff hwrites).mp hkept)
    rwa [← h.laidBefore_iff hx] at this

/-- A write that is taken hides the stored pair, unless the pair comes too late. -/
theorem Commits.mem_merge_written (hw : buffer.writesGet k = some write)
    (hnot : ¬ (Bounded range k ∧ store.Returned range s start k ∧
      store.Overtaken buffer range s n start k)) :
    (k, v) ∈ overlay getValue b (pick s none (store.scan range start)) ↔
      (Bounded range k ∧ write.getValue = some v) ∨
        (¬ Bounded range k ∧ shown s (store.scan range start) k = some v) := by
  rw [h.mem_merge_iff hwrites]
  by_cases hb : Bounded range k
  · have hreturned : shown s (store.scan range start) k = some v →
        ¬ store.Overtaken buffer range s n start k := fun hold hover =>
      hnot ⟨hb, by rw [Returned, hold]; simp, hover⟩
    simp only [Taken, hb, hw, true_and, some.injEq, exists_eq_left', not_true_eq_false, false_and,
      or_false]
    refine or_iff_left ?_
    rintro ⟨hold, hnone | hover⟩
    · exact hnone write rfl
    · exact hreturned hold hover
  · simp [Taken, hb]

omit hwrites in
theorem Commits.mem_after_written (hr : n ≤ r) (hw : buffer.writesGet k = some write) :
    (k, v) ∈ pick r none (after.scan range start) ↔
      (store.Adds range s n start k write ∧ write.getValue = some v) ∨
        (¬ store.Adds range s n start k write ∧
          shown s (store.scan range start) k = some v) := by
  rw [h.mem_scan_after_iff hr]
  simp [hw]

/-- What was merged before the commit is what is scanned afterwards exactly where the writes fit and
their values come in the order of the versions. -/
theorem Commits.merge_eq_iff (hr : n ≤ r) :
    overlay getValue b (pick s none (store.scan range start)) =
        pick r none (after.scan range start) ↔
      (∀ k write, buffer.writesGet k = some write →
        store.WriteFits buffer range s n start k write) ∧
      (overlay getValue b (pick s none (store.scan range start))).Pairwise
        fun a b => store.Precedes buffer s n a.1 b.1 := by
  constructor
  · intro heq
    have hpairwise : (overlay getValue b (pick s none (store.scan range start))).Pairwise
        fun a b => store.Precedes buffer s n a.1 b.1 := heq ▸ h.pairwise_scan_after
    refine ⟨fun k write hw => ⟨fun hover => ?_, fun hnot => ?_⟩, hpairwise⟩
    · obtain ⟨hb, hreturned, hovertaken⟩ := hover
      have hnone : write.getValue = none := by
        by_contra hv
        -- the value and the pair behind it are both returned, under one key
        obtain ⟨hbefore, hafter⟩ := ((h.pairwise_merge_iff hwrites).mp hpairwise).2 k write ⟨hb, hw⟩
          hv k hreturned (.inr hovertaken)
        by_cases hm : store.MergedBefore buffer range s n start k k
        · exact (hbefore hm).1 rfl
        · exact (hafter hm).1 rfl
      refine ⟨hnone, fun hadds => ?_⟩
      obtain ⟨v, hv⟩ := ne_none_iff_exists'.mp hreturned
      have hmem := (h.mem_merge_iff hwrites).mpr (.inr ⟨hv, .inr hovertaken⟩)
      rw [heq, h.mem_after_written hr hw] at hmem
      simp [hadds, hnone] at hmem
    · have hsame := fun v => h.mem_merge_written (v := v) hwrites hw hnot
      simp only [heq, h.mem_after_written hr hw] at hsame
      by_cases hb : Bounded range k <;> by_cases hadds : store.Adds range s n start k write
      · exact .inl (iff_of_true hb hadds)
      · exact .inr (Option.ext fun v => by simpa [hb, hadds] using hsame v)
      · exact .inr (Option.ext fun v => by simpa [hb, hadds] using (hsame v).symm)
      · exact .inl (iff_of_false hb hadds)
  · rintro ⟨hfits, hpairwise⟩
    refine eq_of_pairwise_of_mem_iff (fun _ _ => h.precedes_asymm) hpairwise h.pairwise_scan_after ?_
    rintro ⟨k, v⟩
    cases hw : buffer.writesGet k with
    | none =>
      rw [h.mem_merge_iff hwrites, h.mem_scan_after_iff hr]
      simp [Taken, hw]
    | some write =>
      obtain ⟨hover, hnot⟩ := hfits k write hw
      rw [h.mem_after_written hr hw]
      by_cases ho : Bounded range k ∧ store.Returned range s start k ∧
          store.Overtaken buffer range s n start k
      · obtain ⟨hnone, hadds⟩ := hover ho
        rw [h.mem_merge_iff hwrites]
        simp [Taken, hw, hnone, hadds, ho.2.2]
      · rw [h.mem_merge_written hwrites hw ho]
        rcases hnot ho with hiff | heq
        · rw [hiff]
        · rw [heq]
          by_cases hb : Bounded range k <;>
            by_cases hadds : store.Adds range s n start k write <;> simp [hb, hadds]

end Merge
end After

section Returns
variable (hseek : range.rangeStart.seekBytes = some start)
include hseek

theorem reader_returns_iff :
    (store.reader r).Returns range l ↔
      store.Readable range start ∧ pick r none (store.scan range start) = l := by
  obtain ⟨storage, hnew, hyields⟩ := MVCCRangeIterator.new_yields (s := r) store.raw.sorted hseek
  have hiterate : (store.reader r).iterateRange range = some (.new storage none) := by
    simp [ReadSnapshot.iterateRange, reader, hnew]
  have hplain : Plain store.raw.entries range.continueCondition r
      (.new storage none) _ := ⟨hyields, rfl, rfl⟩
  refine Iff.trans ⟨fun ⟨it, hit, hdrains⟩ => ?_, fun hdrains => ⟨_, hiterate, hdrains⟩⟩
    ((hplain.drains_iff store.operation_ne_none).trans (first_stream_iff store.raw.sorted hseek))
  cases hiterate.symm.trans hit
  exact hdrains

theorem snapshot_returns_iff (hwrites : buffer.writesIn range = some b) :
    (store.snapshot buffer s).Returns range l ↔ store.Readable range start ∧
      overlay getValue b (pick s none (store.scan range start)) = l := by
  obtain ⟨storage, hnew, hyields⟩ := MVCCRangeIterator.new_yields (s := s) store.raw.sorted hseek
  have hiterate : (store.snapshot buffer s).iterateRange range =
      some (.new storage (some ⟨b⟩)) := by
    simp [WriteSnapshot.iterateRange, iterateRange, snapshot, hwrites, hnew]
  have hreturns : (store.snapshot buffer s).Returns range l ↔
      Drains SnapshotRangeIterator.next (.new storage (some ⟨b⟩)) l := by
    refine ⟨?_, fun hdrains => ⟨_, hiterate, hdrains⟩⟩
    rintro ⟨it, hit, hdrains⟩
    cases hiterate.symm.trans hit
    exact hdrains
  rw [hreturns]
  by_cases hread : store.Readable range start
  · rw [(first_stream_iff store.raw.sorted hseek).mpr ⟨hread, rfl⟩] at hyields
    -- without seeks the storage has its pairs before it, in whatever order
    have hbehaves : storage.Behaves (fun _ => False) (pick s none (store.scan range start)) := by
      intro calls hin
      rw [hyields.run store.operation_ne_none]
      exact follows_of (fun _ _ _ _ ht => ht.elim) calls hin
    have hfollows : SnapshotRangeIterator.Follows (fun _ => False) (.new storage (some ⟨b⟩))
        (overlay getValue b (pick s none (store.scan range start))) :=
      ⟨b, _, ⟨hbehaves, rfl, .none _ _, (writesIn_eq_some hwrites).1, fun _ ht => ht.elim⟩, rfl⟩
    rw [and_iff_right hread]
    exact ⟨fun hdrains => hfollows.drains.unique hdrains, fun hl => hl ▸ hfollows.drains⟩
  · refine iff_of_false ?_ fun h => hread h.1
    have hsorted := store.raw.sorted.sublist (range.reached_sublist _ start)
    have hpanics : (range.continueCondition.bounded
        (range.reached store.raw.entries start)).panics = true := by
      rw [← Bool.not_eq_false, bounded_panics_iff hsorted]
      exact hread
    rw [picked, hpanics] at hyields
    have hdoomed : SnapshotRangeIterator.Doomed store.raw.entries range.continueCondition s
        (.new storage (some ⟨b⟩)) := ⟨⟨_, hyields⟩, b, rfl⟩
    exact hdoomed.not_drains store.operation_ne_none rfl

end Returns

theorem Commits.readable_iff (h : store.Commits buffer s n after) :
    after.Readable range start ↔ ∀ p, store.Joins buffer s n p → range.Reaches start p.1 →
      range.continueCondition.acceptValue p.1 = none → ∃ q, store.Joins buffer s n q ∧
        range.Reaches start q.1 ∧ q.1 < p.1 ∧
          range.continueCondition.acceptValue q.1 = some false := by
  simp only [Readable, ContinueCondition.Readable, mem_reached, h.mem, and_imp, Reaches, and_assoc]

/-- What the snapshot returned is returned to a later one exactly where the commit fits. -/
theorem Commits.returns_iff (h : store.Commits buffer s n after) (hr : n ≤ r)
    (hseek : range.rangeStart.seekBytes = some start) (hwrites : buffer.writesIn range = some b)
    (hread : store.Readable range start) :
    (∀ l, (store.snapshot buffer s).Returns range l → (after.reader r).Returns range l) ↔
      store.CommitFits buffer range s n start := by
  simp only [snapshot_returns_iff hseek hwrites, reader_returns_iff hseek, and_iff_right hread,
    forall_eq', h.readable_iff]
  rw [eq_comm, h.merge_eq_iff hwrites hr, h.pairwise_merge_iff hwrites]
  exact ⟨fun ⟨hreadable, hfits, hasc, hplaced⟩ => ⟨hreadable, hfits, hasc, hplaced⟩,
    fun h => ⟨h.readable, h.writes, h.ascending, h.placed⟩⟩

/-- Numbers below 2⁵⁶ begin with the greatest byte. -/
theorem suffix_eq_cons {m : Nat} (hm : m < 2 ^ 56) (op : StorageOperation) :
    ∃ rest, suffix m op = 255 :: rest := by
  refine ⟨encodeBE 7 (invert m) ++ op.bytes, ?_⟩
  have hfirst : invert m / 256 ^ 7 % 256 = 255 := by
    rw [invert]
    omega
  rw [suffix, encodeBE, cons_append]
  exact congrArg (· :: _) (Fin.ext hfirst)

/-- The versions of a key come after those of the keys that it is a prefix of. -/
theorem build_not_lt {a : Bytes} {m m' : Nat} {op op' : StorageOperation} (hk : k <+: a)
    (hne : k ≠ a) (ha : 255 ∉ a) (hm : m < 2 ^ 56) : ¬ build k m op < build a m' op' := by
  obtain ⟨x, rfl⟩ := hk
  cases x with
  | nil => exact absurd (append_nil k).symm hne
  | cons b x =>
    have hb : b ≠ 255 := fun hb => ha (by simp [hb])
    obtain ⟨rest, hrest⟩ := suffix_eq_cons hm op
    rw [build, build, hrest, append_assoc, Lex.append_lt_append_left_iff, cons_append,
      cons_lt_cons_iff, not_or]
    have hle : b ≤ 255 := Fin.le_last b
    exact ⟨not_lt.mpr hle, fun h => hb h.1.symm⟩

theorem Joins.built (hn : n < 2 ^ 64) (h : store.Joins buffer s n p) :
    ∃ m op, m < 2 ^ 64 ∧ p.1 = build (key p.1) m op := by
  rcases h with hp | ⟨k, write, -, -, rfl⟩
  · obtain ⟨k, m, op, hm, hpk⟩ := store.built p hp
    exact ⟨m, op, hm, by rw [hpk, key_build]⟩
  · obtain ⟨op, hop⟩ := newVersion_build n k write
    exact ⟨n, op, hn, by rw [key_newVersion, hop]⟩

/-- Keys may be prefixes of others, as labels are, if the greatest byte is in none of them. -/
theorem whole_of_bytes (hn : n < 2 ^ 64) (h : ∀ p, store.Joins buffer s n p →
    255 ∉ key p.1 ∧ sequenceNumber p.1 < 2 ^ 56) : store.Whole buffer s n := by
  intro p q r hp hq hr hpq hqr hrp
  obtain ⟨i, op, hi, hpb⟩ := hp.built hn
  obtain ⟨j, op', hj, hqb⟩ := hq.built hn
  obtain ⟨m, op'', hm, hrb⟩ := hr.built hn
  obtain ⟨hkp, -⟩ := h p hp
  obtain ⟨-, hqs⟩ := h q hq
  obtain ⟨hkr, hrs⟩ := h r hr
  rw [hqb, sequenceNumber_build _ _ hj] at hqs
  rw [hrb, sequenceNumber_build _ _ hm] at hrs
  rw [hqb, hrb, ← hpq] at hqr
  rw [hrb, hpb] at hrp
  by_contra hne
  by_cases hpr : key p.1 <+: key r.1
  · exact build_not_lt hpr (Ne.symm hne) hkr hqs hqr
  · by_cases hrk : key r.1 <+: key p.1
    · exact build_not_lt hrk hne hkp hrs hrp
    · -- apart, so the order of the keys decides both
      have hlt : key p.1 < key r.1 := (Lex.Apart.append_lt ⟨hpr, hrk⟩).mp hqr
      exact lt_asymm hlt ((Lex.Apart.append_lt ⟨hrk, hpr⟩).mp hrp)

def committedEntries : List KeyValue :=
  (build [1, 2] 3 .delete, []) :: nestedEntries ++ [(build [5] 3 .insert, [9])]

theorem committedEntries_sorted : committedEntries.Pairwise fun p q => p.1 < q.1 := by decide

theorem committedEntries_built :
    ∀ p ∈ committedEntries, ∃ k n op, n < 2 ^ 64 ∧ p.1 = build k n op := by
  simp only [committedEntries, cons_append, forall_mem_cons, forall_mem_append, not_mem_nil,
    false_implies, implies_true, and_true]
  exact ⟨⟨[1, 2], 3, .delete, by decide, rfl⟩, nestedEntries_built,
    ⟨[5], 3, .insert, by decide, rfl⟩⟩

theorem committedEntries_single : ∀ p ∈ committedEntries, ∀ q ∈ committedEntries,
    key p.1 = key q.1 → sequenceNumber p.1 = sequenceNumber q.1 → p = q := by
  decide +kernel

def nestedCommitted : StoredVersions :=
  ⟨⟨committedEntries, committedEntries_sorted⟩, committedEntries_built, committedEntries_single⟩

def nestedWrites : WriteBuffer := ⟨⟨[([1, 2], .delete), ([5], .insert [9])], by decide⟩⟩

theorem nestedWrites_get (h : nestedWrites.writesGet k = some write) :
    k = [1, 2] ∧ write = .delete ∨ k = [5] ∧ write = .insert [9] := by
  simpa [nestedWrites] using mem_entries.mpr h

theorem nested_joins (h : nested.Joins nestedWrites 2 3 p) : p ∈ nestedCommitted.raw.entries := by
  rcases h with hp | ⟨k, write, hw, -, rfl⟩
  · exact (by decide : nested.raw.entries ⊆ nestedCommitted.raw.entries) hp
  · rcases nestedWrites_get hw with ⟨rfl, rfl⟩ | ⟨rfl, rfl⟩ <;> decide

theorem nested_returned (h : nested.Returned range 2 start k) : k = [1, 2] ∨ k = [1] := by
  obtain ⟨v, hv⟩ := ne_none_iff_exists'.mp h
  obtain ⟨p, hp, -⟩ := bind_eq_some_iff.mp hv
  have hkey : key p.1 = k := by simpa using And.left (by simpa using find?_some hp)
  rw [← hkey]
  exact (by decide : ∀ p ∈ nested.raw.entries, key p.1 = [1, 2] ∨ key p.1 = [1]) p
    ((scan_sublist _ _ _).subset (mem_of_find?_eq_some hp))

theorem nested_not_overtaken : ¬ nested.Overtaken nestedWrites range 2 3 start [1, 2] := by
  rintro ⟨k, hreturned, hprecedes, hle⟩
  rcases nested_returned hreturned with rfl | rfl
  · exact hprecedes.1 rfl
  · exact absurd hle (by decide)

theorem bounded_unbounded (k : Bytes) : Bounded ⟨.inclusive [], .unbounded⟩ k := by
  simpa [Bounded, RangeStart.Admits, RangeStart.Skips, RangeEnd.Admits] using
    Lex.prefix_le nil_prefix

theorem nested_fits :
    nested.CommitFits nestedWrites ⟨.inclusive [], .unbounded⟩ 2 3 [] where
  readable p _ _ hnone := by cases hnone
  writes k write hw := by
    rcases nestedWrites_get hw with ⟨rfl, rfl⟩ | ⟨rfl, rfl⟩
    · refine ⟨fun h => absurd h.2.2 nested_not_overtaken,
        fun _ => .inl (iff_of_true (bounded_unbounded _) ⟨?_, ?_⟩)⟩
      · rintro ⟨v, known, hput, -⟩
        cases hput
      · decide
    · refine ⟨fun h => ?_, fun _ => .inl (iff_of_true (bounded_unbounded _) ⟨?_, ?_⟩)⟩
      · rcases nested_returned h.2.1 with h5 | h5 <;> cases h5
      · rintro ⟨v, known, hput, -⟩
        cases hput
      · decide
  ascending k write k' write' hk hk' hv hv' hlt := by
    rcases nestedWrites_get hk.2 with ⟨rfl, rfl⟩ | ⟨rfl, rfl⟩
    · exact absurd rfl hv
    · rcases nestedWrites_get hk'.2 with ⟨rfl, rfl⟩ | ⟨rfl, rfl⟩
      · exact absurd rfl hv'
      · exact absurd hlt (lt_irrefl _)
  placed k write hk hv k' hreturned hkept := by
    rcases nestedWrites_get hk.2 with ⟨rfl, rfl⟩ | ⟨rfl, rfl⟩
    · exact absurd rfl hv
    rcases nested_returned hreturned with rfl | rfl
    · -- the pair of `[1, 2]` is taken away by the delete
      rcases hkept with hnot | hover
      · exact absurd ⟨bounded_unbounded _, rfl⟩ (hnot .delete)
      · exact absurd hover nested_not_overtaken
    · refine ⟨?_, fun _ => ⟨by decide, (build [1] 1 .insert, [7]),
        newVersion 3 [5] (.insert [9]), .inl (by decide), .inr ⟨[5], _, rfl, ?_, rfl⟩, by decide,
        by decide, by decide⟩⟩
      · rintro ⟨k, hk, -, hle⟩
        rcases nested_returned hk with rfl | rfl <;> exact absurd hle (by decide)
      · rintro ⟨v, known, hput, -⟩
        cases hput

def published : StoredVersions where
  raw := ⟨[(build [2] 1 .insert, [7])], by decide⟩
  built := by
    simp only [forall_mem_cons]
    exact ⟨⟨[2], 1, .insert, by decide, rfl⟩, nofun⟩
  single := by decide

end StoredVersions
end TypeDB.Storage
