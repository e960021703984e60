import TypeDB.Storage.SnapshotIterator
import TypeDB.Storage.VersionScan

/-! What a snapshot that writes shows: its own writes over what was visible when it opened. Every
read agrees with that overlay, whatever was buffered, exactly when the storage reads the range as
it should and the range is one that the buffer can be asked for. -/

namespace TypeDB.Storage
open ByteString MVCCKey Option Overlay SnapshotRangeIterator WriteBuffer List

namespace StoredVersions

def Shows (store : StoredVersions) (buffer : WriteBuffer) (s : Nat) (k v : Bytes) : Prop :=
  match buffer.writesGet k with
  | some write => write.getValue = some v
  | none => store.Sees s k v

structure Overlaid (store : StoredVersions) (buffer : WriteBuffer) (range : KeyRange)
    (s : Nat) (l : List KeyValue) : Prop where
  sorted : l.Pairwise fun p q => p.1 < q.1
  mem : ∀ k v, (k, v) ∈ l ↔ range.Contains k ∧ store.Shows buffer s k v

def snapshot (store : StoredVersions) (buffer : WriteBuffer) (s : Nat) : WriteSnapshot :=
  ⟨store.raw.entries, buffer, s⟩

/-- Iteration with seeks to the given targets, reads of single keys and checks of the range all
return, and say what the overlay has. -/
structure SnapshotExact (store : StoredVersions) (buffer : WriteBuffer) (range : KeyRange)
    (s : Nat) (targets : Bytes → Prop) : Prop where
  iterates : ∃ it l, (store.snapshot buffer s).iterateRange range = some it ∧
    store.Overlaid buffer range s l ∧
    ∀ calls : List IteratorCall, (∀ call ∈ calls, call.SeeksIn targets) →
      it.run calls = some (answers l calls)
  gets : ∀ k, ∃ value, (store.snapshot buffer s).get k = some value ∧
    ∀ v, value = some v ↔ store.Shows buffer s k v
  contains : ∀ k, ∃ found, (store.snapshot buffer s).contains k = some found ∧
    (found = true ↔ ∃ v, store.Shows buffer s k v)
  anyInRange : ∃ found, (store.snapshot buffer s).anyInRange range false = some found ∧
    (found = true ↔ ∃ k v, range.Contains k ∧ store.Shows buffer s k v)
  anyBuffered : ∃ found, (store.snapshot buffer s).anyInRange range true = some found ∧
    (found = true ↔ ∃ k write v, range.Contains k ∧ buffer.writesGet k = some write ∧
      write.getValue = some v)

variable {store : StoredVersions} {buffer : WriteBuffer} {range : KeyRange} {s : Nat}
  {targets : Bytes → Prop} {l : List KeyValue} {b : List (Bytes × Write Bytes)} {k v : Bytes}

theorem snapshot_get (hgets : store.GetsExactly s) (buffer : WriteBuffer) (k : Bytes) :
    ∃ value, (store.snapshot buffer s).get k = some value ∧
      ∀ v, value = some v ↔ store.Shows buffer s k v := by
  simp only [WriteSnapshot.get, snapshot, Shows]
  cases buffer.writesGet k with
  | none => exact hgets k
  | some write =>
    cases write with
    | insert value | put value known => exact ⟨some value, rfl, fun v => Iff.rfl⟩
    | delete => exact ⟨none, rfl, fun v => Iff.rfl⟩

theorem snapshot_contains (hgets : store.GetsExactly s) (buffer : WriteBuffer) (k : Bytes) :
    ∃ found, (store.snapshot buffer s).contains k = some found ∧
      (found = true ↔ ∃ v, store.Shows buffer s k v) := by
  obtain ⟨value, hget, hvalue⟩ := snapshot_get hgets buffer k
  refine ⟨value.isSome, by rw [WriteSnapshot.contains, hget]; rfl, ?_⟩
  simp only [isSome_iff_exists, hvalue]

section
variable (hwrites : buffer.writesIn range = some b)
include hwrites

theorem snapshot_iterates (hexact : store.IteratesExactly range s targets) :
    ∃ it l, (store.snapshot buffer s).iterateRange range = some it ∧ store.Answers range s l ∧
      it.Follows targets (overlay Write.getValue b l) := by
  obtain ⟨storage, l, hnew, hans, hrun⟩ := hexact
  refine ⟨.new storage (some ⟨b⟩), l, ?_, hans, b, l, ?_, rfl⟩
  · simp [WriteSnapshot.iterateRange, iterateRange, snapshot, hwrites, hnew]
  · exact ⟨hrun, rfl, .none _ _, (writesIn_eq_some hwrites).1, fun _ _ => hans.sorted⟩

theorem mem_overlay_bounded (hl : l.Pairwise fun p q => p.1 < q.1) :
    (k, v) ∈ overlay Write.getValue b l ↔
      (Bounded range k ∧ ∃ write, buffer.writesGet k = some write ∧ write.getValue = some v) ∨
        ((Bounded range k → buffer.writesGet k = none) ∧ (k, v) ∈ l) := by
  obtain ⟨hsorted, hget⟩ := writesIn_eq_some hwrites
  rw [mem_overlay hsorted hl, Seen]
  cases hk : OrderedMap.getList k b with
  | some write =>
    obtain ⟨hbounded, hwrite⟩ := (hget k write).mp hk
    simp [hbounded, hwrite]
  | none =>
    have hnone : Bounded range k → buffer.writesGet k = none := by
      intro hbounded
      by_contra hne
      obtain ⟨write, hwrite⟩ := ne_none_iff_exists'.mp hne
      rw [(hget k write).mpr ⟨hbounded, hwrite⟩] at hk
      cases hk
    constructor
    · exact fun hmem => .inr ⟨hnone, hmem⟩
    · rintro (⟨hbounded, write, hwrite, -⟩ | ⟨-, hmem⟩)
      · rw [hnone hbounded] at hwrite
        cases hwrite
      · exact hmem

theorem mem_overlay_writesIn (hans : store.Answers range s l) :
    (k, v) ∈ overlay Write.getValue b l ↔
      (Bounded range k ∧ ∃ write, buffer.writesGet k = some write ∧ write.getValue = some v) ∨
        ((Bounded range k → buffer.writesGet k = none) ∧ range.Contains k ∧ store.Sees s k v) := by
  rw [mem_overlay_bounded hwrites hans.sorted, hans.mem]

theorem overlaid_overlay (hans : store.Answers range s l)
    (hbounds : ∀ k, Bounded range k ↔ range.Contains k) :
    store.Overlaid buffer range s (overlay Write.getValue b l) := by
  refine ⟨pairwise_overlay (writesIn_eq_some hwrites).1 hans.sorted, fun k v => ?_⟩
  rw [mem_overlay_writesIn hwrites hans, hbounds, Shows]
  cases buffer.writesGet k with
  | some write => simp; tauto
  | none => simp

theorem snapshot_anyNotDeleted
    (hbounds : ∀ k, Bounded range k ↔ range.Contains k) :
    ∃ found, buffer.anyNotDeletedInRange range = some found ∧
      (found = true ↔ ∃ k write v, range.Contains k ∧ buffer.writesGet k = some write ∧
        write.getValue = some v) := by
  obtain ⟨hsorted, hget⟩ := writesIn_eq_some hwrites
  refine ⟨_, by rw [anyNotDeletedInRange, hwrites]; rfl, ?_⟩
  rw [List.any_eq_true]
  constructor
  · rintro ⟨⟨k, write⟩, hmem, hdelete⟩
    obtain ⟨hbounded, hwrite⟩ := (hget k write).mp (OrderedMap.getList_of_mem hsorted hmem)
    obtain ⟨v, hv⟩ : ∃ v, write.getValue = some v := by
      rw [← ne_none_iff_exists', Ne, Write.getValue_eq_none]
      simpa using hdelete
    exact ⟨k, write, v, (hbounds k).mp hbounded, hwrite, hv⟩
  · rintro ⟨k, write, v, hcontains, hwrite, hv⟩
    have hmem := OrderedMap.mem_of_getList ((hget k write).mpr ⟨(hbounds k).mpr hcontains, hwrite⟩)
    refine ⟨(k, write), hmem, ?_⟩
    cases write <;> simp [Write.isDelete, Write.getValue] at hv ⊢

end

theorem snapshotExact_of_fits (hexact : store.IteratesExactly range s targets)
    (hgets : store.GetsExactly s) (hfits : range.BufferFits) :
    store.SnapshotExact buffer range s targets := by
  have hbounds := KeyRange.bounded_iff_contains.mpr ⟨hfits.start, hfits.stop⟩
  obtain ⟨b, hwrites⟩ := ne_none_iff_exists'.mp
    ((buffer.writesIn_ne_none range).mpr hfits.ordered)
  obtain ⟨it, l, hiterate, hans, hfollows⟩ := snapshot_iterates hwrites hexact
  have hover := overlaid_overlay hwrites hans hbounds
  obtain ⟨buffered, hany, hbuffered⟩ := snapshot_anyNotDeleted hwrites hbounds
  refine ⟨⟨it, _, hiterate, hover, fun calls hin => hfollows.run hin⟩, snapshot_get hgets buffer,
    snapshot_contains hgets buffer, ?_, ?_⟩
  · -- a buffered value is one of the overlay; otherwise the iterator is asked
    simp only [WriteSnapshot.anyInRange, snapshot, hany, bind_eq_bind, bind_some]
    cases buffered with
    | true =>
      obtain ⟨k, write, v, hcontains, hwrite, hv⟩ := hbuffered.mp rfl
      refine ⟨true, rfl, iff_of_true rfl ⟨k, v, hcontains, ?_⟩⟩
      rw [Shows, hwrite]
      exact hv
    | false =>
      obtain ⟨it', hnext, -⟩ := hfollows.next
      refine ⟨(overlay Write.getValue b l).head?.isSome, ?_, ?_⟩
      · rw [snapshot] at hiterate
        simp [hiterate, hnext]
      · rw [isSome_head?, Ne, eq_nil_iff_forall_not_mem]
        simp [← hover.mem]
  · refine ⟨buffered, ?_, hbuffered⟩
    simp only [WriteSnapshot.anyInRange, snapshot, hany, bind_eq_bind, bind_some]
    cases buffered <;> rfl

end StoredVersions

/-! With nothing buffered the iterator only passes the storage on, so it can answer no better. -/

namespace SnapshotRangeIterator
variable {entries : List KeyValue} {cond : ContinueCondition} {s : Nat}
  {it : SnapshotRangeIterator} {st : Stream}

structure Alone (entries : List KeyValue) (cond : ContinueCondition) (s : Nat)
    (it : SnapshotRangeIterator) (st : Stream) : Prop where
  yields : it.storageIterator.Yields entries cond s st
  buffered : it.bufferedIterator = some ⟨[]⟩
  ready : it.readyItemSource = none ∨ it.readyItemSource = some .storage ∧ st.outs ≠ []

inductive Prepared (entries : List KeyValue) (cond : ContinueCondition) (s : Nat) :
    Stream → Option SnapshotRangeIterator → Prop
  | panics : Prepared entries cond s ⟨[], true⟩ none
  | ended (storage : MVCCRangeIterator) (h : storage.Yields entries cond s ⟨[], false⟩) :
      Prepared entries cond s ⟨[], false⟩ (some ⟨storage, some ⟨[]⟩, none⟩)
  | item (storage : MVCCRangeIterator) (o : KeyValue) (outs : List KeyValue) (b : Bool)
      (h : storage.Yields entries cond s ⟨o :: outs, b⟩) :
      Prepared entries cond s ⟨o :: outs, b⟩ (some ⟨storage, some ⟨[]⟩, some .storage⟩)

section Alone
variable (hops : ∀ p ∈ entries, MVCCKey.operation p.1 ≠ none)
include hops

theorem Alone.prepare (h : it.Alone entries cond s st) : Prepared entries cond s st it.prepare := by
  obtain ⟨storage, buffered, source⟩ := it
  obtain ⟨hyields, rfl, rfl | ⟨rfl, hne⟩⟩ := h
  · have hpeek := hyields.peek hops
    simp only [prepare, rounds, findNextState]
    generalize storage.peek = result at hpeek
    cases hpeek with
    | panics => exact .panics
    | ended storage' h' => exact .ended storage' h'
    | item storage' o rest hitem h' hp => exact .item storage' o _ _ (.peeked o rest hitem h' hp)
  · obtain ⟨_ | ⟨o, outs⟩, b⟩ := st
    · exact absurd rfl hne
    · exact .item storage o outs b hyields

theorem Alone.calls (h : it.Alone entries cond s st) (hst : st ≠ ⟨[], true⟩) :
    (∃ it', it.peek = some (st.outs.head?, it') ∧ it'.Alone entries cond s st) ∧
      ∃ it', it.next = some (st.outs.head?, it') ∧
        it'.Alone entries cond s ⟨st.outs.tail, st.panics⟩ := by
  have hprepare := h.prepare hops
  rw [peek, next]
  generalize it.prepare = result at hprepare
  cases hprepare with
  | panics => exact absurd rfl hst
  | ended storage h' => exact ⟨⟨_, rfl, h', rfl, .inl rfl⟩, _, rfl, h', rfl, .inl rfl⟩
  | item storage o outs b h' =>
    have hpeek := h'.peek hops
    have hnext := h'.next hops
    simp only [bind_eq_bind, bind_some, storageNext]
    generalize storage.peek = peeked at hpeek
    generalize storage.next = advanced at hnext
    constructor
    · cases hpeek with
      | item storage' _ rest hitem h'' hp =>
        exact ⟨_, rfl, .peeked o rest hitem h'' hp, rfl, .inr ⟨rfl, by simp⟩⟩
    · cases hnext with
      | item storage' _ rest hitem h'' hp =>
        exact ⟨_, rfl, .ready _ rest hitem h'', rfl, .inl rfl⟩

theorem Alone.panics (h : it.Alone entries cond s ⟨[], true⟩) : it.prepare = none := by
  have hprepare := h.prepare hops
  generalize it.prepare = result at hprepare
  cases hprepare
  rfl

omit hops in
theorem bind_eq_some_of_imp {β γ : Type*} {x y : Option β} {f : β → Option γ} {c : γ}
    (h : ∀ r, x = some r → y = some r) (hx : x.bind f = some c) : y.bind f = some c := by
  obtain ⟨r, hr, hf⟩ := bind_eq_some_iff.mp hx
  exact bind_eq_some_iff.mpr ⟨r, h r hr, hf⟩

theorem Alone.run (h : it.Alone entries cond s st) {calls : List IteratorCall}
    {items : List (Option KeyValue)} (hrun : it.run calls = some items) :
    st.run (soughtStream entries cond s) calls = some items := by
  induction calls generalizing it st items with
  | nil => simpa [SnapshotRangeIterator.run, Stream.run] using hrun
  | cons call calls ih =>
    by_cases hst : st = ⟨[], true⟩
    · subst hst
      have hnone := h.panics hops
      cases call <;> simp [SnapshotRangeIterator.run, SnapshotRangeIterator.seek,
        SnapshotRangeIterator.peek, SnapshotRangeIterator.next, hnone] at hrun
    obtain ⟨⟨it', hpeek, h'⟩, it'', hnext, h''⟩ := h.calls hops hst
    cases call with
    | peek =>
      simp only [SnapshotRangeIterator.run, hpeek, bind_eq_bind, bind_some] at hrun
      have hst' := bind_eq_some_of_imp (fun _ => ih h') hrun
      obtain ⟨_ | _, _ | _⟩ := st <;> first | exact hst' | exact absurd rfl hst
    | next =>
      simp only [SnapshotRangeIterator.run, hnext, bind_eq_bind, bind_some] at hrun
      have hst' := bind_eq_some_of_imp (fun _ => ih h'') hrun
      obtain ⟨_ | _, _ | _⟩ := st <;> first | exact hst' | exact absurd rfl hst
    | seek key =>
      simp only [SnapshotRangeIterator.run, SnapshotRangeIterator.seek, hpeek, bind_eq_bind,
        bind_some] at hrun
      obtain ⟨_ | ⟨o, outs⟩, b⟩ := st
      · cases b with
        | false => exact ih h' hrun
        | true => exact absurd rfl hst
      · simp only [head?_cons] at hrun
        rw [Stream.run]
        split_ifs at hrun ⊢ with hlt
        · -- the iterator looks for the next item at once, where the storage waits for a call
          obtain ⟨storage, hseek, hyields⟩ := h'.yields.seek hops hlt
          simp only [hseek, bind_some, h'.buffered, map_some] at hrun
          have hsought : Alone entries cond s ⟨storage, some ⟨[]⟩, none⟩
              (soughtStream entries cond s o.1 key) := ⟨hyields, rfl, .inl rfl⟩
          have hprepare := hsought.prepare hops
          change (SnapshotRangeIterator.prepare ⟨storage, some ⟨[]⟩, none⟩).bind _ = _ at hrun
          generalize soughtStream entries cond s o.1 key = st at hprepare ⊢
          generalize SnapshotRangeIterator.prepare ⟨storage, some ⟨[]⟩, none⟩ = result
            at hprepare hrun
          cases hprepare with
          | panics => cases hrun
          | ended storage' h'' => exact ih ⟨h'', rfl, .inl rfl⟩ hrun
          | item storage' o' outs' b' h'' => exact ih ⟨h'', rfl, .inr ⟨rfl, by simp⟩⟩ hrun
        · exact ih h' hrun

end Alone

end SnapshotRangeIterator

theorem answers_injective {l l' : List KeyValue}
    (h : ∀ n, answers l (replicate n .next) = answers l' (replicate n .next)) :
    l = l' := by
  induction l generalizing l' with
  | nil =>
    have := h 1
    cases l' with
    | nil => rfl
    | cons p l' => simp [answers] at this
  | cons p l ih =>
    cases l' with
    | nil =>
      have := h 1
      simp [answers] at this
    | cons q l' =>
      have hstep : ∀ n, some p = some q ∧
          answers l (replicate n .next) = answers l' (replicate n .next) := fun n => by
        have := h (n + 1)
        simpa [replicate_succ, answers] using this
      rw [ih fun n => (hstep n).2, some.inj (hstep 0).1]

namespace StoredVersions
variable {store : StoredVersions} {range : KeyRange} {s : Nat} {targets : Bytes → Prop}

theorem iteratesExactly_of_snapshot
    (h : store.SnapshotExact new range s targets) :
    store.IteratesExactly range s targets := by
  obtain ⟨it, l, hiterate, hover, hrun⟩ := h.iterates
  have hans : store.Answers range s l := ⟨hover.sorted, hover.mem⟩
  rw [WriteSnapshot.iterateRange] at hiterate
  obtain ⟨iter, hbuffered, hiterate⟩ := bind_eq_some_iff.mp hiterate
  obtain ⟨storage, hnew, hiterate⟩ := bind_eq_some_iff.mp hiterate
  cases hiterate
  obtain ⟨b, hwrites, rfl⟩ := map_eq_some_iff.mp hbuffered
  obtain rfl : b = [] := writesIn_new hwrites
  obtain ⟨start, hseek⟩ : ∃ start, range.rangeStart.seekBytes = some start := by
    rw [← ne_none_iff_exists']
    intro hnone
    simp [MVCCRangeIterator.new, KeyspaceRangeIterator.new, hnone] at hnew
  obtain ⟨storage', hnew', hyields⟩ :=
    MVCCRangeIterator.new_yields (s := s) store.raw.sorted hseek
  obtain rfl : storage = storage' := some.inj (hnew.symm.trans hnew')
  refine ⟨storage, l, hnew, hans, fun calls hin => ?_⟩
  rw [hyields.run store.operation_ne_none]
  exact Alone.run store.operation_ne_none ⟨hyields, rfl, .inl rfl⟩
    (hrun calls hin)

theorem exists_not_sees (hgets : store.GetsExactly s) (k : Bytes) : ∃ v, ¬ store.Sees s k v := by
  obtain ⟨value, -, hvalue⟩ := hgets k
  cases value with
  | none => exact ⟨[], fun h => nomatch (hvalue _).mpr h⟩
  | some w =>
    refine ⟨0 :: w, fun h => ?_⟩
    have := congrArg length (some.inj ((hvalue _).mpr h))
    simp at this

theorem bounded_iff_of_put {k : Bytes} (hexact : store.IteratesExactly range s targets)
    (hgets : store.GetsExactly s)
    (h : ∀ v, store.SnapshotExact (new.put k v) range s targets) :
    Bounded range k ↔ range.Contains k := by
  obtain ⟨v, hv⟩ := exists_not_sees hgets k
  obtain ⟨it, o, hiterate, hover, hrun⟩ := (h v).iterates
  have hget : (new.put k v).writesGet k = some (.put v false) := by
    simp [writesGet, put]
  obtain ⟨b, hwrites⟩ : ∃ b, (new.put k v).writesIn range = some b := by
    rw [← ne_none_iff_exists']
    intro hnone
    simp [WriteSnapshot.iterateRange, iterateRange, snapshot, hnone] at hiterate
  obtain ⟨it', l, hiterate', hans, hfollows⟩ := snapshot_iterates hwrites hexact
  obtain rfl : it = it' := some.inj (hiterate.symm.trans hiterate')
  -- the iterator cannot answer as two lists do
  obtain rfl : o = overlay Write.getValue b l := by
    refine answers_injective fun n => ?_
    have hin : ∀ call ∈ replicate n IteratorCall.next, call.SeeksIn targets := by
      intro call hcall
      rw [eq_of_mem_replicate hcall]
      trivial
    exact some.inj ((hrun _ hin).symm.trans (hfollows.run hin))
  have hmem := (hover.mem k v).symm.trans (mem_overlay_writesIn hwrites hans)
  simp only [Shows, hget, Write.getValue, and_true, some.injEq, exists_eq_left'] at hmem
  rw [hmem]
  simp [hv]

/-- Every snapshot on the store reads its overlay, whatever it has written, exactly for the ranges
and targets that fit the stored keys and the buffer. -/
theorem snapshots_exact_iff :
    (∀ calls buffer, WriteBuffer.ofCalls calls = some buffer →
        store.SnapshotExact buffer range s targets) ↔
      store.StorageFits range s targets ∧ range.BufferFits := by
  rw [storageFits_iff]
  constructor
  · intro h
    -- nothing buffered tells about the storage, single puts about the buffer
    have hempty := h [] _ rfl
    have hexact := iteratesExactly_of_snapshot hempty
    have hgets : store.GetsExactly s := hempty.gets
    have hbounds : ∀ k, Bounded range k ↔ range.Contains k := fun k =>
      bounded_iff_of_put hexact hgets fun v => h [.put k v] _ rfl
    obtain ⟨hstart, hstop⟩ := KeyRange.bounded_iff_contains.mp hbounds
    refine ⟨⟨hexact, hgets⟩, (writesIn_ne_none new range).mp ?_, hstart, hstop⟩
    intro hnone
    obtain ⟨it, l, hiterate, -⟩ := hempty.iterates
    simp [WriteSnapshot.iterateRange, iterateRange, snapshot, hnone] at hiterate
  · exact fun ⟨⟨hexact, hgets⟩, hfits⟩ calls buffer _ => snapshotExact_of_fits hexact hgets hfits

def empty : StoredVersions := ⟨OrderedMap.empty, nofun, nofun⟩

def throughLastPrefix : KeyRange := ⟨.inclusive [1], .endPrefixInclusive [1, 255]⟩

/-- A put of `[2]` shows in a range that ends before it. -/
theorem put_shows_outside :
    ∃ buffer it, WriteBuffer.ofCalls [.put [2] [7]] = some buffer ∧
      (empty.snapshot buffer 0).iterateRange throughLastPrefix = some it ∧
      it.run [.next] = some [some ([2], [7])] ∧ ¬ throughLastPrefix.Contains [2] :=
  ⟨_, _, rfl, rfl, rfl, by decide⟩

end StoredVersions
end TypeDB.Storage
