import TypeDB.Storage.SnapshotExact

/-! What a commit stores, when it is not in conflict: besides the versions that were there one at
the number of the commit for every buffered write, unless it puts what was read already. -/

namespace TypeDB.Storage
open ByteString List MVCCKey Option OrderedMap WriteBuffer

namespace WriteSnapshot

def putStatus (snapshot : WriteSnapshot) (key : Bytes) : Write Bytes → Option Bool
  | .put value knownToExist =>
    if knownToExist then some false
    else do
      let existing ← Storage.get snapshot.entries key snapshot.openSequenceNumber
      some (decide (existing ≠ some value))
  | _ => some true

def setInitialPutStatus (snapshot : WriteSnapshot) : Option (List ((Bytes × Write Bytes) × Bool)) :=
  snapshot.writes.writes.entries.mapM fun p =>
    (snapshot.putStatus p.1 p.2).map fun reinsert => (p, reinsert)

end WriteSnapshot

def versionOf (n : Nat) (key : Bytes) (reinsert : Bool) : Write Bytes → Option KeyValue
  | .insert value => some (build key n .insert, value)
  | .put value _ => if reinsert then some (build key n .insert, value) else none
  | .delete => some (build key n .delete, [])

/-- `snapshot_commit` at the number `n`, for a commit that is not in conflict. -/
def snapshotCommit (raw : OrderedMap Bytes Bytes) (buffer : WriteBuffer) (s n : Nat) :
    Option (OrderedMap Bytes Bytes) := do
  let operations ← (WriteSnapshot.mk raw.entries buffer s).setInitialPutStatus
  some (raw.insertAll (operations.filterMap fun p => versionOf n p.1.1 p.2 p.1.2))

/-- The version that a write of the key at the number is. -/
def newVersion (n : Nat) (k : Bytes) : Write Bytes → KeyValue
  | .insert value => (build k n .insert, value)
  | .put value _ => (build k n .insert, value)
  | .delete => (build k n .delete, [])

section NewVersion
variable {n : Nat} {k : Bytes} {write : Write Bytes}

theorem newVersion_build (n : Nat) (k : Bytes) (write : Write Bytes) :
    ∃ op, (newVersion n k write).1 = build k n op := by
  cases write <;> exact ⟨_, rfl⟩

@[simp] theorem key_newVersion (n : Nat) (k : Bytes) (write : Write Bytes) :
    key (newVersion n k write).1 = k := by
  obtain ⟨op, hop⟩ := newVersion_build n k write
  rw [hop, key_build]

theorem sequenceNumber_newVersion (hn : n < 2 ^ 64) (k : Bytes) (write : Write Bytes) :
    sequenceNumber (newVersion n k write).1 = n := by
  obtain ⟨op, hop⟩ := newVersion_build n k write
  rw [hop, sequenceNumber_build k op hn]

theorem newVersion_value (n : Nat) (k : Bytes) (write : Write Bytes) :
    (if operation (newVersion n k write).1 = some .insert then some (newVersion n k write).2
      else none) = write.getValue := by
  cases write <;> simp [newVersion, Write.getValue]

end NewVersion

theorem mapM_eq_some_map {α β : Type*} {f : α → Option β} {g : α → β} {l : List α}
    (h : ∀ a ∈ l, f a = some (g a)) : l.mapM f = some (l.map g) := by
  induction l with
  | nil => rfl
  | cons a l ih =>
    obtain ⟨ha, hrest⟩ := forall_mem_cons.mp h
    simp [mapM_cons, ha, ih hrest]

namespace StoredVersions
variable {store : StoredVersions} {buffer : WriteBuffer} {s n : Nat} {k : Bytes}
  {write : Write Bytes} {p : KeyValue}

/-- A put of a value that is known to exist, or is read under its key, is left out. -/
def leavesOut (store : StoredVersions) (s : Nat) (k : Bytes) : Write Bytes → Bool
  | .put value known => known || decide (get store.raw.entries k s = some (some value))
  | _ => false

theorem putStatus_spec (store : StoredVersions) (buffer : WriteBuffer) (s n : Nat) (k : Bytes)
    (write : Write Bytes) :
    ∃ reinsert, (store.snapshot buffer s).putStatus k write = some reinsert ∧
      versionOf n k reinsert write =
        if store.leavesOut s k write then none else some (newVersion n k write) := by
  cases write with
  | insert value | delete => exact ⟨true, rfl, rfl⟩
  | put value known =>
    cases known with
    | true => exact ⟨false, rfl, rfl⟩
    | false =>
      have hget := get_eq (s := s) store.raw.sorted store.operation_ne_none k
      generalize getList k _ = existing at hget
      refine ⟨decide (existing ≠ some value), ?_, ?_⟩
      · simp [WriteSnapshot.putStatus, snapshot, hget]
      · by_cases heq : existing = some value <;> simp [versionOf, leavesOut, newVersion, hget, heq]

theorem snapshotCommit_spec (buffer : WriteBuffer) (s : Nat) (hn : n < 2 ^ 64)
    (hlatest : ∀ p ∈ store.raw.entries, sequenceNumber p.1 < n) :
    ∃ raw, snapshotCommit store.raw buffer s n = some raw ∧ ∀ p, p ∈ raw.entries ↔
      p ∈ store.raw.entries ∨ ∃ k write, buffer.writesGet k = some write ∧
        store.leavesOut s k write = false ∧ p = newVersion n k write := by
  choose reinsert hput hversion using fun q : Bytes × Write Bytes =>
    store.putStatus_spec buffer s n q.1 q.2
  have hstatus : (store.snapshot buffer s).setInitialPutStatus =
      some (buffer.writes.entries.map fun q => (q, reinsert q)) :=
    mapM_eq_some_map fun q hq => by rw [hput q]; rfl
  refine ⟨_, by rw [snapshotCommit]; exact congrArg (· >>= _) hstatus, fun p => ?_⟩
  simp only [filterMap_map, Function.comp_def, hversion]
  have hnew : ∀ {q : Bytes × Write Bytes} {p : KeyValue},
      (if store.leavesOut s q.1 q.2 then none else some (newVersion n q.1 q.2)) = some p ↔
        store.leavesOut s q.1 q.2 = false ∧ p = newVersion n q.1 q.2 := by
    intro q p
    cases store.leavesOut s q.1 q.2 <;> simp [eq_comm]
  rw [mem_insertAll]
  · refine or_congr_right ?_
    simp only [mem_filterMap, Prod.exists, mem_entries, hnew]
    rfl
  · rw [pairwise_filterMap]
    refine buffer.writes.sorted.imp fun {a b} hlt p hp q hq heq => ?_
    obtain ⟨-, rfl⟩ := hnew.mp hp
    obtain ⟨-, rfl⟩ := hnew.mp hq
    have := congrArg key heq
    rw [key_newVersion, key_newVersion] at this
    exact hlt.ne this
  · intro a ha b hb heq
    obtain ⟨q, -, hqa⟩ := mem_filterMap.mp ha
    obtain ⟨-, rfl⟩ := hnew.mp hqa
    have := hlatest b hb
    rw [heq, sequenceNumber_newVersion hn] at this
    exact lt_irrefl _ this

/-- A key and one that it is a prefix of, whose versions come first. -/
def nestedEntries : List KeyValue := [(build [1, 2] 2 .insert, [8]), (build [1] 1 .insert, [7])]

theorem nestedEntries_sorted : nestedEntries.Pairwise fun p q => p.1 < q.1 := by decide

theorem nestedEntries_built : ∀ p ∈ nestedEntries, ∃ k n op, n < 2 ^ 64 ∧ p.1 = build k n op := by
  simp only [nestedEntries, forall_mem_cons, not_mem_nil, false_implies, implies_true, and_true]
  exact ⟨⟨[1, 2], 2, .insert, by decide, rfl⟩, ⟨[1], 1, .insert, by decide, rfl⟩⟩

theorem nestedEntries_single : ∀ p ∈ nestedEntries, ∀ q ∈ nestedEntries, key p.1 = key q.1 →
    sequenceNumber p.1 = sequenceNumber q.1 → p = q := by
  decide +kernel

def nested : StoredVersions :=
  ⟨⟨nestedEntries, nestedEntries_sorted⟩, nestedEntries_built, nestedEntries_single⟩

end StoredVersions
end TypeDB.Storage
