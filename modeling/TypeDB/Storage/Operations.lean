import TypeDB.Foundations.OrderedMap
import TypeDB.Foundations.Versions

/-! What a snapshot buffers, how the record of a commit depends on that of a predecessor, and
the batches it writes to the keyspaces. -/

namespace TypeDB.Storage
open List Option Versions OrderedMap Function

def keyspaceMaximumCount : Nat := 10

abbrev KeyspaceId := Fin keyspaceMaximumCount

instance : NeZero keyspaceMaximumCount := ⟨by decide⟩

inductive LockType
  | unmodifiable
  | exclusive
  deriving DecidableEq

inductive Write (V : Type*)
  | insert (value : V)
  | put (value : V) (knownToExist : Bool)
  | delete
  deriving DecidableEq

def Write.isPut {V : Type*} : Write V → Bool
  | .put _ _ => true
  | _ => false

/-- `reinsert` holds the flags that the puts share behind their pointers. -/
structure OperationsBuffer (K V : Type*) [LinearOrder K] where
  writes : KeyspaceId → OrderedMap K (Write V)
  locks : OrderedMap K LockType
  reinsert : KeyspaceId → K → Bool

structure CommitRecord (K V : Type*) [LinearOrder K] where
  operations : OperationsBuffer K V
  openSequenceNumber : Nat

inductive DependentPut (K : Type*)
  | deleted (keyspace : KeyspaceId) (key : K)
  | inserted (keyspace : KeyspaceId) (key : K)

inductive IsolationConflict
  | deletingRequiredKey
  | requireDeletedKey
  | exclusiveLock
  deriving DecidableEq

inductive CommitDependency (K : Type*)
  | independent
  | dependentPuts (puts : List (DependentPut K))
  | conflict (conflict : IsolationConflict)

inductive Version (V : Type*)
  | insert (value : V)
  | delete
  deriving DecidableEq

abbrev Keyspace (K V : Type*) := K → Nat → Option (Version V)

variable {K V : Type*} [LinearOrder K]

def OperationsBuffer.isWritesEmpty (operations : OperationsBuffer K V) : Bool :=
  (finRange keyspaceMaximumCount).all fun i => (operations.writes i).entries.isEmpty

def OperationsBuffer.locksEmpty (operations : OperationsBuffer K V) : Bool :=
  operations.locks.entries.isEmpty

def OperationsBuffer.setReinsert (operations : OperationsBuffer K V) (i : KeyspaceId) (k : K)
    (b : Bool) : OperationsBuffer K V :=
  let reinsert := update (operations.reinsert i) k b
  { operations with reinsert := update operations.reinsert i reinsert }

namespace CommitRecord

def dependentPut (i : KeyspaceId) (k : K) : Write V → Option (Write V) → Option (DependentPut K)
  | .put _ _, some (.insert _) => some (.inserted i k)
  | .put _ _, some (.put _ _) => some (.inserted i k)
  | .put _ _, some .delete => some (.deleted i k)
  | _, _ => none

def putsToUpdate (record predecessor : CommitRecord K V) : List (DependentPut K) :=
  (finRange keyspaceMaximumCount).flatMap fun i =>
    (record.operations.writes i).entries.filterMap fun (k, write) =>
      dependentPut i k write ((predecessor.operations.writes i).get? k)

def keyspaceConflict (record predecessor : CommitRecord K V) (i : KeyspaceId) :
    Option IsolationConflict :=
  let deleting := (record.operations.writes i).entries.findSome? fun (k, write) =>
    match write, predecessor.operations.locks.get? k with
    | .delete, some .unmodifiable => some IsolationConflict.deletingRequiredKey
    | _, _ => none
  let required := record.operations.locks.entries.findSome? fun (k, lock) =>
    match lock, (predecessor.operations.writes i).get? k with
    | .unmodifiable, some .delete => some IsolationConflict.requireDeletedKey
    | _, _ => none
  deleting.or required

def lockConflict (record predecessor : CommitRecord K V) : Option IsolationConflict :=
  record.operations.locks.entries.findSome? fun (k, lock) =>
    match lock, predecessor.operations.locks.get? k with
    | .exclusive, some .exclusive => some .exclusiveLock
    | _, _ => none

def firstConflict (record predecessor : CommitRecord K V) : Option IsolationConflict :=
  ((finRange keyspaceMaximumCount).findSome? (keyspaceConflict record predecessor)).or
    (lockConflict record predecessor)

def computeDependency (record predecessor : CommitRecord K V) : CommitDependency K :=
  match firstConflict record predecessor with
  | some conflict => .conflict conflict
  | none =>
    match putsToUpdate record predecessor with
    | [] => .independent
    | puts => .dependentPuts puts

end CommitRecord

def DependentPut.apply (operations : OperationsBuffer K V) : DependentPut K → OperationsBuffer K V
  | .deleted i k => operations.setReinsert i k true
  | .inserted i k => operations.setReinsert i k false

def handleDependency (record : CommitRecord K V) :
    CommitDependency K → Except IsolationConflict (CommitRecord K V)
  | .independent => .ok record
  | .dependentPuts puts =>
    .ok { record with operations := puts.foldl DependentPut.apply record.operations }
  | .conflict conflict => .error conflict

/-- The record after a committed predecessor; `none` on a conflict. -/
def CommitRecord.resolve (record predecessor : CommitRecord K V) : Option (CommitRecord K V) :=
  (handleDependency record (record.computeDependency predecessor)).toOption

abbrev WriteBatch (K V : Type*) := List (K × Nat × Version V)

def writeBatchEntry (operations : OperationsBuffer K V) (n : Nat) (i : KeyspaceId) (k : K) :
    Write V → Option (K × Nat × Version V)
  | .insert value => some (k, n, .insert value)
  | .put value _ => if operations.reinsert i k then some (k, n, .insert value) else none
  | .delete => some (k, n, .delete)

def writeBatch (operations : OperationsBuffer K V) (n : Nat) (i : KeyspaceId) :
    Option (WriteBatch K V) :=
  if (operations.writes i).entries.isEmpty then none
  else some ((operations.writes i).entries.filterMap fun (k, write) =>
    writeBatchEntry operations n i k write)

/-- `WriteBatches::from_operations`, with the keyspaces that have a batch in their order. -/
def fromOperations (n : Nat) (operations : OperationsBuffer K V) :
    List (KeyspaceId × WriteBatch K V) :=
  (finRange keyspaceMaximumCount).filterMap fun i =>
    (writeBatch operations n i).map fun batch => (i, batch)

def Keyspace.put (keyspace : Keyspace K V) (k : K) (n : Nat) (version : Version V) :
    Keyspace K V :=
  update keyspace k (update (keyspace k) n (some version))

def Keyspace.write (keyspace : Keyspace K V) (batch : WriteBatch K V) : Keyspace K V :=
  batch.foldl (fun ks (k, n, version) => ks.put k n version) keyspace

def Version.value : Version V → Option V
  | .insert value => some value
  | .delete => none

def Keyspace.get (keyspace : Keyspace K V) (k : K) (s : Nat) : Option V :=
  (newest (keyspace k) s).bind Version.value

section Dependency
variable {record predecessor record' : CommitRecord K V} {i : KeyspaceId} {k : K}

inductive Conflicts (record predecessor : CommitRecord K V) : Prop
  | deletesRequired (i : KeyspaceId) (k : K)
      (hwrite : (record.operations.writes i).get? k = some .delete)
      (hlock : predecessor.operations.locks.get? k = some .unmodifiable)
  | requiresDeleted (i : KeyspaceId) (k : K)
      (hlock : record.operations.locks.get? k = some .unmodifiable)
      (hwrite : (predecessor.operations.writes i).get? k = some .delete)
  | bothExclusive (k : K) (hlock : record.operations.locks.get? k = some .exclusive)
      (hlock' : predecessor.operations.locks.get? k = some .exclusive)

theorem CommitRecord.keyspaceConflict_isSome_iff : (keyspaceConflict record predecessor i).isSome ↔
      (∃ k, (record.operations.writes i).get? k = some .delete ∧
        predecessor.operations.locks.get? k = some .unmodifiable) ∨
      ∃ k, record.operations.locks.get? k = some .unmodifiable ∧
        (predecessor.operations.writes i).get? k = some .delete := by
  rw [keyspaceConflict, isSome_or, Bool.or_eq_true, findSome?_isSome_iff, findSome?_isSome_iff]
  refine or_congr ⟨?_, ?_⟩ ⟨?_, ?_⟩
  · rintro ⟨⟨k, write⟩, hmem, h⟩
    dsimp only at h
    split at h
    · rename_i hlock
      exact ⟨k, mem_entries.mp hmem, hlock⟩
    · cases h
  · rintro ⟨k, hwrite, hlock⟩
    exact ⟨(k, .delete), mem_entries.mpr hwrite, by simp [hlock]⟩
  · rintro ⟨⟨k, lock⟩, hmem, h⟩
    dsimp only at h
    split at h
    · rename_i hwrite
      exact ⟨k, mem_entries.mp hmem, hwrite⟩
    · cases h
  · rintro ⟨k, hlock, hwrite⟩
    exact ⟨(k, .unmodifiable), mem_entries.mpr hlock, by simp [hwrite]⟩

theorem CommitRecord.lockConflict_isSome_iff : (lockConflict record predecessor).isSome ↔
      ∃ k, record.operations.locks.get? k = some .exclusive ∧
        predecessor.operations.locks.get? k = some .exclusive := by
  rw [lockConflict, findSome?_isSome_iff]
  constructor
  · rintro ⟨⟨k, lock⟩, hmem, h⟩
    dsimp only at h
    split at h
    · rename_i hlock
      exact ⟨k, mem_entries.mp hmem, hlock⟩
    · cases h
  · rintro ⟨k, hlock, hlock'⟩
    exact ⟨(k, .exclusive), mem_entries.mpr hlock, by simp [hlock']⟩

theorem CommitRecord.firstConflict_isSome_iff :
    (firstConflict record predecessor).isSome ↔ Conflicts record predecessor := by
  rw [firstConflict, isSome_or, Bool.or_eq_true, findSome?_isSome_iff, lockConflict_isSome_iff]
  constructor
  · rintro (⟨i, -, hi⟩ | ⟨k, h, h'⟩)
    · rcases keyspaceConflict_isSome_iff.mp hi with ⟨k, h, h'⟩ | ⟨k, h, h'⟩
      · exact .deletesRequired i k h h'
      · exact .requiresDeleted i k h h'
    · exact .bothExclusive k h h'
  · rintro (⟨i, k, h, h'⟩ | ⟨i, k, h, h'⟩ | ⟨k, h, h'⟩)
    · exact .inl ⟨i, mem_finRange i, keyspaceConflict_isSome_iff.mpr (.inl ⟨k, h, h'⟩)⟩
    · exact .inl ⟨i, mem_finRange i, keyspaceConflict_isSome_iff.mpr (.inr ⟨k, h, h'⟩)⟩
    · exact .inr ⟨k, h, h'⟩

def Write.flag : Write V → Bool
  | .delete => true
  | _ => false

omit [LinearOrder K] in
theorem CommitRecord.dependentPut_eq_some {write : Write V} {write' : Option (Write V)}
    {put : DependentPut K} (h : dependentPut i k write write' = some put) :
    write.isPut = true ∧ ∃ w, write' = some w ∧
      put = if w.flag then .deleted i k else .inserted i k := by
  unfold dependentPut at h
  split at h
  all_goals first
    | (cases h
       exact ⟨rfl, _, rfl, rfl⟩)
    | cases h

def DependentPut.keyspace : DependentPut K → KeyspaceId
  | .deleted i _ => i
  | .inserted i _ => i

def DependentPut.key : DependentPut K → K
  | .deleted _ k => k
  | .inserted _ k => k

def DependentPut.flag : DependentPut K → Bool
  | .deleted _ _ => true
  | .inserted _ _ => false

section
variable (operations : OperationsBuffer K V)
include operations

theorem DependentPut.apply_eq (put : DependentPut K) :
    put.apply operations = operations.setReinsert put.keyspace put.key put.flag := by
  cases put <;> rfl

theorem OperationsBuffer.setReinsert_reinsert
    (i j : KeyspaceId) (k k' : K) (b : Bool) :
    (operations.setReinsert i k b).reinsert j k' =
      if j = i ∧ k' = k then b else operations.reinsert j k' := by
  by_cases hj : j = i
  · subst hj
    by_cases hk : k' = k
    · simp [setReinsert, hk]
    · simp [setReinsert, hk]
  · simp [setReinsert, hj]

theorem DependentPut.foldl_apply_writes
    (puts : List (DependentPut K)) :
    (puts.foldl apply operations).writes = operations.writes ∧
      (puts.foldl apply operations).locks = operations.locks := by
  induction puts generalizing operations with
  | nil => exact ⟨rfl, rfl⟩
  | cons put puts ih =>
    rw [foldl_cons, (ih _).1, (ih _).2, apply_eq]
    exact ⟨rfl, rfl⟩

theorem DependentPut.foldl_apply_reinsert {b : Bool}
    (puts : List (DependentPut K))
    (h : ∀ put ∈ puts, put.keyspace = i → put.key = k → put.flag = b) :
    (puts.foldl apply operations).reinsert i k =
      if ∃ put ∈ puts, put.keyspace = i ∧ put.key = k then b else operations.reinsert i k := by
  induction puts generalizing operations with
  | nil => simp
  | cons put puts ih =>
    rw [foldl_cons, ih _ fun p hp => h p (mem_cons_of_mem _ hp), apply_eq,
      OperationsBuffer.setReinsert_reinsert]
    by_cases hrest : ∃ p ∈ puts, p.keyspace = i ∧ p.key = k
    · have hall : ∃ p ∈ put :: puts, p.keyspace = i ∧ p.key = k := by
        obtain ⟨p, hp, hpk⟩ := hrest
        exact ⟨p, mem_cons_of_mem _ hp, hpk⟩
      rw [if_pos hrest, if_pos hall]
    · rw [if_neg hrest]
      by_cases hput : i = put.keyspace ∧ k = put.key
      · have hall : ∃ p ∈ put :: puts, p.keyspace = i ∧ p.key = k :=
          ⟨put, mem_cons_self, hput.1.symm, hput.2.symm⟩
        rw [if_pos hput, if_pos hall, h put mem_cons_self hput.1.symm hput.2.symm]
      · have hall : ¬ ∃ p ∈ put :: puts, p.keyspace = i ∧ p.key = k := by
          rintro ⟨p, hp, hpk⟩
          rcases mem_cons.mp hp with rfl | hp
          · exact hput ⟨hpk.1.symm, hpk.2.symm⟩
          · exact hrest ⟨p, hp, hpk⟩
        rw [if_neg hput, if_neg hall]

end

theorem CommitRecord.mem_putsToUpdate {put : DependentPut K} :
    put ∈ putsToUpdate record predecessor ↔
      ∃ write, (record.operations.writes put.keyspace).get? put.key = some write ∧
        dependentPut put.keyspace put.key write
          ((predecessor.operations.writes put.keyspace).get? put.key) = some put := by
  simp only [putsToUpdate, mem_flatMap, mem_filterMap, mem_finRange, true_and]
  constructor
  · rintro ⟨i, ⟨k, write⟩, hmem, h⟩
    obtain ⟨-, w, -, rfl⟩ := dependentPut_eq_some h
    have hget := mem_entries.mp hmem
    split_ifs at h ⊢ with hw
    · exact ⟨write, hget, h⟩
    · exact ⟨write, hget, h⟩
  · rintro ⟨write, hget, h⟩
    exact ⟨put.keyspace, (put.key, write), mem_entries.mpr hget, h⟩

def flagAfter (record predecessor : CommitRecord K V) (i : KeyspaceId) (k : K) : Bool :=
  match (record.operations.writes i).get? k, (predecessor.operations.writes i).get? k with
  | some (.put _ _), some w => w.flag
  | _, _ => record.operations.reinsert i k

/-- Resolving a record fails exactly on a conflict; otherwise only the flags of the puts of keys
that the predecessor writes change. -/
theorem CommitRecord.resolve_eq_none_iff :
    record.resolve predecessor = none ↔ Conflicts record predecessor := by
  rw [← firstConflict_isSome_iff, resolve, computeDependency]
  cases hc : firstConflict record predecessor with
  | some c => simp [handleDependency, Except.toOption]
  | none => cases hp : putsToUpdate record predecessor <;> simp [handleDependency, Except.toOption]

open DependentPut

theorem CommitRecord.resolve_eq_some (h : record.resolve predecessor = some record') :
    record'.operations.writes = record.operations.writes ∧
      record'.operations.locks = record.operations.locks ∧
      record'.openSequenceNumber = record.openSequenceNumber ∧
      ∀ i k, record'.operations.reinsert i k = flagAfter record predecessor i k := by
  -- independence is the case of no puts
  have hfold : record' = { record with operations :=
      (putsToUpdate record predecessor).foldl apply record.operations } := by
    rw [resolve, computeDependency] at h
    cases hc : firstConflict record predecessor with
    | some c => simp [hc, handleDependency, Except.toOption] at h
    | none =>
      cases hp : putsToUpdate record predecessor with
      | nil =>
        obtain rfl : record = record' := by
          simpa [hc, hp, handleDependency, Except.toOption] using h
        rfl
      | cons put puts => simpa [hc, hp, handleDependency, Except.toOption, eq_comm] using h
  subst hfold
  obtain ⟨hwrites, hlocks⟩ := foldl_apply_writes record.operations
    (putsToUpdate record predecessor)
  refine ⟨hwrites, hlocks, rfl, fun i k => ?_⟩
  rw [flagAfter]
  split
  · rename_i value known w hput hw
    rw [foldl_apply_reinsert (b := w.flag)]
    · refine if_pos ?_
      refine ⟨if w.flag then .deleted i k else .inserted i k, mem_putsToUpdate.mpr ?_, ?_⟩
      · cases w <;> exact ⟨_, hput, by simp [Write.flag, keyspace, key, hw, dependentPut]⟩
      · cases w <;> exact ⟨rfl, rfl⟩
    · rintro put hmem rfl rfl
      obtain ⟨write, hget, hdep⟩ := mem_putsToUpdate.mp hmem
      obtain ⟨-, w', hw', hput'⟩ := dependentPut_eq_some hdep
      obtain rfl : w = w' := some.inj (hw.symm.trans hw')
      rw [hput']
      cases w <;> rfl
  · rename_i hnone
    rw [foldl_apply_reinsert (b := false)]
    · refine if_neg ?_
      rintro ⟨put, hmem, rfl, rfl⟩
      obtain ⟨write, hget, hdep⟩ := mem_putsToUpdate.mp hmem
      obtain ⟨hput, w, hw, -⟩ := dependentPut_eq_some hdep
      cases write with
      | put value known => exact hnone _ _ _ hget hw
      | insert value | delete => cases hput
    · rintro put hmem rfl rfl
      obtain ⟨write, hget, hdep⟩ := mem_putsToUpdate.mp hmem
      obtain ⟨hput, w, hw, -⟩ := dependentPut_eq_some hdep
      cases write with
      | put value known => exact absurd hw (hnone _ _ _ hget)
      | insert value | delete => cases hput

structure CommitRecord.Alike (record record' : CommitRecord K V) : Prop where
  writes : record'.operations.writes = record.operations.writes
  locks : record'.operations.locks = record.operations.locks
  opened : record'.openSequenceNumber = record.openSequenceNumber

namespace CommitRecord

theorem Alike.refl (record : CommitRecord K V) : record.Alike record := ⟨rfl, rfl, rfl⟩

theorem Alike.trans {r r' r'' : CommitRecord K V} (h : r.Alike r') (h' : r'.Alike r'') :
    r.Alike r'' :=
  ⟨h'.writes.trans h.writes, h'.locks.trans h.locks, h'.opened.trans h.opened⟩

theorem Alike.symm {r r' : CommitRecord K V} (h : r.Alike r') : r'.Alike r :=
  ⟨h.writes.symm, h.locks.symm, h.opened.symm⟩

theorem Alike.conflicts {r r' p p' : CommitRecord K V} (hr : r.Alike r') (hp : p.Alike p')
    (h : Conflicts r p) : Conflicts r' p' := by
  cases h with
  | deletesRequired i k hwrite hlock =>
    exact .deletesRequired i k (hr.writes ▸ hwrite) (hp.locks ▸ hlock)
  | requiresDeleted i k hlock hwrite =>
    exact .requiresDeleted i k (hr.locks ▸ hlock) (hp.writes ▸ hwrite)
  | bothExclusive k hlock hlock' =>
    exact .bothExclusive k (hr.locks ▸ hlock) (hp.locks ▸ hlock')

theorem Alike.of_resolve (h : record.resolve predecessor = some record') : record.Alike record' :=
  have h := resolve_eq_some h
  ⟨h.1, h.2.1, h.2.2.1⟩

theorem Alike.of_handle {dependency : CommitDependency K}
    (h : handleDependency record dependency = .ok record') : record.Alike record' := by
  cases dependency with
  | independent =>
    obtain rfl := Except.ok.inj h
    exact .refl record
  | dependentPuts puts =>
    obtain rfl := Except.ok.inj h
    obtain ⟨hwrites, hlocks⟩ := foldl_apply_writes record.operations puts
    exact ⟨hwrites, hlocks, rfl⟩
  | conflict c => cases h

theorem Alike.computeDependency {r r' p p' : CommitRecord K V} (hr : r.Alike r')
    (hp : p.Alike p') : r'.computeDependency p' = r.computeDependency p := by
  obtain ⟨⟨w, l, f⟩, o⟩ := r
  obtain ⟨⟨w', l', f'⟩, o'⟩ := r'
  obtain ⟨⟨wp, lp, fp⟩, op⟩ := p
  obtain ⟨⟨wp', lp', fp'⟩, op'⟩ := p'
  obtain ⟨rfl, rfl, rfl⟩ := hr
  obtain ⟨rfl, rfl, rfl⟩ := hp
  rfl

end CommitRecord
end Dependency

section Batches
variable {operations : OperationsBuffer K V} {n m : Nat} {i : KeyspaceId} {k : K}
  {batch : WriteBatch K V}

def OperationsBuffer.version (operations : OperationsBuffer K V) (i : KeyspaceId) (k : K) :
    Option (Version V) :=
  match (operations.writes i).get? k with
  | some (.insert value) => some (.insert value)
  | some (.put value _) => if operations.reinsert i k then some (.insert value) else none
  | some .delete => some .delete
  | none => none

theorem Keyspace.put_apply (keyspace : Keyspace K V) (k k' : K) (n m : Nat) (v : Version V) :
    keyspace.put k n v k' m = if k' = k ∧ m = n then some v else keyspace k' m := by
  by_cases hk : k' = k
  · subst hk
    by_cases hm : m = n
    · simp [put, hm]
    · simp [put, hm]
  · simp [put, hk]

theorem Keyspace.write_apply (keyspace : Keyspace K V) (batch : WriteBatch K V)
    {v : Version V} (h : ∀ e ∈ batch, e.1 = k → e.2.1 = m → e.2.2 = v) :
    keyspace.write batch k m =
      if ∃ e ∈ batch, e.1 = k ∧ e.2.1 = m then some v else keyspace k m := by
  induction batch generalizing keyspace with
  | nil => simp [write]
  | cons e batch ih =>
    obtain ⟨k', n', v'⟩ := e
    have hih := ih (keyspace.put k' n' v') fun e he => h e (mem_cons_of_mem _ he)
    rw [write, foldl_cons, ← write, hih, put_apply]
    by_cases hrest : ∃ e ∈ batch, e.1 = k ∧ e.2.1 = m
    · have hall : ∃ e ∈ (k', n', v') :: batch, e.1 = k ∧ e.2.1 = m := by
        obtain ⟨e, he, hek⟩ := hrest
        exact ⟨e, mem_cons_of_mem _ he, hek⟩
      rw [if_pos hrest, if_pos hall]
    · rw [if_neg hrest]
      by_cases hself : k = k' ∧ m = n'
      · have hall : ∃ e ∈ (k', n', v') :: batch, e.1 = k ∧ e.2.1 = m :=
          ⟨_, mem_cons_self, hself.1.symm, hself.2.symm⟩
        have hv : v' = v := h _ mem_cons_self hself.1.symm hself.2.symm
        rw [if_pos hself, if_pos hall, hv]
      · have hall : ¬ ∃ e ∈ (k', n', v') :: batch, e.1 = k ∧ e.2.1 = m := by
          rintro ⟨e, he, hek⟩
          rcases mem_cons.mp he with rfl | he
          · exact hself ⟨hek.1.symm, hek.2.symm⟩
          · exact hrest ⟨e, he, hek⟩
        rw [if_neg hself, if_neg hall]

theorem writeBatchEntry_eq_some {write : Write V} {e : K × Nat × Version V}
    (hw : (operations.writes i).get? k = some write)
    (h : writeBatchEntry operations n i k write = some e) :
    e.1 = k ∧ e.2.1 = n ∧ operations.version i k = some e.2.2 := by
  rw [OperationsBuffer.version, hw]
  unfold writeBatchEntry at h
  split at h
  · cases h
    exact ⟨rfl, rfl, rfl⟩
  · split_ifs at h with hf
    cases h
    exact ⟨rfl, rfl, if_pos hf⟩
  · cases h
    exact ⟨rfl, rfl, rfl⟩

theorem mem_writeBatch (h : writeBatch operations n i = some batch) (e : K × Nat × Version V) :
    e ∈ batch ↔ e.2.1 = n ∧ operations.version i e.1 = some e.2.2 := by
  rw [writeBatch] at h
  split_ifs at h
  cases h
  rw [mem_filterMap]
  constructor
  · rintro ⟨⟨k, write⟩, hmem, he⟩
    obtain ⟨rfl, hn, hv⟩ := writeBatchEntry_eq_some (mem_entries.mp hmem) he
    exact ⟨hn, hv⟩
  · rintro ⟨hn, hv⟩
    obtain ⟨k, n', v⟩ := e
    obtain rfl : n' = n := hn
    rw [OperationsBuffer.version] at hv
    split at hv
    · rename_i value hget
      refine ⟨(k, _), mem_entries.mpr hget, ?_⟩
      simp only [some.injEq] at hv
      simp [writeBatchEntry, hv]
    · rename_i value known hget
      split_ifs at hv with hf
      refine ⟨(k, _), mem_entries.mpr hget, ?_⟩
      simp only [some.injEq] at hv
      simp [writeBatchEntry, hf, hv]
    · rename_i hget
      refine ⟨(k, _), mem_entries.mpr hget, ?_⟩
      simp only [some.injEq] at hv
      simp [writeBatchEntry, hv]
    · cases hv

theorem Keyspace.write_writeBatch (h : writeBatch operations n i = some batch)
    (keyspace : Keyspace K V) (k : K) (m : Nat) :
    keyspace.write batch k m =
      if m = n then (operations.version i k).or (keyspace k n) else keyspace k m := by
  cases hv : operations.version i k with
  | none =>
    have hnone : ∀ e ∈ batch, e.1 ≠ k := by
      rintro e he rfl
      rw [((mem_writeBatch h e).mp he).2] at hv
      cases hv
    have hex : ¬ ∃ e ∈ batch, e.1 = k ∧ e.2.1 = m := fun ⟨e, he, hk, _⟩ => hnone e he hk
    rw [write_apply (v := .delete) keyspace batch fun e he hk => absurd hk (hnone e he),
      if_neg hex, none_or]
    split_ifs with hm
    · rw [hm]
    · rfl
  | some v =>
    have hagree : ∀ e ∈ batch, e.1 = k → e.2.1 = m → e.2.2 = v := by
      rintro e he rfl -
      exact some.inj (((mem_writeBatch h e).mp he).2.symm.trans hv)
    rw [write_apply keyspace batch hagree]
    by_cases hm : m = n
    · subst hm
      have hex : ∃ e ∈ batch, e.1 = k ∧ e.2.1 = m :=
        ⟨(k, m, v), (mem_writeBatch h _).mpr ⟨rfl, hv⟩, rfl, rfl⟩
      rw [if_pos hex, if_pos rfl, some_or]
    · have hex : ¬ ∃ e ∈ batch, e.1 = k ∧ e.2.1 = m := fun ⟨e, he, _, hn⟩ =>
        hm (hn.symm.trans ((mem_writeBatch h e).mp he).1)
      rw [if_neg hex, if_neg hm]

theorem version_none_of_writeBatch_none (h : writeBatch operations n i = none) (k : K) :
    operations.version i k = none := by
  rw [writeBatch] at h
  split_ifs at h with hempty
  have hget : (operations.writes i).get? k = none := by
    rw [get?, isEmpty_iff.mp hempty]
    rfl
  rw [OperationsBuffer.version, hget]

theorem mem_fromOperations :
    (i, batch) ∈ fromOperations n operations ↔ writeBatch operations n i = some batch := by
  simp [fromOperations]

theorem nodup_fromOperations (n : Nat) (operations : OperationsBuffer K V) :
    ((fromOperations n operations).map Prod.fst).Nodup := by
  rw [fromOperations, map_filterMap]
  refine (nodup_finRange _).filterMap fun i j k hi hj => ?_
  simp only [Option.map_map, Option.mem_def, Option.map_eq_some_iff] at hi hj
  obtain ⟨_, -, rfl⟩ := hi
  obtain ⟨_, -, hij⟩ := hj
  exact hij.symm

end Batches

end TypeDB.Storage
