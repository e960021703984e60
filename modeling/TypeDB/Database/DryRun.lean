import TypeDB.Encoding.SchemaIDAllocator
import TypeDB.Storage.Commit

/-! Analysing a schema query in a schema transaction. The query is executed on the transaction's own
snapshot and the transaction is then rolled back. That empties the buffer, whatever was in it
before, and leaves the id allocators, which all transactions share, where the query has moved
them. -/

namespace TypeDB.Database
open ByteString Encoding Encoding.SchemaPrefix Storage OrderedMap List

variable {ε : Type}

/-- A schema transaction: a thread of the storage that has opened a snapshot for it, what it has
buffered, and the allocators of the database. The flags of puts are set when it commits. -/
structure SchemaTransaction where
  db : Storage.Database Bytes Bytes
  thread : Nat
  opened : (db.threads thread).pc = .opened
  schema : (db.threads thread).call = .schema
  writes : KeyspaceId → OrderedMap Bytes (Write Bytes)
  locks : OrderedMap Bytes LockType
  lastAllocatedTypeIds : SchemaPrefix → Fin 65536

namespace SchemaTransaction
variable (tx : SchemaTransaction)

def get (i : KeyspaceId) (k : Bytes) : Option Bytes :=
  match (tx.writes i).get? k with
  | some write => write.getValue
  | none => (tx.db.shared.keyspaces i).get k (tx.db.threads tx.thread).openSequenceNumber

def write (i : KeyspaceId) (k : Bytes) (write : Write Bytes) : SchemaTransaction :=
  { tx with writes := Function.update tx.writes i ((tx.writes i).insert k write) }

def operations : OperationsBuffer Bytes Bytes := ⟨tx.writes, tx.locks, fun _ _ => false⟩

/-- The commit machine is handed what is buffered. -/
def commit : Option (Storage.Database Bytes Bytes) :=
  tx.db.step (.commit tx.thread tx.operations)

/-- A type or definition gets the id that `allocate` finds where no read fails, and its key is
put. -/
def create (p : SchemaPrefix) (value : Bytes) : SchemaTransaction :=
  match nextId (fun id => (tx.get 0 (p.objectFromId id)).isSome) (tx.lastAllocatedTypeIds p) with
  | none => tx
  | some id =>
    { tx.write 0 (p.objectFromId id) (.put value false) with
      lastAllocatedTypeIds := Function.update tx.lastAllocatedTypeIds p (Fin.ofNat _ id) }

inductive SchemaCall
  | write (i : KeyspaceId) (k : Bytes) (write : Write Bytes)
  | lock (k : Bytes) (lock : LockType)
  | create (p : SchemaPrefix) (value : Bytes)

def call : SchemaCall → SchemaTransaction
  | .write i k write => tx.write i k write
  | .lock k lock => { tx with locks := tx.locks.insert k lock }
  | .create p value => tx.create p value

/-- `OperationsBuffer::clear` on the snapshot of the transaction. -/
def rollback : SchemaTransaction :=
  { tx with locks := .empty, writes := fun _ => .empty }

/-- What executing a query does to the transaction, also if it fails half way. -/
structure SchemaQuery (ε : Type) where
  execute : SchemaTransaction → SchemaTransaction × Except ε Unit
  db : ∀ tx, (execute tx).1.db = tx.db
  thread : ∀ tx, (execute tx).1.thread = tx.thread

variable (query : SchemaQuery ε)

def dryRunSchemaQuery : SchemaTransaction × Option ε :=
  let (transaction, result) := query.execute tx
  (transaction.rollback, match result with | .ok () => none | .error error => some error)

/-- Whatever the transaction does later, its reads and its commit are as if the query had not been
analysed. -/
def Undisturbed : Prop :=
  ∀ later : List SchemaCall,
    (∀ i k, (later.foldl call (tx.dryRunSchemaQuery query).1).get i k =
      (later.foldl call tx).get i k) ∧
    (later.foldl call (tx.dryRunSchemaQuery query).1).commit = (later.foldl call tx).commit

variable {tx query} {p : SchemaPrefix} {id : Nat}

theorem commit_eq : tx.commit = some (tx.db.move tx.thread tx.db.shared
    { tx.db.threads tx.thread with
      pc := if tx.operations.isWritesEmpty && tx.operations.locksEmpty then .closed
        else .initialPuts tx.operations.puts
      operations := tx.operations }) := by
  simp only [commit, Storage.Database.step, tx.opened, tx.schema, OpenCall.registers]

theorem get_write (i : KeyspaceId) (k k' : Bytes) (w : Write Bytes) :
    (tx.write i k w).get i k' = if k' = k then w.getValue else tx.get i k' := by
  simp only [get, write, Function.update_self, get?_insert]
  split_ifs <;> rfl

@[simp] theorem db_create (tx : SchemaTransaction) (p : SchemaPrefix) (value : Bytes) :
    (tx.create p value).db = tx.db := by
  rw [create]
  split <;> rfl

@[simp] theorem thread_create (tx : SchemaTransaction) (p : SchemaPrefix) (value : Bytes) :
    (tx.create p value).thread = tx.thread := by
  rw [create]
  split <;> rfl

theorem nextId_self {taken : Nat → Bool} (h : taken id = false) (hid : id < 65536) :
    nextId taken id = some id := by
  obtain ⟨n, hn⟩ : ∃ n, 65536 - id = n + 1 := ⟨65535 - id, by omega⟩
  rw [nextId, firstFree, hn, range'_succ, find?_cons_of_pos (by simp [h]), Option.some_or]

/-- With the keys of both ids deleted, the allocator takes the one it is at. -/
def twoFreed (p : SchemaPrefix) (a b : Nat) : List SchemaCall :=
  [.write 0 (p.objectFromId a) .delete, .write 0 (p.objectFromId b) .delete, .create p []]

theorem get_twoFreed (tx : SchemaTransaction) (p : SchemaPrefix) {a b c : Nat}
    (hc : c = tx.lastAllocatedTypeIds p) (hab : c = a ∨ c = b) :
    ((twoFreed p a b).foldl call tx).get 0 (p.objectFromId a) =
      if p.objectFromId a = p.objectFromId c then some [] else none := by
  have hlt : c < 65536 := hc ▸ (tx.lastAllocatedTypeIds p).isLt
  generalize hu : (tx.write 0 (p.objectFromId a) .delete).write 0 (p.objectFromId b) .delete = u
  have hget : ∀ k, u.get 0 k = if k = p.objectFromId b then none
      else if k = p.objectFromId a then none else tx.get 0 k := by
    intro k
    rw [← hu, get_write, get_write]
    rfl
  have hnext : nextId (fun id => (u.get 0 (p.objectFromId id)).isSome)
      (u.lastAllocatedTypeIds p) = some c := by
    have hlast : (u.lastAllocatedTypeIds p : Nat) = c := by rw [← hu, hc]; rfl
    rw [hlast]
    refine nextId_self ?_ hlt
    rw [hget]
    rcases hab with rfl | rfl <;> simp
  have hcreate : (twoFreed p a b).foldl call tx =
      { u.write 0 (p.objectFromId c) (.put [] false) with
        lastAllocatedTypeIds := Function.update u.lastAllocatedTypeIds p (Fin.ofNat _ c) } := by
    simp only [twoFreed, foldl_cons, foldl_nil, call, hu, create, hnext]
  rw [hcreate]
  change (u.write 0 (p.objectFromId c) (.put [] false)).get 0 (p.objectFromId a) = _
  rw [get_write, hget, if_pos rfl, ite_self]
  rfl

theorem operations_eq_new_iff : tx.operations = .new ↔
    (tx.operations.isWritesEmpty && tx.operations.locksEmpty) = true := by
  have hnil : ∀ {β : Type} {m : OrderedMap Bytes β}, m.entries = [] ↔ m = .empty :=
    ⟨fun h => ext_entries h, fun h => h ▸ rfl⟩
  simp only [operations, OperationsBuffer.new, OperationsBuffer.isWritesEmpty,
    OperationsBuffer.locksEmpty, OperationsBuffer.mk.injEq, Bool.and_eq_true, all_eq_true,
    mem_finRange, forall_const, List.isEmpty_iff, hnil, funext_iff, and_true]

theorem rollback_eq {u : SchemaTransaction} (hdb : u.db = tx.db) (hthread : u.thread = tx.thread)
    (hlast : u.lastAllocatedTypeIds = tx.lastAllocatedTypeIds) (hnew : tx.operations = .new) :
    u.rollback = tx := by
  obtain ⟨db, thread, _, _, writes, locks, last⟩ := tx
  obtain ⟨_, _, _, _, _, _, _⟩ := u
  subst hdb hthread hlast
  cases hnew
  rfl

/-- The analysis goes unnoticed only where the transaction has no change of its own to lose, and
the query leaves the allocators where they were. -/
theorem undisturbed_iff (tx : SchemaTransaction) (query : SchemaQuery ε) :
    tx.Undisturbed query ↔ (tx.operations.isWritesEmpty && tx.operations.locksEmpty) = true ∧
      (query.execute tx).1.lastAllocatedTypeIds = tx.lastAllocatedTypeIds := by
  rw [← operations_eq_new_iff]
  have hdb : (tx.dryRunSchemaQuery query).1.db = tx.db := query.db tx
  have hthread : (tx.dryRunSchemaQuery query).1.thread = tx.thread := query.thread tx
  constructor
  · refine fun h => ⟨?_, funext fun p => ?_⟩
    · have hcommit := (h []).2
      simp only [foldl_nil, commit_eq, hdb, hthread, Option.some.injEq] at hcommit
      have hthreads := congrArg (fun db : Storage.Database Bytes Bytes =>
        (db.threads tx.thread).operations) hcommit
      simp only [Threads.System.move_self] at hthreads
      exact hthreads.symm
    · have hdry : (tx.dryRunSchemaQuery query).1.lastAllocatedTypeIds =
          (query.execute tx).1.lastAllocatedTypeIds := rfl
      have hread := (h (twoFreed p (tx.lastAllocatedTypeIds p)
        ((query.execute tx).1.lastAllocatedTypeIds p))).1 0
          (p.objectFromId (tx.lastAllocatedTypeIds p))
      rw [get_twoFreed tx p rfl (.inl rfl), if_pos rfl,
        get_twoFreed _ p (by rw [hdry]) (.inr rfl)] at hread
      have hkeys : p.objectFromId (tx.lastAllocatedTypeIds p) =
          p.objectFromId ((query.execute tx).1.lastAllocatedTypeIds p) := by
        by_contra hne
        cases (if_neg hne).symm.trans hread
      exact Fin.ext (objectFromId_strictMonoOn.injOn (Fin.isLt _) (Fin.isLt _) hkeys.symm)
  · intro ⟨hnew, hlast⟩ later
    have hdry : (tx.dryRunSchemaQuery query).1 = tx :=
      rollback_eq (query.db tx) (query.thread tx) hlast hnew
    rw [hdry]
    exact ⟨fun _ _ => rfl, rfl⟩

/-- A database on which one schema snapshot is opened. -/
def openedDb : Storage.Database Bytes Bytes :=
  ⟨.create 0, fun _ => { (Transaction.new : Transaction Bytes Bytes) with
    pc := .opened, call := .schema }⟩

def noType : SchemaTransaction :=
  ⟨openedDb, 0, rfl, rfl, fun _ => .empty, .empty, fun _ => 0⟩

def emptyQuery : SchemaQuery Empty := ⟨fun tx => (tx, .ok ()), fun _ => rfl, fun _ => rfl⟩

/-- `define entity a; entity b;` -/
def defineTwo : SchemaQuery Empty where
  execute tx := ((tx.create .vertexEntityType []).create .vertexEntityType [], .ok ())
  db tx := by rw [db_create, db_create]
  thread tx := by rw [thread_create, thread_create]

/-- A type that was defined before is gone after the analysis. Where there was none, an analysis
that defines two leaves the allocator at the second, and the next type gets its id. -/
theorem oneType_disturbed :
    ¬ (noType.create .vertexEntityType []).Undisturbed emptyQuery ∧
      ¬ noType.Undisturbed defineTwo := by
  constructor
  · intro h
    exact absurd ((h []).1 0 [10, 0, 0]) (by decide +kernel)
  · intro h
    exact absurd ((h [.create .vertexEntityType []]).1 0 [10, 0, 0]) (by decide +kernel)

end SchemaTransaction
end TypeDB.Database
