import TypeDB.Foundations.Runs
import TypeDB.Foundations.Threads
import TypeDB.Storage.Timeline
import TypeDB.Storage.Log

/-! Snapshots and their commits as threads. One step is one access to shared memory: a load or a
store of an atomic, a look at the deque of windows under its lock, an append to or a scan of the
log, a batch written to one keyspace. Waiting is the absence of a step, and a panic is a place
from which there is none. Reads and writes of files are taken not to fail. -/

namespace TypeDB.Storage
open Runs Threads

/-- The storage as its threads share it; `synced` counts the log records known to be durable. -/
structure MVCCStorage (K V : Type*) [LinearOrder K] extends Timeline K V where
  highestValidatedSequenceNumber : Nat
  log : Log K V
  nextSequenceNumber : Nat
  synced : Nat
  keyspaces : KeyspaceId → Keyspace K V

inductive OpenCall
  | read
  | write
  | schema
  | readAt (n : Nat)
  | writeAt (n : Nat)

def OpenCall.registers : OpenCall → Bool
  | .read => false
  | .readAt _ => false
  | _ => true

def OpenCall.fixed : OpenCall → Option Nat
  | .readAt n => some n
  | .writeAt n => some n
  | _ => none

/-- Where a thread goes on after `may_increment_watermark`, `remove_reader` or
`may_free_windows`. -/
inductive After
  | closed
  | write
  | reject
  | release
  | persist

inductive Pc (K V : Type*) [LinearOrder K]
  | idle
  | waiting (target : Nat)
  | recordReader
  | incrementReaders (window : Nat)
  | opened
  | initialPuts (todo : List (KeyspaceId × K))
  | sequencedWrite
  | lastEnd
  | createWindows
  | ownWindow
  | setRecord
  | setPending
  | collect
  | diskStatuses (stop : Nat)
  | diskCommits (stop : Nat) (isCommitted : List (Nat × Bool))
  | walk (validateAgainst : Nat)
  | resolve (validateAgainst : Nat)
  | await (validateAgainst : Nat) (dependency : CommitDependency K)
  | setValidated
  | raiseValidated
  | setAborted (conflict : IsolationConflict)
  | incrementCheck (after : After)
  | incrementWindow (candidate : Nat) (after : After)
  | incrementStatus (candidate window : Nat) (after : After)
  | incrementExchange (candidate window : Nat) (after : After)
  | incrementEnd (candidate : Nat) (after : After)
  | free (after : After)
  | freeCheck (watermark : Nat) (after : After)
  | freeLoop (watermark : Nat) (after : After)
  | freePop (window watermark : Nat) (after : After)
  | removeReader (after : After)
  | decrementReaders (window : Nat) (after : After)
  | batches
  | awaitSync (batches : List (KeyspaceId × WriteBatch K V))
  | awaitRejected
  | writeKeyspaces (batches : List (KeyspaceId × WriteBatch K V))
  | apply
  | setApplied
  | persist (didApply : Bool)
  | committed
  | rejected
  | closed
  | failed
  | panicked

def After.pc {K V : Type*} [LinearOrder K] : After → Pc K V
  | .closed => .closed
  | .write => .batches
  | .reject => .awaitRejected
  | .release => .removeReader .reject
  | .persist => .persist true

/-- A snapshot and, once it commits, the thread that commits it. `logged` is the length of the
log after its commit record. -/
structure Transaction (K V : Type*) [LinearOrder K] where
  pc : Pc K V
  call : OpenCall
  openSequenceNumber : Nat
  operations : OperationsBuffer K V
  commitSequenceNumber : Nat
  logged : Nat
  window : Nat
  windows : List Nat

variable {K V : Type*} [LinearOrder K]

def OperationsBuffer.new : OperationsBuffer K V := ⟨fun _ => .empty, .empty, fun _ _ => false⟩

/-- `insert`, `put`, `put_existing` and `delete` of the write buffer of a keyspace. -/
def OperationsBuffer.write (operations : OperationsBuffer K V) (i : KeyspaceId) (k : K)
    (write : Write V) : OperationsBuffer K V :=
  let writes := (operations.writes i).insert k write
  { operations with writes := Function.update operations.writes i writes }

theorem OperationsBuffer.get?_new (i : KeyspaceId) (k : K) :
    ((new : OperationsBuffer K V).writes i).get? k = none := rfl

theorem OperationsBuffer.get?_write (operations : OperationsBuffer K V) (i j : KeyspaceId)
    (k k' : K) (w : Write V) :
    ((operations.write i k w).writes j).get? k' =
      if j = i ∧ k' = k then some w else (operations.writes j).get? k' := by
  by_cases hj : j = i
  · subst hj
    simp [write]
  · simp [write, hj]

def OperationsBuffer.lockAdd (operations : OperationsBuffer K V) (k : K) (lock : LockType) :
    OperationsBuffer K V :=
  { operations with locks := operations.locks.insert k lock }

/-- The puts in the order in which `set_initial_put_status` comes to them. -/
def OperationsBuffer.puts (operations : OperationsBuffer K V) : List (KeyspaceId × K) :=
  (List.finRange keyspaceMaximumCount).flatMap fun i =>
    (operations.writes i).entries.filterMap fun (k, write) =>
      if write.isPut then some (i, k) else none

/-- `MVCCStorage::create` on a log that has handed out the numbers up to `previous`. -/
def MVCCStorage.create (previous : Nat) : MVCCStorage K V where
  toTimeline := Timeline.new (previous + 1)
  highestValidatedSequenceNumber := previous
  log := []
  nextSequenceNumber := previous + 1
  synced := 0
  keyspaces _ _ _ := none

variable (st : MVCCStorage K V)

namespace MVCCStorage

def setTimeline (tl : Timeline K V) : MVCCStorage K V :=
  { st with toTimeline := tl }

def sequencedWrite (record : CommitRecord K V) : MVCCStorage K V :=
  { st with
    log := st.log ++ [⟨st.nextSequenceNumber, .commit record⟩]
    nextSequenceNumber := st.nextSequenceNumber + 1 }

/-- `persist_commit_status`; the record is written under the last number handed out. -/
def persistCommitStatus (n : Nat) (didApply : Bool) : MVCCStorage K V :=
  { st with log := st.log ++ [⟨st.nextSequenceNumber - 1, .status n didApply⟩] }

def raiseHighest (n : Nat) : MVCCStorage K V :=
  { st with highestValidatedSequenceNumber := max st.highestValidatedSequenceNumber n }

def writeKeyspace (i : KeyspaceId) (batch : WriteBatch K V) :
    MVCCStorage K V :=
  { st with keyspaces := Function.update st.keyspaces i ((st.keyspaces i).write batch) }

def setWatermark (n : Nat) : MVCCStorage K V :=
  { st with watermark := n }

def sync : MVCCStorage K V := { st with synced := st.log.length }

end MVCCStorage

def lookupStatus (isCommitted : List (Nat × Bool)) (n : Nat) : Option Bool :=
  (isCommitted.reverse.find? fun p => decide (p.1 = n)).map (·.2)

/-- The loop of `validate_concurrent_from_disk`; `none` where a record without a status is taken
to be unreachable. -/
def validateFromDisk (isCommitted : List (Nat × Bool)) :
    CommitRecord K V → List (Nat × CommitRecord K V) →
      Option (Except IsolationConflict (CommitRecord K V))
  | record, [] => some (.ok record)
  | record, (n, predecessor) :: rest =>
    match lookupStatus isCommitted n with
    | none => none
    | some false => validateFromDisk isCommitted record rest
    | some true =>
      match handleDependency record (record.computeDependency predecessor) with
      | .ok record => validateFromDisk isCommitted record rest
      | .error conflict => some (.error conflict)

namespace Transaction

def new : Transaction K V where
  pc := .idle
  call := .read
  openSequenceNumber := 0
  operations := .new
  commitSequenceNumber := 0
  logged := 0
  window := 0
  windows := []

variable (t : Transaction K V)

def goto (pc : Pc K V) : Transaction K V := { t with pc := pc }

def commitRecord : CommitRecord K V := ⟨t.operations, t.openSequenceNumber⟩

def advance (n : Nat) : Transaction K V :=
  let windows := match t.windows with
    | [] => []
    | w :: rest => if windowEnd w ≤ n + 1 then rest else w :: rest
  { t with windows := windows, pc := .walk (n + 1) }

def handle (n : Nat)
    (dependency : CommitDependency K) : MVCCStorage K V × Transaction K V :=
  match st.commitRecords t.commitSequenceNumber with
  | none => (st, t.goto .panicked)
  | some record =>
    match handleDependency record dependency with
    | .error conflict => (st, t.goto (.setAborted conflict))
    | .ok record =>
      (st.setTimeline (st.toTimeline.setRecord t.commitSequenceNumber record), t.advance n)

def initialFlag [DecidableEq V] (st : MVCCStorage K V) (t : Transaction K V) (i : KeyspaceId)
    (k : K) : Bool :=
  match (t.operations.writes i).get? k with
  | some (.put value knownToExist) =>
    !knownToExist && !decide ((st.keyspaces i).get k t.openSequenceNumber = some value)
  | _ => t.operations.reinsert i k

def step [DecidableEq V] (st : MVCCStorage K V) (t : Transaction K V) :
    Option (MVCCStorage K V × Transaction K V) :=
  let n := t.commitSequenceNumber
  match t.pc with
  | .idle | .opened | .committed | .rejected | .closed | .failed | .panicked => none
  | .waiting target =>
    if st.watermark < target then none
    else
      let pc := if t.call.registers then .recordReader else .opened
      some (st, { t with pc := pc, openSequenceNumber := t.call.fixed.getD st.watermark })
  | .recordReader =>
    match st.tryGetWindow t.openSequenceNumber with
    | none => some (st, t.goto .opened)
    | some window => some (st, t.goto (.incrementReaders window))
  | .incrementReaders window =>
    some (st.setTimeline (st.toTimeline.incrementReaders window), t.goto .opened)
  | .initialPuts [] => some (st, t.goto .sequencedWrite)
  | .initialPuts ((i, k) :: todo) =>
    let operations := t.operations.setReinsert i k (t.initialFlag st i k)
    some (st, { t with operations := operations, pc := .initialPuts todo })
  | .sequencedWrite =>
    some (st.sequencedWrite t.commitRecord, { t with
      commitSequenceNumber := st.nextSequenceNumber
      logged := st.log.length + 1
      pc := .lastEnd })
  -- validate_commit
  | .lastEnd =>
    if st.backEnd ≤ n then some (st, t.goto .createWindows) else some (st, t.goto .ownWindow)
  | .createWindows => some (st.setTimeline (st.toTimeline.createWindowsTo n), t.goto .ownWindow)
  | .ownWindow =>
    match st.tryGetWindow n with
    | none => some (st, t.goto .panicked)
    | some window => some (st, { t with window := window, pc := .setRecord })
  | .setRecord =>
    match st.commitRecords n with
    | none => some (st.setTimeline (st.toTimeline.setRecord n t.commitRecord), t.goto .setPending)
    | some _ => some (st, t.goto .panicked)
  | .setPending => some (st.setTimeline (st.toTimeline.setStatus n .pending), t.goto .collect)
  | .collect =>
    match st.getStatus t.window n with
    | some (.pending _) =>
      let (windows, first) := st.collectConcurrentWindows t.openSequenceNumber n
      if t.openSequenceNumber + 1 < first then
        some (st, { t with windows := windows, pc := .diskStatuses first })
      else some (st, { t with windows := windows, pc := .walk (t.openSequenceNumber + 1) })
    | _ => some (st, t.goto .panicked)
  | .diskStatuses stop =>
    some (st, t.goto (.diskCommits stop (st.log.statusesFrom (t.openSequenceNumber + 1))))
  | .diskCommits stop isCommitted =>
    match st.commitRecords n with
    | none => some (st, t.goto .panicked)
    | some record =>
      let commits := (st.log.commitsFrom (t.openSequenceNumber + 1)).takeWhile
        fun p => decide (p.1 < stop)
      match validateFromDisk isCommitted record commits with
      | none => some (st, t.goto .panicked)
      | some (.error conflict) => some (st, t.goto (.setAborted conflict))
      | some (.ok record) =>
        some (st.setTimeline (st.toTimeline.setRecord n record), t.goto (.walk stop))
  | .walk m =>
    if m < n then
      match t.windows with
      | [] => some (st, t.goto .panicked)
      | window :: _ =>
        match st.getStatus window m with
        | none => some (st, t.goto .panicked)
        | some .empty => none
        | some _ => some (st, t.goto (.resolve m))
    else some (st, t.goto .setValidated)
  | .resolve m =>
    match t.windows, st.commitRecords n with
    | window :: _, some record =>
      match st.getStatus window m with
      | some (.pending predecessor) =>
        match record.computeDependency predecessor with
        | .independent => some (st, t.advance m)
        | dependency => some (st, t.goto (.await m dependency))
      | some (.validated predecessor) =>
        some (t.handle st m (record.computeDependency predecessor))
      | some (.applied predecessor) => some (t.handle st m (record.computeDependency predecessor))
      | some .aborted => some (st, t.advance m)
      | _ => some (st, t.goto .panicked)
    | _, _ => some (st, t.goto .panicked)
  | .await m dependency =>
    match t.windows with
    | [] => some (st, t.goto .panicked)
    | window :: _ =>
      match st.getStatus window m with
      | some (.pending _) => none
      | some (.validated _) => some (t.handle st m dependency)
      | some (.applied _) => some (t.handle st m dependency)
      | some .aborted => some (st, t.advance m)
      | _ => some (st, t.goto .panicked)
  | .setValidated =>
    some (st.setTimeline (st.toTimeline.setStatus n .validated), t.goto .raiseValidated)
  | .raiseValidated => some (st.raiseHighest n, t.goto (.removeReader .write))
  | .setAborted _ =>
    some (st.setTimeline (st.toTimeline.setStatus n .aborted), t.goto (.incrementCheck .release))
  -- may_increment_watermark
  | .incrementCheck after =>
    if st.watermark ≠ n - 1 then some (st, t.goto after.pc)
    else some (st, t.goto (.incrementWindow n after))
  | .incrementWindow candidate after =>
    match st.tryGetWindow candidate with
    | none => some (st, t.goto (.incrementEnd candidate after))
    | some window => some (st, t.goto (.incrementStatus candidate window after))
  | .incrementStatus candidate window after =>
    match st.getStatus window candidate with
    | none => some (st, t.goto .panicked)
    | some .aborted => some (st, t.goto (.incrementExchange candidate window after))
    | some (.applied _) => some (st, t.goto (.incrementExchange candidate window after))
    | some _ => some (st, t.goto (.incrementEnd candidate after))
  | .incrementExchange candidate window after =>
    if st.watermark = candidate - 1 then
      let pc := if windowEnd window ≤ candidate + 1 then .incrementWindow (candidate + 1) after
        else .incrementStatus (candidate + 1) window after
      some (st.setWatermark candidate, t.goto pc)
    else some (st, t.goto (.incrementEnd candidate after))
  | .incrementEnd candidate after =>
    match st.tryGetWindow (n - 1) with
    | none => some (st, t.goto after.pc)
    | some window =>
      if windowEnd window ≤ candidate - 1 then some (st, t.goto (.free after))
      else some (st, t.goto after.pc)
  -- may_free_windows
  | .free after => some (st, t.goto (.freeCheck st.watermark after))
  | .freeCheck watermark after =>
    if st.canFree watermark then some (st, t.goto (.freeLoop watermark after))
    else some (st, t.goto after.pc)
  | .freeLoop watermark after =>
    if st.canFree watermark then some (st, t.goto (.freePop st.front watermark after))
    else some (st, t.goto after.pc)
  -- readers are counted without the lock, so a reader may come in between
  | .freePop window watermark after =>
    if st.front = window then
      match st.popFront with
      | none => some (st, t.goto .panicked)
      | some tl => some (st.setTimeline tl, t.goto (.freeLoop watermark after))
    else some (st, t.goto (.freeLoop watermark after))
  -- remove_reader
  | .removeReader after =>
    match st.tryGetWindow t.openSequenceNumber with
    | none => some (st, t.goto after.pc)
    | some window => some (st, t.goto (.decrementReaders window after))
  | .decrementReaders window after =>
    let tl := st.toTimeline.decrementReaders window
    some (st.setTimeline tl, t.goto (if tl.readers window = 0 then .free after else after.pc))
  -- the rest of snapshot_commit
  | .batches =>
    match st.getStatus t.window n with
    | some (.validated record) => some (st, t.goto (.awaitSync (fromOperations n record.operations)))
    | some (.applied record) => some (st, t.goto (.awaitSync (fromOperations n record.operations)))
    | _ => some (st, t.goto .panicked)
  | .awaitSync batches =>
    if st.synced < t.logged then none else some (st, t.goto (.writeKeyspaces batches))
  | .awaitRejected => if st.synced < t.logged then none else some (st, t.goto (.persist false))
  | .writeKeyspaces [] => some (st, t.goto .apply)
  | .writeKeyspaces ((i, batch) :: rest) =>
    some (st.writeKeyspace i batch, t.goto (.writeKeyspaces rest))
  | .apply =>
    match st.tryGetWindow n with
    | none => some (st, t.goto .failed)
    | some window => some (st, { t with window := window, pc := .setApplied })
  | .setApplied =>
    some (st.setTimeline (st.toTimeline.setStatus n .applied), t.goto (.incrementCheck .persist))
  | .persist didApply =>
    some (st.persistCommitStatus n didApply, t.goto (if didApply then .committed else .rejected))

end Transaction

inductive Action (K V : Type*) [LinearOrder K]
  | open (i : Nat) (call : OpenCall)
  | commit (i : Nat) (operations : OperationsBuffer K V)
  | close (i : Nat)
  | run (i : Nat)
  | sync

abbrev Database (K V : Type*) [LinearOrder K] := System (MVCCStorage K V) (Transaction K V)

namespace Database

def create (previous : Nat) : Database K V := ⟨.create previous, fun _ => .new⟩

def step [DecidableEq V] (db : Database K V) : Action K V → Option (Database K V)
  | .open i call =>
    match (db.threads i).pc with
    | .idle =>
      let target := call.fixed.getD db.shared.highestValidatedSequenceNumber
      some (db.move i db.shared { db.threads i with pc := .waiting target, call := call })
    | _ => none
  | .commit i operations =>
    match (db.threads i).pc, (db.threads i).call.registers with
    | .opened, true =>
      let pc := if operations.isWritesEmpty && operations.locksEmpty then .closed
        else .initialPuts operations.puts
      some (db.move i db.shared { db.threads i with pc := pc, operations := operations })
    | _, _ => none
  | .close i =>
    match (db.threads i).pc with
    | .opened =>
      let pc := if (db.threads i).call.registers then .removeReader .closed else .closed
      some (db.move i db.shared ((db.threads i).goto pc))
    | _ => none
  | .run i => ((db.threads i).step db.shared).map fun (st, t) => db.move i st t
  | .sync => some { db with shared := db.shared.sync }

end Database
end TypeDB.Storage
