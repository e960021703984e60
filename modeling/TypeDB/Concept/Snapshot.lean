import TypeDB.Concept.Keys

/-! A write snapshot as the thing manager sees it: the keys and values visible at the number it was
opened at, and over them the writes and locks it has buffered. A panic is `none`. -/

namespace TypeDB.Concept
open OrderedMap
open Storage (Write LockType)

structure Snapshot where
  storage : OrderedMap Key StoredValue
  writes : OrderedMap Key (Write StoredValue)
  locks : OrderedMap Key LockType
  deriving DecidableEq

inductive ConceptStatus
  | inserted
  | persisted
  | put
  | deleted
  deriving DecidableEq

def writtenValue : Write StoredValue → Option StoredValue
  | .insert value => some value
  | .put value _ => some value
  | .delete => none

def StoredValue.toCount : StoredValue → Nat
  | .count n => n
  | _ => 0

namespace Snapshot

def opened (storage : OrderedMap Key StoredValue) : Snapshot := ⟨storage, .empty, .empty⟩

variable (s : Snapshot) (k : Key)

def getWrite : Option (Write StoredValue) := s.writes.get? k

def get (k : Key) : Option StoredValue :=
  match s.getWrite k with
  | some write => writtenValue write
  | none => s.storage.get? k

def contains : Bool := (s.get k).isSome

def getLastExisting : Option StoredValue :=
  match s.getWrite k with
  | some (.insert value) => some value
  | some (.put value _) => some value
  | _ => s.storage.get? k

def getStatus : ConceptStatus :=
  match s.getWrite k with
  | some (.insert _) => .inserted
  | some (.put _ _) => .put
  | some .delete => .deleted
  | none => if (s.storage.get? k).isSome then .persisted else .deleted

def write (w : Write StoredValue) : Snapshot := { s with writes := s.writes.insert k w }

def unwrite : Snapshot := { s with writes := s.writes.erase k }

def insert (k : Key) : Snapshot := s.write k (.insert .empty)

def putVal (value : StoredValue) : Snapshot := s.write k (.put value false)

def delete (k : Key) : Snapshot := s.write k .delete

def uninsert : Option Snapshot :=
  match s.getWrite k with
  | some (.insert value) => if value = .empty then some (s.unwrite k) else none
  | _ => none

def unputVal (expected : StoredValue) : Option Snapshot :=
  match s.getWrite k with
  | some (.put value _) => if value = expected then some (s.unwrite k) else none
  | _ => none

def lockAdd (lock : LockType) : Snapshot := { s with locks := s.locks.insert k lock }

def unmodifiableLockAdd : Snapshot := s.lockAdd k .unmodifiable

def exclusiveLockAdd : Snapshot := s.lockAdd k .exclusive

def unmodifiableLockRemove : Snapshot := { s with locks := s.locks.erase k }

def overlayWrite (below : OrderedMap Key StoredValue) (p : Key × Write StoredValue) :
    OrderedMap Key StoredValue :=
  match writtenValue p.2 with
  | some value => below.insert p.1 value
  | none => below.erase p.1

def contents : OrderedMap Key StoredValue := s.writes.entries.foldl overlayWrite s.storage

def iterate {α : Type} (decode : Key → Option α) : List (α × StoredValue) :=
  s.contents.entries.filterMap fun p => (decode p.1).map fun a => (a, p.2)

def iterateWrites {α : Type} (decode : Key → Option α) : List (α × Write StoredValue) :=
  s.writes.entries.filterMap fun p => (decode p.1).map fun a => (a, p.2)

variable {s}

theorem get_eq (s : Snapshot) (k : Key) : s.get k = match s.writes.get? k with
      | some write => writtenValue write
      | none => s.storage.get? k := rfl

theorem get_of_write {k : Key} {w : Write StoredValue} (h : s.writes.get? k = some w) :
    s.get k = writtenValue w := by
  rw [get_eq, h]

theorem get_of_not_written {k : Key} (h : s.writes.get? k = none) : s.get k = s.storage.get? k := by
  rw [get_eq, h]

theorem get?_overlayWrite (below : OrderedMap Key StoredValue) (p : Key × Write StoredValue)
    (k : Key) :
    (overlayWrite below p).get? k = if k = p.1 then writtenValue p.2 else below.get? k := by
  rw [overlayWrite]
  cases writtenValue p.2 with
  | some value => exact get?_insert below p.1 k value
  | none => exact get?_erase below p.1 k

theorem get?_foldl_overlayWrite {l : List (Key × Write StoredValue)}
    (hl : l.Pairwise fun a b => a.1 < b.1) (below : OrderedMap Key StoredValue) (k : Key) :
    (l.foldl overlayWrite below).get? k = match getList k l with
      | some write => writtenValue write
      | none => below.get? k := by
  induction l generalizing below with
  | nil => rfl
  | cons p l ih =>
    obtain ⟨hhead, htail⟩ := List.pairwise_cons.mp hl
    rw [List.foldl_cons, ih htail]
    by_cases hk : k = p.1
    · have hnone : getList k l = none :=
        getList_eq_none fun q hq => hk ▸ (hhead q hq).ne'
      rw [hnone]
      simp only [getList, if_pos hk, get?_overlayWrite]
    · simp only [getList, if_neg hk, get?_overlayWrite]

@[simp] theorem get?_contents (s : Snapshot) (k : Key) : s.contents.get? k = s.get k :=
  get?_foldl_overlayWrite s.writes.sorted s.storage k

theorem mem_iterate {α : Type} {decode : Key → Option α} {a : α} {value : StoredValue} :
    (a, value) ∈ s.iterate decode ↔ ∃ k, decode k = some a ∧ s.get k = some value := by
  simp only [iterate, List.mem_filterMap, Prod.exists, Option.map_eq_some_iff, Prod.mk.injEq]
  constructor
  · rintro ⟨k, v, hmem, a', hdecode, rfl, rfl⟩
    exact ⟨k, hdecode, by rw [← get?_contents, mem_entries.mp hmem]⟩
  · rintro ⟨k, hdecode, hget⟩
    refine ⟨k, value, mem_entries.mpr ?_, a, hdecode, rfl, rfl⟩
    rw [get?_contents, hget]

section Updates
variable {k k' : Key} {w : Write StoredValue} {lock : LockType} {value : StoredValue}

@[simp] theorem writes_write : (s.write k w).writes.get? k' =
    if k' = k then some w else s.writes.get? k' := get?_insert _ _ _ _
@[simp] theorem storage_unwrite : (s.unwrite k).storage = s.storage := rfl
@[simp] theorem writes_unwrite : (s.unwrite k).writes.get? k' =
    if k' = k then none else s.writes.get? k' := get?_erase _ _ _
@[simp] theorem locks_lockAdd : (s.lockAdd k lock).locks.get? k' =
    if k' = k then some lock else s.locks.get? k' := get?_insert _ _ _ _
@[simp] theorem writes_lockRemove : (s.unmodifiableLockRemove k).writes = s.writes := rfl
@[simp] theorem locks_lockRemove : (s.unmodifiableLockRemove k).locks.get? k' =
    if k' = k then none else s.locks.get? k' := get?_erase _ _ _

theorem get_write : (s.write k w).get k' = if k' = k then writtenValue w else s.get k' := by
  rw [get_eq, writes_write]
  split_ifs <;> rfl

theorem get_unwrite : (s.unwrite k).get k' = if k' = k then s.storage.get? k' else s.get k' := by
  rw [get_eq, writes_unwrite]
  split_ifs <;> rfl

theorem ext_get? {t : Snapshot} (hstorage : s.storage = t.storage)
    (hwrites : ∀ k, s.writes.get? k = t.writes.get? k)
    (hlocks : ∀ k, s.locks.get? k = t.locks.get? k) : s = t := by
  obtain ⟨_, _, _⟩ := s
  obtain ⟨_, _, _⟩ := t
  obtain rfl := hstorage
  obtain rfl := ext_get? hwrites
  obtain rfl := ext_get? hlocks
  rfl

end Updates

def clear (s : Snapshot) (k : Key) : Snapshot :=
  if (s.storage.get? k).isSome then s.delete k else s.unwrite k

section Clear
variable {k k' : Key}

@[simp] theorem storage_clear : (s.clear k).storage = s.storage := by
  rw [clear]
  split_ifs <;> rfl

@[simp] theorem locks_clear : (s.clear k).locks = s.locks := by
  rw [clear]
  split_ifs <;> rfl

theorem writes_clear : (s.clear k).writes.get? k' =
    if k' = k then if (s.storage.get? k).isSome then some .delete else none
    else s.writes.get? k' := by
  rw [clear, delete]
  split_ifs with hstored hk hk <;> simp [hk]

theorem get_clear : (s.clear k).get k' = if k' = k then none else s.get k' := by
  rw [get_eq, writes_clear]
  by_cases hk : k' = k
  · subst hk
    cases hstored : s.storage.get? k' <;> simp [writtenValue, hstored]
  · simp only [if_neg hk]
    rw [get_eq, storage_clear]

end Clear
end Snapshot
end TypeDB.Concept
