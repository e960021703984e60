import TypeDB.Storage.RangeExact
import TypeDB.Storage.ReadErrors
import TypeDB.Storage.SnapshotExact

/-! The ids of types and of definitions. A search goes through the keys of a prefix in step with
the ids, from the one that was found last and, if there is none left, once more from zero. It
cannot tell a read that failed from the end of the keys, and takes the id it has come to. -/

namespace TypeDB.Encoding
open ByteString List Overlay Storage Storage.MVCCKey Storage.ReadErrors

inductive Kind
  | entity
  | relation
  | attribute
  | role

/-- The prefixes for which there is an allocator. -/
inductive SchemaPrefix
  | vertexEntityType
  | vertexRelationType
  | vertexAttributeType
  | vertexRoleType
  | definitionStruct
  | definitionFunction
  deriving DecidableEq

inductive EncodingError (ε : Type)
  | schemaIDAllocate (source : SnapshotIteratorError ε)
  | typeIDsExhausted (kind : Kind)
  | definitionIDsExhausted (p : SchemaPrefix)

def SchemaPrefix.prefixId : SchemaPrefix → Byte
  | vertexEntityType => 10
  | vertexRelationType => 11
  | vertexAttributeType => 12
  | vertexRoleType => 15
  | definitionStruct => 20
  | definitionFunction => 21

/-- The keys with one of the prefixes are vertices or definition keys, of fixed width. -/
def FixedWidth (k : Bytes) : Prop :=
  ∀ p : SchemaPrefix, k.head? = some p.prefixId → k.length = 3

/-- A snapshot that writes, in the keyspace of the schema. -/
structure SchemaSnapshot where
  versions : StoredVersions
  writes : WriteBuffer
  openSequenceNumber : Nat
  stored : ∀ q ∈ versions.raw.entries, FixedWidth (key q.1)
  buffered : ∀ q ∈ writes.writes.entries, FixedWidth q.1

def SchemaSnapshot.get (s : SchemaSnapshot) (k : Bytes) : Option Bytes :=
  match s.writes.writesGet k with
  | some write => write.getValue
  | none => shown s.openSequenceNumber s.versions.raw.entries k

namespace SchemaPrefix
variable {ε : Type} (p : SchemaPrefix) (s : SchemaSnapshot)

/-- The id is cast to `u16`. -/
def objectFromId (id : Nat) : Bytes := p.prefixId :: encodeBE 2 id

/-- A key of a wrong length is a panic. -/
def idFromKey (key : Bytes) : Option Nat :=
  match p with
  | definitionStruct | definitionFunction =>
    if key.length < 3 then none else some (decodeBE (key.tail.take 2))
  | _ => if key.length = 3 then some (decodeBE key.tail) else none

def idsExhaustedError : EncodingError ε :=
  match p with
  | vertexEntityType => .typeIDsExhausted .entity
  | vertexRelationType => .typeIDsExhausted .relation
  | vertexAttributeType => .typeIDsExhausted .attribute
  | vertexRoleType => .typeIDsExhausted .role
  | definitionStruct | definitionFunction => .definitionIDsExhausted p

def idRange (start : Nat) : KeyRange :=
  ⟨.inclusive (p.objectFromId start), .endPrefixInclusive (p.objectFromId 65535)⟩

/-- The stored versions in the range. -/
def versionsFrom (start : Nat) : List KeyValue :=
  s.versions.raw.entries.filter fun q => (p.idRange start).Contains (key q.1)

def writesFrom (start : Nat) : List (Bytes × Write Bytes) :=
  s.writes.writes.entries.filter fun q => (p.idRange start).Contains q.1

variable {p s} {id start n : Nat} {taken : Nat → Bool}
  {fault fault' : Bytes → Option ε}

theorem idFromKey_objectFromId (h : id < 65536) : p.idFromKey (p.objectFromId id) = some id := by
  have hdecode : decodeBE (encodeBE 2 id) = id := decodeBE_encodeBE h
  cases p <;> simp [idFromKey, objectFromId, hdecode, take_of_length_le]

theorem objectFromId_strictMonoOn : StrictMonoOn p.objectFromId (Set.Iio 65536) :=
  fun _ _ _ hn h => cons_lt_cons_self.mpr (encodeBE_lt hn h)

theorem head_of_contains {k : Bytes} (h : (p.idRange start).Contains k) :
    k.head? = some p.prefixId := by
  obtain ⟨hlow, hhigh⟩ := h
  change p.objectFromId start ≤ k at hlow
  change k ≤ p.objectFromId 65535 ∨ p.objectFromId 65535 <+: k at hhigh
  cases k with
  | nil => exact absurd hlow (not_le.mpr (nil_lt_cons _ _))
  | cons b bs =>
    refine congrArg some (le_antisymm (not_lt.mp fun hb => ?_) (not_lt.mp fun hb => ?_))
    · rcases hhigh with hle | hprefix
      · exact absurd hle (not_le.mpr (cons_lt_cons_iff.mpr (.inl hb)))
      · exact hb.ne (cons_prefix_cons.mp hprefix).1
    · exact absurd hlow (not_le.mpr (cons_lt_cons_iff.mpr (.inl hb)))

theorem exists_id {k : Bytes} (hstart : start < 65536) (hwidth : FixedWidth k)
    (h : (p.idRange start).Contains k) : ∃ id, start ≤ id ∧ id < 65536 ∧ k = p.objectFromId id := by
  have hhead := head_of_contains h
  have hlow : p.objectFromId start ≤ k := h.1
  obtain ⟨bs, rfl⟩ := head?_eq_some_iff.mp hhead
  have hlength : bs.length = 2 := by simpa using hwidth p hhead
  have hbs : encodeBE 2 (decodeBE bs) = bs := hlength ▸ encodeBE_decodeBE bs
  have hlt : decodeBE bs < 65536 := by
    have := decodeBE_lt bs
    rwa [hlength] at this
  have heq : p.prefixId :: bs = p.objectFromId (decodeBE bs) := by rw [objectFromId, hbs]
  rw [heq] at hlow ⊢
  exact ⟨_, (objectFromId_strictMonoOn.le_iff_le hstart hlt).mp hlow, hlt, rfl⟩

theorem contains_objectFromId (h : start ≤ id) (hid : id < 65536) :
    (p.idRange start).Contains (p.objectFromId id) := by
  have hmono := objectFromId_strictMonoOn (p := p) |>.monotoneOn
  exact ⟨hmono (Set.mem_Iio.mpr (by omega)) hid h,
    .inl (hmono hid (show 65535 < 65536 by decide) (Nat.le_of_lt_succ hid))⟩

variable (p s start) in
/-- Keys of one width are not prefixes of each other, so that the versions are in order. -/
theorem versionsFrom_ordered : (p.versionsFrom s start).Pairwise VersionStore.After := by
  have hsub : ∀ q ∈ p.versionsFrom s start, q ∈ s.versions.raw.entries :=
    fun q hq => mem_of_mem_filter hq
  have hwidth : ∀ q ∈ p.versionsFrom s start, (key q.1).length = 3 := fun q hq =>
    s.stored q (hsub q hq) p (head_of_contains (of_decide_eq_true (mem_filter.mp hq).2))
  let store : VersionStore :=
    { raw := ⟨p.versionsFrom s start, s.versions.raw.sorted.filter _⟩
      built := fun q hq => s.versions.built q (hsub q hq)
      prefixFree := fun q hq r hr h =>
        h.eq_of_length ((hwidth q hq).trans (hwidth r hr).symm)
      single := fun q hq r hr => s.versions.single q (hsub q hq) r (hsub r hr) }
  exact store.ordered

/-- What the keyspace iterator returns: where a version cannot be read, an error ahead of it. -/
def resultsFrom (fault : Bytes → Option ε) (l : List KeyValue) : List (Except ε KeyValue) :=
  l.flatMap fun q => (fault q.1).elim [.ok q] fun e => [.error e, .ok q]

theorem pairs_resultsFrom (l : List KeyValue) : pairs (resultsFrom fault l) = l := by
  induction l with
  | nil => rfl
  | cons q l ih =>
    rw [resultsFrom, flatMap_cons, ← resultsFrom, pairs, filterMap_append]
    rw [pairs] at ih
    rw [ih]
    cases fault q.1 <;> rfl

theorem mem_of_ok_mem_resultsFrom {l : List KeyValue} {q : KeyValue}
    (h : .ok q ∈ resultsFrom fault l) : q ∈ l := by
  have hpairs : pairs (resultsFrom fault l) = l := pairs_resultsFrom l
  rw [← hpairs]
  exact mem_filterMap.mpr ⟨.ok q, h, rfl⟩

theorem error_notMem_resultsFrom {l : List KeyValue} (h : ∀ q ∈ l, fault q.1 = none) (e : ε) :
    .error e ∉ resultsFrom fault l := by
  intro he
  obtain ⟨q, hq, he⟩ := mem_flatMap.mp he
  simp [h q hq] at he

/-- `iterate_range` of the snapshot over the ids from `start` on. -/
def reading (p : SchemaPrefix) (s : SchemaSnapshot) (fault : Bytes → Option ε) (start : Nat) :
    Reading ε where
  results := resultsFrom fault (p.versionsFrom s start)
  buffered := some ⟨p.writesFrom s start⟩
  built q hq := by
    obtain ⟨k, n, op, -, hbuild⟩ :=
      s.versions.built q (mem_of_mem_filter (mem_of_ok_mem_resultsFrom hq))
    simp [hbuild]
  ordered := (pairs_resultsFrom (p.versionsFrom s start)).symm ▸ versionsFrom_ordered p s start
  sorted iter hiter := by
    cases hiter
    exact s.writes.writes.sorted.filter _

/-- The loop over so many ids from the expected one on. -/
def search (p : SchemaPrefix) : Nat → Nat → SnapshotRangeIterator ε →
    Option (Except (SnapshotIteratorError ε) (Option Nat))
  | 0, _, _ => some (.ok none)
  | n + 1, expectedNextId, schemaObjectIter => do
    let (item, schemaObjectIter) ← schemaObjectIter.next
    match item with
    | none => some (.ok (some expectedNextId))
    | some (.error e) => some (.error e)
    | some (.ok (actualNextKey, _)) => do
      let actualId ← p.idFromKey actualNextKey
      if actualId ≠ expectedNextId then some (.ok (some expectedNextId))
      else search p n (expectedNextId + 1) schemaObjectIter

def findUnallocatedId (p : SchemaPrefix) (s : SchemaSnapshot) (fault : Bytes → Option ε)
    (start : Nat) : Option (Except (SnapshotIteratorError ε) (Option Nat)) :=
  p.search (65536 - start) start ((p.reading s fault start).snapshotIterator s.openSequenceNumber)

/-- The outcome and the id that is remembered then. -/
def allocate (p : SchemaPrefix) (s : SchemaSnapshot) (fault fault' : Bytes → Option ε)
    (lastAllocatedTypeId : Nat) : Option (Except (EncodingError ε) Bytes × Nat) := do
  match ← p.findUnallocatedId s fault lastAllocatedTypeId with
  | .error e => some (.error (.schemaIDAllocate e), lastAllocatedTypeId)
  | .ok (some id) => some (.ok (p.objectFromId id), id)
  | .ok none =>
    match ← p.findUnallocatedId s fault' 0 with
    | .error e => some (.error (.schemaIDAllocate e), lastAllocatedTypeId)
    | .ok (some id) => some (.ok (p.objectFromId id), id)
    | .ok none => some (.error p.idsExhaustedError, lastAllocatedTypeId)

def firstFree (taken : Nat → Bool) (start : Nat) : Option Nat :=
  (range' start (65536 - start)).find? (!taken ·)

/-- A key that is not the expected one is ahead of it and leaves a gap. -/
theorem search_eq {it : SnapshotRangeIterator ε} {l : List KeyValue} (hit : it.Before l)
    (hn : start + n ≤ 65536)
    (hl : l.map Prod.fst = ((range' start n).filter taken).map p.objectFromId) :
    p.search n start it = some (.ok ((range' start n).find? (!taken ·))) := by
  induction n generalizing start it l with
  | zero => rw [search]; rfl
  | succ n ih =>
    obtain ⟨it', hnext, hit'⟩ := hit.next
    rw [range'_succ, filter_cons] at hl
    rw [range'_succ, search, hnext]
    cases hstart : taken start with
    | false =>
      rw [find?_cons_of_pos (by simp [hstart])]
      rw [if_neg (by simp [hstart])] at hl
      cases l with
      | nil => rfl
      | cons q l =>
        obtain ⟨id, ids, hids, hid, -⟩ := map_eq_cons_iff.mp hl.symm
        have hmem : id ∈ range' (start + 1) n := mem_of_mem_filter (hids ▸ mem_cons_self)
        obtain ⟨hlow, hhigh⟩ := mem_range'_1.mp hmem
        have hidKey : p.idFromKey q.1 = some id := by
          rw [← hid, idFromKey_objectFromId (by omega)]
        simp only [head?_cons, Option.map_some, Option.bind_eq_bind, Option.bind_some, hidKey]
        exact if_pos (by omega)
    | true =>
      rw [find?_cons_of_neg (by simp [hstart])]
      rw [if_pos hstart] at hl
      obtain ⟨q, l, rfl, hq, hl⟩ := map_eq_cons_iff.mp hl
      have hidKey : p.idFromKey q.1 = some start := by
        rw [hq, idFromKey_objectFromId (by omega)]
      simp only [head?_cons, Option.map_some, Option.bind_eq_bind, Option.bind_some, hidKey,
        ne_eq, not_true, if_false]
      exact ih hit' (by omega) hl

theorem shown_versionsFrom {k : Bytes} (hk : (p.idRange start).Contains k) (m : Nat) :
    shown m (p.versionsFrom s start) k = shown m s.versions.raw.entries k := by
  refine shown_congr ?_
  rw [versionsFrom, filter_filter]
  refine filter_congr fun q _ => ?_
  by_cases hq : key q.1 = k
  · simp [hq, hk]
  · simp [hq]

theorem mem_overlay_iff {k v : Bytes} :
    (k, v) ∈ overlay Write.getValue (p.writesFrom s start)
        (pick s.openSequenceNumber none (p.versionsFrom s start)) ↔
      (p.idRange start).Contains k ∧ s.get k = some v := by
  have hshows := (p.reading s (fun _ => (none : Option Empty)) start).shows_iff_mem
    s.openSequenceNumber (k := k) (v := v)
  simp only [reading, Reading.writes, pairs_resultsFrom, Option.elim_some] at hshows
  rw [← hshows, Reading.Shows]
  simp only [Reading.writes, Reading.Sees, pairs_resultsFrom, Option.elim_some, writesFrom]
  rw [OrderedMap.getList_filter fun k => decide ((p.idRange start).Contains k)]
  by_cases hk : (p.idRange start).Contains k
  · rw [SchemaSnapshot.get, WriteBuffer.writesGet, OrderedMap.get?]
    simp only [hk, decide_true, if_true, true_and]
    cases OrderedMap.getList k s.writes.writes.entries with
    | some write => rfl
    | none => exact iff_of_eq (by rw [shown_versionsFrom hk])
  · simp only [hk, decide_false, Bool.false_eq_true, if_false, false_and, iff_false]
    intro hv
    obtain ⟨q, hq, rfl⟩ := mem_of_shown hv
    exact hk (of_decide_eq_true (mem_filter.mp hq).2)

theorem width_of_get {k v : Bytes} (h : s.get k = some v) : FixedWidth k := by
  rw [SchemaSnapshot.get] at h
  cases hwrite : s.writes.writesGet k with
  | some write => exact s.buffered _ (OrderedMap.mem_entries.mpr hwrite)
  | none =>
    rw [hwrite] at h
    obtain ⟨q, hq, rfl⟩ := mem_of_shown h
    exact s.stored q hq

/-- The ids whose key the snapshot has. -/
def present (p : SchemaPrefix) (s : SchemaSnapshot) (id : Nat) : Bool :=
  (s.get (p.objectFromId id)).isSome

theorem map_overlay (hstart : start < 65536) :
    (overlay Write.getValue (p.writesFrom s start)
        (pick s.openSequenceNumber none (p.versionsFrom s start))).map Prod.fst =
      ((range' start (65536 - start)).filter (p.present s)).map p.objectFromId := by
  refine OrderedMap.eq_of_pairwise_lt (pairwise_map.mpr (pairwise_overlay
    (s.writes.writes.sorted.filter _) (pairwise_pick (versionsFrom_ordered p s start)))) ?_
    fun k => ?_
  · refine pairwise_map.mpr ((Pairwise.filter _ pairwise_lt_range').imp_of_mem fun ha hb hab => ?_)
    have ha := (mem_range'_1.mp (mem_of_mem_filter ha)).2
    have hb := (mem_range'_1.mp (mem_of_mem_filter hb)).2
    exact objectFromId_strictMonoOn (Set.mem_Iio.mpr (by omega)) (Set.mem_Iio.mpr (by omega)) hab
  · simp only [mem_map, Prod.exists, exists_and_right, exists_eq_right, mem_overlay_iff,
      mem_filter, mem_range'_1, present]
    constructor
    · rintro ⟨v, hk, hv⟩
      obtain ⟨id, hlow, hhigh, rfl⟩ := exists_id hstart (width_of_get hv) hk
      exact ⟨id, ⟨by omega, by rw [hv]; rfl⟩, rfl⟩
    · rintro ⟨id, ⟨hid, hget⟩, rfl⟩
      obtain ⟨v, hv⟩ := Option.isSome_iff_exists.mp hget
      exact ⟨v, contains_objectFromId hid.1 (by omega), hv⟩

variable (start) in
/-- Without a read that fails the search stops at the first id that is not there. -/
theorem findUnallocatedId_eq (h : ∀ q ∈ s.versions.raw.entries, fault q.1 = none) :
    p.findUnallocatedId s fault start = some (.ok (firstFree (p.present s) start)) := by
  rw [findUnallocatedId, firstFree]
  rcases lt_or_ge start 65536 with hstart | hstart
  · refine search_eq ⟨_, _, ⟨.ready rfl (p.reading s fault start).built, rfl, .none _ _⟩, rfl⟩
      (by omega) ?_
    have herror := error_notMem_resultsFrom (l := p.versionsFrom s start)
      fun q hq => h q (mem_of_mem_filter hq)
    change (overlay Write.getValue (p.writesFrom s start) (pick s.openSequenceNumber none
      (untilError (resultsFrom fault (p.versionsFrom s start))))).map Prod.fst = _
    rw [untilError_eq_pairs herror, pairs_resultsFrom]
    exact map_overlay hstart
  · rw [Nat.sub_eq_zero_of_le hstart, search]
    rfl

theorem firstFree_some (h : firstFree taken start = some id) :
    id < 65536 ∧ taken id = false := by
  have hmem := mem_range'_1.mp (mem_of_find?_eq_some h)
  exact ⟨by omega, by simpa using find?_some h⟩

theorem not_present_iff : p.present s id = false ↔ s.get (p.objectFromId id) = none := by
  rw [present, Option.isSome_eq_false_iff, Option.isNone_iff_eq_none]

/-- The search from the last id on, and once more from zero. -/
def nextId (taken : Nat → Bool) (last : Nat) : Option Nat :=
  (firstFree taken last).or (firstFree taken 0)

theorem allocate_eq {last : Nat}
    (h : ∀ q ∈ s.versions.raw.entries, fault q.1 = none ∧ fault' q.1 = none) :
    p.allocate s fault fault' last = some ((nextId (p.present s) last).elim
      (.error p.idsExhaustedError, last) fun id => (.ok (p.objectFromId id), id)) := by
  rw [allocate, findUnallocatedId_eq last fun q hq => (h q hq).1,
    findUnallocatedId_eq 0 fun q hq => (h q hq).2, nextId]
  cases firstFree (p.present s) last with
  | some id => rfl
  | none => cases firstFree (p.present s) 0 <;> rfl

/-- The entity type `0` is stored, and what is written besides. -/
def oneType (writes : WriteBuffer) (h : ∀ q ∈ writes.writes.entries, FixedWidth q.1) :
    SchemaSnapshot where
  versions :=
    { raw := OrderedMap.empty.insert (build [10, 0, 0] 1 .insert) []
      built := fun q hq => ⟨[10, 0, 0], 1, .insert, by decide, by rw [mem_singleton.mp hq]⟩
      single := fun q hq r hr _ _ => (mem_singleton.mp hq).trans (mem_singleton.mp hr).symm }
  writes := writes
  openSequenceNumber := 1
  stored q hq := by
    obtain rfl := mem_singleton.mp hq
    exact fun _ _ => by rw [key_build]; rfl
  buffered := h

def oneTypePut : SchemaSnapshot := oneType (WriteBuffer.new.put [10, 0, 1] []) fun q hq =>
  by rw [mem_singleton.mp hq]; exact fun _ _ => rfl

end SchemaPrefix
end TypeDB.Encoding
