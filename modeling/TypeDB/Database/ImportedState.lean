import Mathlib.Data.Set.Card
import Mathlib.Logic.Encodable.Basic
import Mathlib.Logic.Equiv.List
import TypeDB.Concept.Statistics
import TypeDB.Database.CachedSchema
import TypeDB.Storage.CommitView
import TypeDB.Storage.SnapshotBytes

/-! `Database::import_snapshot` in the build without a log. The caches are read from what was
imported; the statistics start at zero and are brought up to date from the log, in which there is
nothing. -/

namespace TypeDB.Database
open TypeDB.Concept Encoding Storage Storage.Keyspaces Storage.MVCCKey CountTables ByteString

structure SchemaReader (S ε ℓ α χ β δ φ ψ : Type) [LinearOrder ℓ] [LinearOrder χ] where
  typeReader : TypeReader S ε ℓ α χ β δ
  functionReader : FunctionReader S ε (TypeCache ℓ α χ β δ) φ ψ

/-- The keyspace and the bytes of the keys of things; no two keys have the same. -/
structure Layout {utf8 : Bytes → Bool} (set : KeyspaceSet utf8) where
  address : Key → Byte × Bytes
  address_mem : ∀ k, (address k).1 ∈ set.keyspaces.map Prod.fst
  address_injective : Function.Injective address

structure InMemory (τ φ κ ω : Type) where
  storage : MemoryStorage
  typeCache : τ
  functionCache : φ
  thingStatistics : Statistics
  queryCache : κ → Option ω

inductive DatabaseOpenError (ε : Type)
  | storageOpen (e : Failure)
  | typeCacheInitialise (e : ε)
  | functionCacheInitialise (e : ε)

def openSnapshotReadAt (storage : MemoryStorage) (n : Nat) (id : Byte) : ReadSnapshot :=
  ⟨(storage.contents id).entries, n⟩

/-- `Statistics::may_synchronise` without a log. -/
def maySynchronise (s : Statistics) (watermark : Nat) : Statistics :=
  { s with sequenceNumber := watermark }

variable {utf8 : Bytes → Bool} {ε ℓ α χ β δ φ ψ κ ω : Type} [LinearOrder ℓ] [LinearOrder χ]

def InMemory.exportSnapshot {τ φ : Type} (set : KeyspaceSet utf8) (db : InMemory τ φ κ ω) : Bytes :=
  db.storage.exportSnapshot set

def InMemory.importSnapshot (set : KeyspaceSet utf8)
    (reader : SchemaReader (Byte → ReadSnapshot) ε ℓ α χ β δ φ ψ)
    (db : InMemory (TypeCache ℓ α χ β δ) (FunctionCache φ ψ) κ ω) (bytes : Bytes) :
    Except (DatabaseOpenError ε) Unit × InMemory (TypeCache ℓ α χ β δ) (FunctionCache φ ψ) κ ω :=
  match db.storage.importSnapshot set bytes with
  | (.error e, storage) => (.error (.storageOpen e), { db with storage := storage })
  | (.ok sequenceNumber, storage) =>
    let snapshot := openSnapshotReadAt storage sequenceNumber
    match TypeCache.new reader.typeReader snapshot with
    | .error e => (.error (.typeCacheInitialise e), { db with storage := storage })
    | .ok typeCache =>
      match FunctionCache.new reader.functionReader snapshot typeCache with
      | .error e => (.error (.functionCacheInitialise e), { db with storage := storage })
      | .ok functionCache =>
        (.ok (), ⟨storage, typeCache, functionCache,
          maySynchronise (.new sequenceNumber) storage.watermark, fun _ => none⟩)

/-- Whether a snapshot opened at the watermark has the key. -/
def Layout.stores {set : KeyspaceSet utf8} (layout : Layout set) (storage : MemoryStorage)
    (k : Key) : Bool :=
  match (openSnapshotReadAt storage storage.watermark (layout.address k).1).get
      (layout.address k).2 with
  | some (some _) => true
  | _ => false

def counted : Key → Bool
  | .object _ | .attr _ | .has _ _ | .links _ _ _ | .indexedRelation _ _ _ _ _ => true
  | _ => false

noncomputable def number (stores : Key → Bool) (p : Key → Prop) : ℕ∞ :=
  {k | stores k = true ∧ p k}.encard

/-- The counts are the numbers of things and edges by type; an entry of the index counts for its
two types in either order. -/
structure Counts (c : Statistics) (stores : Key → Bool) : Prop where
  entities : ∀ t, count c.entityCounts t =
    number stores fun k => ∃ id, k = .object ⟨.entity, t, id⟩
  relations : ∀ t, count c.relationCounts t =
    number stores fun k => ∃ id, k = .object ⟨.relation, t, id⟩
  attributes : ∀ t, count c.attributeCounts t = number stores fun k => ∃ v, k = .attr ⟨t, v⟩
  has : ∀ o t, count₂ c.hasAttributeCounts o t =
    number stores fun k => ∃ owner v, k = .has owner ⟨t, v⟩ ∧ vertexType owner = o
  links : ∀ t role p, c.players t role p =
    number stores fun k => ∃ r player, k = .links r player role ∧ r.typeId = t ∧
      vertexType player = p
  index : ∀ o p, count₂ c.linksIndexCounts o p = number stores fun k =>
    ∃ start stop r x y, k = .indexedRelation start stop r x y ∧
      (vertexType start = o ∧ vertexType stop = p ∨ vertexType start = p ∧ vertexType stop = o)
  projections : c.Consistent

/-- The caches describe the schema that is stored now, the statistics count what is stored now and
no query is answered by what was compiled before. -/
structure Describes {set : KeyspaceSet utf8} (layout : Layout set)
    (reader : SchemaReader (Byte → ReadSnapshot) ε ℓ α χ β δ φ ψ)
    (before after : InMemory (TypeCache ℓ α χ β δ) (FunctionCache φ ψ) κ ω) : Prop where
  types : after.typeCache.Describes reader.typeReader
    (openSnapshotReadAt after.storage after.storage.watermark)
  functions : after.functionCache.Describes reader.functionReader
    (openSnapshotReadAt after.storage after.storage.watermark) after.typeCache
  counts : Counts after.thingStatistics (layout.stores after.storage)
  queries : ∀ query e, before.queryCache query = some e → after.queryCache query ≠ some e

theorem number_eq_zero_iff {stores : Key → Bool} {p : Key → Prop} :
    0 = number stores p ↔ ∀ k, p k → stores k = false := by
  rw [eq_comm, number, Set.encard_eq_zero, Set.eq_empty_iff_forall_notMem]
  refine forall_congr' fun k => ?_
  simp [imp_not_comm]

theorem counts_new_iff {stores : Key → Bool} {n : Nat} :
    Counts (.new n) stores ↔ ∀ k, counted k = true → stores k = false := by
  constructor
  · intro h k hk
    cases k with
    | object v =>
      obtain ⟨_ | _, t, id⟩ := v
      · exact number_eq_zero_iff.mp (h.entities t) _ ⟨id, rfl⟩
      · exact number_eq_zero_iff.mp (h.relations t) _ ⟨id, rfl⟩
    | attr a => exact number_eq_zero_iff.mp (h.attributes a.typeId) _ ⟨a.value, rfl⟩
    | has o a => exact number_eq_zero_iff.mp (h.has _ a.typeId) _ ⟨o, a.value, rfl, rfl⟩
    | links r p role => exact number_eq_zero_iff.mp (h.links _ role _) _ ⟨r, p, rfl, rfl, rfl⟩
    | indexedRelation p q r x y =>
      exact number_eq_zero_iff.mp (h.index _ _) _ ⟨p, q, r, x, y, rfl, .inl ⟨rfl, rfl⟩⟩
    | _ => cases hk
  · intro h
    refine ⟨fun t => ?_, fun t => ?_, fun t => ?_, fun o t => ?_, fun t role p => ?_,
      fun o p => ?_, Statistics.consistent_new n⟩ <;> refine number_eq_zero_iff.mpr ?_
    · rintro _ ⟨id, rfl⟩; exact h _ rfl
    · rintro _ ⟨id, rfl⟩; exact h _ rfl
    · rintro _ ⟨v, rfl⟩; exact h _ rfl
    · rintro _ ⟨owner, v, rfl, -⟩; exact h _ rfl
    · rintro _ ⟨r, player, rfl, -⟩; exact h _ rfl
    · rintro _ ⟨start, stop, r, x, y, rfl, -⟩; exact h _ rfl

section Import
variable {set : KeyspaceSet utf8} {layout : Layout set}
  {reader : SchemaReader (Byte → ReadSnapshot) ε ℓ α χ β δ φ ψ}
  {db after source : InMemory (TypeCache ℓ α χ β δ) (FunctionCache φ ψ) κ ω} {bytes : Bytes}

/-- What an import that returns has done. -/
theorem importSnapshot_cases (h : db.importSnapshot set reader bytes = (.ok (), after)) :
    ∃ sequenceNumber,
      db.storage.importSnapshot set bytes = (.ok sequenceNumber, after.storage) ∧
      TypeCache.new reader.typeReader (openSnapshotReadAt after.storage sequenceNumber) =
        .ok after.typeCache ∧
      FunctionCache.new reader.functionReader (openSnapshotReadAt after.storage sequenceNumber)
        after.typeCache = .ok after.functionCache ∧
      after.thingStatistics = maySynchronise (.new sequenceNumber) after.storage.watermark ∧
      ∀ query, after.queryCache query = none := by
  unfold InMemory.importSnapshot at h
  split at h
  · cases h
  · rename_i sequenceNumber storage hstorage
    dsimp only at h
    split at h
    · cases h
    · rename_i typeCache htypes
      split at h
      · cases h
      · rename_i functionCache hfunctions
        cases h
        exact ⟨sequenceNumber, hstorage, htypes, hfunctions, rfl, fun _ => rfl⟩

theorem describes_iff (layout : Layout set)
    (h : db.importSnapshot set reader bytes = (.ok (), after)) :
    Describes layout reader db after ↔
      ∀ k, counted k = true → layout.stores after.storage k = false := by
  obtain ⟨sequenceNumber, hstorage, htypes, hfunctions, hstatistics, hqueries⟩ :=
    importSnapshot_cases h
  have hwatermark := MemoryStorage.watermark_of_importSnapshot hstorage
  have hnew : after.thingStatistics = .new sequenceNumber := by
    rw [hstatistics, maySynchronise, hwatermark, Statistics.new]
  rw [← counts_new_iff (n := sequenceNumber), ← hnew]
  refine ⟨fun h => h.counts, fun hcounts => ⟨?_, ?_, hcounts, fun query e _ => ?_⟩⟩
  · rw [hwatermark]
    exact TypeCache.describes_new htypes
  · rw [hwatermark]
    exact FunctionCache.describes_new hfunctions
  · simp [hqueries query]

/-- A snapshot that round trips brings the keys of the database it was exported from. -/
theorem stores_of_roundTrips (hround : source.storage.RoundTrips set)
    (h : db.importSnapshot set reader (source.exportSnapshot set) = (.ok (), after)) (k : Key) :
    layout.stores after.storage k = layout.stores source.storage k := by
  obtain ⟨sequenceNumber, hstorage, -⟩ := importSnapshot_cases h
  obtain ⟨storage, himport, hwatermark, hcontents⟩ := hround db.storage
  have heq : storage = after.storage := congrArg Prod.snd (himport.symm.trans hstorage)
  subst heq
  obtain ⟨p, hp, hid⟩ := List.mem_map.mp (layout.address_mem k)
  rw [Layout.stores, Layout.stores, openSnapshotReadAt, openSnapshotReadAt, hwatermark, ← hid,
    hcontents p hp]

end Import

/-- The import leaves the statistics right only where there is nothing to count in what it brings,
which is what the other database stores if its snapshot round trips. -/
theorem importSnapshot_describes_iff {set : KeyspaceSet utf8} (layout : Layout set)
    (reader : SchemaReader (Byte → ReadSnapshot) ε ℓ α χ β δ φ ψ)
    (source target : InMemory (TypeCache ℓ α χ β δ) (FunctionCache φ ψ) κ ω) :
    ((∀ after, target.importSnapshot set reader (source.exportSnapshot set) = (.ok (), after) →
        Describes layout reader target after) ↔
      ∀ after, target.importSnapshot set reader (source.exportSnapshot set) = (.ok (), after) →
        ∀ k, counted k = true → layout.stores after.storage k = false) ∧
    (source.storage.RoundTrips set →
      ((∀ after, target.importSnapshot set reader (source.exportSnapshot set) = (.ok (), after) →
          Describes layout reader target after) ↔
        (∀ after, target.importSnapshot set reader (source.exportSnapshot set) ≠ (.ok (), after)) ∨
          ∀ k, counted k = true → layout.stores source.storage k = false)) := by
  have himported := forall₂_congr fun after
    (h : target.importSnapshot set reader (source.exportSnapshot set) = (.ok (), after)) =>
      describes_iff layout h
  refine ⟨himported, fun hround => himported.trans ⟨fun h => ?_, ?_⟩⟩
  · refine or_iff_not_imp_left.mpr fun hok k hk => ?_
    push Not at hok
    obtain ⟨after, hafter⟩ := hok
    rw [← stores_of_roundTrips hround hafter]
    exact h after hafter k hk
  · rintro (hfails | hnone) after hafter k hk
    · exact absurd hafter (hfails after)
    · rw [stores_of_roundTrips hround hafter]
      exact hnone k hk

def objectKeyspace : KeyspaceSet fun _ => true where
  keyspaces := [(0, [79])]
  count_le := by decide
  ids_nodup := by decide
  id_lt := by decide
  name_lt := by decide
  name_utf8 := by decide

/-- An object has the bytes of its vertex. Other keys have bytes after a prefix that is not in use. -/
def objectBytes : Key → Bytes
  | .object v => v.toBytes
  | k => 255 :: List.replicate (Encodable.encode k.code) 0

theorem objectBytes_head? (k : Key) :
    (∃ v, k = .object v ∧ (objectBytes k).head? = some v.kind.byte) ∨
      objectBytes k = 255 :: List.replicate (Encodable.encode k.code) 0 := by
  cases k with
  | object v => exact .inl ⟨v, rfl, rfl⟩
  | _ => exact .inr rfl

theorem kind_byte_lt (kind : ObjectKind) : 10 < kind.byte ∧ kind.byte < 255 := by
  cases kind <;> decide

theorem objectBytes_injective : Function.Injective objectBytes := by
  intro k l h
  rcases objectBytes_head? k with ⟨v, rfl, hv⟩ | hk <;>
    rcases objectBytes_head? l with ⟨w, rfl, hw⟩ | hl
  · have hkind : v.kind = w.kind :=
      ObjectKind.byte_injective (Option.some.inj (hv.symm.trans (h ▸ hw)))
    have hbytes : v.toBytes = w.toBytes := h
    rw [← ObjectVertex.decode_toBytes v, hbytes, hkind, ObjectVertex.decode_toBytes]
  · rw [h, hl] at hv
    exact absurd (Option.some.inj hv) (kind_byte_lt v.kind).2.ne'
  · rw [← h, hk] at hw
    exact absurd (Option.some.inj hw) (kind_byte_lt w.kind).2.ne'
  · rw [hk, hl] at h
    have hlength := congrArg List.length (List.cons.inj h).2
    simp only [List.length_replicate] at hlength
    exact Key.code_injective (Encodable.encode_injective hlength)

def objectLayout : Layout objectKeyspace where
  address k := (0, objectBytes k)
  address_mem _ := by simp [objectKeyspace]
  address_injective _ _ h := objectBytes_injective (congrArg Prod.snd h)

def typeKey (id : Nat) : Bytes := 10 :: encodeBE 2 id

/-- Reads the types of entities with an id up to 7, by their vertices, and no functions. -/
def entityTypeReader :
    SchemaReader (Byte → ReadSnapshot) Empty Bytes Bytes Nat Unit Unit Unit Unit where
  typeReader :=
    { types := fun s kind => match kind with
        | .entity => (List.range 8).filter fun id => ((s 0).get (typeKey id)).join.isSome
        | _ => []
      readType := fun s _ id => .ok (((s 0).get (typeKey id)).join.getD [])
      getLabel := id
      labelName := fun _ => ""
      isIndependent := fun _ => false
      capabilities := fun _ _ => []
      readCapability := fun _ _ _ => .ok ()
      structDefinitions := fun _ => []
      readStructDefinition := fun _ _ => .ok ()
      structName := fun _ => "" }
  functionReader :=
    { functions := fun _ => []
      readFunction := fun _ _ => .ok ()
      getName := fun _ => ""
      annotate := fun _ _ _ _ => .ok () }

/-- A database with one version in the keyspace and with the caches of an empty one. -/
def ofVersion (key value : Bytes) :
    InMemory (TypeCache Bytes Bytes Nat Unit Unit) (FunctionCache Unit Unit) Unit Unit where
  storage := ⟨fun _ => (VersionStore.ofVersion key value 1 (by decide) .insert).raw, 1, 2⟩
  typeCache := ⟨fun _ => [], fun _ => .empty, [], fun _ => .empty, .empty, .empty, []⟩
  functionCache := ⟨.empty, .empty, ()⟩
  thingStatistics := .new 1
  queryCache _ := some ()

theorem ofVersion_roundTrips {key value : Bytes} (hkey : key.length < 256)
    (hvalue : value.length < 256) : (ofVersion key value).storage.RoundTrips objectKeyspace := by
  have hlen : (build key 1 .insert).length < 512 := by simp [build]; omega
  refine (MemoryStorage.roundTrips_iff objectKeyspace _ ?_ ?_).mpr ⟨?_, ?_⟩
  · rintro k - e he
    rw [List.mem_singleton.mp he]
    exact ⟨hlen.trans (by norm_num), hvalue.trans (by norm_num)⟩
  · norm_num [ofVersion]
  · rintro k -
    simp only [ofVersion, VersionStore.ofVersion, estimatedSize, List.map_cons, List.map_nil,
      List.sum_singleton]
    omega
  · norm_num [ofVersion]

/-- A version of another key is not seen. -/
theorem ofVersion_stores_eq_false {key value : Bytes} {k : Key}
    (hk : (objectLayout.address k).2 ≠ key) :
    objectLayout.stores (ofVersion key value).storage k = false := by
  obtain ⟨result, hget, hsees⟩ := (VersionStore.ofVersion key value 1 (by decide)
    .insert).getsExactly 1 (objectLayout.address k).2
  have hnone : result = none := by
    refine Option.eq_none_iff_forall_ne_some.mpr fun v hv => ?_
    obtain ⟨p, hnewest, -, -⟩ := (hsees v).mp hv
    have hkey := hnewest.key_eq
    rw [List.mem_singleton.mp hnewest.mem, key_build] at hkey
    exact hk hkey.symm
  have hread : (openSnapshotReadAt (ofVersion key value).storage
      (ofVersion key value).storage.watermark (objectLayout.address k).1).get
        (objectLayout.address k).2 = some none := hnone ▸ hget
  rw [Layout.stores, hread]

theorem address_ne_typeKey (k : Key) (id : Nat) : (objectLayout.address k).2 ≠ typeKey id := by
  intro h
  have h : objectBytes k = typeKey id := h
  rcases objectBytes_head? k with ⟨v, -, hv⟩ | hk
  · rw [h] at hv
    exact absurd (Option.some.inj hv) (kind_byte_lt v.kind).1.ne
  · rw [hk] at h
    exact absurd (List.cons.inj h).1 (by decide)

/-- A type is imported and there is nothing to count. -/
theorem oneType_describes :
    ∃ after, (ofVersion (typeKey 3) [1]).importSnapshot objectKeyspace entityTypeReader
        ((ofVersion (typeKey 0) [97]).exportSnapshot objectKeyspace) = (.ok (), after) ∧
      Describes objectLayout entityTypeReader (ofVersion (typeKey 3) [1]) after ∧
      after.typeCache.getType .entity [97] = some 0 := by
  have hround : (ofVersion (typeKey 0) [97]).storage.RoundTrips objectKeyspace :=
    ofVersion_roundTrips (by decide) (by decide)
  have hdescribes := ((importSnapshot_describes_iff objectLayout entityTypeReader _
    (ofVersion (typeKey 3) [1])).2 hround).mpr
      (.inr fun k _ => ofVersion_stores_eq_false (address_ne_typeKey k 0))
  exact ⟨_, rfl, hdescribes _ rfl, rfl⟩

/-- One entity is imported and none is counted. -/
theorem oneEntity_not_describes :
    ¬ ∀ after, (ofVersion (typeKey 3) [1]).importSnapshot objectKeyspace entityTypeReader
        ((ofVersion (ObjectVertex.toBytes ⟨.entity, 0, 0⟩) []).exportSnapshot objectKeyspace) =
          (.ok (), after) →
      Describes objectLayout entityTypeReader (ofVersion (typeKey 3) [1]) after := by
  intro h
  have hzero := number_eq_zero_iff.mp ((h _ rfl).counts.entities 0) _ ⟨0, rfl⟩
  exact absurd hzero (by decide)

end TypeDB.Database
