import TypeDB.Encoding.AttributeIds
import TypeDB.Storage.Visibility

/-! The ids of entities and relations. A generator counts them up per type; after a restart it
starts behind the last id a seek in the raw keys comes to, and an import leaves it where it is. -/

namespace TypeDB.Encoding
open ByteString List Runs Storage Storage.MVCCKey TypeDB.Lex Function

inductive ObjectKind
  | entity
  | relation
  deriving DecidableEq

def ObjectKind.byte : ObjectKind → Byte
  | .entity => 30
  | .relation => 31

theorem ObjectKind.byte_injective : Injective byte := by
  intro kind kind' h
  cases kind <;> cases kind' <;> first | rfl | exact absurd h (by decide)

def ObjectKind.typeByte : ObjectKind → Byte
  | .entity => 10
  | .relation => 11

abbrev ObjectID := Fin (2 ^ 64)

structure ObjectVertex where
  kind : ObjectKind
  typeId : TypeID
  objectId : ObjectID
  deriving DecidableEq

namespace ObjectVertex

def length : Nat := 1 + 2 + 8

variable (v : ObjectVertex)

def toBytes : Bytes :=
  v.kind.byte :: (encodeBE 2 v.typeId.val ++ encodeBE 8 v.objectId.val)

/-- `KEYSPACE.id()` -/
def keyspaceId : Nat := 0

/-- `is_entity_vertex` and `is_relation_vertex`. -/
def isVertexOf (kind : ObjectKind) (keyspace : Nat) (bytes : Bytes) : Bool :=
  decide (keyspace = keyspaceId) && decide (bytes.length = length) &&
    decide (bytes.head? = some kind.byte)

/-- `ThingVertex::decode` of bytes that are a vertex of the kind. -/
def decode (kind : ObjectKind) (bytes : Bytes) : ObjectVertex where
  kind := kind
  typeId := Fin.ofNat _ (decodeBE ((bytes.drop 1).take 2))
  objectId := Fin.ofNat _ (decodeBE ((bytes.drop 3).take 8))

@[simp] theorem length_toBytes : v.toBytes.length = length := by
  simp [toBytes, length]

theorem isVertexOf_toBytes : isVertexOf v.kind keyspaceId v.toBytes = true := by
  simp [isVertexOf, toBytes, length]

@[simp] theorem decode_toBytes : decode v.kind v.toBytes = v := by
  have htype : (v.toBytes.drop 1).take 2 = encodeBE 2 v.typeId.val := by
    rw [toBytes, drop_succ_cons, drop_zero, take_left' (length_encodeBE 2 _)]
  have hobject : (v.toBytes.drop 3).take 8 = encodeBE 8 v.objectId.val := by
    rw [toBytes, drop_succ_cons, drop_left' (length_encodeBE 2 _),
      take_of_length_le (length_encodeBE 8 _).le]
  have htypeId : v.typeId.val < 256 ^ 2 := v.typeId.isLt
  have hobjectId : v.objectId.val < 256 ^ 8 := v.objectId.isLt
  rw [decode, htype, hobject, decodeBE_encodeBE htypeId, decodeBE_encodeBE hobjectId]
  simp

theorem toBytes_lt {v w : ObjectVertex} (hkind : v.kind = w.kind) (htype : v.typeId = w.typeId)
    (h : v.objectId < w.objectId) : v.toBytes < w.toBytes := by
  rw [toBytes, toBytes, hkind, htype]
  exact List.Lex.cons (append_lt_append_left_iff.mpr (encodeBE_lt w.objectId.isLt h))

theorem apart {v w : ObjectVertex} (h : v.toBytes ≠ w.toBytes) : Apart v.toBytes w.toBytes := by
  have hlen : v.toBytes.length = w.toBytes.length := by simp
  exact ⟨fun hp => h (hp.eq_of_length hlen), fun hp => h (hp.eq_of_length hlen.symm).symm⟩

def typePrefix (kind : ObjectKind) (typeId : TypeID) : Bytes := kind.byte :: encodeBE 2 typeId.val

theorem typePrefix_isPrefixOf : typePrefix v.kind v.typeId <+: v.toBytes :=
  ⟨encodeBE 8 v.objectId.val, rfl⟩

theorem eq_of_typePrefix {kind : ObjectKind} {typeId : TypeID} {v : ObjectVertex}
    (h : typePrefix kind typeId <+: v.toBytes) : v.kind = kind ∧ v.typeId = typeId := by
  have heq : typePrefix kind typeId = typePrefix v.kind v.typeId :=
    List.IsPrefix.eq_of_length (prefix_of_prefix_length_le h v.typePrefix_isPrefixOf
      (by simp [typePrefix])) (by simp [typePrefix])
  simp only [typePrefix, List.cons.injEq] at heq
  exact ⟨ObjectKind.byte_injective heq.1.symm,
    Fin.ext (encodeBE_injective v.typeId.isLt typeId.isLt heq.2.symm)⟩

def last (kind : ObjectKind) (typeId : TypeID) : ObjectVertex := ⟨kind, typeId, Fin.last _⟩

theorem increment_last (kind : ObjectKind) (typeId : TypeID) :
    ∃ bound, increment (last kind typeId).toBytes = some bound ∧ bound.length = length := by
  have hbyte : kind.byte.val + 1 < 256 := by cases kind <;> decide
  obtain ⟨bound, hbound⟩ : ∃ bound, increment (last kind typeId).toBytes = some bound :=
    increment_cons_of_lt hbyte _
  exact ⟨bound, hbound, (length_increment hbound).trans (length_toBytes _)⟩

end ObjectVertex

/-- The prefixes of the index keys, which end in a label or in the name of a definition. -/
def indexPrefixes : List Byte := [182, 183, 184]

/-- A key of the keyspace of the objects: a prefix byte and an id of two bytes at the least, or an
index key. Those that begin like an object vertex are one. -/
structure IsKey (k : Bytes) : Prop where
  long : 3 ≤ k.length ∨ ∃ b ∈ indexPrefixes, k.head? = some b
  object : ∀ kind : ObjectKind, k.head? = some kind.byte → ∃ v : ObjectVertex, k = v.toBytes

structure ObjectKeyspace where
  raw : OrderedMap Bytes Bytes
  built : ∀ p ∈ raw.entries, ∃ k n op, p.1 = build k n op ∧ IsKey k

namespace ObjectKeyspace

def empty : ObjectKeyspace := ⟨.empty, nofun⟩

def Stores (keyspace : ObjectKeyspace) (v : ObjectVertex) : Prop :=
  ∃ p ∈ keyspace.raw.entries, key p.1 = v.toBytes

/-- The object vertices among the keys. -/
def vertices (keyspace : ObjectKeyspace) : List ObjectVertex :=
  keyspace.raw.entries.flatMap fun p => [ObjectKind.entity, .relation].filterMap fun kind =>
    if ObjectVertex.isVertexOf kind ObjectVertex.keyspaceId (key p.1) then
      some (ObjectVertex.decode kind (key p.1))
    else none

theorem stores_iff {keyspace : ObjectKeyspace} {v : ObjectVertex} :
    keyspace.Stores v ↔ v ∈ keyspace.vertices := by
  simp only [Stores, vertices, mem_flatMap, mem_filterMap]
  constructor
  · rintro ⟨p, hp, hkey⟩
    have hkind : v.kind ∈ [ObjectKind.entity, .relation] := by cases v.kind <;> decide
    exact ⟨p, hp, v.kind, hkind, by
      rw [hkey, if_pos (ObjectVertex.isVertexOf_toBytes v), ObjectVertex.decode_toBytes]⟩
  · rintro ⟨p, hp, kind, -, hv⟩
    obtain ⟨k, n, op, hraw, hk⟩ := keyspace.built p hp
    rw [hraw, key_build] at hv
    split_ifs at hv with his
    have hhead : k.head? = some kind.byte :=
      of_decide_eq_true (Bool.and_eq_true_iff.mp his).2
    obtain ⟨w, rfl⟩ := hk.object kind hhead
    obtain rfl : w.kind = kind := ObjectKind.byte_injective (Option.some.inj hhead)
    rw [ObjectVertex.decode_toBytes] at hv
    exact ⟨p, hp, by rw [hraw, key_build, Option.some.inj hv]⟩

/-- `get_prev_raw`: the last raw key that is not after the given one. -/
def getPrevRaw (keyspace : ObjectKeyspace) (key : Bytes) : Option (Bytes × Bytes) :=
  (keyspace.raw.entries.filter fun p => decide (p.1 ≤ key)).getLast?

/-- The ids of the entity or relation types that a snapshot opened at `s` sees. -/
def typesAt (keyspace : ObjectKeyspace) (s : Nat) (kind : ObjectKind) : List TypeID :=
  let keys := keyspace.raw.entries.map fun p => key p.1
  (keys.filter fun k => [kind.typeByte].isPrefixOf k &&
    (shown s keyspace.raw.entries k).isSome).map fun k => Fin.ofNat _ (decodeBE ((k.drop 1).take 2))

end ObjectKeyspace

structure ThingVertexGenerator where
  ids : ObjectKind → TypeID → ObjectID

namespace ThingVertexGenerator

def new : ThingVertexGenerator := ⟨fun _ _ => 0⟩

/-- What a load stores for one type; `none` where the increment is unwrapped in vain. -/
def loadId (keyspace : ObjectKeyspace) (kind : ObjectKind) (typeId : TypeID) : Option ObjectID :=
  (Lex.increment (ObjectVertex.last kind typeId).toBytes).map fun bound =>
    match keyspace.getPrevRaw bound with
    | none => 0
    | some p =>
      let bytes := key p.1
      if ObjectVertex.isVertexOf kind ObjectVertex.keyspaceId bytes then
        let vertex := ObjectVertex.decode kind bytes
        if vertex.typeId = typeId then vertex.objectId + 1 else 0
      else 0

def loadIds (keyspace : ObjectKeyspace) (kind : ObjectKind) :
    List TypeID → (TypeID → ObjectID) → Option (TypeID → ObjectID)
  | [], ids => some ids
  | typeId :: rest, ids => do
    let id ← loadId keyspace kind typeId
    loadIds keyspace kind rest (update ids typeId id)

def load (keyspace : ObjectKeyspace) (s : Nat) : Option ThingVertexGenerator := do
  let entityIds ← loadIds keyspace .entity (keyspace.typesAt s .entity) fun _ => 0
  let relationIds ← loadIds keyspace .relation (keyspace.typesAt s .relation) fun _ => 0
  some ⟨fun
    | .entity => entityIds
    | .relation => relationIds⟩

variable (generator : ThingVertexGenerator)

/-- `fetch_add`, which wraps around, and the vertex that is inserted. -/
def create (kind : ObjectKind) (typeId : TypeID) :
    ObjectVertex × ThingVertexGenerator :=
  let id := generator.ids kind typeId
  (⟨kind, typeId, id⟩,
    ⟨update generator.ids kind (update (generator.ids kind) typeId (id + 1))⟩)

def createEntity (typeId : TypeID) :
    ObjectVertex × ThingVertexGenerator := generator.create .entity typeId

def createRelation (typeId : TypeID) :
    ObjectVertex × ThingVertexGenerator := generator.create .relation typeId

end ThingVertexGenerator

section Load
variable {keyspace : ObjectKeyspace} {kind : ObjectKind} {typeId : TypeID} {bound : Bytes}

open ObjectVertex

theorem build_le_bound (hbound : increment (last kind typeId).toBytes = some bound)
    (id : ObjectID) (n : Nat) (op : StorageOperation) :
    build (toBytes ⟨kind, typeId, id⟩) n op ≤ bound := by
  refine le_of_lt ((lt_increment_iff hbound).mpr (.inl ?_))
  rcases (Fin.le_last id).lt_or_eq with hlt | heq
  · have hbytes : toBytes ⟨kind, typeId, id⟩ < toBytes (last kind typeId) := toBytes_lt rfl rfl hlt
    have := ((apart hbytes.ne).append_lt (x := suffix n op) (y := [])).mpr hbytes
    rw [append_nil] at this
    exact .inl this.le
  · subst heq
    exact .inr (prefix_append _ _)

/-- The bound of a seek is before every index key. -/
theorem IsKey.long_of_le_bound {k : Bytes} (hk : IsKey k)
    (hbound : increment (last kind typeId).toBytes = some bound) {n : Nat} {op : StorageOperation}
    (hle : build k n op ≤ bound) : 3 ≤ k.length := by
  refine hk.long.resolve_right ?_
  rintro ⟨b, hb, hhead⟩
  obtain ⟨ks, rfl⟩ := head?_eq_some_iff.mp hhead
  obtain ⟨d, ds, rfl, hd⟩ := exists_cons_of_increment (c := kind.byte) hbound
  have hlast : kind.byte.val ≤ 31 := by cases kind <;> decide
  have hindex : 182 ≤ b.val := by
    simp only [indexPrefixes, mem_cons, not_mem_nil, or_false] at hb
    rcases hb with rfl | rfl | rfl <;> decide
  have hdb : d < b := Fin.lt_def.mpr (by omega)
  exact absurd hle (not_le.mpr (cons_lt_cons_iff.mpr (.inl hdb)))

theorem typePrefix_of_le_bound (hbound : increment (last kind typeId).toBytes = some bound)
    {raw : Bytes} (hlen : bound.length < raw.length) (hle : raw ≤ bound)
    (hge : typePrefix kind typeId ≤ raw) : typePrefix kind typeId <+: raw := by
  have hcut : ¬ Cuts bound raw := fun h => by
    have := h.1.length_le
    omega
  have hne : raw ≠ bound := fun h => by
    rw [h] at hlen
    exact lt_irrefl _ hlen
  have hpast := (increment_le_iff hbound hcut).not.mp (not_le.mpr (lt_of_le_of_ne hle hne))
  have hlast : typePrefix kind typeId <+: (last kind typeId).toBytes :=
    (last kind typeId).typePrefix_isPrefixOf
  by_cases hpre : (last kind typeId).toBytes <+: raw
  · exact hlast.trans hpre
  · have : ¬ (last kind typeId).toBytes < raw := fun h => hpast ⟨h, hpre⟩
    exact prefix_of_between hlast hge (not_lt.mp this)

theorem getPrevRaw_spec {key : Bytes} {p : Bytes × Bytes} (hp : p ∈ keyspace.raw.entries)
    (hle : p.1 ≤ key) : ∃ q ∈ keyspace.raw.entries, keyspace.getPrevRaw key = some q ∧
      q.1 ≤ key ∧ p.1 ≤ q.1 := by
  have hmem : p ∈ keyspace.raw.entries.filter fun p => decide (p.1 ≤ key) :=
    mem_filter.mpr ⟨hp, decide_eq_true hle⟩
  have hsorted := keyspace.raw.sorted.filter fun p => decide (p.1 ≤ key)
  cases hlast : (keyspace.raw.entries.filter fun p => decide (p.1 ≤ key)).getLast? with
  | none =>
    rw [getLast?_eq_none_iff.mp hlast] at hmem
    cases hmem
  | some q =>
    obtain ⟨front, hfront⟩ := getLast?_eq_some_iff.mp hlast
    rw [hfront] at hmem hsorted
    have hq := mem_filter.mp (hfront ▸ mem_append_right front (mem_singleton_self q))
    refine ⟨q, hq.1, hlast, of_decide_eq_true hq.2, ?_⟩
    rcases mem_append.mp hmem with hmem | hmem
    · exact ((pairwise_append.mp hsorted).2.2 p hmem q (mem_singleton_self q)).le
    · exact (mem_singleton.mp hmem) ▸ le_rfl

open ThingVertexGenerator

theorem loadId_of_stores {id : ObjectID} (h : keyspace.Stores ⟨kind, typeId, id⟩) :
    ∃ last, loadId keyspace kind typeId = some (last + 1) ∧ id ≤ last ∧
      keyspace.Stores ⟨kind, typeId, last⟩ := by
  obtain ⟨p, hp, hkey⟩ := h
  obtain ⟨bound, hbound, hlength⟩ := increment_last kind typeId
  obtain ⟨k, n, op, hpraw, -⟩ := keyspace.built p hp
  rw [hpraw, key_build] at hkey
  rw [hkey] at hpraw
  obtain ⟨q, hq, hprev, hqle, hpq⟩ := getPrevRaw_spec hp (hpraw ▸ build_le_bound hbound id n op)
  obtain ⟨k', n', op', hqraw, hk⟩ := keyspace.built q hq
  have hklen : 3 ≤ k'.length := hk.long_of_le_bound hbound (hqraw ▸ hqle)
  -- the raw key found begins like the type, so its user key is a vertex of the type
  have hlong : bound.length < q.1.length := by
    rw [hqraw, length_build, hlength]
    simp only [ObjectVertex.length]
    omega
  have hprefix : typePrefix kind typeId <+: q.1 := by
    refine typePrefix_of_le_bound hbound hlong hqle (le_trans ?_ hpq)
    rw [hpraw]
    exact prefix_le ((typePrefix_isPrefixOf ⟨kind, typeId, id⟩).trans (prefix_append _ _))
  have hprefix' : typePrefix kind typeId <+: k' := by
    rw [hqraw] at hprefix
    exact prefix_of_prefix_length_le hprefix (prefix_append _ _)
      (by simpa [typePrefix] using hklen)
  have hhead : k'.head? = some kind.byte := by
    obtain ⟨rest, rfl⟩ := hprefix'
    rfl
  obtain ⟨v, rfl⟩ := hk.object kind hhead
  obtain ⟨rfl, rfl⟩ := eq_of_typePrefix hprefix'
  refine ⟨v.objectId, ?_, not_lt.mp fun hlt => ?_, q, hq, by rw [hqraw, key_build]⟩
  · simp only [loadId, hbound, Option.map_some, hprev, hqraw, key_build,
      isVertexOf_toBytes v, decode_toBytes v, if_true]
  · have hbytes := toBytes_lt (v := v) (w := ⟨v.kind, v.typeId, id⟩) rfl rfl hlt
    rw [hpraw, hqraw] at hpq
    exact absurd ((apart hbytes.ne).append_lt.mpr hbytes) (not_lt.mpr hpq)

theorem loadId_isSome (keyspace : ObjectKeyspace) (kind : ObjectKind) (typeId : TypeID) :
    ∃ id, loadId keyspace kind typeId = some id := by
  obtain ⟨bound, hbound, -⟩ := increment_last kind typeId
  exact ⟨_, by rw [loadId, hbound, Option.map_some]⟩

theorem loadIds_spec (keyspace : ObjectKeyspace) (kind : ObjectKind) (types : List TypeID)
    (ids : TypeID → ObjectID) :
    ∃ ids', loadIds keyspace kind types ids = some ids' ∧
      ∀ typeId, (typeId ∈ types → loadId keyspace kind typeId =
        some (ids' typeId)) ∧ (typeId ∉ types → ids' typeId = ids typeId) := by
  induction types generalizing ids with
  | nil => exact ⟨ids, rfl, fun _ => ⟨nofun, fun _ => rfl⟩⟩
  | cons first rest ih =>
    obtain ⟨id, hid⟩ := loadId_isSome keyspace kind first
    obtain ⟨ids', hrest, hspec⟩ := ih (update ids first id)
    refine ⟨ids', by rw [loadIds, hid]; exact hrest, fun typeId => ?_⟩
    obtain ⟨hin, hout⟩ := hspec typeId
    constructor
    · intro hmem
      by_cases hr : typeId ∈ rest
      · exact hin hr
      · obtain rfl : typeId = first := (mem_cons.mp hmem).resolve_right hr
        rw [hid, hout hr, update_self]
    · intro hmem
      rw [mem_cons, not_or] at hmem
      rw [hout hmem.2, update_of_ne hmem.1]

theorem load_spec (keyspace : ObjectKeyspace) (s : Nat) :
    ∃ generator, load keyspace s = some generator ∧ ∀ kind, ∀ typeId ∈ keyspace.typesAt s kind,
        loadId keyspace kind typeId = some (generator.ids kind typeId) := by
  obtain ⟨entityIds, hentity, hentities⟩ :=
    loadIds_spec keyspace .entity (keyspace.typesAt s .entity) fun _ => 0
  obtain ⟨relationIds, hrelation, hrelations⟩ :=
    loadIds_spec keyspace .relation (keyspace.typesAt s .relation) fun _ => 0
  refine ⟨_, by rw [load, hentity, hrelation]; rfl, ?_⟩
  rintro (_ | _) typeId htype
  · exact (hentities typeId).1 htype
  · exact (hrelations typeId).1 htype

end Load
end TypeDB.Encoding
