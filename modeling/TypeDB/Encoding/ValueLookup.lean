import TypeDB.Encoding.StructBytes

/-! The key or prefix under which an attribute is looked up by its value, against the key under
which the vertex generator stores it. -/

namespace TypeDB.Encoding
open ByteString Option ValueTypeCategory HashedID List StructBytes

inductive EncodingKeyspace
  | defaultOptimisedPrefix11
  | optimisedPrefix17
  deriving DecidableEq

def keyspaceForCategory (category : Category) : EncodingKeyspace :=
  if category.isShort then .defaultOptimisedPrefix11 else .optimisedPrefix17

def Scalar.inlineId (s : Scalar) : Bytes := s.category.toByte :: s.encodeBytes

def StringAttributeID.writeDeterministicPrefix (string : Bytes) (hasher : Bytes → UInt64) :
    Bytes :=
  if isInlineable string then buildInlineId string
  else idPrefix string ++ HashedID.writeHash hashedHashLength hasher string

def StructAttributeID.writeHashedIdDeterministicPrefix (bytes : Bytes) (hasher : Bytes → UInt64) :
    Bytes :=
  HashedID.writeHash hashLength hasher bytes

/-- What is written of the id, and whether that is all of it. `none` where a struct is too large
to be encoded. -/
def writeDeterministicValueOrPrefix (hasher : Bytes → UInt64) : Value → Option (Bytes × Bool)
  | .scalar s => some (s.inlineId, true)
  | .string b => some (StringAttributeID.writeDeterministicPrefix b hasher, false)
  | .struct d fields => (encodeValue (.struct d fields)).map fun bytes =>
      (StructAttributeID.writeHashedIdDeterministicPrefix bytes hasher, false)

structure Lookup where
  keyspace : EncodingKeyspace
  bytes : Bytes
  isComplete : Bool

def buildOrPrefixForValue (typeId : TypeID) (value : Value) (hasher : Bytes → UInt64) :
    Option Lookup :=
  (writeDeterministicValueOrPrefix hasher value).map fun (id, isComplete) =>
    ⟨keyspaceForCategory value.category, writePrefixTypeAttributeId typeId id, isComplete⟩

def createAttributeId (hasher : Bytes → UInt64) (typeId : TypeID) (contents : Contents) :
    Value → Option Bytes
  | .scalar s => some s.inlineId
  | .string b => string.createAttributeId typeId b contents hasher
  | .struct d fields => (encodeValue (.struct d fields)).bind fun bytes =>
      struct.createAttributeId typeId bytes contents hasher

/-- The storage key of the vertex that `create_attribute_boolean` and the like put. -/
def createAttribute (hasher : Bytes → UInt64) (typeId : TypeID) (value : Value)
    (contents : Contents) : Option (EncodingKeyspace × Bytes) :=
  (createAttributeId hasher typeId contents value).map fun id =>
    (keyspaceForCategory value.category, writePrefixTypeAttributeId typeId id)

def Lookup.Finds (lookup : Lookup) (key : EncodingKeyspace × Bytes) : Prop :=
  lookup.keyspace = key.1 ∧
    if lookup.isComplete then lookup.bytes = key.2 else lookup.bytes <+: key.2

def FoundByValue (hasher : Bytes → UInt64) (typeId : TypeID) (value : Value) : Prop :=
  ∀ contents key, createAttribute hasher typeId value contents = some key →
    ∃ lookup, buildOrPrefixForValue typeId value hasher = some lookup ∧ lookup.Finds key

section Hashed
variable {hasher : Bytes → UInt64} {category : ValueTypeCategory} {typeId : TypeID}
  {value id : Bytes} {contents : Contents}

theorem createAttributeId_key (hlong : category.isInlineable value = false)
    (h : category.createAttributeId typeId value contents hasher = some id) :
    ∃ tail, writePrefixTypeAttributeId typeId id =
      hashedPrefix hasher category typeId value ++ [tail] := by
  rw [ValueTypeCategory.createAttributeId, if_neg (by simp [hlong])] at h
  obtain ⟨found, hfound, hid⟩ := bind_eq_some_iff.mp h
  have hkey := buildOrFindHashedId_eq hasher category typeId value contents
  rw [hfound, map_some] at hkey
  obtain ⟨tail, -, htail⟩ := map_eq_some_iff.mp hkey.symm
  cases tail <;> cases found <;> simp only [Either.map, reduceCtorEq] at htail <;> cases hid
  · exact ⟨_, (Either.first.inj htail).symm⟩
  · exact ⟨_, (Either.second.inj htail).symm⟩

theorem createAttributeId_empty (hlong : category.isInlineable value = false) :
    ∃ id, category.createAttributeId typeId value .empty hasher = some id := by
  have hkey := buildOrFindHashedId_eq hasher category typeId value .empty
  have hnew : disambiguate .empty (hashedPrefix hasher category typeId value) value =
      some (.second 128) := rfl
  rw [hnew, map_some] at hkey
  obtain ⟨found, hfound, -⟩ := map_eq_some_iff.mp hkey
  rw [ValueTypeCategory.createAttributeId, if_neg (by simp [hlong]), hfound]
  cases found <;> exact ⟨_, rfl⟩

theorem prefix_cons_self_iff {α : Type} {l r : List α} {a : α} :
    l <+: a :: (l ++ r) ↔ l = replicate l.length a := by
  induction l with
  | nil => simp
  | cons b l ih =>
    rw [cons_append, cons_prefix_cons, length_cons, replicate_succ, cons.injEq]
    constructor
    · rintro ⟨rfl, hl⟩
      exact ⟨rfl, ih.mp hl⟩
    · rintro ⟨rfl, hl⟩
      exact ⟨rfl, ih.mpr hl⟩

end Hashed

section Lookups
variable (hasher : Bytes → UInt64) (typeId : TypeID)

theorem foundByValue_scalar (s : Scalar) : FoundByValue hasher typeId (.scalar s) := by
  intro contents key hkey
  cases hkey
  exact ⟨_, rfl, rfl, rfl⟩

theorem foundByValue_string (b : Bytes) : FoundByValue hasher typeId (.string b) := by
  intro contents key hkey
  obtain ⟨id, hid, rfl⟩ := map_eq_some_iff.mp hkey
  refine ⟨_, rfl, rfl, ?_⟩
  change writePrefixTypeAttributeId typeId (StringAttributeID.writeDeterministicPrefix b hasher) <+:
    writePrefixTypeAttributeId typeId id
  rw [StringAttributeID.writeDeterministicPrefix]
  cases hinline : StringAttributeID.isInlineable b with
  | true =>
    have hsame : some (StringAttributeID.buildInlineId b) = some id :=
      (if_pos hinline).symm.trans hid
    rw [if_pos rfl, some.inj hsame]
  | false =>
    obtain ⟨tail, htail⟩ := @createAttributeId_key _ .string _ _ _ _ hinline hid
    rw [htail, if_neg Bool.false_ne_true]
    refine ⟨[tail], ?_⟩
    simp [hashedPrefix, writePrefixTypeAttributeId, idPrefix, hashLength]

/-- The lookup of a struct leaves out the category, which the stored key has before the hash. -/
theorem structPrefix_iff {bytes id : Bytes} {contents : Contents}
    (hid : struct.createAttributeId typeId bytes contents hasher = some id) :
    writePrefixTypeAttributeId typeId
        (StructAttributeID.writeHashedIdDeterministicPrefix bytes hasher) <+:
      writePrefixTypeAttributeId typeId id ↔
      writeHash 7 hasher bytes = replicate 7 40 := by
  obtain ⟨tail, htail⟩ := createAttributeId_key rfl hid
  have hlen : (writeHash 7 hasher bytes).length = 7 := by simp [writeHash]
  have hshift : writeHash 7 hasher bytes <+:
      40 :: (writeHash 7 hasher bytes ++ [tail]) ↔ _ := prefix_cons_self_iff
  rw [hlen] at hshift
  rw [htail, ← hshift]
  simp [hashedPrefix, writePrefixTypeAttributeId, idPrefix,
    StructAttributeID.idPrefix, hashLength, StructAttributeID.hashLength,
    toByte, StructAttributeID.writeHashedIdDeterministicPrefix]

theorem foundByValue_struct (d : DefinitionID) (fields : List (StructFieldID × Value)) :
    FoundByValue hasher typeId (.struct d fields) ↔
      ∀ bytes, encodeValue (.struct d fields) = some bytes →
        writeHash 7 hasher bytes = replicate 7 40 := by
  constructor
  · intro hfound bytes hbytes
    obtain ⟨id, hid⟩ : ∃ id, struct.createAttributeId typeId bytes .empty hasher = some id :=
      createAttributeId_empty rfl
    have hcreate : createAttribute hasher typeId (.struct d fields) .empty =
        some (keyspaceForCategory (.hashed .struct), writePrefixTypeAttributeId typeId id) := by
      simp [createAttribute, createAttributeId, hbytes, hid, Value.category]
    obtain ⟨lookup, hlookup, -, hpre⟩ := hfound .empty _ hcreate
    simp only [buildOrPrefixForValue, writeDeterministicValueOrPrefix, hbytes, map_some] at hlookup
    cases hlookup
    exact (structPrefix_iff hasher typeId hid).mp hpre
  · intro hhash contents key hkey
    obtain ⟨id, hid, rfl⟩ := map_eq_some_iff.mp hkey
    obtain ⟨bytes, hbytes, hid⟩ := bind_eq_some_iff.mp hid
    refine ⟨⟨_, _, false⟩, ?_, rfl, (structPrefix_iff hasher typeId hid).mpr (hhash bytes hbytes)⟩
    simp [buildOrPrefixForValue, writeDeterministicValueOrPrefix, hbytes,
      writePrefixTypeAttributeId]

/-- A value is looked up where it is stored exactly where it is no struct, or the bytes of its hash
happen to be those of the category. -/
theorem foundByValue_iff (value : Value) : FoundByValue hasher typeId value ↔
    ∀ d fields, value = .struct d fields →
      ∀ bytes, encodeValue (.struct d fields) = some bytes →
        HashedID.writeHash 7 hasher bytes = List.replicate 7 40 := by
  cases value with
  | scalar s => exact iff_of_true (foundByValue_scalar hasher typeId s) (by simp)
  | string b => exact iff_of_true (foundByValue_string hasher typeId b) (by simp)
  | struct d fields =>
    rw [foundByValue_struct]
    constructor
    · rintro hhash e others heq
      cases heq
      exact hhash
    · exact fun hhash => hhash d fields rfl

end Lookups

theorem struct_not_foundByValue :
    ¬ FoundByValue collidingHasher 0 (.struct 0 [(0, .scalar (.boolean true))]) := by
  intro h
  have hhash := (foundByValue_struct collidingHasher 0 0 _).mp h _ rfl
  exact absurd hhash (by decide)

end TypeDB.Encoding
