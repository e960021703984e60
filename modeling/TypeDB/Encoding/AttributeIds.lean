import Mathlib.Data.List.TakeWhile
import TypeDB.Encoding.ValueHasher
import TypeDB.Foundations.Runs

/-! Ids of string and struct attributes, and the contents that creating and deleting attributes
can leave. A value keeps one id; a new id can be one that is in use. -/

namespace TypeDB.Encoding
open ByteString List Option Runs HashedID OrderedMap

inductive ValueTypeCategory
  | string
  | struct
  deriving DecidableEq

def ValueTypeCategory.toByte : ValueTypeCategory → Byte
  | .string => 8
  | .struct => 40

abbrev TypeID := Fin 65536

def vertexAttribute : Byte := 32

def writePrefixTypeAttributeId (typeId : TypeID) (attributeIdPart : Bytes) : Bytes :=
  vertexAttribute :: encodeBE 2 typeId.val ++ attributeIdPart

namespace StringAttributeID

def inlineOrPrefixedHashLength : Nat := 16
def hashedHashLength : Nat := 8
def hashedPrefixLength : Nat := inlineOrPrefixedHashLength - hashedHashLength

def isInlineable (string : Bytes) : Bool := decide (string.length ≤ inlineOrPrefixedHashLength)

def buildInlineId (string : Bytes) : Bytes :=
  ValueTypeCategory.string.toByte ::
    (string ++ List.replicate (inlineOrPrefixedHashLength - string.length) 0) ++
      [Fin.ofNat 256 string.length]

def idPrefix (string : Bytes) : Bytes :=
  ValueTypeCategory.string.toByte :: string.take hashedPrefixLength

end StringAttributeID

namespace StructAttributeID

def hashLength : Nat := 7

def idPrefix : Bytes := [ValueTypeCategory.struct.toByte]

end StructAttributeID

def ValueTypeCategory.idPrefix : ValueTypeCategory → Bytes → Bytes
  | .string, value => StringAttributeID.idPrefix value
  | .struct, _ => StructAttributeID.idPrefix

def ValueTypeCategory.hashLength : ValueTypeCategory → Nat
  | .string => StringAttributeID.hashedHashLength
  | .struct => StructAttributeID.hashLength

/-- `build_or_find_hashed_id`: an id that holds a part of the value, the hash and the tail. -/
def ValueTypeCategory.buildOrFindHashedId (category : ValueTypeCategory) (typeId : TypeID)
    (value : Bytes) (contents : Contents) (hasher : Bytes → UInt64) : Option (Either Bytes) := do
  let idPrefix := category.idPrefix value
  let disambiguatedHash ← HashedID.findExistingOrNextDisambiguatedHash category.hashLength hasher
    contents (writePrefixTypeAttributeId typeId idPrefix) value
  some (disambiguatedHash.map (idPrefix ++ ·))

def StringAttributeID.buildOrFindHashedId :=
  ValueTypeCategory.buildOrFindHashedId .string

def StructAttributeID.buildOrFindHashedId :=
  ValueTypeCategory.buildOrFindHashedId .struct

def ValueTypeCategory.isInlineable : ValueTypeCategory → Bytes → Bool
  | .string, value => StringAttributeID.isInlineable value
  | .struct, _ => false

def ValueTypeCategory.createAttributeId (category : ValueTypeCategory) (typeId : TypeID)
    (value : Bytes) (contents : Contents) (hasher : Bytes → UInt64) : Option Bytes :=
  if category.isInlineable value then some (StringAttributeID.buildInlineId value)
  else do
    match ← category.buildOrFindHashedId typeId value contents hasher with
    | .first id => some id
    | .second id => some id

inductive Operation
  | create (typeId : TypeID) (value : Bytes)
  | delete (key : Bytes)

def step (hasher : Bytes → UInt64) (category : ValueTypeCategory) (contents : Contents) :
    Operation → Option Contents
  | .create typeId value => do
    let id ← category.createAttributeId typeId value contents hasher
    some (contents.insert (writePrefixTypeAttributeId typeId id) value)
  | .delete key => some (contents.erase key)

section Prefixes
variable {hasher : Bytes → UInt64} {category : ValueTypeCategory} {typeId : TypeID}
  {value key : Bytes} {contents : Contents}

def hashedPrefix (hasher : Bytes → UInt64) (category : ValueTypeCategory) (typeId : TypeID)
    (value : Bytes) : Bytes :=
  writePrefixTypeAttributeId typeId (category.idPrefix value) ++
    HashedID.writeHash category.hashLength hasher value

def ValueTypeCategory.keyLength : ValueTypeCategory → Nat
  | .string => 21
  | .struct => 12

open ValueTypeCategory

theorem length_hashedPrefix (h : category.isInlineable value = false) :
    (hashedPrefix hasher category typeId value).length + 1 = category.keyLength := by
  cases category with
  | string =>
    have hlen : ¬ value.length ≤ 16 := of_decide_eq_false h
    have htake : min 8 value.length = 8 := by omega
    simp [hashedPrefix, writePrefixTypeAttributeId, idPrefix,
      StringAttributeID.idPrefix, writeHash, hashLength,
      StringAttributeID.hashedPrefixLength, StringAttributeID.hashedHashLength,
      StringAttributeID.inlineOrPrefixedHashLength, htake, keyLength]
  | struct =>
    simp [hashedPrefix, writePrefixTypeAttributeId, idPrefix,
      StructAttributeID.idPrefix, writeHash, hashLength,
      StructAttributeID.hashLength, keyLength]

theorem length_inlineKey (h : category.isInlineable value = true) :
    (writePrefixTypeAttributeId typeId (StringAttributeID.buildInlineId value)).length =
      category.keyLength := by
  cases category with
  | string =>
    have hlen : value.length ≤ 16 := of_decide_eq_true h
    simp [writePrefixTypeAttributeId, StringAttributeID.buildInlineId,
      StringAttributeID.inlineOrPrefixedHashLength, keyLength]
    omega
  | struct => cases h

theorem buildOrFindHashedId_eq (hasher : Bytes → UInt64) (category : ValueTypeCategory)
    (typeId : TypeID) (value : Bytes) (contents : Contents) :
    (category.buildOrFindHashedId typeId value contents hasher).map
        (Either.map (writePrefixTypeAttributeId typeId)) =
      (disambiguate contents (hashedPrefix hasher category typeId value) value).map
        (Either.map fun tail => hashedPrefix hasher category typeId value ++
          [Fin.ofNat 256 tail]) := by
  unfold buildOrFindHashedId findExistingOrNextDisambiguatedHash
  dsimp only
  rw [hashedPrefix]
  cases disambiguate contents (writePrefixTypeAttributeId typeId
    (category.idPrefix value) ++ writeHash category.hashLength hasher value) value with
  | none => rfl
  | some found =>
    cases found <;> simp [Either.map, concatHashAndTail, writePrefixTypeAttributeId]

theorem eq_concat_tail {pre : Bytes} (hpre : pre <+: key) (hlen : key.length = pre.length + 1) :
    key = pre ++ [key.getD pre.length 0] := by
  obtain ⟨x, rfl⟩ := hpre
  rw [length_append] at hlen
  obtain ⟨b, rfl⟩ := length_eq_one_iff.mp (Nat.add_left_cancel hlen)
  simp

end Prefixes

/-- What creating and deleting attributes keeps: keys of one length, and one key for a value. -/
structure Consistent (hasher : Bytes → UInt64) (category : ValueTypeCategory)
    (contents : Contents) : Prop where
  keyLength : ∀ key value, contents.get? key = some value → key.length = category.keyLength
  single : ∀ typeId value key key', category.isInlineable value = false →
    hashedPrefix hasher category typeId value <+: key →
    hashedPrefix hasher category typeId value <+: key' →
    contents.get? key = some value → contents.get? key' = some value → key = key'

def Stored (hasher : Bytes → UInt64) (category : ValueTypeCategory) (contents : Contents)
    (typeId : TypeID) (value : Bytes) : Prop :=
  ∃ key, hashedPrefix hasher category typeId value <+: key ∧ contents.get? key = some value

section Found
variable {hasher : Bytes → UInt64} {category : ValueTypeCategory} {typeId : TypeID}
  {value key pre : Bytes} {contents : Contents}

theorem mem_within :
    (key, value) ∈ contents.within pre ↔ pre <+: key ∧ contents.get? key = some value := by
  rw [Contents.within, mem_filter, mem_entries, isPrefixOf_iff_prefix, and_comm]

def tails (hasher : Bytes → UInt64) (category : ValueTypeCategory) (contents : Contents)
    (typeId : TypeID) (value : Bytes) : List Nat :=
  tailsAt (hashedPrefix hasher category typeId value).length
    (contents.within (hashedPrefix hasher category typeId value))

def Contents.tails (contents : Contents) (pre : Bytes) : List Nat :=
  tailsAt pre.length (contents.within pre)

theorem length_tails : (contents.tails pre).length = (contents.within pre).length := length_map _

section Long
variable (h : Consistent hasher category contents) (hlong : category.isInlineable value = false)
  (hpre : hashedPrefix hasher category typeId value = pre)
include h hlong hpre

theorem Consistent.key_eq {p : Bytes × Bytes} (hp : p ∈ contents.within pre) :
    p.1 = pre ++ [p.1.getD pre.length 0] := by
  obtain ⟨hin, hget⟩ := mem_within.mp hp
  exact eq_concat_tail hin (by rw [h.keyLength p.1 p.2 hget, ← hpre, length_hashedPrefix hlong])

theorem Consistent.tail_lt : ∀ p ∈ contents.within pre, pre.length < p.1.length := by
  intro p hp
  rw [h.keyLength p.1 p.2 (mem_within.mp hp).2, ← hpre, ← length_hashedPrefix hlong]
  exact Nat.lt_succ_self _

theorem find_key (hin : pre <+: key) (hkey : contents.get? key = some value) :
    (category.buildOrFindHashedId typeId value contents hasher).map
        (Either.map (writePrefixTypeAttributeId typeId)) =
      if ((contents.within pre).takeWhile fun p => decide (p.2 ≠ value)).length < 128 then
        some (.first key) else none := by
  have hmem := mem_within.mpr ⟨hin, hkey⟩
  have hlast : key = pre ++ [key.getD pre.length 0] := h.key_eq hlong hpre hmem
  have hsingle : ∀ k, (k, value) ∈ contents.within pre → k = key := fun k hk =>
    h.single typeId value k key hlong (hpre ▸ (mem_within.mp hk).1) (hpre ▸ hin)
      (mem_within.mp hk).2 hkey
  rw [buildOrFindHashedId_eq, hpre, disambiguate,
    disambiguateFrom_stored (h.tail_lt hlong hpre) hmem hsingle (by decide), apply_ite (Option.map _)]
  refine if_congr (by rw [hashDisambiguatorByteIsHashFlag]; omega) ?_ rfl
  rw [map_some, Either.map, Fin.ofNat_val_eq_self, ← hlast]

theorem build_key (hnew : ¬ Stored hasher category contents typeId value) :
    (category.buildOrFindHashedId typeId value contents hasher).map
        (Either.map (writePrefixTypeAttributeId typeId)) =
      if (contents.within pre).length < 128 then
        some (.second (pre ++ [Fin.ofNat 256 (allocated (contents.tails pre) 128)])) else none := by
  have hnot : ∀ p ∈ contents.within pre, p.2 ≠ value := fun p hp heq =>
    hnew ⟨p.1, hpre ▸ mem_within.mp (heq ▸ hp)⟩
  rw [buildOrFindHashedId_eq, hpre, disambiguate,
    disambiguateFrom_new (h.tail_lt hlong hpre) hnot (by decide), allocated, length_tails,
    apply_ite (Option.map _)]
  exact if_congr (by rw [hashDisambiguatorByteIsHashFlag]; omega) rfl rfl

theorem create_key {id : Bytes}
    (hid : category.createAttributeId typeId value contents hasher = some id) :
    (writePrefixTypeAttributeId typeId id).length = category.keyLength ∧
      pre <+: writePrefixTypeAttributeId typeId id ∧
      ∀ key, pre <+: key → contents.get? key = some value →
        writePrefixTypeAttributeId typeId id = key := by
  rw [ValueTypeCategory.createAttributeId, if_neg (by simp [hlong])] at hid
  obtain ⟨found, hfound, hid⟩ := bind_eq_some_iff.mp hid
  by_cases hstored : Stored hasher category contents typeId value
  · obtain ⟨key, hin, hkey⟩ := hstored
    rw [hpre] at hin
    have hfind := find_key h hlong hpre hin hkey
    rw [hfound, map_some] at hfind
    split_ifs at hfind
    have heq : writePrefixTypeAttributeId typeId id = key := by
      cases found with
      | first id' => cases hid; exact Either.first.inj (some.inj hfind)
      | second id' => cases hfind
    refine ⟨heq ▸ h.keyLength key value hkey, heq ▸ hin, fun key' hin' hkey' => ?_⟩
    subst hpre
    exact heq.trans (h.single typeId value key key' hlong hin hin' hkey hkey')
  · have hbuild := build_key h hlong hpre hstored
    rw [hfound, map_some] at hbuild
    split_ifs at hbuild
    have heq : writePrefixTypeAttributeId typeId id =
        pre ++ [Fin.ofNat 256 (allocated (contents.tails pre) 128)] := by
      cases found with
      | first id' => cases hbuild
      | second id' => cases hid; exact Either.second.inj (some.inj hbuild)
    refine ⟨?_, heq ▸ prefix_append _ _, fun key hin hkey =>
      absurd ⟨key, hpre ▸ hin, hkey⟩ hstored⟩
    rw [heq, length_append, length_singleton, ← hpre, length_hashedPrefix hlong]

theorem Consistent.tails_sorted : (contents.tails pre).Pairwise (· < ·) := by
  have hsorted : (contents.within pre).Pairwise fun a b => a.1 < b.1 := contents.sorted.filter _
  rw [Contents.tails, tailsAt, pairwise_map]
  refine hsorted.imp_of_mem fun {a b} ha hb hab => ?_
  rw [h.key_eq hlong hpre ha, h.key_eq hlong hpre hb, Lex.append_lt_append_left_iff,
    cons_lt_cons_iff] at hab
  exact hab.resolve_right fun h => not_lt_nil _ h.2

theorem Consistent.get?_tail_eq_none {tail : Nat} (ht : tail < 256) :
    contents.get? (pre ++ [Fin.ofNat 256 tail]) = none ↔ tail ∉ contents.tails pre := by
  rw [← not_iff_not, not_not, ← ne_eq, ne_none_iff_exists']
  constructor
  · rintro ⟨stored, hget⟩
    refine mem_map.mpr ⟨_, mem_within.mpr ⟨prefix_append _ _, hget⟩, ?_⟩
    simp [Nat.mod_eq_of_lt ht]
  · intro hmem
    obtain ⟨p, hp, rfl⟩ := mem_map.mp hmem
    refine ⟨p.2, ?_⟩
    rw [Fin.ofNat_val_eq_self, ← h.key_eq hlong hpre hp]
    exact (mem_within.mp hp).2

end Long

end Found

section Reachable
variable {hasher : Bytes → UInt64} {category : ValueTypeCategory} {contents contents' : Contents}
  {op : Operation}

theorem consistent_empty : Consistent hasher category .empty where
  keyLength _ _ h := by cases h
  single _ _ _ _ _ _ _ h := by cases h

theorem Consistent.erase (h : Consistent hasher category contents) (key : Bytes) :
    Consistent hasher category (contents.erase key) := by
  have hget : ∀ k v, (contents.erase key).get? k = some v → contents.get? k = some v := by
    intro k v hk
    rw [get?_erase] at hk
    split_ifs at hk
    exact hk
  exact ⟨fun k v hk => h.keyLength k v (hget k v hk), fun typeId v k k' hlong hk hk' hv hv' =>
    h.single typeId v k k' hlong hk hk' (hget k v hv) (hget k' v hv')⟩

theorem Consistent.insert (h : Consistent hasher category contents) {key value : Bytes}
    (hlen : key.length = category.keyLength)
    (hkey : category.isInlineable value = false → ∀ typeId key',
      hashedPrefix hasher category typeId value <+: key →
      hashedPrefix hasher category typeId value <+: key' →
      contents.get? key' = some value → key = key') :
    Consistent hasher category (contents.insert key value) := by
  constructor
  · intro k v hk
    rw [get?_insert] at hk
    split_ifs at hk with heq
    · rw [heq, hlen]
    · exact h.keyLength k v hk
  · intro typeId v k k' hlong hk hk' hv hv'
    rw [get?_insert] at hv hv'
    split_ifs at hv hv' with heq heq' heq'
    · rw [heq, heq']
    · cases hv
      subst heq
      exact hkey hlong typeId k' hk hk' hv'
    · cases hv'
      subst heq'
      exact (hkey hlong typeId k hk' hk hv).symm
    · exact h.single typeId v k k' hlong hk hk' hv hv'

theorem hashedPrefix_eq {typeId typeId' : TypeID} {value key : Bytes}
    (hlong : category.isInlineable value = false)
    (h : hashedPrefix hasher category typeId value <+: key)
    (h' : hashedPrefix hasher category typeId' value <+: key) :
    hashedPrefix hasher category typeId value = hashedPrefix hasher category typeId' value := by
  have hlen : (hashedPrefix hasher category typeId value).length =
      (hashedPrefix hasher category typeId' value).length :=
    Nat.succ.inj ((length_hashedPrefix hlong).trans (length_hashedPrefix hlong).symm)
  exact (prefix_of_prefix_length_le h h' hlen.le).eq_of_length hlen

theorem Consistent.step (h : Consistent hasher category contents)
    (hstep : step hasher category contents op = some contents') :
    Consistent hasher category contents' := by
  cases op with
  | delete key =>
    cases hstep
    exact h.erase key
  | create typeId value =>
    obtain ⟨id, hid, hcontents⟩ := bind_eq_some_iff.mp hstep
    cases hcontents
    cases hinline : category.isInlineable value with
    | true =>
      rw [ValueTypeCategory.createAttributeId, if_pos hinline] at hid
      cases hid
      exact h.insert (length_inlineKey hinline) fun hlong => by simp [hinline] at hlong
    | false =>
      obtain ⟨hlen, hown, hkey⟩ := create_key h hinline rfl hid
      refine h.insert hlen fun _ typeId' key' hpre hpre' hget => hkey key' ?_ hget
      rwa [hashedPrefix_eq hinline hown hpre]

theorem consistent_of_reaches (h : Reaches (Encoding.step hasher category) .empty contents) :
    Consistent hasher category contents :=
  h.invariant consistent_empty fun _ _ _ hc _ hs => hc.step hs

end Reachable

section Exact
variable {hasher : Bytes → UInt64} {category : ValueTypeCategory} {contents : Contents}
  {typeId : TypeID} {value : Bytes}

/-- A stored value is found under its id, and any other is given an id that is not in use. -/
def IdsExact (hasher : Bytes → UInt64) (category : ValueTypeCategory) (contents : Contents)
    (typeId : TypeID) (value : Bytes) : Prop :=
  ∃ found, category.buildOrFindHashedId typeId value contents hasher = some found ∧
    (∀ key, hashedPrefix hasher category typeId value <+: key → contents.get? key = some value →
      ∃ id, found = .first id ∧ writePrefixTypeAttributeId typeId id = key) ∧
    (¬ Stored hasher category contents typeId value →
      ∃ id, found = .second id ∧ contents.get? (writePrefixTypeAttributeId typeId id) = none)

/-- Fewer than 128 keys under the hash come before the value, and where it is not stored the tail
in the place of the last of them is unused or the greatest. -/
def TailLeft (hasher : Bytes → UInt64) (category : ValueTypeCategory) (contents : Contents)
    (typeId : TypeID) (value : Bytes) : Prop :=
  ((contents.within (hashedPrefix hasher category typeId value)).takeWhile
      fun p => decide (p.2 ≠ value)).length < 128 ∧
    (¬ Stored hasher category contents typeId value →
      let ts := tails hasher category contents typeId value
      128 + ts.length - 1 ∈ ts → ∀ t ∈ ts, t ≤ 128 + ts.length - 1)

section Exact
variable {pre : Bytes} (h : Consistent hasher category contents)
  (hlong : category.isInlineable value = false)
  (hpre : hashedPrefix hasher category typeId value = pre)
include h hlong hpre

theorem idsExact_stored {key : Bytes} (hin : pre <+: key)
    (hkey : contents.get? key = some value) :
    IdsExact hasher category contents typeId value ↔
      ((contents.within pre).takeWhile fun p => decide (p.2 ≠ value)).length < 128 := by
  have hfind := find_key h hlong hpre hin hkey
  subst hpre
  constructor
  · rintro ⟨found, hfound, -⟩
    by_contra hnot
    rw [hfound, if_neg hnot] at hfind
    cases hfind
  · intro hlt
    rw [if_pos hlt] at hfind
    obtain ⟨found, hfound, hmap⟩ := map_eq_some_iff.mp hfind
    cases found with
    | second id => cases hmap
    | first id =>
      refine ⟨_, hfound, fun key' hin' hkey' => ⟨id, rfl, ?_⟩, fun hnew =>
        absurd ⟨key, hin, hkey⟩ hnew⟩
      exact (Either.first.inj hmap).trans
        (h.single typeId value key key' hlong hin hin' hkey hkey')

theorem idsExact_new (hnew : ¬ Stored hasher category contents typeId value) :
    IdsExact hasher category contents typeId value ↔
      (contents.within pre).length < 128 ∧
        allocated (contents.tails pre) 128 ∉ contents.tails pre := by
  have hbuild := build_key h hlong hpre hnew
  by_cases hlt : (contents.within pre).length < 128
  · have hle := allocated_le (contents.tails pre) 128
    rw [length_tails] at hle
    rw [if_pos hlt] at hbuild
    obtain ⟨found, hfound, hmap⟩ := map_eq_some_iff.mp hbuild
    cases found with
    | first id => cases hmap
    | second id =>
      have hkey := Either.second.inj hmap
      rw [← h.get?_tail_eq_none hlong hpre (by omega), ← hkey]
      constructor
      · rintro ⟨found', hfound', -, hfresh⟩
        obtain ⟨id', rfl, hnone⟩ := hfresh hnew
        rw [hfound] at hfound'
        cases hfound'
        exact ⟨hlt, hnone⟩
      · rintro ⟨-, hnone⟩
        exact ⟨_, hfound, fun key hin hget => absurd ⟨key, hin, hget⟩ hnew,
          fun _ => ⟨id, rfl, hnone⟩⟩
  · refine iff_of_false ?_ fun h => hlt h.1
    rintro ⟨found, hfound, -⟩
    rw [hfound, if_neg hlt] at hbuild
    cases hbuild

end Exact

/-- In whatever contents creations and deletions leave, ids are found and allocated as they
should be exactly where a tail is left. -/
theorem hashed_ids_exact_iff (hreach : Reaches (Encoding.step hasher category) .empty contents)
    (typeId : TypeID) (hlong : category.isInlineable value = false) :
    IdsExact hasher category contents typeId value ↔
      TailLeft hasher category contents typeId value := by
  have hc := consistent_of_reaches hreach
  by_cases hstored : Stored hasher category contents typeId value
  · obtain ⟨key, hpre, hkey⟩ := hstored
    rw [idsExact_stored hc hlong rfl hpre hkey]
    exact (and_iff_left_of_imp fun _ hnew => absurd ⟨key, hpre, hkey⟩ hnew).symm
  · -- the scan passes over every key under the hash
    have hall : (contents.within (hashedPrefix hasher category typeId value)).takeWhile
        (fun p => decide (p.2 ≠ value)) =
          contents.within (hashedPrefix hasher category typeId value) := by
      rw [takeWhile_eq_self_iff]
      intro p hp
      simpa using fun heq : p.2 = value => hstored ⟨p.1, mem_within.mp (heq ▸ hp)⟩
    rw [idsExact_new hc hlong rfl hstored, allocated_not_mem_iff (hc.tails_sorted hlong rfl),
      TailLeft, hall]
    exact and_congr_right' ⟨fun h _ => h, fun h => h hstored⟩

end Exact

section Collisions

def collidingString (i : Byte) : Bytes := List.replicate 16 0 ++ [i]

def collidingHasher : Bytes → UInt64 := fun _ => 0

def collidingKey (tail : Byte) : Bytes :=
  hashedPrefix collidingHasher .string 0 (collidingString 0) ++ [tail]

def withHole : List Operation :=
  [.create 0 (collidingString 0), .create 0 (collidingString 1), .create 0 (collidingString 2),
    .delete (collidingKey 128)]

theorem withHole_run : (run (step collidingHasher .string) .empty withHole).isSome := by
  decide +kernel

def withHoleEnd : Contents := (run (step collidingHasher .string) .empty withHole).get withHole_run

theorem withHole_reach : Reaches (step collidingHasher .string) .empty withHoleEnd :=
  reaches_of_run (some_get withHole_run).symm

theorem withHole_finds_third :
    Reaches (step collidingHasher .string) .empty withHoleEnd ∧
      IdsExact collidingHasher .string withHoleEnd 0 (collidingString 2) := by
  refine ⟨withHole_reach, (hashed_ids_exact_iff withHole_reach 0 (by decide)).mpr
    ⟨by decide +kernel, fun hnew => absurd ⟨collidingKey 130, ?_, ?_⟩ hnew⟩⟩
  · decide +kernel
  · decide +kernel

/-- A fourth string is given the id of the second. -/
theorem withHole_allocates_used :
    Reaches (step collidingHasher .string) .empty withHoleEnd ∧
      ((ValueTypeCategory.string.buildOrFindHashedId 0 (collidingString 3) withHoleEnd
        collidingHasher).map (Either.map (writePrefixTypeAttributeId 0))) =
          some (.second (collidingKey 129)) ∧
      withHoleEnd.get? (collidingKey 129) = some (collidingString 1) :=
  ⟨withHole_reach, by decide +kernel, by decide +kernel⟩

end Collisions

end TypeDB.Encoding
