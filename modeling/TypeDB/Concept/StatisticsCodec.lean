import TypeDB.Concept.Statistics
import TypeDB.Foundations.Rekeying

/-! The serialised form of the statistics: its fields in order, or a map that names them. The map
visitor checks for duplicates field by field, three times in the slot of another field. -/

namespace TypeDB.Concept.Statistics
open List Function
open Encoding (TypeID)

inductive SerialisableType
  | entity (id : TypeID)
  | relation (id : TypeID)
  | attr (id : TypeID)
  | role (id : TypeID)
  deriving DecidableEq

def SerialisableType.code : SerialisableType → Nat
  | .entity id => id.val
  | .relation id => 65536 + id.val
  | .attr id => 2 * 65536 + id.val
  | .role id => 3 * 65536 + id.val

theorem SerialisableType.code_injective : Injective SerialisableType.code := by
  rintro (t | t | t | t) (u | u | u | u) h <;> have := t.isLt <;> have := u.isLt <;>
    simp only [SerialisableType.code] at h <;> first
      | omega
      | exact congrArg _ (Fin.ext (by omega))

instance : LinearOrder SerialisableType :=
  LinearOrder.lift' SerialisableType.code SerialisableType.code_injective

/-- How the keys of a map become serialisable, and back; the way back panics on other kinds. -/
structure Keys (κ : Type) where
  intoSerialisable : κ → SerialisableType
  ofSerialisable : SerialisableType → Option κ
  of_into : ∀ key, ofSerialisable (intoSerialisable key) = some key

theorem Keys.injective {κ : Type} (K : Keys κ) : Injective K.intoSerialisable := by
  intro a b h
  rw [← Option.some.injEq, ← K.of_into, h, K.of_into]

def entityKeys : Keys EntityType where
  intoSerialisable := .entity
  ofSerialisable
    | .entity id => some id
    | _ => none
  of_into _ := rfl

def relationKeys : Keys RelationType where
  intoSerialisable := .relation
  ofSerialisable
    | .relation id => some id
    | _ => none
  of_into _ := rfl

def attributeKeys : Keys AttributeType where
  intoSerialisable := .attr
  ofSerialisable
    | .attr id => some id
    | _ => none
  of_into _ := rfl

def roleKeys : Keys RoleType where
  intoSerialisable := .role
  ofSerialisable
    | .role id => some id
    | _ => none
  of_into _ := rfl

def objectKeys : Keys ObjectType where
  intoSerialisable
    | ⟨.entity, id⟩ => .entity id
    | ⟨.relation, id⟩ => .relation id
  ofSerialisable
    | .entity id => some (.entity id)
    | .relation id => some (.relation id)
    | _ => none
  of_into key := by rcases key with ⟨_ | _, id⟩ <;> rfl

inductive Serial
  | number (n : Nat)
  | map (m : OrderedMap SerialisableType Nat)
  | mapMap (m : OrderedMap SerialisableType (OrderedMap SerialisableType Nat))
  | mapMapMap (m : OrderedMap SerialisableType
      (OrderedMap SerialisableType (OrderedMap SerialisableType Nat)))

/-- A value of another shape is an error of the format, a key of the wrong kind is a panic. -/
inductive Misread
  | invalid
  | panicked
  deriving DecidableEq

def orPanic {α : Type} : Option α → Except Misread α
  | some v => .ok v
  | none => .error .panicked

structure Codec where
  Carrier : Type
  encode : Carrier → Serial
  decode : Serial → Except Misread Carrier
  decode_encode : ∀ v, decode (encode v) = .ok v

namespace Codec
variable {α β γ : Type} [LinearOrder α] [LinearOrder β] [LinearOrder γ]

def number : Codec where
  Carrier := Nat
  encode := .number
  decode
    | .number n => .ok n
    | _ => .error .invalid
  decode_encode _ := rfl

variable (K : Keys α)

def toSerialisableMap (m : OrderedMap α Nat) : OrderedMap SerialisableType Nat :=
  m.rekey fun p => (K.intoSerialisable p.1, p.2)

def intoMap (m : OrderedMap SerialisableType Nat) : Option (OrderedMap α Nat) :=
  m.rekeyM fun p => (K.ofSerialisable p.1).map (·, p.2)

theorem intoMap_toSerialisableMap (m : OrderedMap α Nat) :
    intoMap K (toSerialisableMap K m) = some m :=
  OrderedMap.rekeyM_rekey (fun p => by simp [K.of_into]) (fun _ _ h => K.injective h) m

def map (K : Keys α) : Codec where
  Carrier := OrderedMap α Nat
  encode m := .map (toSerialisableMap K m)
  decode
    | .map m => orPanic (intoMap K m)
    | _ => .error .invalid
  decode_encode m := congrArg orPanic (intoMap_toSerialisableMap K m)

variable (L : Keys β)

def toSerialisableMapMap (m : OrderedMap α (OrderedMap β Nat)) :
    OrderedMap SerialisableType (OrderedMap SerialisableType Nat) :=
  m.rekey fun p => (K.intoSerialisable p.1, toSerialisableMap L p.2)

def intoMapMap
    (m : OrderedMap SerialisableType (OrderedMap SerialisableType Nat)) :
    Option (OrderedMap α (OrderedMap β Nat)) :=
  m.rekeyM fun p => do
    let key ← K.ofSerialisable p.1
    let inner ← intoMap L p.2
    some (key, inner)

theorem intoMapMap_toSerialisableMapMap
    (m : OrderedMap α (OrderedMap β Nat)) :
    intoMapMap K L (toSerialisableMapMap K L m) = some m :=
  OrderedMap.rekeyM_rekey (fun p => by simp [K.of_into, intoMap_toSerialisableMap])
    (fun _ _ h => K.injective h) m

def mapMap (K : Keys α) (L : Keys β) : Codec where
  Carrier := OrderedMap α (OrderedMap β Nat)
  encode m := .mapMap (toSerialisableMapMap K L m)
  decode
    | .mapMap m => orPanic (intoMapMap K L m)
    | _ => .error .invalid
  decode_encode m := congrArg orPanic (intoMapMap_toSerialisableMapMap K L m)

def toSerialisableMapMapMap (M : Keys γ)
    (m : OrderedMap α (OrderedMap β (OrderedMap γ Nat))) : OrderedMap SerialisableType
      (OrderedMap SerialisableType (OrderedMap SerialisableType Nat)) :=
  m.rekey fun p => (K.intoSerialisable p.1, toSerialisableMapMap L M p.2)

def intoMapMapMap (M : Keys γ) (m : OrderedMap SerialisableType
      (OrderedMap SerialisableType (OrderedMap SerialisableType Nat))) :
    Option (OrderedMap α (OrderedMap β (OrderedMap γ Nat))) :=
  m.rekeyM fun p => do
    let key ← K.ofSerialisable p.1
    let inner ← intoMapMap L M p.2
    some (key, inner)

def mapMapMap (K : Keys α) (L : Keys β) (M : Keys γ) : Codec where
  Carrier := OrderedMap α (OrderedMap β (OrderedMap γ Nat))
  encode m := .mapMapMap (toSerialisableMapMapMap K L M m)
  decode
    | .mapMapMap m => orPanic (intoMapMapMap K L M m)
    | _ => .error .invalid
  decode_encode m := congrArg orPanic (OrderedMap.rekeyM_rekey
    (fun p => by simp [K.of_into, intoMapMap_toSerialisableMapMap]) (fun _ _ h => K.injective h) m)

end Codec

inductive Field
  | statisticsVersion
  | openSequenceNumber
  | lastDurableWriteTotalCount
  | totalCount
  | totalThingCount
  | totalEntityCount
  | totalRelationCount
  | totalAttributeCount
  | totalRoleCount
  | totalHasCount
  | entityCounts
  | relationCounts
  | attributeCounts
  | roleCounts
  | hasAttributeCounts
  | attributeOwnerCounts
  | rolePlayerCounts
  | relationRoleCounts
  | relationRolePlayerCounts
  | playerRoleRelationCounts
  | linksIndexCounts
  deriving DecidableEq

namespace Field

def all : List Field :=
  [statisticsVersion, openSequenceNumber, lastDurableWriteTotalCount, totalCount, totalThingCount,
    totalEntityCount, totalRelationCount, totalAttributeCount, totalRoleCount, totalHasCount,
    entityCounts, relationCounts, attributeCounts, roleCounts, hasAttributeCounts,
    attributeOwnerCounts, rolePlayerCounts, relationRoleCounts, relationRolePlayerCounts,
    playerRoleRelationCounts, linksIndexCounts]

theorem mem_all (f : Field) : f ∈ all := by cases f <;> decide

def codec : Field → Codec
  | entityCounts => .map entityKeys
  | relationCounts => .map relationKeys
  | attributeCounts => .map attributeKeys
  | roleCounts => .map roleKeys
  | hasAttributeCounts => .mapMap objectKeys attributeKeys
  | attributeOwnerCounts => .mapMap attributeKeys objectKeys
  | rolePlayerCounts => .mapMap objectKeys roleKeys
  | relationRoleCounts => .mapMap relationKeys roleKeys
  | relationRolePlayerCounts => .mapMapMap relationKeys roleKeys objectKeys
  | playerRoleRelationCounts => .mapMapMap objectKeys roleKeys relationKeys
  | linksIndexCounts => .mapMap objectKeys objectKeys
  | _ => .number

/-- The field whose slot `visit_map` looks at to see a duplicate. -/
def checked : Field → Field
  | lastDurableWriteTotalCount => totalCount
  | relationRolePlayerCounts => relationRoleCounts
  | playerRoleRelationCounts => relationRoleCounts
  | f => f

def reported : Field → Field
  | totalHasCount => totalRoleCount
  | entityCounts => totalRoleCount
  | f => f

end Field

abbrev Slots := ∀ f : Field, Option f.codec.Carrier

def value (s : Statistics) : ∀ f : Field, f.codec.Carrier
  | .statisticsVersion => s.encodingVersion
  | .openSequenceNumber => s.sequenceNumber
  | .lastDurableWriteTotalCount => s.lastDurableWriteTotalCount
  | .totalCount => s.totalCount
  | .totalThingCount => s.totalThingCount
  | .totalEntityCount => s.totalEntityCount
  | .totalRelationCount => s.totalRelationCount
  | .totalAttributeCount => s.totalAttributeCount
  | .totalRoleCount => s.totalRoleCount
  | .totalHasCount => s.totalHasCount
  | .entityCounts => s.entityCounts
  | .relationCounts => s.relationCounts
  | .attributeCounts => s.attributeCounts
  | .roleCounts => s.roleCounts
  | .hasAttributeCounts => s.hasAttributeCounts
  | .attributeOwnerCounts => s.attributeOwnerCounts
  | .rolePlayerCounts => s.rolePlayerCounts
  | .relationRoleCounts => s.relationRoleCounts
  | .relationRolePlayerCounts => s.relationRolePlayerCounts
  | .playerRoleRelationCounts => s.playerRoleRelationCounts
  | .linksIndexCounts => s.linksIndexCounts

def ofValues (v : ∀ f : Field, f.codec.Carrier) : Statistics where
  encodingVersion := v .statisticsVersion
  sequenceNumber := v .openSequenceNumber
  lastDurableWriteSequenceNumber := v .openSequenceNumber
  lastDurableWriteTotalCount := v .lastDurableWriteTotalCount
  totalCount := v .totalCount
  totalThingCount := v .totalThingCount
  totalEntityCount := v .totalEntityCount
  totalRelationCount := v .totalRelationCount
  totalAttributeCount := v .totalAttributeCount
  totalRoleCount := v .totalRoleCount
  totalHasCount := v .totalHasCount
  entityCounts := v .entityCounts
  relationCounts := v .relationCounts
  attributeCounts := v .attributeCounts
  roleCounts := v .roleCounts
  hasAttributeCounts := v .hasAttributeCounts
  attributeOwnerCounts := v .attributeOwnerCounts
  rolePlayerCounts := v .rolePlayerCounts
  relationRoleCounts := v .relationRoleCounts
  relationRolePlayerCounts := v .relationRolePlayerCounts
  playerRoleRelationCounts := v .playerRoleRelationCounts
  linksIndexCounts := v .linksIndexCounts

def serialize (s : Statistics) : List (Field × Serial) :=
  Field.all.map fun f => (f, f.codec.encode (s.value f))

inductive DeserializeError
  | invalidLength (index : Nat)
  | invalidValue (field : Field)
  | duplicateField (field : Field)
  | missingField (field : Field)

inductive Failure
  | rejected (error : DeserializeError)
  | panicked

def Misread.failure (field : Field) : Misread → Failure
  | invalid => .rejected (.invalidValue field)
  | panicked => .panicked

def readSeq : List Field → Nat → Slots → List Serial → Except Failure Slots
  | [], _, slots, _ => .ok slots
  | _ :: _, i, _, [] => .error (.rejected (.invalidLength i))
  | f :: fields, i, slots, x :: xs =>
    match f.codec.decode x with
    | .error misread => .error (misread.failure f)
    | .ok v => readSeq fields (i + 1) (Function.update slots f (some v)) xs

def visitEntry (slots : Slots) (entry : Field × Serial) : Except Failure Slots :=
  if (slots entry.1.checked).isSome then .error (.rejected (.duplicateField entry.1.reported))
  else
    match entry.1.codec.decode entry.2 with
    | .error misread => .error (misread.failure entry.1)
    | .ok v => .ok (Function.update slots entry.1 (some v))

def readMap : List (Field × Serial) → Slots → Except Failure Slots
  | [], slots => .ok slots
  | entry :: entries, slots =>
    match visitEntry slots entry with
    | .error e => .error e
    | .ok slots => readMap entries slots

def assemble (slots : Slots) : Except Failure Statistics :=
  if h : ∀ f ∈ Field.all, (slots f).isSome then
    .ok (ofValues fun f => (slots f).get (h f f.mem_all))
  else .error (.rejected (.missingField
    ((Field.all.find? fun f => (slots f).isNone).getD .statisticsVersion)))

def noSlots : Slots := fun _ => none

def visitSeq (xs : List Serial) : Except Failure Statistics :=
  match readSeq Field.all 0 noSlots xs with
  | .error e => .error e
  | .ok slots => assemble slots

def visitMap (entries : List (Field × Serial)) : Except Failure Statistics :=
  match readMap entries noSlots with
  | .error e => .error e
  | .ok slots => assemble slots

/-- No field comes after the one whose slot is looked at for it. -/
def InOrder (entries : List (Field × Serial)) : Prop :=
  entries.Pairwise fun a b => a.1 ≠ b.1.checked

def Readable (entries : List (Field × Serial)) : Prop :=
  ∀ entry ∈ entries, (entry.1.codec.decode entry.2).isOk

def Complete (entries : List (Field × Serial)) : Prop := ∀ f, f ∈ entries.map Prod.fst

/-- A value with a key of the wrong kind is come to before anything is wrong with the map. -/
def Panics (entries : List (Field × Serial)) : Prop :=
  ∃ before entry after, entries = before ++ entry :: after ∧ InOrder before ∧ Readable before ∧
    entry.1.checked ∉ before.map Prod.fst ∧ entry.1.codec.decode entry.2 = .error .panicked

section Visitors
variable {s : Statistics} {entries : List (Field × Serial)} {slots slots' : Slots}

theorem ofValues_value_eq_iff :
    ofValues s.value = s ↔ s.lastDurableWriteSequenceNumber = s.sequenceNumber := by
  have heq : ofValues s.value = { s with lastDurableWriteSequenceNumber := s.sequenceNumber } :=
    rfl
  rw [heq]
  constructor
  · exact fun h => (congrArg lastDurableWriteSequenceNumber h).symm
  · exact fun h => (congrArg (fun n => { s with lastDurableWriteSequenceNumber := n }) h).symm

theorem assemble_of_values {v : ∀ f : Field, f.codec.Carrier} (h : ∀ f, slots f = some (v f)) :
    assemble slots = .ok (ofValues v) := by
  obtain rfl : slots = fun f => some (v f) := funext h
  rfl

theorem assemble_ok_iff : (∃ s, assemble slots = .ok s) ↔ ∀ f, (slots f).isSome := by
  unfold assemble
  split_ifs with h
  · exact iff_of_true ⟨_, rfl⟩ fun f => h f f.mem_all
  · exact iff_of_false (by simp) fun hall => h fun f _ => hall f

theorem readSeq_serialize (s : Statistics) (fields : List Field) (i : Nat) (slots : Slots) :
    ∃ slots', readSeq fields i slots (fields.map fun f => f.codec.encode (s.value f)) =
        .ok slots' ∧
      (∀ f ∈ fields, slots' f = some (s.value f)) ∧
      ∀ f ∉ fields, slots' f = slots f := by
  induction fields generalizing i slots with
  | nil => exact ⟨slots, rfl, by simp, fun _ _ => rfl⟩
  | cons f fields ih =>
    obtain ⟨slots', hread, hin, hout⟩ := ih (i + 1) (update slots f (some (s.value f)))
    refine ⟨slots', ?_, fun g hg => ?_, fun g hg => ?_⟩
    · rw [map_cons, readSeq, f.codec.decode_encode]
      exact hread
    · by_cases hmem : g ∈ fields
      · exact hin g hmem
      · obtain rfl : g = f := (mem_cons.mp hg).resolve_right hmem
        rw [hout g hmem, update_self]
    · obtain ⟨hne, hnot⟩ := not_or.mp (mt mem_cons.mpr hg)
      rw [hout g hnot, update_of_ne hne]

theorem visitSeq_serialize (s : Statistics) :
    visitSeq (s.serialize.map Prod.snd) = .ok (ofValues s.value) := by
  obtain ⟨slots, hread, hin, -⟩ := readSeq_serialize s Field.all 0 noSlots
  have hsnd : s.serialize.map Prod.snd = Field.all.map fun f => f.codec.encode (s.value f) := by
    rw [serialize, map_map]
    rfl
  rw [visitSeq, hsnd, hread]
  exact assemble_of_values fun f => hin f f.mem_all

theorem readMap_ok_iff : (∃ slots', readMap entries slots = .ok slots') ↔
    (∀ entry ∈ entries, slots entry.1.checked = none) ∧ InOrder entries ∧ Readable entries := by
  induction entries generalizing slots with
  | nil => simp [readMap, InOrder, Readable]
  | cons entry entries ih =>
    rw [readMap, visitEntry, InOrder, pairwise_cons, Readable, forall_mem_cons, forall_mem_cons]
    cases hslot : slots entry.1.checked with
    | some v => simp
    | none =>
      cases hdecode : entry.1.codec.decode entry.2 with
      | error misread => simp [Except.isOk, Except.toBool]
      | ok v =>
        simp only [Option.isSome_none, Bool.false_eq_true, if_false, ih, Except.isOk, Except.toBool,
          true_and]
        have hupdate : (∀ e ∈ entries, update slots entry.1 (some v) e.1.checked = none) ↔
            (∀ e ∈ entries, slots e.1.checked = none) ∧ ∀ e ∈ entries, entry.1 ≠ e.1.checked := by
          rw [← forall₂_and]
          refine forall₂_congr fun e _ => ?_
          generalize e.1.checked = f
          by_cases heq : entry.1 = f
          · subst heq
            simp
          · simp [update_of_ne (Ne.symm heq), heq]
        rw [hupdate]
        exact ⟨fun ⟨⟨h₁, h₂⟩, h₃, h₄⟩ => ⟨h₁, ⟨h₂, h₃⟩, h₄⟩,
          fun ⟨h₁, ⟨h₂, h₃⟩, h₄⟩ => ⟨⟨h₁, h₂⟩, h₃, h₄⟩⟩

theorem readMap_isSome (h : readMap entries slots = .ok slots') (f : Field) :
    (slots' f).isSome ↔ (slots f).isSome ∨ f ∈ entries.map Prod.fst := by
  induction entries generalizing slots with
  | nil =>
    cases h
    simp
  | cons entry entries ih =>
    rw [readMap] at h
    cases hvisit : visitEntry slots entry with
    | error e => simp [hvisit] at h
    | ok next =>
      rw [hvisit] at h
      unfold visitEntry at hvisit
      split_ifs at hvisit
      cases hdecode : entry.1.codec.decode entry.2 with
      | error misread => simp [hdecode] at hvisit
      | ok v =>
        simp only [hdecode, Except.ok.injEq] at hvisit
        subst hvisit
        rw [ih h, map_cons, mem_cons]
        by_cases heq : f = entry.1
        · subst heq
          simp
        · simp [heq]

theorem readMap_values (hvalues : ∀ entry ∈ entries, entry.2 = entry.1.codec.encode
      (s.value entry.1)) (h : readMap entries slots = .ok slots')
    (hslots : ∀ f v, slots f = some v → v = s.value f) {f : Field} {v : f.codec.Carrier}
    (hf : slots' f = some v) : v = s.value f := by
  induction entries generalizing slots with
  | nil =>
    cases h
    exact hslots f v hf
  | cons entry entries ih =>
    obtain ⟨hentry, hrest⟩ := forall_mem_cons.mp hvalues
    rw [readMap] at h
    unfold visitEntry at h
    rw [hentry, entry.1.codec.decode_encode] at h
    split_ifs at h with hsome
    refine ih hrest h fun g w hw => ?_
    by_cases heq : g = entry.1
    · subst heq
      rw [update_self] at hw
      exact (Option.some.inj hw).symm
    · rw [update_of_ne heq] at hw
      exact hslots g w hw

theorem visitMap_ok_iff : (∃ s, visitMap entries = .ok s) ↔
    InOrder entries ∧ Readable entries ∧ Complete entries := by
  have hread : (∃ slots, readMap entries noSlots = .ok slots) ↔ _ := readMap_ok_iff
  rw [visitMap]
  cases hmap : readMap entries noSlots with
  | error e =>
    rw [hmap] at hread
    simp only [reduceCtorEq, exists_false, false_iff] at hread ⊢
    exact fun h => hread ⟨fun _ _ => rfl, h.1, h.2.1⟩
  | ok slots =>
    obtain ⟨-, horder, hreadable⟩ := hread.mp ⟨slots, hmap⟩
    rw [assemble_ok_iff]
    have hcomplete : (∀ f, (slots f).isSome) ↔ Complete entries :=
      forall_congr' fun f => (readMap_isSome hmap f).trans (by simp [noSlots])
    rw [hcomplete]
    exact ⟨fun h => ⟨horder, hreadable, h⟩, fun h => h.2.2⟩

theorem visitEntry_panics_iff {entry : Field × Serial} :
    visitEntry slots entry = .error .panicked ↔
      slots entry.1.checked = none ∧ entry.1.codec.decode entry.2 = .error .panicked := by
  rw [visitEntry]
  cases slots entry.1.checked with
  | some v => simp
  | none => rcases entry.1.codec.decode entry.2 with (_ | _) | _ <;> simp [Misread.failure]

theorem readMap_panics_iff : readMap entries slots = .error .panicked ↔
    ∃ before entry after next, entries = before ++ entry :: after ∧
      readMap before slots = .ok next ∧ visitEntry next entry = .error .panicked := by
  induction entries generalizing slots with
  | nil => simp [readMap]
  | cons first entries ih =>
    rw [readMap]
    constructor
    · intro h
      cases hvisit : visitEntry slots first with
      | error e =>
        rw [hvisit] at h
        cases h
        exact ⟨[], first, entries, slots, rfl, rfl, hvisit⟩
      | ok next =>
        rw [hvisit] at h
        obtain ⟨before, entry, after, last, rfl, hread, hpanic⟩ := ih.mp h
        exact ⟨first :: before, entry, after, last, rfl, by rw [readMap, hvisit]; exact hread,
          hpanic⟩
    · rintro ⟨before, entry, after, last, heq, hread, hpanic⟩
      cases before with
      | nil =>
        cases heq
        cases hread
        rw [hpanic]
      | cons b before =>
        cases heq
        rw [readMap] at hread
        cases hvisit : visitEntry slots first with
        | error e => simp [hvisit] at hread
        | ok next =>
          rw [hvisit] at hread
          exact ih.mpr ⟨before, entry, after, last, rfl, hread, hpanic⟩

theorem visitMap_panics_iff : visitMap entries = .error .panicked ↔ Panics entries := by
  have hassemble : ∀ slots, assemble slots ≠ .error .panicked := by
    intro slots
    unfold assemble
    split_ifs <;> simp
  have hread : visitMap entries = .error .panicked ↔
      readMap entries noSlots = .error .panicked := by
    rw [visitMap]
    cases readMap entries noSlots with
    | error e => simp
    | ok slots => simp [hassemble slots]
  rw [hread, readMap_panics_iff, Panics]
  refine exists₃_congr fun before entry after => ?_
  simp only [exists_and_left, visitEntry_panics_iff]
  refine and_congr_right fun _ => ?_
  constructor
  · rintro ⟨next, hnext, hslot, hdecode⟩
    obtain ⟨-, horder, hreadable⟩ := readMap_ok_iff.mp ⟨next, hnext⟩
    refine ⟨horder, hreadable, fun hmem => ?_, hdecode⟩
    have := (readMap_isSome hnext entry.1.checked).mpr (.inr hmem)
    simp [hslot] at this
  · rintro ⟨horder, hreadable, hnot, hdecode⟩
    obtain ⟨next, hnext⟩ : ∃ next, readMap before noSlots = .ok next :=
      readMap_ok_iff.mpr ⟨fun _ _ => rfl, horder, hreadable⟩
    refine ⟨next, hnext, ?_, hdecode⟩
    have := (readMap_isSome hnext entry.1.checked).not.mpr (by simpa [noSlots] using hnot)
    simpa using this

/-- Every field once, in any order: what is accepted is the record but for one number. -/
theorem visitMap_perm (hperm : entries.Perm s.serialize) (horder : InOrder entries) :
    visitMap entries = .ok (ofValues s.value) := by
  have hvalues : ∀ entry ∈ entries, entry.2 = entry.1.codec.encode (s.value entry.1) := by
    intro entry hentry
    obtain ⟨f, -, rfl⟩ := mem_map.mp (hperm.subset hentry)
    rfl
  have hreadable : Readable entries := by
    intro entry hentry
    rw [hvalues entry hentry, entry.1.codec.decode_encode]
    rfl
  have hcomplete : Complete entries := by
    intro f
    have hmem : (f, f.codec.encode (s.value f)) ∈ s.serialize :=
      mem_map_of_mem f.mem_all
    exact mem_map_of_mem (hperm.symm.subset hmem)
  obtain ⟨slots, hmap⟩ : ∃ slots, readMap entries noSlots = .ok slots :=
    readMap_ok_iff.mpr ⟨fun _ _ => rfl, horder, hreadable⟩
  rw [visitMap, hmap]
  refine assemble_of_values fun f => ?_
  obtain ⟨v, hv⟩ := Option.isSome_iff_exists.mp
    ((readMap_isSome hmap f).mpr (.inr (hcomplete f)))
  rw [hv, readMap_values hvalues hmap (fun _ _ h => by cases h) hv]

def RoundTrips (s : Statistics) (entries : List (Field × Serial)) : Prop :=
  visitSeq (s.serialize.map Prod.snd) = .ok s ∧
    (entries.Perm s.serialize → visitMap entries = .ok s) ∧
    (¬ (entries.map Prod.fst).Nodup → ∃ e, visitMap entries = .error (.rejected e))

theorem codec_roundTrips_iff (s : Statistics) (entries : List (Field × Serial)) :
    s.RoundTrips entries ↔ s.lastDurableWriteSequenceNumber = s.sequenceNumber ∧
      (entries.Perm s.serialize → InOrder entries) ∧
      (¬ (entries.map Prod.fst).Nodup →
        ¬ (InOrder entries ∧ Readable entries ∧ Complete entries) ∧ ¬ Panics entries) := by
  have hrejected : (∃ e, visitMap entries = .error (.rejected e)) ↔
      ¬ (InOrder entries ∧ Readable entries ∧ Complete entries) ∧ ¬ Panics entries := by
    rw [← visitMap_ok_iff, ← visitMap_panics_iff]
    rcases visitMap entries with (_ | _) | _ <;> simp
  rw [RoundTrips, visitSeq_serialize, Except.ok.injEq, ofValues_value_eq_iff, hrejected]
  refine and_congr_right fun hsame => and_congr_left fun _ => forall_congr' fun hperm => ?_
  constructor
  · exact fun h => (visitMap_ok_iff.mp ⟨s, h⟩).1
  · intro horder
    rw [visitMap_perm hperm horder, ofValues_value_eq_iff.mpr hsame]

end Visitors

def repeated : List (Field × Serial) :=
  (.lastDurableWriteTotalCount, .number 7) :: (.lastDurableWriteTotalCount, .number 0) ::
    ((new 0).serialize.filter fun entry =>
      decide (entry.1 ≠ .lastDurableWriteTotalCount)).reverse

def wrongKind : Serial := .map (OrderedMap.empty.insert (.role 0) 1)

/-- The record was not written since its sequence number moved on; a map in the order of the fields
is taken for one with duplicates, one with a duplicate is accepted, and one with a duplicate and a
key of the wrong kind panics. -/
theorem codec_not_roundTrips :
    visitSeq (((new 0).reset 1).serialize.map Prod.snd) ≠ .ok ((new 0).reset 1) ∧
      visitMap (new 0).serialize ≠ .ok (new 0) ∧
      (¬ (repeated.map Prod.fst).Nodup ∧ ∃ s, visitMap repeated = .ok s) ∧
      visitMap [(.entityCounts, wrongKind), (.entityCounts, wrongKind)] = .error .panicked := by
  refine ⟨?_, fun h => ?_, ⟨by decide, ?_⟩, rfl⟩
  · rw [visitSeq_serialize, ne_eq, Except.ok.injEq, ofValues_value_eq_iff]
    decide
  · exact absurd (visitMap_ok_iff.mp ⟨_, h⟩).1 (by unfold InOrder; decide)
  · refine visitMap_ok_iff.mpr ⟨by unfold InOrder; decide, by unfold Readable; decide, fun f => ?_⟩
    cases f <;> decide

end TypeDB.Concept.Statistics
