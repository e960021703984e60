import Mathlib.Data.List.Lex
import TypeDB.Encoding.VertexGenerator
import TypeDB.Storage.Operations

/-! The keys under which things are stored: vertices, the edges between them, the orders of lists,
and the keys that are only locked. The bytes are left out; keys are ordered field by field. -/

namespace TypeDB.Concept
open Encoding (ObjectKind ObjectVertex TypeID)

structure ObjectType where
  kind : ObjectKind
  typeId : TypeID
  deriving DecidableEq

abbrev AttributeType := TypeID
abbrev RoleType := TypeID

def vertexType (v : ObjectVertex) : ObjectType := ⟨v.kind, v.typeId⟩

inductive ValueTypeCategory
  | boolean
  | integer
  | double
  | decimal
  | date
  | dateTime
  | dateTimeTZ
  | duration
  | string
  | struct
  deriving DecidableEq

def ValueTypeCategory.isShort : ValueTypeCategory → Bool
  | .boolean | .integer | .double | .date | .struct => true
  | _ => false

structure Value where
  category : ValueTypeCategory
  bytes : List Nat
  deriving DecidableEq

/-- An attribute is known by its type and its value: the id holds the value, or a hash of it that
stands for it. -/
structure AttributeVertex where
  typeId : AttributeType
  value : Value
  deriving DecidableEq

inductive StoredValue
  | bytes (bytes : List Nat)
  | count (count : Nat)
  | attributes (attributes : List AttributeVertex)
  | players (players : List ObjectVertex)
  deriving DecidableEq

def StoredValue.empty : StoredValue := .bytes []

def AttributeVertex.storedValue (a : AttributeVertex) : StoredValue :=
  match a.value.category with
  | .string | .struct => .bytes a.value.bytes
  | _ => .empty

inductive CapabilityKind
  | owns
  | plays
  | relates
  deriving DecidableEq

inductive Key
  | object (v : ObjectVertex)
  | attr (a : AttributeVertex)
  | has (owner : ObjectVertex) (attr : AttributeVertex)
  | hasReverse (attr : AttributeVertex) (owner : ObjectVertex)
  | links (relation player : ObjectVertex) (role : RoleType)
  | linksReverse (player relation : ObjectVertex) (role : RoleType)
  | indexedRelation (start stop relation : ObjectVertex) (startRole stopRole : RoleType)
  | hasOrder (owner : ObjectVertex) (attributeType : AttributeType)
  | linksOrder (relation : ObjectVertex) (role : RoleType)
  | hashLock (attributeType : AttributeType) (value : Value)
  | uniqueLock (attributeType : AttributeType) (value : Value) (owner : ObjectVertex)
      (ownerType : ObjectType)
  | cardinalityLock (object : ObjectVertex) (kind : CapabilityKind) (interface : TypeID)

namespace Key

def objectCode (v : ObjectVertex) : List Nat :=
  [match v.kind with | .entity => 0 | .relation => 1, v.typeId.val, v.objectId.val]

def categoryCode : ValueTypeCategory → Nat
  | .boolean => 0
  | .integer => 1
  | .double => 2
  | .decimal => 3
  | .date => 4
  | .dateTime => 5
  | .dateTimeTZ => 6
  | .duration => 7
  | .string => 8
  | .struct => 9

def kindCode : CapabilityKind → Nat
  | .owns => 0
  | .plays => 1
  | .relates => 2

def code : Key → List (List Nat)
  | object v => [[0], objectCode v]
  | attr a => [[1], [a.typeId.val, categoryCode a.value.category], a.value.bytes]
  | has o a =>
    [[2], objectCode o, [a.typeId.val, categoryCode a.value.category], a.value.bytes]
  | hasReverse a o =>
    [[3], [a.typeId.val, categoryCode a.value.category], a.value.bytes, objectCode o]
  | links r p role => [[4], objectCode r, objectCode p, [role.val]]
  | linksReverse p r role => [[5], objectCode p, objectCode r, [role.val]]
  | indexedRelation p q r role role' =>
    [[6], objectCode p, objectCode q, objectCode r, [role.val, role'.val]]
  | hasOrder o t => [[7], objectCode o, [t.val]]
  | linksOrder r role => [[8], objectCode r, [role.val]]
  | hashLock t v => [[9], [t.val, categoryCode v.category], v.bytes]
  | uniqueLock t v o ot =>
    [[10], [t.val, categoryCode v.category], v.bytes, objectCode o,
      [match ot.kind with | .entity => 0 | .relation => 1, ot.typeId.val]]
  | cardinalityLock o kind i => [[11], objectCode o, [kindCode kind, i.val]]

theorem objectCode_injective {v w : ObjectVertex} (h : objectCode v = objectCode w) : v = w := by
  obtain ⟨kind, typeId, objectId⟩ := v
  obtain ⟨kind', typeId', objectId'⟩ := w
  simp only [objectCode, List.cons.injEq, and_true] at h
  obtain ⟨hkind, htype, hid⟩ := h
  have : kind = kind' := by
    revert hkind
    cases kind <;> cases kind' <;> simp
  rw [this, Fin.ext htype, Fin.ext hid]

theorem categoryCode_injective {c d : ValueTypeCategory} (h : categoryCode c = categoryCode d) :
    c = d := by
  revert h
  cases c <;> cases d <;> decide

theorem kindCode_injective {c d : CapabilityKind} (h : kindCode c = kindCode d) : c = d := by
  revert h
  cases c <;> cases d <;> decide

theorem code_injective : Function.Injective code := by
  have hattr : ∀ {a b : AttributeVertex}, a.typeId.val = b.typeId.val →
      categoryCode a.value.category = categoryCode b.value.category →
      a.value.bytes = b.value.bytes → a = b := by
    rintro ⟨t, c, bs⟩ ⟨t', c', bs'⟩ ht hc hb
    obtain rfl : t = t' := Fin.ext ht
    obtain rfl : c = c' := categoryCode_injective hc
    obtain rfl : bs = bs' := hb
    rfl
  have hval : ∀ {a b : Value}, categoryCode a.category = categoryCode b.category →
      a.bytes = b.bytes → a = b := by
    rintro ⟨c, bs⟩ ⟨c', bs'⟩ hc hb
    obtain rfl : c = c' := categoryCode_injective hc
    obtain rfl : bs = bs' := hb
    rfl
  have htype : ∀ {s t : ObjectType}, (match s.kind with | .entity => 0 | .relation => 1) =
      (match t.kind with | .entity => 0 | .relation => 1) → s.typeId.val = t.typeId.val →
      s = t := by
    rintro ⟨k, t⟩ ⟨k', t'⟩ hk ht
    obtain rfl : t = t' := Fin.ext ht
    revert hk
    cases k <;> cases k' <;> simp
  intro k l h
  cases k <;> cases l <;>
    first
    | exact absurd (List.cons.inj (List.cons.inj h).1).1 (by decide)
    | simp only [code, List.cons.injEq, and_true, true_and, and_assoc] at h
  case object.object => rw [objectCode_injective h]
  case attr.attr => rw [hattr h.1 h.2.1 h.2.2]
  case has.has => rw [objectCode_injective h.1, hattr h.2.1 h.2.2.1 h.2.2.2]
  case hasReverse.hasReverse => rw [objectCode_injective h.2.2.2, hattr h.1 h.2.1 h.2.2.1]
  case links.links =>
    rw [objectCode_injective h.1, objectCode_injective h.2.1, Fin.ext h.2.2]
  case linksReverse.linksReverse =>
    rw [objectCode_injective h.1, objectCode_injective h.2.1, Fin.ext h.2.2]
  case indexedRelation.indexedRelation =>
    rw [objectCode_injective h.1, objectCode_injective h.2.1, objectCode_injective h.2.2.1,
      Fin.ext h.2.2.2.1, Fin.ext h.2.2.2.2]
  case hasOrder.hasOrder => rw [objectCode_injective h.1, Fin.ext h.2]
  case linksOrder.linksOrder => rw [objectCode_injective h.1, Fin.ext h.2]
  case hashLock.hashLock => rw [Fin.ext h.1, hval h.2.1 h.2.2]
  case uniqueLock.uniqueLock =>
    rw [Fin.ext h.1, hval h.2.1 h.2.2.1, objectCode_injective h.2.2.2.1,
      htype h.2.2.2.2.1 h.2.2.2.2.2]
  case cardinalityLock.cardinalityLock =>
    rw [objectCode_injective h.1, kindCode_injective h.2.1, Fin.ext h.2.2]

instance : LinearOrder Key := LinearOrder.lift' code code_injective

end Key
end TypeDB.Concept
