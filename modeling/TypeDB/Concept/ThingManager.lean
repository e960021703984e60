import TypeDB.Concept.Schema
import TypeDB.Concept.Snapshot

/-! The writes of the thing manager: vertices, has and links edges with their reverses, the index
of relations, and deletion. What an iterator goes over is what was there when it was opened. -/

namespace TypeDB.Concept
open Encoding (ObjectVertex)

/-- What an operation reads besides the data. The schema is immutable to a write transaction and
mutable to a schema transaction. -/
structure Context where
  schema : Schema
  immutableSchema : Bool
  ownsOrder : HashOrder (Capability ObjectType AttributeType)
  playsOrder : HashOrder (Capability ObjectType RoleType)
  relatesOrder : HashOrder (Capability ObjectType RoleType)
  objectOrder : HashOrder ObjectVertex

def Context.ofSchema (schema : Schema) : Context :=
  ⟨schema, true, .asListed, .asListed, .asListed, .asListed⟩

def Context.relationIndexAvailable (ctx : Context) (relation : ObjectVertex) : Bool :=
  ctx.immutableSchema && ctx.schema.typeQualifiesForRelationIndex (vertexType relation)

/-- The value with which `unput_attribute` expects an attribute to have been put. -/
def AttributeVertex.unputValue (a : AttributeVertex) : StoredValue :=
  match a.value.category with
  | .string => .bytes a.value.bytes
  | _ => .empty

namespace Key

def hasFrom (owner : ObjectVertex) : Key → Option AttributeVertex
  | has o a => if o = owner then some a else none
  | _ => none

def hasTo (attr : AttributeVertex) : Key → Option ObjectVertex
  | hasReverse a o => if a = attr then some o else none
  | _ => none

def linksFrom (relation : ObjectVertex) : Key → Option (ObjectVertex × RoleType)
  | links r p role => if r = relation then some (p, role) else none
  | _ => none

def linksTo (player : ObjectVertex) : Key → Option (ObjectVertex × RoleType)
  | linksReverse p r role => if p = player then some (r, role) else none
  | _ => none

end Key

namespace Snapshot
variable (ctx : Context) (s : Snapshot)

def getHas (owner : ObjectVertex) : List (AttributeVertex × StoredValue) :=
  s.iterate (Key.hasFrom owner)

def getOwners (attr : AttributeVertex) : List (ObjectVertex × StoredValue) :=
  s.iterate (Key.hasTo attr)

def getPlayers (relation : ObjectVertex) : List ((ObjectVertex × RoleType) × StoredValue) :=
  s.iterate (Key.linksFrom relation)

def getRelationsRoles (player : ObjectVertex) : List ((ObjectVertex × RoleType) × StoredValue) :=
  s.iterate (Key.linksTo player)

def setRequiredObject (v : ObjectVertex) : Snapshot :=
  if s.getStatus (.object v) = .persisted then s.unmodifiableLockAdd (.object v) else s

def setRequiredAttribute (a : AttributeVertex) : Snapshot := s.unmodifiableLockAdd (.attr a)

def createObject (v : ObjectVertex) : Snapshot := s.insert (.object v)

def createAttribute (a : AttributeVertex) : Snapshot :=
  let inline := Encoding.StringAttributeID.inlineOrPrefixedHashLength
  let isHashed := match a.value.category with
    | .string => !decide (a.value.bytes.length ≤ inline)
    | .struct => true
    | _ => false
  let s := if isHashed then s.exclusiveLockAdd (.hashLock a.typeId a.value) else s
  s.putVal (.attr a) a.storedValue

def deleteObject (v : ObjectVertex) : Option Snapshot :=
  let status := s.getStatus (.object v)
  let s := s.unmodifiableLockRemove (.object v)
  match status with
  | .inserted => s.uninsert (.object v)
  | .persisted => some (s.delete (.object v))
  | .deleted => some s
  | .put => none

def unputAttribute (a : AttributeVertex) : Option Snapshot := s.unputVal (.attr a) a.unputValue

def deleteAttribute (a : AttributeVertex) : Option Snapshot :=
  match s.getStatus (.attr a) with
  | .put => do
    let s ← s.unputAttribute a
    if s.contains (.attr a) then some (s.delete (.attr a)) else some s
  | .persisted => some (s.delete (.attr a))
  | .deleted => some s
  | .inserted => none

/-- The value of the put of a key, if there is one, is un-put again. -/
def unputOwn (k : Key) : Option Snapshot :=
  match s.getWrite k with
  | some (.put value _) => s.unputVal k value
  | some (.insert _) => none
  | _ => some s

/-- The first part of `unset_has` and `unset_links`: the reverse is un-put with the value of the
edge. -/
def unputEdge (edge reverse : Key) : Option Snapshot :=
  match s.getWrite edge with
  | some (.put value _) => do
    let s ← s.unputVal edge value
    s.unputVal reverse value
  | some (.insert _) => none
  | _ => some s

/-- `unset_has` and `unset_links`, for an edge out of an object. -/
def unsetEdge (source : ObjectVertex) (edge reverse : Key) : Option Snapshot := do
  let status := s.getStatus (.object source)
  let s ← s.unputEdge edge reverse
  if status ≠ .inserted ∧ s.contains edge = true then some ((s.delete edge).delete reverse)
  else some s

def putEdge (edge reverse : Key) (count : Nat) : Snapshot :=
  (s.putVal edge (.count count)).putVal reverse (.count count)

/-- `set_has_count` after its checks, with a count above zero -/
def putHas (owner : ObjectVertex) (a : AttributeVertex) (count : Nat) : Snapshot :=
  ((s.setRequiredObject owner).setRequiredAttribute a).putEdge (.has owner a) (.hasReverse a owner)
    count

def unsetHas (owner : ObjectVertex) (a : AttributeVertex) : Option Snapshot :=
  s.unsetEdge owner (.has owner a) (.hasReverse a owner)

def relationIndexPlayerRegenerate (relation player : ObjectVertex) (role : RoleType)
    (count : Nat) : Snapshot :=
  (s.getPlayers relation).foldl (fun s rp =>
    let ((rpPlayer, rpRole), rpCount) := rp
    if rpPlayer = player ∧ rpRole = role then
      if 0 < count - 1 then
        s.putVal (.indexedRelation player player relation role role) (.count (count - 1))
      else s
    else
      (s.putVal (.indexedRelation player rpPlayer relation role rpRole)
        (.count rpCount.toCount)).putVal
        (.indexedRelation rpPlayer player relation rpRole role) (.count count)) s

def relationIndexPlayerRemove (relation player : ObjectVertex) (role : RoleType) :
    Option Snapshot :=
  (s.getPlayers relation).foldlM (fun s rp => do
    let ((rpPlayer, rpRole), _) := rp
    let index := .indexedRelation player rpPlayer relation role rpRole
    let indexReverse := .indexedRelation rpPlayer player relation rpRole role
    let s ← s.unputOwn index
    let s ← s.unputOwn indexReverse
    if s.contains index then
      let s := s.delete index
      if rpPlayer = player ∧ rpRole = role then some s else some (s.delete indexReverse)
    else some s) s

/-- `put_links_unordered`, and `set_links_count` with a count above zero -/
def putLinks (relation player : ObjectVertex) (role : RoleType) (count : Nat) : Snapshot :=
  let s := ((s.setRequiredObject relation).setRequiredObject player).putEdge
    (.links relation player role) (.linksReverse player relation role) count
  if ctx.relationIndexAvailable relation then
    s.relationIndexPlayerRegenerate relation player role count
  else s

def unsetLinks (relation player : ObjectVertex) (role : RoleType) : Option Snapshot := do
  let s ← s.unsetEdge relation (.links relation player role) (.linksReverse player relation role)
  if ctx.relationIndexAvailable relation then s.relationIndexPlayerRemove relation player role
  else some s

def setLinksCount (relation player : ObjectVertex) (role : RoleType) (count : Nat) :
    Option Snapshot :=
  if count = 0 then s.unsetLinks ctx relation player role
  else some (s.putLinks ctx relation player role count)

def orderedOwns (o : ObjectType) : List AttributeType :=
  ((ctx.schema.owns.getCapabilities o false).filter ctx.schema.isOwnsOrdered).map (·.interface)

/-- What `delete` of an entity and of a relation do first. -/
def deleteEdges (v : ObjectVertex) : Option Snapshot := do
  let s ← (s.getHas v).foldlM (fun s has => s.unsetHas v has.1) s
  let s := (orderedOwns ctx (vertexType v)).foldl (fun s t => s.delete (.hasOrder v t)) s
  (s.getRelationsRoles v).foldlM (fun s rr => s.unsetLinks ctx rr.1.1 v rr.1.2) s

def deleteEntity (v : ObjectVertex) : Option Snapshot := do
  let s ← s.deleteEdges ctx v
  s.deleteObject v

def deletePlayers (v : ObjectVertex) : Option Snapshot :=
  (s.getPlayers v).foldlM (fun s rp => s.unsetLinks ctx v rp.1.1 rp.1.2) s

def deleteRelation (v : ObjectVertex) : Option Snapshot := do
  let s ← s.deleteEdges ctx v
  let s ← s.deletePlayers ctx v
  s.deleteObject v

def deleteOwnedAttribute (a : AttributeVertex) : Option Snapshot := do
  let s ← (s.getOwners a).foldlM (fun s owner => s.unsetHas owner.1 a) s
  s.deleteAttribute a

def hasPlayers (relation : ObjectVertex) : Option Bool :=
  match s.getStatus (.object relation) with
  | .inserted =>
    some ((s.iterateWrites (Key.linksFrom relation)).any fun p => (writtenValue p.2).isSome)
  | .persisted => some (!(s.getPlayers relation).isEmpty)
  | .put | .deleted => none

def hasOwners (a : AttributeVertex) : Option Bool :=
  match s.getStatus (.attr a) with
  | .put | .persisted => some (!(s.getOwners a).isEmpty)
  | .inserted | .deleted => none

end Snapshot
end TypeDB.Concept
