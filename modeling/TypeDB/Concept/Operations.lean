import TypeDB.Foundations.Programs
import TypeDB.Concept.ThingManager

/-! What a transaction can ask of the thing manager. An operation checks what it is given as it
goes, and keeps what it has written when a check fails. -/

namespace TypeDB.Concept
open Encoding (ObjectVertex)
open Programs

abbrev Relation := {v : ObjectVertex // v.kind = .relation}

inductive ConceptWriteError
  | objectTypeConstraintViolated (type : ObjectType)
  | attributeTypeConstraintViolated (type : AttributeType)
  | attributeTypeHasNoValueType (type : AttributeType) (provided : Value)
  | valueTypeMismatchWithAttributeType (type : AttributeType) (expected : ValueTypeCategory)
      (provided : Value)
  | setHasOnDeletedOwner (owner : ObjectVertex)
  | unsetHasOnDeletedOwner (owner : ObjectVertex)
  | setHasDeletedAttribute (owner : ObjectVertex) (type : AttributeType)
  | cannotHaveOwnerInstanceForNotOwnedAttributeType (owner : ObjectType) (type : AttributeType)
  | setHasUnorderedOwnsOrdered
  | unsetHasUnorderedOwnsOrdered
  | setHasOrderedOwnsUnordered
  | unsetHasOrderedOwnsUnordered
  | ownsConstraintViolated (owner : ObjectVertex) (type : AttributeType)
  | uniqueValueTaken (owner : ObjectVertex) (type : AttributeType) (value : Value)
  | addPlayerOnDeletedRelation (relation : ObjectVertex)
  | removePlayerOnDeletedRelation (relation : ObjectVertex)
  | addDeletedPlayer (player relation : ObjectVertex)
  | cannotHavePlayerInstanceForNotRelatedRoleType (relation : ObjectType) (role : RoleType)
  | cannotHavePlayerInstanceForNotPlayedRoleType (player : ObjectType) (role : RoleType)
  | relatesConstraintViolated (relation : ObjectVertex) (role : RoleType)
  | playsConstraintViolated (player : ObjectVertex) (role : RoleType)
  | removeDeletedPlayers (player relation : ObjectVertex) (role : RoleType) (decrement : Nat)
  | setPlayersOrderedRoleUnordered
  | internalMissingAttributeValue (attr : AttributeVertex)
  /-- An `unwrap` or `expect` outside of the write buffer. -/
  | unwrapped
  deriving DecidableEq

abbrev Operate := Program ConceptWriteError Snapshot PUnit

def ValueTypeCategory.isTriviallyCastableTo : ValueTypeCategory → ValueTypeCategory → Bool
  | .integer, .double | .integer, .decimal | .decimal, .double | .date, .dateTime => true
  | c, d => decide (c = d)

namespace Context
variable (ctx : Context)

def ownsConstraints (o : ObjectType) (t : AttributeType) :
    List (CapabilityConstraint ObjectType AttributeType) :=
  ctx.schema.owns.getTypeCapabilityConstraints ctx.ownsOrder o t

def playsConstraints (o : ObjectType) (role : RoleType) :
    List (CapabilityConstraint ObjectType RoleType) :=
  ctx.schema.plays.getTypeCapabilityConstraints ctx.playsOrder o role

def relatesConstraints (o : ObjectType) (role : RoleType) :
    List (CapabilityConstraint ObjectType RoleType) :=
  ctx.schema.relates.getTypeCapabilityConstraints ctx.relatesOrder o role

def isOwnsOrdered (o : ObjectType) (t : AttributeType) : Bool :=
  (ctx.schema.owns.capabilityFor o t).any ctx.schema.isOwnsOrdered

end Context

def hasCategory {O I : Type} (constraints : List (CapabilityConstraint O I))
    (category : ConstraintCategory) : Bool :=
  constraints.any fun c => decide (c.category = category)

def acceptsValue {O I : Type} (constraints : List (CapabilityConstraint O I)) (value : Value) :
    Bool :=
  constraints.all fun c => match c.description with
    | .regex accepts | .range accepts | .values accepts => accepts value
    | _ => true

/-- The keys of a `BTreeMap` over attributes. -/
def sortedAttributes (l : List AttributeVertex) : List AttributeVertex :=
  l.dedup.insertionSort fun a b => Key.attr a ≤ Key.attr b

namespace Snapshot
variable (ctx : Context) (s : Snapshot)

def getAttributeWithValue (t : AttributeType) (value : Value) : Option AttributeVertex :=
  if ctx.schema.valueType t = some value.category ∧ s.contains (.attr ⟨t, value⟩) = true then
    some ⟨t, value⟩
  else none

def validateHasUniqueConstraint (owner : ObjectVertex) (a : AttributeVertex) : Bool :=
  match ctx.schema.owns.getConstraintUnique ctx.ownsOrder (vertexType owner) a.typeId with
  | none => true
  | some constraint =>
    let ownerAndSubtypes := ctx.schema.objectTypes.withSubtypes constraint.source.object
    let attributeAndSubtypes := ctx.schema.attributeTypes.withSubtypes constraint.source.interface
    attributeAndSubtypes.all fun t =>
      match s.getAttributeWithValue ctx t a.value with
      | none => true
      | some attr => (s.getOwners attr).all fun p =>
          decide (p.1 = owner) || !decide (vertexType p.1 ∈ ownerAndSubtypes)

/-- `get_has_from_thing_to_type_ordered`: the ids are read back as ids of the type of the list. -/
def getHasOrdered (owner : ObjectVertex) (t : AttributeType) : List AttributeVertex :=
  if (ctx.schema.valueType t).isNone then []
  else
    match s.get (.hasOrder owner t) with
    | some (.attributes attributes) => attributes.map fun a => { a with typeId := t }
    | _ => []

def getPlayersOrdered (relation : ObjectVertex) (role : RoleType) : List ObjectVertex :=
  match s.get (.linksOrder relation role) with
  | some (.players players) => players
  | _ => []

end Snapshot

namespace Operate
variable (ctx : Context)

def createObject (v : ObjectVertex) : Operate := do
  check (fun _ => !ctx.schema.isAbstract (vertexType v))
    (.objectTypeConstraintViolated (vertexType v))
  update fun s => some (s.createObject v)

def validateValueType (a : AttributeVertex) : Operate :=
  match ctx.schema.valueType a.typeId with
  | none => throw (.attributeTypeHasNoValueType a.typeId a.value)
  | some category => check (fun _ => a.value.category.isTriviallyCastableTo category)
      (.valueTypeMismatchWithAttributeType a.typeId category a.value)

/-- The value is the one that the cast to the category of the type gives. -/
def createAttribute (a : AttributeVertex) : Operate := do
  check (fun _ => !ctx.schema.isAttributeTypeAbstract a.typeId)
    (.attributeTypeConstraintViolated a.typeId)
  check (fun _ => ctx.schema.accepts a.typeId a.value) (.attributeTypeConstraintViolated a.typeId)
  validateValueType ctx a
  check (fun _ => decide (ctx.schema.valueType a.typeId = some a.value.category)) .unwrapped
  update fun s => some (s.createAttribute a)

def setHasCount (owner : ObjectVertex) (a : AttributeVertex) (count : Nat) : Operate := do
  validateValueType ctx a
  check (fun s => s.validateHasUniqueConstraint ctx owner a)
    (.uniqueValueTaken owner a.typeId a.value)
  check (fun _ => acceptsValue (ctx.ownsConstraints (vertexType owner) a.typeId) a.value)
    (.ownsConstraintViolated owner a.typeId)
  update fun s =>
    if count = 0 then s.unsetHas owner a else some (s.putHas owner a count)

def validateOwns (o : ObjectType) (t : AttributeType) : Operate :=
  check (fun _ => (ctx.schema.owns.capabilityFor o t).isSome)
    (.cannotHaveOwnerInstanceForNotOwnedAttributeType o t)

def validateOwnsIsNotAbstract (owner : ObjectVertex) (t : AttributeType) : Operate :=
  check (fun _ => !hasCategory (ctx.ownsConstraints (vertexType owner) t) .abstract)
    (.ownsConstraintViolated owner t)

def setHasUnordered (owner : ObjectVertex) (a : AttributeVertex) : Operate := do
  check (fun s => s.contains (.object owner)) (.setHasOnDeletedOwner owner)
  check (fun s => s.contains (.attr a)) (.setHasDeletedAttribute owner a.typeId)
  validateOwns ctx (vertexType owner) a.typeId
  check (fun _ => !ctx.isOwnsOrdered (vertexType owner) a.typeId) .setHasUnorderedOwnsOrdered
  validateOwnsIsNotAbstract ctx owner a.typeId
  setHasCount ctx owner a 1

def unsetHasUnordered (owner : ObjectVertex) (a : AttributeVertex) : Operate := do
  check (fun s => s.contains (.object owner)) (.unsetHasOnDeletedOwner owner)
  validateOwns ctx (vertexType owner) a.typeId
  check (fun _ => !ctx.isOwnsOrdered (vertexType owner) a.typeId) .unsetHasUnorderedOwnsOrdered
  update fun s => s.unsetHas owner a

def setHasOrdered (owner : ObjectVertex) (t : AttributeType) (attributes : List AttributeVertex) :
    Operate := do
  check (fun s => s.contains (.object owner)) (.setHasOnDeletedOwner owner)
  validateOwns ctx (vertexType owner) t
  check (fun _ => ctx.isOwnsOrdered (vertexType owner) t) .setHasOrderedOwnsUnordered
  validateOwnsIsNotAbstract ctx owner t
  attributes.forM fun a =>
    check (fun s => s.contains (.attr a)) (.setHasDeletedAttribute owner a.typeId)
  check (fun _ => !hasCategory (ctx.ownsConstraints (vertexType owner) t) .distinct ||
    decide attributes.Nodup) (.ownsConstraintViolated owner t)
  let old ← read fun s => s.getHasOrdered ctx owner t
  (sortedAttributes old).forM fun a =>
    if a ∈ attributes then pure ⟨⟩ else update fun s => s.unsetHas owner a
  (sortedAttributes attributes).forM fun a => setHasCount ctx owner a (attributes.count a)
  check (fun _ => (ctx.schema.valueType t).isSome) .unwrapped
  update fun s => some ((s.putVal (.hasOrder owner t) (.attributes attributes)).exclusiveLockAdd
    (.hasOrder owner t))

def unsetHasOrdered (owner : ObjectVertex) (t : AttributeType) : Operate := do
  check (fun s => s.contains (.object owner)) (.unsetHasOnDeletedOwner owner)
  validateOwns ctx (vertexType owner) t
  check (fun _ => ctx.isOwnsOrdered (vertexType owner) t) .unsetHasOrderedOwnsUnordered
  let old ← read fun s => s.getHasOrdered ctx owner t
  old.forM fun a => update fun s => s.unsetHas owner a
  update fun s => some (s.delete (.hasOrder owner t))

def validateRelates (relation : Relation) (role : RoleType) : Operate :=
  check (fun _ => (ctx.schema.relates.capabilityFor (vertexType relation) role).isSome)
    (.cannotHavePlayerInstanceForNotRelatedRoleType (vertexType relation) role)

def validatePlays (player : ObjectVertex) (role : RoleType) : Operate :=
  check (fun _ => (ctx.schema.plays.capabilityFor (vertexType player) role).isSome)
    (.cannotHavePlayerInstanceForNotPlayedRoleType (vertexType player) role)

def validateRelatesIsNotAbstract (relation : Relation) (role : RoleType) : Operate :=
  check (fun _ => !hasCategory (ctx.relatesConstraints (vertexType relation) role) .abstract)
    (.relatesConstraintViolated relation role)

def validatePlaysIsNotAbstract (player : ObjectVertex) (role : RoleType) : Operate :=
  check (fun _ => !hasCategory (ctx.playsConstraints (vertexType player) role) .abstract)
    (.playsConstraintViolated player role)

/-- `is_related_role_type_distinct` -/
def isDistinct (relation : Relation) (role : RoleType) : Bool :=
  hasCategory (ctx.relatesConstraints (vertexType relation) role) .distinct

def linksCount (s : Snapshot) (relation player : ObjectVertex) (role : RoleType) : Nat :=
  ((s.get (.links relation player role)).map StoredValue.toCount).getD 0

def incrementLinksCount (relation : Relation) (player : ObjectVertex) (role : RoleType) : Operate :=
  update fun s => s.setLinksCount ctx relation player role (linksCount s relation player role + 1)

def decrementLinksCount (relation : Relation) (player : ObjectVertex) (role : RoleType)
    (decrement : Nat) : Operate := do
  check (fun s => decide (decrement ≤ linksCount s relation player role))
    (.removeDeletedPlayers player relation role decrement)
  check (fun s => s.contains (.links relation player role)) .unwrapped
  update fun s => s.setLinksCount ctx relation player role
    (linksCount s relation player role - decrement)

def addPlayer (relation : Relation) (role : RoleType) (player : ObjectVertex) : Operate := do
  check (fun s => s.contains (.object relation)) (.addPlayerOnDeletedRelation relation)
  check (fun s => s.contains (.object player)) (.addDeletedPlayer player relation)
  validateRelates ctx relation role
  validatePlays ctx player role
  validateRelatesIsNotAbstract ctx relation role
  validatePlaysIsNotAbstract ctx player role
  if isDistinct ctx relation role then update fun s => some (s.putLinks ctx relation player role 1)
  else incrementLinksCount ctx relation player role

def removePlayer (relation : Relation) (role : RoleType) (player : ObjectVertex)
    (deleteCount : Nat) : Operate := do
  check (fun s => s.contains (.object relation)) (.removePlayerOnDeletedRelation relation)
  validateRelates ctx relation role
  validatePlays ctx player role
  validateRelatesIsNotAbstract ctx relation role
  if isDistinct ctx relation role then update fun s => s.unsetLinks ctx relation player role
  else decrementLinksCount ctx relation player role deleteCount

def setPlayersOrdered (relation : Relation) (role : RoleType) (players : List ObjectVertex) :
    Operate := do
  check (fun _ => ctx.schema.isRoleOrdered role) .setPlayersOrderedRoleUnordered
  check (fun s => s.contains (.object relation)) (.addPlayerOnDeletedRelation relation)
  validateRelates ctx relation role
  validateRelatesIsNotAbstract ctx relation role
  players.forM fun player => do
    validatePlays ctx player role
    validatePlaysIsNotAbstract ctx player role
    check (fun s => s.contains (.object player)) (.addDeletedPlayer player relation)
  check (fun _ => !isDistinct ctx relation role || decide players.Nodup)
    (.relatesConstraintViolated relation role)
  let old ← read fun s => s.getPlayersOrdered relation role
  (ctx.objectOrder.iter old.dedup).forM fun player =>
    if player ∈ players then pure ⟨⟩ else update fun s => s.unsetLinks ctx relation player role
  (ctx.objectOrder.iter players.dedup).forM fun player =>
    update fun s => s.setLinksCount ctx relation player role (players.count player)
  update fun s => some ((s.putVal (.linksOrder relation role) (.players players)).exclusiveLockAdd
    (.linksOrder relation role))

def deleteObject (v : ObjectVertex) : Operate :=
  update fun s => match v.kind with
    | .entity => s.deleteEntity ctx v
    | .relation => s.deleteRelation ctx v

end Operate

inductive Operation
  | createObject (v : ObjectVertex)
  | createAttribute (a : AttributeVertex)
  | setHasUnordered (owner : ObjectVertex) (a : AttributeVertex)
  | unsetHasUnordered (owner : ObjectVertex) (a : AttributeVertex)
  | setHasOrdered (owner : ObjectVertex) (t : AttributeType) (attributes : List AttributeVertex)
  | unsetHasOrdered (owner : ObjectVertex) (t : AttributeType)
  | addPlayer (relation : Relation) (role : RoleType) (player : ObjectVertex)
  | removePlayer (relation : Relation) (role : RoleType) (player : ObjectVertex)
      (deleteCount : Nat)
  | setPlayersOrdered (relation : Relation) (role : RoleType) (players : List ObjectVertex)
  | unsetLinks (relation : Relation) (player : ObjectVertex) (role : RoleType)
  | deleteObject (v : ObjectVertex)
  | deleteAttribute (a : AttributeVertex)
  deriving DecidableEq

def Operation.run (ctx : Context) : Operation → Operate
  | .createObject v => Operate.createObject ctx v
  | .createAttribute a => Operate.createAttribute ctx a
  | .setHasUnordered owner a => Operate.setHasUnordered ctx owner a
  | .unsetHasUnordered owner a => Operate.unsetHasUnordered ctx owner a
  | .setHasOrdered owner t attributes => Operate.setHasOrdered ctx owner t attributes
  | .unsetHasOrdered owner t => Operate.unsetHasOrdered ctx owner t
  | .addPlayer relation role player => Operate.addPlayer ctx relation role player
  | .removePlayer relation role player n => Operate.removePlayer ctx relation role player n
  | .setPlayersOrdered relation role players => Operate.setPlayersOrdered ctx relation role players
  | .unsetLinks relation player role => update fun s => s.unsetLinks ctx relation player role
  | .deleteObject v => Operate.deleteObject ctx v
  | .deleteAttribute a => update fun s => s.deleteOwnedAttribute a

end TypeDB.Concept
