import TypeDB.Concept.Operations

/-! What is done before a commit: the instances that a transaction may have changed are collected
and their cardinalities checked, relations without players and attributes without owners are
removed, and the locks on which concurrent transactions meet are taken. -/

namespace TypeDB.Concept
open Encoding (ObjectVertex)
open Programs
open Storage (Write)

/-- The writes of a transaction to the edges of one kind of capability: whether each is deleted,
and the edges under which a key or a cardinality is written. -/
structure CapabilityWrites (O I : Type) where
  edges : List (Capability O I × Bool)
  cardinalities : List (Capability O I)

/-- The writes of a transaction to the schema, as far as `finalise` looks at them. Subs are pairs
of a subtype and a supertype, and whether the edge is deleted. The types under `cascade` and
`notIndependent` exist. -/
structure SchemaWrites where
  owns : CapabilityWrites ObjectType AttributeType
  plays : CapabilityWrites ObjectType RoleType
  relates : CapabilityWrites ObjectType RoleType
  attributeSubs : List ((AttributeType × AttributeType) × Bool)
  roleSubs : List ((RoleType × RoleType) × Bool)
  objectSubs : List ((ObjectType × ObjectType) × Bool)
  cascade : List ObjectType
  notIndependent : List AttributeType

def SchemaWrites.none : SchemaWrites := ⟨⟨[], []⟩, ⟨[], []⟩, ⟨[], []⟩, [], [], [], [], []⟩

namespace Capabilities
variable {O I : Type} [DecidableEq O] [DecidableEq I] (caps : Capabilities O I)

def objectTypesFor (i : I) : List O :=
  caps.objects.types.filter fun o => (caps.capabilityFor o i).isSome

/-- `collect_modified_schema_capability_cardinalities` for one kind of capability: new and deleted
capabilities, subs between interfaces, subs between objects, annotations. -/
def collectModified (writes : CapabilityWrites O I) (interfaceSubs : List ((I × I) × Bool))
    (objectSubs : List ((O × O) × Bool)) : List (O × I) :=
  (writes.edges.flatMap fun (c, isDelete) =>
    if isDelete then (caps.interfaces.chain c.interface).map fun i => (c.object, i)
    else [(c.object, c.interface)]) ++
  (interfaceSubs.flatMap fun ((sub, super), isDelete) =>
    if isDelete then (caps.interfaces.chain super).flatMap fun i =>
      (caps.objectTypesFor i).map fun o => (o, i)
    else (caps.objectTypesFor sub).map fun o => (o, sub)) ++
  (objectSubs.flatMap fun ((sub, super), isDelete) =>
    if isDelete then []
    else
      let superInterfaces := (caps.getCapabilities super false).map (·.interface)
      (((caps.getCapabilities sub false).map (·.interface)).filter fun i =>
        superInterfaces.any fun j => decide (j ∈ caps.interfaces.chain i)).map fun i => (sub, i)) ++
  writes.cardinalities.map fun c => (c.object, c.interface)

end Capabilities

def ObjectType.rank (o : ObjectType) : Nat :=
  (match o.kind with | .entity => 0 | .relation => 65536) + o.typeId.val

namespace Key

def asObject : Key → Option ObjectVertex
  | object v => some v
  | _ => none

def asRelation : Key → Option ObjectVertex
  | object v => if v.kind = .relation then some v else none
  | _ => none

def asAttribute : Key → Option AttributeVertex
  | attr a => some a
  | _ => none

def asHas : Key → Option (ObjectVertex × AttributeVertex)
  | has o a => some (o, a)
  | _ => none

def asLinks : Key → Option (ObjectVertex × ObjectVertex × RoleType)
  | links r p role => some (r, p, role)
  | _ => none

end Key

/-- `CardinalityChangeTracker`: the instances to be checked, each with an interface type. -/
structure CardinalityChangeTracker where
  owns : List (ObjectVertex × AttributeType)
  plays : List (ObjectVertex × RoleType)
  relates : List (ObjectVertex × RoleType)
  hasModifiedRelates : Bool

def CapabilityConstraint.cardinality? {O I : Type} (c : CapabilityConstraint O I) :
    Option AnnotationCardinality :=
  match c.description with
  | .cardinality cardinality => some cardinality
  | _ => none

/-- The count satisfies the constraint, if it is a cardinality that is checked at all. -/
def CapabilityConstraint.admits {O I : Type} (c : CapabilityConstraint O I) (count : Nat) : Bool :=
  c.cardinality?.all fun cardinality =>
    !cardinality.requiresValidation || cardinality.valueValid count

namespace Snapshot
variable (ctx : Context) (writes : SchemaWrites) (s : Snapshot)

def objectsInRange (o : ObjectType) : List ObjectVertex :=
  let ranks := (ctx.schema.objectTypes.withSubtypes o).map ObjectType.rank
  ((s.iterate Key.asObject).map (·.1)).filter fun v =>
    ranks.any (fun n => decide (n ≤ (vertexType v).rank)) &&
      ranks.any fun n => decide ((vertexType v).rank ≤ n)

def newObjects : Option (List ObjectVertex) :=
  (s.iterateWrites Key.asObject).foldrM (fun (v, write) found =>
    match write with
    | .insert _ => some (v :: found)
    | .delete => some found
    | .put _ _ => none) []

def modifiedOwns : List (ObjectType × AttributeType) :=
  ctx.schema.owns.collectModified writes.owns writes.attributeSubs writes.objectSubs

def modifiedPlays : List (ObjectType × RoleType) :=
  ctx.schema.plays.collectModified writes.plays writes.roleSubs writes.objectSubs

def modifiedRelates : List (ObjectType × RoleType) :=
  ctx.schema.relates.collectModified writes.relates writes.roleSubs
    (writes.objectSubs.filter fun p => decide (p.1.2.kind = .relation))

def withInterfaces {I : Type} [DecidableEq I] (caps : Capabilities ObjectType I)
    (objects : List ObjectVertex) : List (ObjectVertex × I) :=
  objects.flatMap fun v =>
    (caps.getCapabilities (vertexType v) false).map fun c => (v, c.interface)

def changeTracker : Option CardinalityChangeTracker := do
  let new ← s.newObjects
  let hasWrites := (s.iterateWrites Key.asHas).map (·.1)
  let linksWrites := (s.iterateWrites Key.asLinks).map (·.1)
  return {
    owns := withInterfaces ctx.schema.owns new ++
      ((hasWrites.filter fun (o, _) => s.contains (.object o)).map fun (o, a) => (o, a.typeId)) ++
      (modifiedOwns ctx writes).flatMap fun (o, t) =>
        (s.objectsInRange ctx o).map fun v => (v, t)
    plays := withInterfaces ctx.schema.plays new ++
      ((linksWrites.filter fun (_, p, _) => s.contains (.object p)).map
        fun (_, p, role) => (p, role)) ++
      (modifiedPlays ctx writes).flatMap fun (o, t) =>
        (s.objectsInRange ctx o).map fun v => (v, t)
    relates := withInterfaces ctx.schema.relates
        (new.filter fun v => decide (v.kind = .relation)) ++
      ((linksWrites.filter fun (r, _, _) => s.contains (.object r)).map
        fun (r, _, role) => (r, role)) ++
      (modifiedRelates ctx writes).flatMap fun (o, t) =>
        ((s.objectsInRange ctx o).filter fun v => decide (v.kind = .relation)).map fun v => (v, t)
    hasModifiedRelates := !(modifiedRelates ctx writes).isEmpty }

def ownsCount (o : ObjectVertex) (t : AttributeType) : Nat :=
  (((s.getHas o).filter fun p => decide (p.1.typeId ∈ ctx.schema.attributeTypes.withSubtypes t)).map
    fun p => p.2.toCount).sum

def playsCount (o : ObjectVertex) (role : RoleType) : Nat :=
  (((s.getRelationsRoles o).filter fun p =>
    decide (p.1.2 ∈ ctx.schema.roleTypes.withSubtypes role)).map fun p => p.2.toCount).sum

def relatesCount (r : ObjectVertex) (role : RoleType) : Nat :=
  (((s.getPlayers r).filter fun p =>
    decide (p.1.2 ∈ ctx.schema.roleTypes.withSubtypes role)).map fun p => p.2.toCount).sum

/-- `validate_object_has` of every object collected, an interface type at a time. -/
def ownsErrors (modified : List (ObjectVertex × AttributeType)) : List ConceptWriteError :=
  modified.filterMap fun (o, t) =>
    ((ctx.schema.owns.getConstraintsCardinality ctx.ownsOrder (vertexType o) t).find? fun c =>
      !c.admits (s.ownsCount ctx o c.source.interface)).map fun c =>
        .ownsConstraintViolated o c.source.interface

def playsErrors (modified : List (ObjectVertex × RoleType)) : List ConceptWriteError :=
  modified.filterMap fun (o, role) =>
    ((ctx.schema.plays.getConstraintsCardinality ctx.playsOrder (vertexType o) role).find? fun c =>
      !c.admits (s.playsCount ctx o c.source.interface)).map fun c =>
        .playsConstraintViolated o c.source.interface

def relatesErrors (modified : List (ObjectVertex × RoleType)) : List ConceptWriteError :=
  modified.filterMap fun (r, role) =>
    ((ctx.schema.relates.getConstraintsCardinality ctx.relatesOrder (vertexType r) role).find?
      fun c => !c.admits (s.relatesCount ctx r c.source.interface)).map fun c =>
        .relatesConstraintViolated r c.source.interface

def cardinalityErrors (tracker : CardinalityChangeTracker) : List ConceptWriteError :=
  s.ownsErrors ctx tracker.owns ++ s.playsErrors ctx tracker.plays ++
    s.relatesErrors ctx tracker.relates

def updateRelationIndex (relation : ObjectVertex) (role : RoleType) : Option Snapshot :=
  ((s.getPlayers relation).filter fun p => decide (p.1.2 = role)).foldlM (fun s p =>
    if ctx.schema.typeQualifiesForRelationIndex (vertexType relation) then
      some (s.relationIndexPlayerRegenerate relation p.1.1 role p.2.toCount)
    else s.relationIndexPlayerRemove relation p.1.1 role) s

def updateRelationIndices (tracker : CardinalityChangeTracker) : Option Snapshot :=
  tracker.relates.dedup.foldlM (fun s p => s.updateRelationIndex ctx p.1 p.2) s

/-- `relation` goes if it has no players. -/
def cleanupRelation (relation : ObjectVertex) : Option (Snapshot × Bool) := do
  if ← s.hasPlayers relation then some (s, false)
  else return (← s.deleteRelation ctx relation, true)

def cleanupPass {α : Type} (visit : Snapshot → α → Option (Snapshot × Bool)) (l : List α) :
    Option (Snapshot × Bool) :=
  l.foldlM (fun r x => (visit r.1 x).map fun r' => (r'.1, r.2 || r'.2)) (s, false)

def cleanupUnlinked (relation : ObjectVertex) : Option (Snapshot × Bool) :=
  if s.getStatus (.object relation) = .deleted then some (s, false)
  else do
    if ← s.hasPlayers relation then some (s, false)
    else if ctx.schema.isRelationTypeIndependent (vertexType relation) then some (s, false)
    else return (← s.deleteRelation ctx relation, true)

def unlinkedRelations : List ObjectVertex :=
  ((s.iterateWrites Key.asLinks).filter fun p => decide (p.2 = .delete)).map fun p => p.1.1

def insertedRelations : List ObjectVertex :=
  ((s.iterateWrites Key.asRelation).filter fun p => decide (p.2 ≠ .delete)).map (·.1)

/-- `get_instances_in` -/
def relationsOf (type : ObjectType) : List ObjectVertex :=
  ((s.iterate Key.asRelation).map (·.1)).filter fun v => decide (vertexType v = type)

def cascadeTypes : List ObjectType :=
  writes.cascade.flatMap fun o => ctx.schema.objectTypes.withSubtypes o

def relations : List ObjectVertex := (s.iterate Key.asRelation).map (·.1)

/-- `cleanup_relations`. A loop has a pass for each relation that it deletes, at most, and one in
which it finds none. -/
def cleanupRelations : Option Snapshot := do
  let s ← whileChanged (fun s => s.cleanupPass (cleanupUnlinked ctx) s.unlinkedRelations)
    (s.relations.length + 1) s
  let s ← whileChanged (fun s => s.cleanupPass (cleanupRelation ctx) s.insertedRelations)
    (s.relations.length + 1) s
  whileChanged (fun s => s.cleanupPass (fun s type => s.cleanupPass (cleanupRelation ctx)
    (s.relationsOf type)) (cascadeTypes ctx writes)) (s.relations.length + 1) s

def cleanupUnowned (a : AttributeVertex) : Option Snapshot :=
  if s.getStatus (.attr a) = .deleted then some s
  else if ctx.schema.isAttributeTypeIndependent a.typeId then some s
  else do if ← s.hasOwners a then some s else s.deleteOwnedAttribute a

def cleanupPut (a : AttributeVertex) : Option Snapshot :=
  if ctx.schema.isAttributeTypeIndependent a.typeId then some s
  else do if ← s.hasOwners a then some s else s.unputAttribute a

def cleanupInstances (type : AttributeType) : Option Snapshot :=
  if (ctx.schema.valueType type).isSome ∧ ctx.schema.isAttributeTypeIndependent type = false then
    (((s.iterate Key.asAttribute).map (·.1)).filter fun a => decide (a.typeId = type)).foldlM
      (fun s a => do if ← s.hasOwners a then some s else s.deleteOwnedAttribute a) s
  else some s

def cleanupAttributes : Option Snapshot := do
  let unowned := ((s.iterateWrites Key.asHas).filter fun p => decide (p.2 = .delete)).map (·.1.2)
  let s ← unowned.foldlM (cleanupUnowned ctx) s
  let put := ((s.iterateWrites Key.asAttribute).filter fun p => p.2.isPut).map (·.1)
  let s ← (put.filter fun a => a.value.category.isShort).foldlM (cleanupPut ctx) s
  let s ← (put.filter fun a => !a.value.category.isShort).foldlM (cleanupPut ctx) s
  (writes.notIndependent.flatMap fun t => ctx.schema.attributeTypes.withSubtypes t).foldlM
    (cleanupInstances ctx) s

def lockCardinalities {I : Type} (interface : I → Encoding.TypeID) (kind : CapabilityKind)
    (object : ObjectVertex) (constraints : List (CapabilityConstraint ObjectType I)) : Snapshot :=
  (Capabilities.getCheckedConstraints constraints).foldl (fun s c =>
    s.exclusiveLockAdd (.cardinalityLock object kind (interface c.source.interface))) s

/-- `add_exclusive_lock_for_unique_constraint`; `none` where the value is missing. -/
def lockUnique (owner : ObjectVertex) (a : AttributeVertex) : Option Snapshot :=
  match ctx.schema.owns.getConstraintUnique ctx.ownsOrder (vertexType owner) a.typeId with
  | none => some s
  | some constraint =>
    if (s.getLastExisting (.attr a)).isSome then
      some (s.exclusiveLockAdd (.uniqueLock constraint.source.interface a.value owner
        constraint.source.object))
    else none

def lockHas (owner : ObjectVertex) (t : AttributeType) : Snapshot :=
  s.lockCardinalities id .owns owner
    (ctx.schema.owns.getConstraintsCardinality ctx.ownsOrder (vertexType owner) t)

def lockLinks (relation player : ObjectVertex) (role : RoleType) : Snapshot :=
  (s.lockCardinalities id .plays player
    (ctx.schema.plays.getConstraintsCardinality ctx.playsOrder (vertexType player)
      role)).lockCardinalities id .relates relation
    (ctx.schema.relates.getConstraintsCardinality ctx.relatesOrder (vertexType relation) role)

end Snapshot

abbrev Finalise := Program (List ConceptWriteError) Snapshot PUnit

namespace Finalise
variable (ctx : Context) (writes : SchemaWrites)

/-- One turn of the loop of `create_commit_locks`. -/
def createCommitLock (k : Key) : Finalise :=
  match k with
  | .has owner a => do
    check (fun s => (s.lockUnique ctx owner a).isSome) [.internalMissingAttributeValue a]
    update fun s => s.lockUnique ctx owner a
    update fun s => some (s.lockHas ctx owner a.typeId)
  | .links relation player role => update fun s => some (s.lockLinks ctx relation player role)
  | _ => pure ⟨⟩

def createCommitLocks : Finalise := do
  let keys ← read fun s => s.writes.entries.map (·.1)
  keys.forM (createCommitLock ctx)

def buildTracker : Program (List ConceptWriteError) Snapshot CardinalityChangeTracker :=
  ExceptT.mk fun s => (s.changeTracker ctx writes).map fun tracker => (.ok tracker, s)

def finalise : Finalise := do
  let tracker ← buildTracker ctx writes
  let errors ← read fun s => s.cardinalityErrors ctx tracker
  if errors.isEmpty then
    if !ctx.immutableSchema && tracker.hasModifiedRelates then
      update fun s => s.updateRelationIndices ctx tracker
    update fun s => s.cleanupRelations ctx writes
    update fun s => s.cleanupAttributes ctx writes
    createCommitLocks ctx
  else throw errors

end Finalise
end TypeDB.Concept
