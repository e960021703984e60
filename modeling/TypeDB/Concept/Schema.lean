import TypeDB.Concept.Capabilities

/-! The schema as the thing manager reads it. -/

namespace TypeDB.Concept

structure Schema where
  objectTypes : Hierarchy ObjectType
  attributeTypes : Hierarchy AttributeType
  roleTypes : Hierarchy RoleType
  isAbstract : ObjectType → Bool
  isAttributeTypeAbstract : AttributeType → Bool
  valueType : AttributeType → Option ValueTypeCategory
  /-- The values that pass the regex, range and values constraints of the attribute type. -/
  accepts : AttributeType → Value → Bool
  isAttributeTypeIndependent : AttributeType → Bool
  isRelationTypeIndependent : ObjectType → Bool
  ownsDeclared : ObjectType → List AttributeType
  ownsAnnotations : Capability ObjectType AttributeType → List Annotation
  isOwnsOrdered : Capability ObjectType AttributeType → Bool
  playsDeclared : ObjectType → List RoleType
  playsAnnotations : Capability ObjectType RoleType → List Annotation
  relatesDeclared : ObjectType → List RoleType
  relatesAnnotations : Capability ObjectType RoleType → List Annotation
  isRelatesImplicit : Capability ObjectType RoleType → Bool
  /-- The relation type whose relates of the role is explicit. -/
  relatesExplicit : RoleType → ObjectType
  isRoleOrdered : RoleType → Bool

namespace Schema

def empty : Schema where
  objectTypes := .flat
  attributeTypes := .flat
  roleTypes := .flat
  isAbstract _ := false
  isAttributeTypeAbstract _ := false
  valueType _ := none
  accepts _ _ := true
  isAttributeTypeIndependent _ := false
  isRelationTypeIndependent _ := false
  ownsDeclared _ := []
  ownsAnnotations _ := []
  isOwnsOrdered _ := false
  playsDeclared _ := []
  playsAnnotations _ := []
  relatesDeclared _ := []
  relatesAnnotations _ := []
  isRelatesImplicit _ := false
  relatesExplicit _ := ⟨.relation, 0⟩
  isRoleOrdered _ := false

variable (schema : Schema)

def defaultCardinality (isOrdered : Bool) : AnnotationCardinality :=
  if isOrdered then ⟨0, none⟩ else ⟨0, some 1⟩

def defaultDistinct (isOrdered : Bool) : List ConstraintDescription :=
  if isOrdered then [] else [.distinct]

def owns : Capabilities ObjectType AttributeType where
  objects := schema.objectTypes
  interfaces := schema.attributeTypes
  declared := schema.ownsDeclared
  annotations := schema.ownsAnnotations
  defaults owns :=
    .cardinality (defaultCardinality (schema.isOwnsOrdered owns)) ::
      defaultDistinct (schema.isOwnsOrdered owns)

def plays : Capabilities ObjectType RoleType where
  objects := schema.objectTypes
  interfaces := schema.roleTypes
  declared := schema.playsDeclared
  annotations := schema.playsAnnotations
  defaults _ := [.cardinality ⟨0, none⟩]

def relates : Capabilities ObjectType RoleType where
  objects := schema.objectTypes
  interfaces := schema.roleTypes
  declared := schema.relatesDeclared
  annotations := schema.relatesAnnotations
  defaults relates :=
    let isOrdered := schema.isRoleOrdered relates.interface
    if schema.isRelatesImplicit relates then defaultDistinct isOrdered
    else .cardinality (defaultCardinality isOrdered) :: defaultDistinct isOrdered

/-- `get_capability_cardinality` of a relates. -/
def relatesCapabilityCardinality (relates : Capability ObjectType RoleType) :
    AnnotationCardinality :=
  let cardinality? := (schema.relates.getCapabilityConstraints relates).findSome? fun c =>
    match c.description with
    | .cardinality cardinality => some cardinality
    | _ => none
  cardinality?.getD .unchecked

def getRelatesCardinality (relates : Capability ObjectType RoleType) : AnnotationCardinality :=
  if schema.isRelatesImplicit relates then
    schema.relatesCapabilityCardinality ⟨schema.relatesExplicit relates.interface, relates.interface⟩
  else schema.relatesCapabilityCardinality relates

def relationIndexThreshold : Nat := 5

/-- Whether the players that the cardinalities allow, taken together, are few enough. -/
def typeQualifiesForRelationIndex (relationType : ObjectType) : Bool :=
  let cards := (schema.relates.getCapabilities relationType false).map
    fun relates => (schema.getRelatesCardinality relates).stop
  cards.all Option.isSome && decide ((cards.map fun stop => stop.getD 0).sum ≤ relationIndexThreshold)

end Schema
end TypeDB.Concept
