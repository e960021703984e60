import TypeDB.Concept.Transactions

/-! Unique ownership within one transaction. One unique constraint is kept for an owner type and an
attribute type, and only its scope is looked through. That covers the scopes of all that apply if
the one with the topmost attribute type is also declared at the topmost owner type. -/

namespace TypeDB.Concept
open List Capabilities Hierarchy
open Encoding (ObjectVertex)
open Programs

namespace Schema
variable {schema : Schema} {U : Capability ObjectType AttributeType} {o : ObjectType}
  {t : AttributeType}

def UniqueOwns (schema : Schema) (U : Capability ObjectType AttributeType) : Prop :=
  U.interface ∈ schema.ownsDeclared U.object ∧
    ∃ c ∈ schema.owns.getCapabilityConstraints U, c.category = .unique

structure Covers (schema : Schema) (U : Capability ObjectType AttributeType) (o : ObjectVertex)
    (a : AttributeVertex) : Prop where
  owner : vertexType o ∈ schema.objectTypes.withSubtypes U.object
  owned : a.typeId ∈ schema.attributeTypes.withSubtypes U.interface

/-- No two owners in the scope of one unique owns hold equal values. -/
def UniqueHolds (schema : Schema) (view : Key → Option StoredValue) : Prop :=
  ∀ U o o' a a', schema.UniqueOwns U → schema.Covers U o a → schema.Covers U o' a' →
    a.value = a'.value → (view (.has o a)).isSome → (view (.has o' a')).isSome → o = o'

def ValuesTyped (schema : Schema) (view : Key → Option StoredValue) : Prop :=
  ∀ a, (view (.attr a)).isSome → schema.valueType a.typeId = some a.value.category

structure UniqueApplies (schema : Schema) (U : Capability ObjectType AttributeType) (o : ObjectType)
    (t : AttributeType) : Prop where
  unique : schema.UniqueOwns U
  object : U.object ∈ schema.objectTypes.chain o
  interface : U.interface ∈ schema.attributeTypes.chain t

/-- Wherever unique owns apply together, one whose attribute type is above those of all the others
is declared by an owner type that is above theirs as well. -/
def UniquesNested (schema : Schema) : Prop :=
  ∀ o t U V, schema.owns.Has o t → schema.UniqueApplies U o t → schema.UniqueApplies V o t →
    (∀ W, schema.UniqueApplies W o t → U.interface ∈ schema.attributeTypes.chain W.interface) →
    U.object ∈ schema.objectTypes.chain V.object

theorem uniqueApplies_of_mem {order : HashOrder (Capability ObjectType AttributeType)}
    {c : CapabilityConstraint ObjectType AttributeType} (hc : c ∈ schema.owns.uniques order o t) :
    schema.UniqueApplies c.source o t := by
  obtain ⟨haffecting, hmem, hunique⟩ := mem_uniques.mp hc
  obtain ⟨hobject, hdeclared, hinterface⟩ := mem_affecting.mp haffecting
  exact ⟨⟨hdeclared, c, hmem, hunique⟩, hobject, hinterface⟩

theorem UniqueApplies.exists_mem (h : schema.UniqueApplies U o t)
    (order : HashOrder (Capability ObjectType AttributeType)) :
    ∃ c ∈ schema.owns.uniques order o t, c.source = U := by
  obtain ⟨⟨hdeclared, c, hmem, hunique⟩, hobject, hinterface⟩ := h
  have hsource := source_of_mem hmem
  refine ⟨c, mem_uniques.mpr ⟨?_, hsource.symm ▸ hmem, hunique⟩, hsource⟩
  exact mem_affecting.mpr (hsource.symm ▸ ⟨hobject, hdeclared, hinterface⟩)

theorem UniquesNested.kept (h : schema.UniquesNested) (hhas : schema.owns.Has o t)
    (order : HashOrder (Capability ObjectType AttributeType)) (hU : schema.UniqueApplies U o t) :
    ∃ c ∈ schema.owns.uniques order o t, schema.owns.getConstraintUnique order o t = some c ∧
      ∀ V, schema.UniqueApplies V o t → c.source.object ∈ schema.objectTypes.chain V.object ∧
        c.source.interface ∈ schema.attributeTypes.chain V.interface := by
  obtain ⟨d, hd, -⟩ := hU.exists_mem order
  obtain ⟨c, hc, hkept, htop⟩ := getConstraintUnique_spec hhas hd
  have htopmost : ∀ W, schema.UniqueApplies W o t →
      c.source.interface ∈ schema.attributeTypes.chain W.interface := by
    intro W hW
    obtain ⟨e, he, rfl⟩ := hW.exists_mem order
    exact htop e he
  exact ⟨c, hc, hkept, fun V hV =>
    ⟨h o t c.source V hhas (uniqueApplies_of_mem hc) hV htopmost, htopmost V hV⟩⟩

theorem UniquesNested.order_irrelevant (h : schema.UniquesNested)
    (order order' : HashOrder (Capability ObjectType AttributeType)) (o : ObjectType)
    (t : AttributeType) :
    schema.owns.getConstraintUnique order o t = schema.owns.getConstraintUnique order' o t := by
  by_cases hhas : schema.owns.Has o t
  swap
  · rw [getConstraintUnique, getConstraintUnique, getTypeCapabilityConstraints_of_not_has hhas,
      getTypeCapabilityConstraints_of_not_has hhas]
  have hsome : ∀ {order order' c}, schema.owns.getConstraintUnique order o t = some c →
      schema.owns.getConstraintUnique order' o t = some c := by
    intro order order' c hc
    have happlies := uniqueApplies_of_mem (mem_of_getConstraintUnique hc).2
    obtain ⟨d, hd, hkept, habove⟩ := h.kept hhas order' happlies
    obtain ⟨c', hc', hkept', habove'⟩ := h.kept hhas order happlies
    obtain rfl := Option.some.inj (hkept'.symm.trans hc)
    have hd' := uniqueApplies_of_mem hd
    have hsource : d.source = c'.source := by
      obtain ⟨hobject, hinterface⟩ := habove _ happlies
      obtain ⟨hobject', hinterface'⟩ := habove' _ hd'
      exact Capability.ext (chain_antisymm hobject hobject')
        (chain_antisymm hinterface hinterface')
    rw [hkept, eq_of_unique (mem_uniques.mp hd).2.2 (mem_uniques.mp hc').2.2 hsource]
  cases hc : schema.owns.getConstraintUnique order o t with
  | some c => exact (hsome hc).symm
  | none =>
    cases hc' : schema.owns.getConstraintUnique order' o t with
    | none => rfl
    | some c => exact absurd (hc.symm.trans (hsome hc')) (by rintro ⟨⟩)

end Schema

namespace Snapshot
variable {s t : Snapshot} {ctx : Context} {T : Terms} {schema : Schema}

/-- The check at the time of the operation finds every other owner in a scope that applies. -/
theorem eq_of_validated {U : Capability ObjectType AttributeType} {o o' : ObjectVertex}
    {a a' : AttributeVertex} (h : s.Ok) (hnested : ctx.schema.UniquesNested)
    (hvalues : ctx.schema.ValuesTyped s.get)
    (hvalid : s.validateHasUniqueConstraint ctx o a = true)
    (hhas : ctx.schema.owns.Has (vertexType o) a.typeId) (hU : ctx.schema.UniqueOwns U)
    (ho : ctx.schema.Covers U o a) (ho' : ctx.schema.Covers U o' a') (hvalue : a.value = a'.value)
    (he : (s.get (.has o' a')).isSome) : o' = o := by
  have happlies : ctx.schema.UniqueApplies U (vertexType o) a.typeId :=
    ⟨hU, mem_withSubtypes.mp ho.owner, mem_withSubtypes.mp ho.owned⟩
  obtain ⟨c, hc, hkept, habove⟩ := hnested.kept hhas ctx.ownsOrder happlies
  obtain ⟨hobject, hinterface⟩ := habove U happlies
  have hattr : (s.get (.attr a')).isSome := h.target (.has o' a') he
  obtain ⟨value, hvalue'⟩ := Option.isSome_iff_exists.mp he
  have hfound : s.getAttributeWithValue ctx a'.typeId a.value = some a' := by
    rw [hvalue]
    exact if_pos ⟨hvalues a' hattr, hattr⟩
  have howner : (o', value) ∈ s.getOwners a' :=
    mem_getOwners.mpr ((h.get_reverse (.has o' a')).trans hvalue')
  rw [validateHasUniqueConstraint, hkept] at hvalid
  -- the attribute and its owner are both within the scope that is looked through
  have htype := all_eq_true.mp hvalid a'.typeId (mem_withSubtypes.mpr
    (chain_trans (mem_withSubtypes.mp ho'.owned) hinterface))
  rw [hfound] at htype
  have hscope := mem_withSubtypes.mpr
    (chain_trans (mem_withSubtypes.mp ho'.owner) hobject)
  have hother := all_eq_true.mp htype _ howner
  simpa [hscope] using hother

theorem unique_step (h : s.Ok) (hnested : schema.UniquesNested) (hT : T.typed)
    (hctx : ctx.schema = schema) (hstep : Step T ctx s t) (hvalues : schema.ValuesTyped s.get)
    (hunique : schema.UniqueHolds s.get) : schema.ValuesTyped t.get ∧ schema.UniqueHolds t.get := by
  subst hctx
  refine ⟨fun a ha => (step_attribute h hstep ha).elim (hvalues a) id, ?_⟩
  obtain ⟨put, hput, hkept⟩ := step_edges h hstep
  have hbefore : ∀ o a, (t.get (.has o a)).isSome → put ≠ some (.has o a) →
      (s.get (.has o a)).isSome := by
    intro o a he hne
    rcases hkept _ hne with hw | hnone
    · change t.writes.get? (.has o a) = s.writes.get? (.has o a) at hw
      rwa [get_eq, hw, step_storage h hstep, ← get_eq] at he
    · change t.get (.has o a) = none at hnone
      rw [hnone] at he
      cases he
  -- one of the two is put, and was checked against the other
  have hchecked : ∀ {U o o' a a'}, ctx.schema.UniqueOwns U → ctx.schema.Covers U o a →
      ctx.schema.Covers U o' a' → a.value = a'.value → put = some (.has o a) →
      (t.get (.has o' a')).isSome → o = o' := by
    intro U o o' a a' hU ho ho' hvalue hedge he
    by_cases hedge' : put = some (.has o' a')
    · have heq := Option.some.inj (hedge.symm.trans hedge')
      exact (Edge.has.inj heq).1
    · cases hput _ hedge with
      | has _ _ hvalid howned =>
        exact (eq_of_validated h hnested hvalues hvalid (howned hT) hU ho ho' hvalue
          (hbefore o' a' he hedge')).symm
  intro U o o' a a' hU ho ho' hvalue he he'
  by_cases hedge : put = some (.has o a)
  · exact hchecked hU ho ho' hvalue hedge he'
  by_cases hedge' : put = some (.has o' a')
  · exact (hchecked hU ho' ho hvalue.symm hedge' he).symm
  · exact hunique U o o' a a' hU ho ho' hvalue (hbefore o a he hedge) (hbefore o' a' he' hedge')

end Snapshot

theorem Steps.unique {T : Terms} {schema : Schema} {s₀ s : Snapshot} (h : Steps T s₀ s)
    (h₀ : s₀.Ok) (hnested : schema.UniquesNested) (hT : T.typed)
    (hctx : ∀ ctx, T.allows ctx → ctx.schema = schema) (hvalues : schema.ValuesTyped s₀.get)
    (hunique : schema.UniqueHolds s₀.get) :
    schema.ValuesTyped s.get ∧ schema.UniqueHolds s.get := by
  induction h with
  | refl => exact ⟨hvalues, hunique⟩
  | tail hprev hs ih =>
    obtain ⟨ctx, hallows, hs⟩ := hs
    exact Snapshot.unique_step (Steps.ok hprev h₀) hnested hT (hctx ctx hallows) hs ih.1 ih.2

/-- The terms of operations in one schema that give lists of attributes of the type of the list. -/
def Terms.ofSchema (schema : Schema) : Terms where
  allows ctx := ctx.schema = schema
  typed := True
  fresh _ := True
  sets _ _ := True

namespace Snapshot
variable {schema : Schema} {storage : OrderedMap Key StoredValue} {requests : Requests}
  {s : Snapshot}

/-- Whatever a transaction does, unique owns hold after it as they did before, and do not depend on
the order of hash sets. -/
theorem unique_within_transaction (hnested : schema.UniquesNested)
    (hstorage : Consistent storage.get?) (hvalues : schema.ValuesTyped storage.get?)
    (hunique : schema.UniqueHolds storage.get?)
    (hrequests : ∀ request ∈ requests, request.1.schema = schema ∧ request.2.Typed ∧
      ∀ v, request.2.created = some v → storage.get? (.object v) = none)
    (hrun : (opened storage).perform requests = some s) :
    schema.UniqueHolds s.get ∧ ∀ order order' o t,
      schema.owns.getConstraintUnique order o t = schema.owns.getConstraintUnique order' o t := by
  have h₀ := ok_opened hstorage
  have hsteps : Steps (.ofSchema schema) (opened storage) s := by
    refine (Steps.perform .refl h₀ fun request hmem => ?_).of_some hrun
    obtain ⟨hschema, htyped, hnew⟩ := hrequests request hmem
    exact ⟨hschema, fun v hv => ⟨hnew v hv, trivial⟩, fun _ => htyped, fun _ _ _ => trivial⟩
  exact ⟨(hsteps.unique h₀ hnested trivial (fun _ h => h) hvalues hunique).2,
    hnested.order_irrelevant⟩

end Snapshot

def uniqueSchema : Schema :=
  { Schema.empty with
    valueType := fun _ => some .integer
    ownsDeclared := fun _ => [0]
    ownsAnnotations := fun _ => [.unique] }

theorem uniqueSchema_nested : uniqueSchema.UniquesNested := by
  rintro o t U V - ⟨-, hU, -⟩ ⟨-, hV, -⟩ -
  obtain rfl : U.object = o := mem_singleton.mp hU
  obtain hV : V.object = U.object := mem_singleton.mp hV
  exact hV ▸ self_mem_chain

def uniqueRequests : Requests :=
  [.createObject ⟨.entity, 0, 0⟩, .createObject ⟨.entity, 0, 1⟩,
    .createAttribute ⟨0, ⟨.integer, [7]⟩⟩, .createAttribute ⟨0, ⟨.integer, [8]⟩⟩,
    .setHasUnordered ⟨.entity, 0, 0⟩ ⟨0, ⟨.integer, [7]⟩⟩,
    .setHasUnordered ⟨.entity, 0, 1⟩ ⟨0, ⟨.integer, [7]⟩⟩,
    .setHasUnordered ⟨.entity, 0, 1⟩ ⟨0, ⟨.integer, [8]⟩⟩].map (Context.ofSchema uniqueSchema, ·)

def uniqueSnapshot : Snapshot :=
  ((Snapshot.opened .empty).perform uniqueRequests).getD (.opened .empty)

theorem Snapshot.uniqueSnapshot_unique :
    (opened .empty).perform uniqueRequests = some uniqueSnapshot ∧
      (uniqueSnapshot.get (.has ⟨.entity, 0, 0⟩ ⟨0, ⟨.integer, [7]⟩⟩)).isSome = true ∧
      (uniqueSnapshot.get (.has ⟨.entity, 0, 1⟩ ⟨0, ⟨.integer, [8]⟩⟩)).isSome = true ∧
      uniqueSchema.UniqueHolds uniqueSnapshot.get := by
  have hrun : (opened .empty).perform uniqueRequests = some uniqueSnapshot := by decide +kernel
  have hrequests : ∀ request ∈ uniqueRequests, request.1.schema = uniqueSchema ∧
      request.2.Typed ∧ ∀ v, request.2.created = some v →
        (OrderedMap.empty : OrderedMap Key StoredValue).get? (.object v) = none := by
    simp [uniqueRequests, Context.ofSchema, Operation.Typed]
  exact ⟨hrun, by decide +kernel, by decide +kernel,
    (unique_within_transaction uniqueSchema_nested consistent_empty
      (fun _ h => absurd h Bool.false_ne_true)
      (fun _ _ _ _ _ _ _ _ _ h => absurd h Bool.false_ne_true) hrequests hrun).1⟩

def redeclaredSchema : Schema :=
  { uniqueSchema with
    objectTypes :=
      { types := [⟨.entity, 1⟩]
        supertype := fun t => if t = ⟨.entity, 1⟩ then some ⟨.entity, 0⟩ else none
        depth := fun t => if t = ⟨.entity, 1⟩ then 1 else 0
        depth_lt := by
          intro t s h
          split_ifs at h with ht
          obtain rfl := Option.some.inj h
          simp [ht]
        mem_types := by
          intro t s h
          split_ifs at h with ht
          simp [ht] }
    ownsAnnotations := fun owns => if owns.object = ⟨.entity, 1⟩ then [.key] else [.unique] }

def redeclaredRequests : Requests :=
  [.createObject ⟨.entity, 0, 0⟩, .createObject ⟨.entity, 1, 0⟩,
    .createAttribute ⟨0, ⟨.integer, [7]⟩⟩,
    .setHasUnordered ⟨.entity, 0, 0⟩ ⟨0, ⟨.integer, [7]⟩⟩,
    .setHasUnordered ⟨.entity, 1, 0⟩ ⟨0, ⟨.integer, [7]⟩⟩].map (Context.ofSchema redeclaredSchema, ·)

def redeclaredSnapshot : Snapshot :=
  ((Snapshot.opened .empty).perform redeclaredRequests).getD (.opened .empty)

/-- What the subtype redeclares is met first and kept, and the owns of the supertype is not looked
at; met the other way round, it is kept. -/
theorem Snapshot.redeclared_duplicates :
    exec (redeclaredRequests.forM fun request => request.2.run request.1) (opened .empty) =
        some (.ok ⟨⟩, redeclaredSnapshot) ∧
      ¬ redeclaredSchema.UniqueHolds redeclaredSnapshot.get ∧
      ∃ order order' : HashOrder (Capability ObjectType AttributeType),
        redeclaredSchema.owns.getConstraintUnique order ⟨.entity, 1⟩ 0 ≠
          redeclaredSchema.owns.getConstraintUnique order' ⟨.entity, 1⟩ 0 := by
  refine ⟨?_, fun h => ?_, .asListed, ⟨List.reverse, reverse_perm⟩, fun h => ?_⟩
  · decide +kernel
  · have hunique : redeclaredSchema.UniqueOwns ⟨⟨.entity, 0⟩, 0⟩ :=
      ⟨by decide, ⟨.unique, _⟩, mem_cons_self, rfl⟩
    have heq := h ⟨⟨.entity, 0⟩, 0⟩ ⟨.entity, 0, 0⟩ ⟨.entity, 1, 0⟩ ⟨0, ⟨.integer, [7]⟩⟩
      ⟨0, ⟨.integer, [7]⟩⟩ hunique ⟨by decide, by decide⟩ ⟨by decide, by decide⟩ rfl
      (by decide +kernel) (by decide +kernel)
    exact absurd heq (by decide)
  · have hsource := congrArg (Option.map CapabilityConstraint.source) h
    revert hsource
    decide

end TypeDB.Concept
