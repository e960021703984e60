import Mathlib.Data.String.Basic
import TypeDB.Concept.Keys
import TypeDB.Encoding.SchemaIDAllocator
import TypeDB.Foundations.Tables

/-! The type cache and the function cache of a database, and what it means that they describe the
schema a snapshot reads. Both are filled in one pass over the snapshot; the types and struct
definitions are in arrays by their ids, the rest in hash maps. -/

namespace TypeDB.Database
open TypeDB.Concept List OrderedMap Tables

/-- The scans of `TypeReader` and what it reads of a type, a capability and a struct definition. A
failure is where the source unwraps it. -/
structure TypeReader (S ε ℓ α χ β δ : Type) where
  types : S → Encoding.Kind → List Nat
  readType : S → Encoding.Kind → Nat → Except ε α
  getLabel : α → ℓ
  labelName : ℓ → String
  isIndependent : α → Bool
  capabilities : S → CapabilityKind → List χ
  readCapability : S → CapabilityKind → χ → Except ε β
  structDefinitions : S → List Nat
  readStructDefinition : S → Nat → Except ε δ
  structName : δ → String

variable {S ε ℓ α χ β δ φ ψ τ : Type} [LinearOrder ℓ] [LinearOrder χ]

structure TypeCache (ℓ α χ β δ : Type) [LinearOrder ℓ] [LinearOrder χ] where
  types : Encoding.Kind → List (Option (Nat × α))
  capabilities : CapabilityKind → OrderedMap χ β
  structDefinitions : List (Option (Nat × δ))
  typesIndexLabel : Encoding.Kind → OrderedMap ℓ Nat
  structDefinitionIndexByName : OrderedMap String Nat
  roleTypesByName : OrderedMap String (List Nat)
  independentAttributeTypes : List Nat

/-- `build_label_to_type_index` and `build_name_to_struct_definition_index`. -/
def buildIndex {η γ : Type} [LinearOrder η] (name : γ → η) (l : List (Nat × γ)) :
    OrderedMap η Nat :=
  collect (l.map fun p => (name p.2, p.1))

namespace TypeCache

def new (reader : TypeReader S ε ℓ α χ β δ) (s : S) : Except ε (TypeCache ℓ α χ β δ) := do
  let create kind := readAll (reader.types s kind) (reader.readType s kind)
  let createCapability kind :=
    readAll (reader.capabilities s kind) (reader.readCapability s kind)
  let entityTypes ← create .entity
  let relationTypes ← create .relation
  let roleTypes ← create .role
  let attributeTypes ← create .attribute
  let structDefinitions ← readAll (reader.structDefinitions s) (reader.readStructDefinition s)
  let owns ← createCapability .owns
  let plays ← createCapability .plays
  let relates ← createCapability .relates
  let types : Encoding.Kind → List (Option (Nat × α))
    | .entity => fill entityTypes
    | .relation => fill relationTypes
    | .attribute => fill attributeTypes
    | .role => fill roleTypes
  let typesIndexLabel kind := buildIndex reader.getLabel (types kind).reduceOption
  return {
    types := types
    capabilities := fun
      | .owns => collect owns
      | .plays => collect plays
      | .relates => collect relates
    structDefinitions := fill structDefinitions
    typesIndexLabel := typesIndexLabel
    structDefinitionIndexByName :=
      buildIndex reader.structName (fill structDefinitions).reduceOption
    roleTypesByName := groupBy reader.labelName (typesIndexLabel .role).entries
    independentAttributeTypes :=
      ((types .attribute).reduceOption.filter fun p => reader.isIndependent p.2).map Prod.fst }

variable (cache : TypeCache ℓ α χ β δ)

/-- `get_cache`, which panics where there is none. -/
def getCache (kind : Encoding.Kind) (id : Nat) : Option α :=
  ((cache.types kind)[id]?.join).map Prod.snd

def getStructDefinition (id : Nat) : Option δ :=
  (cache.structDefinitions[id]?.join).map Prod.snd

def getType (kind : Encoding.Kind) (label : ℓ) : Option Nat :=
  (cache.typesIndexLabel kind).get? label

def getRolesByName (name : String) : List Nat := (cache.roleTypesByName.get? name).getD []

end TypeCache

/-- An index has a name exactly if something read has it, and then leads to such a thing. -/
structure Indexes {η γ : Type} (name : γ → η) (Reads : Nat → γ → Prop) (get : η → Option Nat) :
    Prop where
  sound : ∀ n id, get n = some id → ∃ a, Reads id a ∧ name a = n
  complete : ∀ id a, Reads id a → (get (name a)).isSome

namespace TypeReader
variable (reader : TypeReader S ε ℓ α χ β δ) (s : S)

def ReadsType (kind : Encoding.Kind) (id : Nat) (a : α) : Prop :=
  id ∈ reader.types s kind ∧ reader.readType s kind id = .ok a

def ReadsCapability (kind : CapabilityKind) (capability : χ) (b : β) : Prop :=
  capability ∈ reader.capabilities s kind ∧ reader.readCapability s kind capability = .ok b

def ReadsStructDefinition (id : Nat) (d : δ) : Prop :=
  id ∈ reader.structDefinitions s ∧ reader.readStructDefinition s id = .ok d

end TypeReader

/-- What the cache answers is what is read from the snapshot. -/
structure TypeCache.Describes (reader : TypeReader S ε ℓ α χ β δ) (s : S)
    (cache : TypeCache ℓ α χ β δ) : Prop where
  types : ∀ kind id a, cache.getCache kind id = some a ↔ reader.ReadsType s kind id a
  labels : ∀ kind, Indexes reader.getLabel (reader.ReadsType s kind) (cache.getType kind)
  roles : ∀ name id, id ∈ cache.getRolesByName name ↔
    ∃ label, cache.getType .role label = some id ∧ reader.labelName label = name
  independents : ∀ id, id ∈ cache.independentAttributeTypes ↔
    ∃ a, reader.ReadsType s .attribute id a ∧ reader.isIndependent a = true
  capabilities : ∀ kind capability b, (cache.capabilities kind).get? capability = some b ↔
    reader.ReadsCapability s kind capability b
  structDefinitions : ∀ id d, cache.getStructDefinition id = some d ↔
    reader.ReadsStructDefinition s id d
  structNames : Indexes reader.structName (reader.ReadsStructDefinition s)
    cache.structDefinitionIndexByName.get?

section Tables
variable {γ η : Type} [LinearOrder η] {keys : List Nat} {read : Nat → Except ε γ}
  {l : List (Nat × γ)} {name : γ → η}

theorem getElem?_fill_readAll (h : readAll keys read = .ok l) (id : Nat) (a : γ) :
    ((fill l)[id]?.join).map Prod.snd = some a ↔ id ∈ keys ∧ read id = .ok a := by
  rw [Option.map_eq_some_iff, ← mem_readAll (p := (id, a)) h]
  simp only [Option.join_eq_some_iff, getElem?_fill (functional_readAll h)]
  constructor
  · rintro ⟨⟨_, _⟩, ⟨hp, rfl⟩, rfl⟩
    exact hp
  · intro hp
    exact ⟨(id, a), ⟨hp, rfl⟩, rfl⟩

theorem indexes_buildIndex {Reads : Nat → γ → Prop} (h : ∀ p, p ∈ l ↔ Reads p.1 p.2) :
    Indexes name Reads (buildIndex name l).get? := by
  constructor
  · intro n id hget
    obtain ⟨p, hp, heq⟩ := mem_map.mp (mem_of_get?_collect hget)
    cases heq
    exact ⟨p.2, (h p).mp hp, rfl⟩
  · intro id a hread
    exact isSome_get?_collect (mem_map.mpr ⟨(id, a), (h (id, a)).mpr hread, rfl⟩)

theorem indexes_fill (h : readAll keys read = .ok l) :
    Indexes name (fun id a => id ∈ keys ∧ read id = .ok a)
      (buildIndex name (fill l).reduceOption).get? :=
  indexes_buildIndex fun _ => (mem_reduceOption_fill (functional_readAll h)).trans (mem_readAll h)

end Tables

/-- The type cache describes what it was built from. -/
theorem TypeCache.describes_new {reader : TypeReader S ε ℓ α χ β δ} {s : S}
    {cache : TypeCache ℓ α χ β δ} (h : TypeCache.new reader s = .ok cache) :
    cache.Describes reader s := by
  simp only [TypeCache.new, bind_eq_ok_iff] at h
  obtain ⟨entityTypes, hentity, relationTypes, hrelation, roleTypes, hrole, attributeTypes,
    hattribute, structs, hstructs, owns, howns, plays, hplays, relates, hrelates, hcache⟩ := h
  cases hcache
  constructor
  · rintro (_ | _ | _ | _) id a
    · exact getElem?_fill_readAll hentity id a
    · exact getElem?_fill_readAll hrelation id a
    · exact getElem?_fill_readAll hattribute id a
    · exact getElem?_fill_readAll hrole id a
  · rintro (_ | _ | _ | _)
    · exact indexes_fill hentity
    · exact indexes_fill hrelation
    · exact indexes_fill hattribute
    · exact indexes_fill hrole
  · intro name id
    simp only [getRolesByName, getType, mem_groupBy, mem_entries]
  · intro id
    simp [mem_reduceOption_fill (functional_readAll hattribute), mem_readAll hattribute,
      TypeReader.ReadsType]
  · rintro (_ | _ | _) capability b
    · exact (get?_collect (functional_readAll howns)).trans (mem_readAll howns)
    · exact (get?_collect (functional_readAll hplays)).trans (mem_readAll hplays)
    · exact (get?_collect (functional_readAll hrelates)).trans (mem_readAll hrelates)
  · exact getElem?_fill_readAll hstructs
  · exact indexes_fill hstructs

/-- `get_functions_all`, and `translate_functions` with `annotate_stored_functions`. -/
structure FunctionReader (S ε τ φ ψ : Type) where
  functions : S → List Nat
  readFunction : S → Nat → Except ε φ
  getName : φ → String
  annotate : S → τ → OrderedMap String Nat → List (Nat × φ) → Except ε ψ

structure FunctionCache (φ ψ : Type) where
  index : OrderedMap String Nat
  parsedFunctions : OrderedMap Nat φ
  annotatedFunctions : ψ

def FunctionCache.new (reader : FunctionReader S ε τ φ ψ) (s : S) (types : τ) :
    Except ε (FunctionCache φ ψ) := do
  let schemaFunctions ← readAll (reader.functions s) (reader.readFunction s)
  let functionIndex := buildIndex reader.getName schemaFunctions
  let annotatedFunctions ← reader.annotate s types functionIndex schemaFunctions
  return ⟨functionIndex, collect schemaFunctions, annotatedFunctions⟩

def FunctionReader.ReadsFunction (reader : FunctionReader S ε τ φ ψ) (s : S) (id : Nat) (f : φ) :
    Prop :=
  id ∈ reader.functions s ∧ reader.readFunction s id = .ok f

structure FunctionCache.Describes (reader : FunctionReader S ε τ φ ψ) (s : S) (types : τ)
    (cache : FunctionCache φ ψ) : Prop where
  functions : ∀ id f, cache.parsedFunctions.get? id = some f ↔ reader.ReadsFunction s id f
  names : Indexes reader.getName (reader.ReadsFunction s) cache.index.get?
  annotated : ∃ l, (∀ id f, (id, f) ∈ l ↔ reader.ReadsFunction s id f) ∧
    reader.annotate s types cache.index l = .ok cache.annotatedFunctions

theorem FunctionCache.describes_new {reader : FunctionReader S ε τ φ ψ} {s : S} {types : τ}
    {cache : FunctionCache φ ψ} (h : FunctionCache.new reader s types = .ok cache) :
    cache.Describes reader s types := by
  simp only [FunctionCache.new, bind_eq_ok_iff] at h
  obtain ⟨l, hl, annotated, hannotated, hcache⟩ := h
  cases hcache
  exact ⟨fun id f => (get?_collect (functional_readAll hl)).trans (mem_readAll hl),
    indexes_buildIndex fun _ => mem_readAll hl, l, fun id f => mem_readAll hl, hannotated⟩

end TypeDB.Database
