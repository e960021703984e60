import TypeDB.Concept.Keys
import TypeDB.Foundations.CountTables
import TypeDB.Foundations.Runs

/-! The statistics on things: counts by type that are kept up by the deltas of commits. Five tables
hold projections of the counts of players by relation and role; deleting a type and resetting clear
some of them. -/

namespace TypeDB.Concept
open Option Finset
open Encoding (ObjectKind TypeID)
open CountTables Runs ObjectType

abbrev EntityType := TypeID
abbrev RelationType := TypeID

instance : Fintype ObjectKind := ⟨{.entity, .relation}, fun kind => by cases kind <;> decide⟩

instance : Fintype ObjectType :=
  .ofEquiv (ObjectKind × TypeID)
    ⟨fun p => ⟨p.1, p.2⟩, fun o => (o.kind, o.typeId), fun _ => rfl, fun _ => rfl⟩

def ObjectType.entity (entityType : EntityType) : ObjectType := ⟨.entity, entityType⟩
def ObjectType.relation (relationType : RelationType) : ObjectType := ⟨.relation, relationType⟩

def ObjectType.code : ObjectType → Nat
  | ⟨.entity, typeId⟩ => typeId.val
  | ⟨.relation, typeId⟩ => 65536 + typeId.val

theorem ObjectType.code_injective : Function.Injective code := by
  rintro ⟨_ | _, t⟩ ⟨_ | _, u⟩ h <;> have := t.isLt <;> have := u.isLt <;>
    simp only [code] at h
  · rw [Fin.ext h]
  · omega
  · omega
  · rw [Fin.ext (Nat.add_left_cancel h)]

instance : LinearOrder ObjectType := LinearOrder.lift' code code_injective

/-- The maps are hash maps, whose equality does not see an order. -/
structure Statistics where
  encodingVersion : Nat
  sequenceNumber : Nat
  lastDurableWriteSequenceNumber : Nat
  lastDurableWriteTotalCount : Nat
  totalCount : Nat
  totalThingCount : Nat
  totalEntityCount : Nat
  totalRelationCount : Nat
  totalAttributeCount : Nat
  totalRoleCount : Nat
  totalHasCount : Nat
  entityCounts : OrderedMap EntityType Nat
  relationCounts : OrderedMap RelationType Nat
  attributeCounts : OrderedMap AttributeType Nat
  roleCounts : OrderedMap RoleType Nat
  hasAttributeCounts : OrderedMap ObjectType (OrderedMap AttributeType Nat)
  attributeOwnerCounts : OrderedMap AttributeType (OrderedMap ObjectType Nat)
  rolePlayerCounts : OrderedMap ObjectType (OrderedMap RoleType Nat)
  relationRoleCounts : OrderedMap RelationType (OrderedMap RoleType Nat)
  relationRolePlayerCounts :
    OrderedMap RelationType (OrderedMap RoleType (OrderedMap ObjectType Nat))
  playerRoleRelationCounts :
    OrderedMap ObjectType (OrderedMap RoleType (OrderedMap RelationType Nat))
  linksIndexCounts : OrderedMap ObjectType (OrderedMap ObjectType Nat)

namespace Statistics

def new (sequenceNumber : Nat) : Statistics where
  encodingVersion := 0
  sequenceNumber := sequenceNumber
  lastDurableWriteSequenceNumber := sequenceNumber
  lastDurableWriteTotalCount := 0
  totalCount := 0
  totalThingCount := 0
  totalEntityCount := 0
  totalRelationCount := 0
  totalAttributeCount := 0
  totalRoleCount := 0
  totalHasCount := 0
  entityCounts := .empty
  relationCounts := .empty
  attributeCounts := .empty
  roleCounts := .empty
  hasAttributeCounts := .empty
  attributeOwnerCounts := .empty
  rolePlayerCounts := .empty
  relationRoleCounts := .empty
  relationRolePlayerCounts := .empty
  playerRoleRelationCounts := .empty
  linksIndexCounts := .empty

variable (s : Statistics)

def updateEntities (entityType : EntityType) (delta : Int) :
    Option Statistics := do
  let entityCounts ← bump s.entityCounts entityType delta
  let totalEntityCount ← checkedAddSigned s.totalEntityCount delta
  let totalThingCount ← checkedAddSigned s.totalThingCount delta
  some { s with entityCounts, totalEntityCount, totalThingCount }

variable (relationType : RelationType)

def updateRelations (delta : Int) :
    Option Statistics := do
  let relationCounts ← bump s.relationCounts relationType delta
  let totalRelationCount ← checkedAddSigned s.totalRelationCount delta
  let totalThingCount ← checkedAddSigned s.totalThingCount delta
  some { s with relationCounts, totalRelationCount, totalThingCount }

def updateAttributes (attributeType : AttributeType) (delta : Int) :
    Option Statistics := do
  let attributeCounts ← bump s.attributeCounts attributeType delta
  let totalAttributeCount ← checkedAddSigned s.totalAttributeCount delta
  let totalThingCount ← checkedAddSigned s.totalThingCount delta
  some { s with attributeCounts, totalAttributeCount, totalThingCount }

def updateHas (ownerType : ObjectType) (attributeType : AttributeType)
    (delta : Int) : Option Statistics := do
  let hasAttributeCounts ← bump₂ s.hasAttributeCounts ownerType attributeType delta
  let attributeOwnerCounts ← bump₂ s.attributeOwnerCounts attributeType ownerType delta
  let totalHasCount ← checkedAddSigned s.totalHasCount delta
  some { s with hasAttributeCounts, attributeOwnerCounts, totalHasCount }

def updateRolePlayer (playerType : ObjectType) (roleType : RoleType)
    (relationType : RelationType) (delta : Int) : Option Statistics := do
  let roleCounts ← bump s.roleCounts roleType delta
  let totalRoleCount ← checkedAddSigned s.totalRoleCount delta
  let rolePlayerCounts ← bump₂ s.rolePlayerCounts playerType roleType delta
  let relationRoleCounts ← bump₂ s.relationRoleCounts relationType roleType delta
  let relationRolePlayerCounts ←
    bump₃ s.relationRolePlayerCounts relationType roleType playerType delta
  let playerRoleRelationCounts ←
    bump₃ s.playerRoleRelationCounts playerType roleType relationType delta
  some { s with roleCounts, totalRoleCount, rolePlayerCounts, relationRoleCounts,
                relationRolePlayerCounts, playerRoleRelationCounts }

def updateIndexedPlayer (player₁Type player₂Type : ObjectType) (delta : Int) :
    Option Statistics := do
  let linksIndexCounts ← bump₂ s.linksIndexCounts player₁Type player₂Type delta
  if player₁Type ≠ player₂Type then
    let linksIndexCounts ← bump₂ linksIndexCounts player₂Type player₁Type delta
    some { s with linksIndexCounts }
  else some { s with linksIndexCounts }

def clearObjectType (objectType : ObjectType) : Statistics :=
  { s with
    hasAttributeCounts := s.hasAttributeCounts.erase objectType
    attributeOwnerCounts := dropInner s.attributeOwnerCounts objectType
    rolePlayerCounts := s.rolePlayerCounts.erase objectType
    linksIndexCounts := dropInner (s.linksIndexCounts.erase objectType) objectType }

def deleteEntityType (entityType : EntityType) : Statistics :=
  { s with entityCounts := s.entityCounts.erase entityType }.clearObjectType (.entity entityType)

def deleteRelationType : Statistics :=
  { s with
    relationCounts := s.relationCounts.erase relationType
    relationRoleCounts := s.relationRoleCounts.erase relationType }.clearObjectType
      (.relation relationType)

def deleteAttributeType (attributeType : AttributeType) : Statistics :=
  { s with
    attributeCounts := s.attributeCounts.erase attributeType
    attributeOwnerCounts := s.attributeOwnerCounts.erase attributeType
    hasAttributeCounts := dropInner s.hasAttributeCounts attributeType }

def deleteRoleType (roleType : RoleType) : Statistics :=
  { s with
    roleCounts := s.roleCounts.erase roleType
    rolePlayerCounts := dropInner s.rolePlayerCounts roleType
    relationRoleCounts := dropInner s.relationRoleCounts roleType }

/-- The counts of players by relation and role, and by role and relation, are not cleared. -/
def reset (sequenceNumber : Nat) : Statistics :=
  { new sequenceNumber with
    encodingVersion := s.encodingVersion
    lastDurableWriteSequenceNumber := s.lastDurableWriteSequenceNumber
    lastDurableWriteTotalCount := s.lastDurableWriteTotalCount
    relationRolePlayerCounts := s.relationRolePlayerCounts
    playerRoleRelationCounts := s.playerRoleRelationCounts }

inductive Update
  | entities (entityType : EntityType) (delta : Int)
  | relations (relationType : RelationType) (delta : Int)
  | attributes (attributeType : AttributeType) (delta : Int)
  | has (ownerType : ObjectType) (attributeType : AttributeType) (delta : Int)
  | rolePlayer (playerType : ObjectType) (roleType : RoleType) (relationType : RelationType)
      (delta : Int)
  | indexedPlayer (player₁Type player₂Type : ObjectType) (delta : Int)
  | deleteEntityType (entityType : EntityType)
  | deleteRelationType (relationType : RelationType)
  | deleteAttributeType (attributeType : AttributeType)
  | deleteRoleType (roleType : RoleType)
  | reset (sequenceNumber : Nat)

def apply : Update → Option Statistics
  | .entities entityType delta => s.updateEntities entityType delta
  | .relations relationType delta => s.updateRelations relationType delta
  | .attributes attributeType delta => s.updateAttributes attributeType delta
  | .has ownerType attributeType delta => s.updateHas ownerType attributeType delta
  | .rolePlayer playerType roleType relationType delta =>
    s.updateRolePlayer playerType roleType relationType delta
  | .indexedPlayer player₁Type player₂Type delta =>
    s.updateIndexedPlayer player₁Type player₂Type delta
  | .deleteEntityType entityType => some (s.deleteEntityType entityType)
  | .deleteRelationType relationType => some (s.deleteRelationType relationType)
  | .deleteAttributeType attributeType => some (s.deleteAttributeType attributeType)
  | .deleteRoleType roleType => some (s.deleteRoleType roleType)
  | .reset sequenceNumber => some (s.reset sequenceNumber)

def players (roleType : RoleType)
    (playerType : ObjectType) : Nat :=
  count₃ s.relationRolePlayerCounts relationType roleType playerType

structure Consistent (s : Statistics) : Prop where
  owners : ∀ a o, count₂ s.attributeOwnerCounts a o = count₂ s.hasAttributeCounts o a
  relations : ∀ p x r, count₃ s.playerRoleRelationCounts p x r = s.players r x p
  relationRoles : ∀ r x, count₂ s.relationRoleCounts r x = ∑ p, s.players r x p
  rolePlayers : ∀ p x, count₂ s.rolePlayerCounts p x = ∑ r, s.players r x p
  roles : ∀ x, count s.roleCounts x = ∑ r, ∑ p, s.players r x p

/-- A type that is deleted has no counted players left, and before a reset there are none. -/
def Cleared : Update → Prop
  | .deleteEntityType t => ∀ r x, s.players r x (.entity t) = 0
  | .deleteRelationType t =>
    (∀ x p, s.players t x p = 0) ∧ ∀ r x, s.players r x (.relation t) = 0
  | .deleteRoleType x => ∀ r p, s.players r x p = 0
  | .reset _ => ∀ r x p, s.players r x p = 0
  | _ => True

section Steps
variable {s s' : Statistics}

section Updates
variable (h : s.Consistent)
include h

theorem Consistent.frame (hhas : s'.hasAttributeCounts = s.hasAttributeCounts)
    (howner : s'.attributeOwnerCounts = s.attributeOwnerCounts)
    (hrole : s'.roleCounts = s.roleCounts) (hplayer : s'.rolePlayerCounts = s.rolePlayerCounts)
    (hrelation : s'.relationRoleCounts = s.relationRoleCounts)
    (hthree : s'.relationRolePlayerCounts = s.relationRolePlayerCounts)
    (hthree' : s'.playerRoleRelationCounts = s.playerRoleRelationCounts) : s'.Consistent := by
  obtain ⟨howners, hrelations, hrelationRoles, hrolePlayers, hroles⟩ := h
  constructor <;> simpa only [players, hhas, howner, hrole, hplayer, hrelation, hthree, hthree']

theorem Consistent.updateHas {o : ObjectType} {a : AttributeType} {delta : Int}
    (hstep : s.updateHas o a delta = some s') : s'.Consistent := by
  simp only [Statistics.updateHas, bind_eq_bind, bind_eq_some_iff,
    some.injEq] at hstep
  obtain ⟨has', hhas, owner', howner, total', -, rfl⟩ := hstep
  refine { h with owners := fun a' o' => ?_ }
  have hcount := count₂_bump₂ hhas o' a'
  have hcount' := count₂_bump₂ howner a' o'
  zify
  rw [hcount, hcount', h.owners a' o']
  simp only [and_comm]

theorem Consistent.updateRolePlayer {p : ObjectType} {x : RoleType} {r : RelationType}
    {delta : Int} (hstep : s.updateRolePlayer p x r delta = some s') : s'.Consistent := by
  simp only [Statistics.updateRolePlayer, bind_eq_bind, bind_eq_some_iff,
    some.injEq] at hstep
  obtain ⟨roles', hroles, total', -, rolePlayers', hrolePlayers, relationRoles', hrelationRoles,
    three', hthree, three'', hthree', rfl⟩ := hstep
  have hcount := fun r' x' p' => count₃_bump₃ hthree r' x' p'
  -- the sum over the players of one relation type and role
  have hrow : ∀ r' x', ((∑ p', count₃ three' r' x' p' : Nat) : Int) =
      (∑ p', s.players r' x' p' : Nat) + if r' = r ∧ x' = x then delta else 0 := by
    intro r' x'
    refine sum_bump (i := p) fun p' => ?_
    rw [hcount]
    simp only [players, and_assoc]
  constructor
  · exact h.owners
  · intro p' x' r'
    change count₃ three'' p' x' r' = count₃ three' r' x' p'
    zify
    rw [count₃_bump₃ hthree', hcount, h.relations p' x' r', players]
    congr 2
    simp only [and_comm, and_assoc]
  · intro r' x'
    change count₂ relationRoles' r' x' = ∑ p', count₃ three' r' x' p'
    zify
    rw [count₂_bump₂ hrelationRoles, h.relationRoles, ← Nat.cast_sum, hrow]
  · intro p' x'
    change count₂ rolePlayers' p' x' = ∑ r', count₃ three' r' x' p'
    zify
    rw [count₂_bump₂ hrolePlayers, h.rolePlayers, ← Nat.cast_sum]
    refine (sum_bump (i := r) fun r' => ?_).symm
    rw [hcount]
    simp only [players, and_comm]
  · intro x'
    change count roles' x' = ∑ r', ∑ p', count₃ three' r' x' p'
    zify
    rw [count_bump hroles, h.roles]
    simp only [← Nat.cast_sum]
    refine (sum_bump (i := r) fun r' => ?_).symm
    rw [hrow]
    simp only [and_comm]

theorem Consistent.clearObjectType {o : ObjectType} (ho : ∀ r x, s.players r x o = 0) :
    (s.clearObjectType o).Consistent := by
  constructor
  · intro a o'
    change count₂ (dropInner s.attributeOwnerCounts o) a o' =
      count₂ (s.hasAttributeCounts.erase o) o' a
    rw [count₂_dropInner, count₂_erase, h.owners]
  · exact h.relations
  · exact h.relationRoles
  · intro p x
    change count₂ (s.rolePlayerCounts.erase o) p x = ∑ r, s.players r x p
    rw [count₂_erase]
    split_ifs with hp
    · subst hp
      exact (sum_eq_zero fun r _ => ho r x).symm
    · exact h.rolePlayers p x
  · exact h.roles

theorem Consistent.deleteEntityType {t : EntityType} (ht : ∀ r x, s.players r x (.entity t) = 0) :
    (s.deleteEntityType t).Consistent := by
  have hframe : ({ s with entityCounts := s.entityCounts.erase t } : Statistics).Consistent :=
    h.frame rfl rfl rfl rfl rfl rfl rfl
  exact hframe.clearObjectType ht

theorem Consistent.deleteRelationType {t : RelationType} (ht : ∀ x p, s.players t x p = 0)
    (ht' : ∀ r x, s.players r x (.relation t) = 0) : (s.deleteRelationType t).Consistent := by
  have hrelation : ({ s with
      relationCounts := s.relationCounts.erase t
      relationRoleCounts := s.relationRoleCounts.erase t } : Statistics).Consistent := by
    refine ⟨h.owners, h.relations, fun r x => ?_, h.rolePlayers, h.roles⟩
    change count₂ (s.relationRoleCounts.erase t) r x = ∑ p, s.players r x p
    rw [count₂_erase]
    split_ifs with hr
    · subst hr
      exact (sum_eq_zero fun p _ => ht x p).symm
    · exact h.relationRoles r x
  exact hrelation.clearObjectType ht'

theorem Consistent.deleteAttributeType (a : AttributeType) :
    (s.deleteAttributeType a).Consistent := by
  refine { h with owners := fun a' o => ?_ }
  change count₂ (s.attributeOwnerCounts.erase a) a' o =
    count₂ (dropInner s.hasAttributeCounts a) o a'
  rw [count₂_dropInner, count₂_erase, h.owners]

theorem Consistent.deleteRoleType {x : RoleType} (hx : ∀ r p, s.players r x p = 0) :
    (s.deleteRoleType x).Consistent := by
  constructor
  · exact h.owners
  · exact h.relations
  · intro r x'
    change count₂ (dropInner s.relationRoleCounts x) r x' = ∑ p, s.players r x' p
    rw [count₂_dropInner]
    split_ifs with heq
    · subst heq
      exact (sum_eq_zero fun p _ => hx r p).symm
    · exact h.relationRoles r x'
  · intro p x'
    change count₂ (dropInner s.rolePlayerCounts x) p x' = ∑ r, s.players r x' p
    rw [count₂_dropInner]
    split_ifs with heq
    · subst heq
      exact (sum_eq_zero fun r _ => hx r p).symm
    · exact h.rolePlayers p x'
  · intro x'
    change count (s.roleCounts.erase x) x' = ∑ r, ∑ p, s.players r x' p
    rw [count_erase]
    split_ifs with heq
    · subst heq
      exact (sum_eq_zero fun r _ => sum_eq_zero fun p _ => hx r p).symm
    · exact h.roles x'

theorem Consistent.reset (hs : ∀ r x p, s.players r x p = 0) (n : Nat) :
    (s.reset n).Consistent := by
  have hzero : ∀ r x p, (s.reset n).players r x p = 0 := hs
  constructor
  · exact fun a o => rfl
  · exact h.relations
  · exact fun r x => (sum_eq_zero fun p _ => hzero r x p).symm
  · exact fun p x => (sum_eq_zero fun r _ => hzero r x p).symm
  · exact fun x =>
      (sum_eq_zero fun r _ => sum_eq_zero fun p _ => hzero r x p).symm

theorem Consistent.apply {update : Update} (hcleared : s.Cleared update)
    (hstep : s.apply update = some s') : s'.Consistent := by
  cases update with
  | entities t delta =>
    simp only [Statistics.apply, updateEntities, bind_eq_bind, bind_eq_some_iff,
      some.injEq] at hstep
    obtain ⟨counts, -, entities, -, things, -, rfl⟩ := hstep
    exact h.frame rfl rfl rfl rfl rfl rfl rfl
  | relations t delta =>
    simp only [Statistics.apply, updateRelations, bind_eq_bind, bind_eq_some_iff,
      some.injEq] at hstep
    obtain ⟨counts, -, relations, -, things, -, rfl⟩ := hstep
    exact h.frame rfl rfl rfl rfl rfl rfl rfl
  | attributes t delta =>
    simp only [Statistics.apply, updateAttributes, bind_eq_bind, bind_eq_some_iff,
      some.injEq] at hstep
    obtain ⟨counts, -, attributes, -, things, -, rfl⟩ := hstep
    exact h.frame rfl rfl rfl rfl rfl rfl rfl
  | has o a delta => exact h.updateHas hstep
  | rolePlayer p x r delta => exact h.updateRolePlayer hstep
  | indexedPlayer p₁ p₂ delta =>
    obtain ⟨links, -, hstep⟩ := bind_eq_some_iff.mp hstep
    split_ifs at hstep
    · obtain ⟨links', -, hstep⟩ := bind_eq_some_iff.mp hstep
      cases hstep
      exact h.frame rfl rfl rfl rfl rfl rfl rfl
    · cases hstep
      exact h.frame rfl rfl rfl rfl rfl rfl rfl
  | deleteEntityType t =>
    cases hstep
    exact h.deleteEntityType hcleared
  | deleteRelationType t =>
    cases hstep
    exact h.deleteRelationType hcleared.1 hcleared.2
  | deleteAttributeType a =>
    cases hstep
    exact h.deleteAttributeType a
  | deleteRoleType x =>
    cases hstep
    exact h.deleteRoleType hcleared
  | reset n =>
    cases hstep
    exact h.reset hcleared n

end Updates

theorem consistent_new (n : Nat) : (new n).Consistent := by
  have hzero : ∀ r x p, (new n).players r x p = 0 := fun r x p => rfl
  exact ⟨fun a o => rfl, fun p x r => rfl, fun r x => (sum_eq_zero fun p _ => hzero r x p).symm,
    fun p x => (sum_eq_zero fun r _ => hzero r x p).symm,
    fun x => (sum_eq_zero fun r _ => sum_eq_zero fun p _ => hzero r x p).symm⟩

/-- The tables agree along every run in which types are deleted, and the statistics reset, only
once no players of theirs are counted. -/
theorem tables_consistent_of_reach {n : Nat} (h : Reach Statistics.apply Cleared (new n) s) :
    s.Consistent :=
  h.invariant (consistent_new n) fun _ _ _ hc hcleared hs => hc.apply hcleared hs

end Steps

section Leftover

/-- Players are counted for a relation type, a role and a type of players that `p` holds of. -/
def counts (s : Statistics) (p : RelationType → RoleType → ObjectType → Bool) : Bool :=
  s.relationRolePlayerCounts.entries.any fun r => r.2.entries.any fun x =>
    x.2.entries.any fun o => p r.1 x.1 o.1 && o.2 != 0

def cleared (s : Statistics) : Update → Bool
  | .deleteEntityType t => !s.counts fun _ _ p => decide (p = .entity t)
  | .deleteRelationType t => !s.counts fun r _ p => decide (r = t) || decide (p = .relation t)
  | .deleteRoleType x => !s.counts fun _ y _ => decide (y = x)
  | .reset _ => !s.counts fun _ _ _ => true
  | _ => true

theorem players_eq_zero {s : Statistics} {p : RelationType → RoleType → ObjectType → Bool}
    (h : s.counts p = false) {r : RelationType} {x : RoleType} {o : ObjectType}
    (hp : p r x o = true) : s.players r x o = 0 := by
  by_contra hne
  obtain ⟨q, hq, q', hq', q'', hq'', rfl, rfl, rfl, hcount⟩ := exists_of_count₃_ne_zero hne
  simp only [counts, List.any_eq_false, List.any_eq_true, not_exists, not_and] at h
  exact h q hq q' hq' q'' hq'' (by simpa [hp] using hcount)

theorem cleared_ok (s : Statistics) (update : Update) (h : s.cleared update = true) :
    s.Cleared update := by
  cases update with
  | deleteEntityType t => exact fun r x => players_eq_zero (by simpa [cleared] using h) (by simp)
  | deleteRelationType t =>
    have h : s.counts (fun r _ p => decide (r = t) || decide (p = .relation t)) = false := by
      simpa [cleared] using h
    exact ⟨fun x p => players_eq_zero h (by simp), fun r x => players_eq_zero h (by simp)⟩
  | deleteRoleType x => exact fun r p => players_eq_zero (by simpa [cleared] using h) (by simp)
  | reset n => exact fun r x p => players_eq_zero (by simpa [cleared] using h) rfl
  | _ => trivial

/-- Two types play roles; the first stops, and it is deleted with its role and relation. -/
def playsAndStops : List Update :=
  [.has (.entity 0) 3 2, .rolePlayer (.entity 0) 2 1 1, .rolePlayer (.entity 4) 5 6 1,
    .rolePlayer (.entity 0) 2 1 (-1), .deleteRoleType 2, .deleteRelationType 1, .deleteEntityType 0]

theorem playsAndStops_run : (runIf apply cleared (new 0) playsAndStops).isSome := by decide

theorem playsAndStops_consistent :
    ((runIf apply cleared (new 0) playsAndStops).get playsAndStops_run).Consistent := by
  have hrun : runIf apply cleared (new 0) playsAndStops = some _ :=
    (some_get playsAndStops_run).symm
  exact tables_consistent_of_reach (reach_of_runIf cleared_ok hrun)

def playsThenReset : List Update := [.rolePlayer (.entity 0) 2 1 1, .reset 0]

theorem playsThenReset_run : (run apply (new 0) playsThenReset).isSome := by decide

def playsThenResetEnd : Statistics := (run apply (new 0) playsThenReset).get playsThenReset_run

/-- The player is still counted for the relation and role, which have no players. -/
theorem playsThenReset_not_consistent :
    Reaches apply (new 0) playsThenResetEnd ∧ ¬ playsThenResetEnd.Consistent := by
  refine ⟨reaches_of_run (some_get playsThenReset_run).symm, fun h => ?_⟩
  have hrole : count₂ playsThenResetEnd.relationRoleCounts 1 2 = 0 := by decide
  have hsum := h.relationRoles 1 2
  rw [hrole, eq_comm, sum_eq_zero_iff] at hsum
  exact absurd (hsum (.entity 0) (mem_univ _)) (by decide)

end Leftover

end Statistics

end TypeDB.Concept
