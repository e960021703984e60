import TypeDB.Foundations.Settling
import TypeDB.Concept.Server

/-! Write transactions of the embedded API. `execute` commits what the query has written, where a
server finalises it first, so that the two commit the same exactly when there is nothing to
finalise. -/

namespace TypeDB.Concept
open List Option Snapshot Finalise
open Encoding (ObjectVertex)
open Storage (Write LockType)
open Programs Runs Settling Server Capabilities

/-- `execute_write_query` before it commits. An operation that fails ends the query. -/
def Session.execute (session : Session) (storage : OrderedMap Key StoredValue) :
    Option Snapshot :=
  session.requests.foldlM (fun s request => do
    match ← exec (request.2.run request.1) s with
    | (.ok _, s) => some s
    | (.error _, _) => none) (.opened storage)

/-- `Server.step` with sessions of the embedded API. -/
def Server.stepEmbedded (sv : Server) : Event → Option Server
  | .commit i session =>
    if session.created.Nodup ∧ ∀ v ∈ session.created, v ∉ sv.handedOut then do
      let s ← session.execute (sv.view (sv.db.threads i).openSequenceNumber)
      let db ← sv.db.step (.commit i s.operations)
      some ⟨db, sv.handedOut ++ session.created⟩
    else none
  | event => sv.step event

namespace Snapshot

def unownedAttributes (s : Snapshot) : List AttributeVertex :=
  ((s.iterateWrites Key.asHas).filter fun p => decide (p.2 = .delete)).map (·.1.2)

def putAttributes (s : Snapshot) : List AttributeVertex :=
  ((s.iterateWrites Key.asAttribute).filter fun p => p.2.isPut).map (·.1)

/-- The locks of `create_commit_locks` for a written key; `none` where a value is missing. -/
def commitLocks (ctx : Context) (s : Snapshot) : Key → Option (List Key)
  | .has owner a =>
    let cardinality := (getCheckedConstraints
      (ctx.schema.owns.getConstraintsCardinality ctx.ownsOrder (vertexType owner) a.typeId)).map
        fun c => Key.cardinalityLock owner .owns c.source.interface
    match ctx.schema.owns.getConstraintUnique ctx.ownsOrder (vertexType owner) a.typeId with
    | none => some cardinality
    | some constraint =>
      if (s.getLastExisting (.attr a)).isSome then
        some (.uniqueLock constraint.source.interface a.value owner constraint.source.object ::
          cardinality)
      else none
  | .links relation player role =>
    some (((getCheckedConstraints (ctx.schema.plays.getConstraintsCardinality
        ctx.playsOrder (vertexType player) role)).map fun c =>
          Key.cardinalityLock player .plays c.source.interface) ++
      (getCheckedConstraints (ctx.schema.relates.getConstraintsCardinality
        ctx.relatesOrder (vertexType relation) role)).map fun c =>
          Key.cardinalityLock relation .relates c.source.interface)
  | _ => some []

/-- A relation that lost a player has others, or need not have any. -/
def Linked (ctx : Context) (s : Snapshot) (r : ObjectVertex) : Prop :=
  s.getStatus (.object r) = .deleted ∨ s.hasPlayers r = some true ∨
    s.hasPlayers r = some false ∧ ctx.schema.isRelationTypeIndependent (vertexType r) = true

def Owned (ctx : Context) (s : Snapshot) (a : AttributeVertex) : Prop :=
  ctx.schema.isAttributeTypeIndependent a.typeId = true ∨ s.hasOwners a = some true

instance (ctx : Context) (s : Snapshot) (r : ObjectVertex) : Decidable (s.Linked ctx r) :=
  inferInstanceAs (Decidable (_ ∨ _))

instance (ctx : Context) (s : Snapshot) (a : AttributeVertex) : Decidable (s.Owned ctx a) :=
  inferInstanceAs (Decidable (_ ∨ _))

/-- A transaction that does not write to the schema leaves nothing to finalise. -/
structure Settled (ctx : Context) (s : Snapshot) : Prop where
  cardinalities : ∃ tracker, s.changeTracker ctx .none = some tracker ∧
    s.cardinalityErrors ctx tracker = []
  unlinked : ∀ r ∈ s.unlinkedRelations, s.Linked ctx r
  inserted : ∀ r ∈ s.insertedRelations, s.hasPlayers r = some true
  unowned : ∀ a ∈ s.unownedAttributes, s.getStatus (.attr a) = .deleted ∨ s.Owned ctx a
  put : ∀ a ∈ s.putAttributes, s.Owned ctx a
  locks : ∀ k w, s.writes.get? k = some w → ∃ l, s.commitLocks ctx k = some l ∧
    ∀ lock ∈ l, s.locks.get? lock = some .exclusive

/-- How much of a write there is to take away: a value, then nothing, then a deletion. -/
def writeRank : Option (Write StoredValue) → Nat
  | some .delete => 0
  | none => 1
  | some _ => 2

def presence (s : Snapshot) : Key → Nat
  | .object v => writeRank (s.writes.get? (.object v))
  | .attr a => writeRank (s.writes.get? (.attr a))
  | _ => 0

section Cleanup
variable {ctx : Context} {s t : Snapshot} {v r : ObjectVertex} {a : AttributeVertex}

/-- What takes one vertex away and leaves the others alone is never without effect. -/
theorem settles_of_lowered {o : Option Snapshot} (k : Key) (h : ∀ u, o = some u → u.Ok ∧
      u.presence k < s.presence k ∧
      (∀ v, .object v ≠ k → u.writes.get? (.object v) = s.writes.get? (.object v)) ∧
      ∀ a, .attr a ≠ k → u.writes.get? (.attr a) = s.writes.get? (.attr a)) :
    Settles Ok presence s o False := by
  refine ⟨fun u hu => ?_, False.elim⟩
  obtain ⟨hok, hlt, hobjects, hattributes⟩ := h u hu
  refine ⟨hok, fun k' => ?_, fun hback => absurd (hback k) (not_le.mpr hlt)⟩
  by_cases hk : k' = k
  · exact hk ▸ hlt.le
  cases k' with
  | object v => exact (congrArg writeRank (hobjects v hk)).le
  | attr a => exact (congrArg writeRank (hattributes a hk)).le
  | _ => exact le_rfl

theorem getStatus_of_hasPlayers {b : Bool} (h : s.hasPlayers r = some b) :
    s.getStatus (.object r) = .inserted ∨ s.getStatus (.object r) = .persisted := by
  rw [hasPlayers] at h
  split at h
  next hstatus => exact .inl hstatus
  next hstatus => exact .inr hstatus
  next => cases h
  next => cases h

theorem writeRank_clear_lt {k : Key} (h : s.getStatus k ≠ .deleted) :
    writeRank (if (s.storage.get? k).isSome then some .delete else none) <
      writeRank (s.writes.get? k) := by
  rw [getStatus, getWrite] at h
  cases hw : s.writes.get? k with
  | none =>
    rw [hw] at h
    by_cases hstored : (s.storage.get? k).isSome
    · rw [if_pos hstored]
      decide
    · exact absurd (if_neg hstored) h
  | some w =>
    rw [hw] at h
    cases w with
    | delete => exact absurd rfl h
    | insert value | put value known => split_ifs <;> simp [writeRank]

section
variable (hs : s.Ok)
include hs

theorem Ok.settles_deleteRelation (ctx : Context)
    (hstatus : s.getStatus (.object r) ≠ .deleted) :
    Settles Ok presence s (s.deleteRelation ctx r) False := by
  refine settles_of_lowered (.object r) fun u hu => ?_
  obtain ⟨t, ht, hremoved⟩ := hs.deleteRelation ctx r
  obtain rfl := some.inj (ht.symm.trans hu)
  refine ⟨hremoved.ok, ?_, fun v hv => hremoved.objects v (by simpa using hv),
    fun a _ => hremoved.attributes a⟩
  rw [presence, presence, hremoved.object]
  exact writeRank_clear_lt hstatus

theorem Ok.settles_deleteOwnedAttribute (hstatus : s.getStatus (.attr a) ≠ .deleted) :
    Settles Ok presence s (s.deleteOwnedAttribute a) False := by
  refine settles_of_lowered (.attr a) fun u hu => ?_
  obtain ⟨t, ht, hcleared⟩ := hs.deleteOwners a
  rw [Snapshot.deleteOwnedAttribute, ht] at hu
  obtain rfl := hcleared.ok.eq_of_deleteAttribute hu
  refine ⟨hcleared.ok.clearAttribute fun o => hcleared.get_cleared ⟨o, rfl⟩, ?_, fun v hv => ?_,
    fun b hb => ?_⟩
  · rw [presence, presence, writes_clear, if_pos rfl, hcleared.storage]
    exact writeRank_clear_lt hstatus
  · rw [writes_clear, if_neg hv, hcleared.objects]
  · rw [writes_clear, if_neg hb, hcleared.attributes]

theorem Ok.settles_unputAttribute (howners : s.hasOwners a = some false) :
    Settles Ok presence s (s.unputAttribute a) False := by
  refine settles_of_lowered (.attr a) fun u hu => ?_
  have hput : ∃ value known, s.writes.get? (.attr a) = some (.put value known) := by
    rw [unputAttribute, unputVal, getWrite] at hu
    split at hu
    next value known hw => exact ⟨value, known, hw⟩
    next => cases hu
  obtain ⟨value, known, hw⟩ := hput
  obtain ⟨-, rfl⟩ := eq_of_unputAttribute hu
  refine ⟨hs.unwriteAttribute (hs.get_has_of_hasOwners howners), ?_, fun v hv => ?_, fun b hb => ?_⟩
  · rw [presence, presence, writes_unwrite, if_pos rfl, hw]
    simp [writeRank]
  · rw [writes_unwrite, if_neg hv]
  · rw [writes_unwrite, if_neg hb]

theorem Ok.passes_deleteRelation (ctx : Context)
    (hstatus : s.getStatus (.object r) ≠ .deleted) :
    Passes Ok presence s (do return (← s.deleteRelation ctx r, true)) False := by
  refine ⟨fun t b ht => ?_, False.elim⟩
  obtain ⟨u, hu, heq⟩ := bind_eq_some_iff.mp ht
  obtain ⟨rfl, rfl⟩ := Prod.mk.inj (some.inj heq)
  obtain ⟨hok, hle, hsame⟩ := (hs.settles_deleteRelation ctx hstatus).lowers u hu
  exact ⟨hok, hle, fun hback => (hsame hback).2.elim⟩

theorem Ok.passes_cleanupRelation (ctx : Context) (r : ObjectVertex) :
    Passes Ok presence s (s.cleanupRelation ctx r) (s.hasPlayers r = some true) := by
  rw [cleanupRelation]
  cases hplayers : s.hasPlayers r with
  | none => exact ⟨by rintro _ _ ⟨⟩, by rintro ⟨⟩⟩
  | some b =>
    cases b with
    | true => exact (passes_some hs).iff (by simp)
    | false =>
      refine (hs.passes_deleteRelation ctx ?_).iff (by simp)
      rcases getStatus_of_hasPlayers hplayers with h | h <;> simp [h]

theorem Ok.passes_cleanupUnlinked (ctx : Context) (r : ObjectVertex) :
    Passes Ok presence s (s.cleanupUnlinked ctx r) (s.Linked ctx r) := by
  rw [cleanupUnlinked, Linked]
  by_cases hstatus : s.getStatus (.object r) = .deleted
  · rw [if_pos hstatus]
    exact (passes_some hs).iff (by simp [hstatus])
  rw [if_neg hstatus]
  cases hplayers : s.hasPlayers r with
  | none => exact ⟨by rintro _ _ ⟨⟩, by simp [hstatus]⟩
  | some b =>
    cases b with
    | true => exact (passes_some hs).iff (by simp)
    | false =>
      cases hindependent : ctx.schema.isRelationTypeIndependent (vertexType r) with
      | true => exact (passes_some hs).iff (by simp)
      | false => exact (hs.passes_deleteRelation ctx hstatus).iff (by simp [hstatus])

theorem Ok.settles_cleanupRelations (ctx : Context) :
    Settles Ok presence s (s.cleanupRelations ctx .none)
      ((∀ r ∈ s.unlinkedRelations, s.Linked ctx r) ∧
        ∀ r ∈ s.insertedRelations, s.hasPlayers r = some true) := by
  -- No cascade annotation is written, so that the third loop has nothing to go over.
  have hcascade : ∀ u : Snapshot, u.Ok → Settles Ok presence u (whileChanged (fun s =>
      s.cleanupPass (fun s type => s.cleanupPass (cleanupRelation ctx) (s.relationsOf type))
        (cascadeTypes ctx .none)) (u.relations.length + 1) u) True :=
    fun u hu => settles_whileChanged (fun t ht => passes_some ht) hu _
  rw [cleanupRelations]
  exact ((settles_whileChanged (fun t ht => Passes.foldlM
    (fun u r hu => hu.passes_cleanupUnlinked ctx r) ht t.unlinkedRelations) hs _).bind
    fun t ht => (settles_whileChanged (fun t ht => Passes.foldlM
      (fun u r hu => hu.passes_cleanupRelation ctx r) ht t.insertedRelations) ht _).bind
      hcascade).iff (and_congr_right fun _ => by simp)

theorem Ok.settles_cleanupUnowned (ctx : Context) (a : AttributeVertex) :
    Settles Ok presence s (s.cleanupUnowned ctx a)
      (s.getStatus (.attr a) = .deleted ∨ s.Owned ctx a) := by
  rw [cleanupUnowned, Owned]
  split_ifs with hstatus hindependent
  · exact (settles_some hs).iff (by simp [hstatus])
  · exact (settles_some hs).iff (by simp [hindependent])
  cases howners : s.hasOwners a with
  | none => exact ⟨by rintro _ ⟨⟩, by simp [hstatus, hindependent]⟩
  | some b =>
    cases b with
    | true => exact (settles_some hs).iff (by simp)
    | false => exact (hs.settles_deleteOwnedAttribute hstatus).iff (by simp [hstatus, hindependent])

theorem Ok.settles_cleanupPut (ctx : Context) (a : AttributeVertex) :
    Settles Ok presence s (s.cleanupPut ctx a) (s.Owned ctx a) := by
  rw [cleanupPut, Owned]
  split_ifs with hindependent
  · exact (settles_some hs).iff (by simp [hindependent])
  cases howners : s.hasOwners a with
  | none => exact ⟨by rintro _ ⟨⟩, by simp [hindependent]⟩
  | some b =>
    cases b with
    | true => exact (settles_some hs).iff (by simp)
    | false => exact (hs.settles_unputAttribute howners).iff (by simp [hindependent])

theorem Ok.settles_cleanupAttributes (ctx : Context) :
    Settles Ok presence s (s.cleanupAttributes ctx .none)
      ((∀ a ∈ s.unownedAttributes, s.getStatus (.attr a) = .deleted ∨ s.Owned ctx a) ∧
        ∀ a ∈ s.putAttributes, s.Owned ctx a) := by
  have hput : ∀ t : Snapshot, t.Ok → Settles Ok presence t
      (((t.putAttributes.filter fun a => a.value.category.isShort).foldlM (cleanupPut ctx) t).bind
        fun u => ((t.putAttributes.filter fun a => !a.value.category.isShort).foldlM
          (cleanupPut ctx) u).bind some)
      (∀ a ∈ t.putAttributes, t.Owned ctx a) := by
    intro t ht
    refine ((settles_foldlM (fun u a hu => hu.settles_cleanupPut ctx a) ht _).bind fun u hu =>
      (settles_foldlM (fun u a hu => hu.settles_cleanupPut ctx a) hu _).bind
        fun u hu => settles_some hu).iff ?_
    simp only [and_true, mem_filter]
    constructor
    · rintro ⟨hshort, hlong⟩ a ha
      cases h : a.value.category.isShort with
      | true => exact hshort a ⟨ha, h⟩
      | false => exact hlong a ⟨ha, by simp [h]⟩
    · exact fun h => ⟨fun a ha => h a ha.1, fun a ha => h a ha.1⟩
  exact (settles_foldlM (fun u a hu => hu.settles_cleanupUnowned ctx a) hs _).bind hput

end

end Cleanup

section Locks
variable {ctx : Context} {s t : Snapshot} {k : Key}

theorem commitLocks_congr (hwrites : t.writes = s.writes) (hstorage : t.storage = s.storage)
    (ctx : Context) (k : Key) : t.commitLocks ctx k = s.commitLocks ctx k := by
  have hlast : ∀ k, t.getLastExisting k = s.getLastExisting k := fun k => by
    rw [getLastExisting, getLastExisting, getWrite, getWrite, hwrites, hstorage]
  cases k with
  | has owner a => simp only [commitLocks, hlast]
  | _ => rfl

theorem lockAdd_of_locked (h : s.locks.get? k = some .exclusive) : s.exclusiveLockAdd k = s := by
  refine ext_get? rfl (fun _ => rfl) fun k' => ?_
  rw [exclusiveLockAdd, locks_lockAdd]
  split_ifs with hk
  · rw [hk, h]
  · rfl

theorem foldl_exclusiveLockAdd (l : List Key) (s : Snapshot) :
    (l.foldl exclusiveLockAdd s).writes = s.writes ∧
      (l.foldl exclusiveLockAdd s).storage = s.storage ∧
      ∀ k, (k ∈ l ∨ s.locks.get? k = some .exclusive) →
        (l.foldl exclusiveLockAdd s).locks.get? k = some .exclusive := by
  induction l generalizing s with
  | nil => exact ⟨rfl, rfl, fun k hk => hk.resolve_left (by simp)⟩
  | cons x l ih =>
    obtain ⟨hwrites, hstorage, hlocks⟩ := ih (s.exclusiveLockAdd x)
    refine ⟨hwrites, hstorage, fun k hk => hlocks k ?_⟩
    by_cases hkx : k = x
    · exact .inr (locks_lockAdd.trans (if_pos hkx))
    · refine hk.imp (fun hmem => (mem_cons.mp hmem).resolve_left hkx) fun hold => ?_
      exact locks_lockAdd.trans ((if_neg hkx).trans hold)

theorem foldl_exclusiveLockAdd_eq {l : List Key} (h : ∀ k ∈ l, s.locks.get? k = some .exclusive) :
    l.foldl exclusiveLockAdd s = s := by
  induction l with
  | nil => rfl
  | cons x l ih =>
    obtain ⟨hx, hl⟩ := forall_mem_cons.mp h
    rw [foldl_cons, lockAdd_of_locked hx]
    exact ih hl

end Locks
end Snapshot

namespace Finalise
variable {ctx : Context} {s t : Snapshot} {k : Key}

theorem lockCardinalities_eq {I : Type} (interface : I → Encoding.TypeID) (kind : CapabilityKind)
    (object : ObjectVertex) (constraints : List (CapabilityConstraint ObjectType I))
    (s : Snapshot) :
    s.lockCardinalities interface kind object constraints =
      ((getCheckedConstraints constraints).map fun c =>
        Key.cardinalityLock object kind (interface c.source.interface)).foldl
          exclusiveLockAdd s := by
  rw [lockCardinalities, foldl_map]

theorem exec_createCommitLock {l : List Key} (h : s.commitLocks ctx k = some l) :
    exec (createCommitLock ctx k) s = some (.ok ⟨⟩, l.foldl exclusiveLockAdd s) := by
  cases k with
  | has owner a =>
    simp only [commitLocks] at h
    have hhas : ∀ u : Snapshot, u.lockHas ctx owner a.typeId = _ := fun u =>
      lockCardinalities_eq id .owns owner _ u
    cases hunique : ctx.schema.owns.getConstraintUnique ctx.ownsOrder (vertexType owner)
        a.typeId with
    | none =>
      rw [hunique] at h
      cases h
      have hlock : s.lockUnique ctx owner a = some s := by rw [lockUnique, hunique]
      simp only [createCommitLock, exec_bind, exec_check, exec_update, hlock, isSome_some,
        bind_some, map_some, if_true, hhas]
      rfl
    | some constraint =>
      rw [hunique] at h
      dsimp only at h
      split_ifs at h with hlast
      cases h
      have hlock : s.lockUnique ctx owner a = some (s.exclusiveLockAdd
          (.uniqueLock constraint.source.interface a.value owner constraint.source.object)) := by
        rw [lockUnique, hunique]
        exact if_pos hlast
      simp only [createCommitLock, exec_bind, exec_check, exec_update, hlock, isSome_some,
        bind_some, map_some, if_true, hhas]
      rfl
  | links relation player role =>
    cases h
    rw [foldl_append, createCommitLock, exec_update, lockLinks, lockCardinalities_eq,
      lockCardinalities_eq]
    rfl
  | _ =>
    cases h
    rfl

theorem exec_createCommitLock_of_none (h : s.commitLocks ctx k = none) :
    ∃ errors, exec (createCommitLock ctx k) s = some (.error errors, s) := by
  cases k with
  | has owner a =>
    have hlock : s.lockUnique ctx owner a = none := by
      simp only [commitLocks] at h
      simp only [lockUnique]
      cases hunique : ctx.schema.owns.getConstraintUnique ctx.ownsOrder (vertexType owner)
          a.typeId with
      | none => simp [hunique] at h
      | some constraint =>
        simp only [hunique] at h ⊢
        split_ifs at h with hlast
        exact if_neg hlast
    refine ⟨[.internalMissingAttributeValue a], ?_⟩
    simp only [createCommitLock, exec_bind, exec_check, hlock]
    rfl
  | _ => cases h

theorem locks_of_exec {keys : List Key}
    (h : exec (keys.forM (createCommitLock ctx)) s = some (.ok ⟨⟩, t)) :
    t.writes = s.writes ∧ t.storage = s.storage ∧
      (∀ x, s.locks.get? x = some .exclusive → t.locks.get? x = some .exclusive) ∧
      ∀ k ∈ keys, ∃ l, s.commitLocks ctx k = some l ∧
        ∀ x ∈ l, t.locks.get? x = some .exclusive := by
  induction keys generalizing s with
  | nil =>
    obtain ⟨-, rfl⟩ := Prod.mk.inj (some.inj h)
    exact ⟨rfl, rfl, fun _ => id, by simp⟩
  | cons k keys ih =>
    change exec (createCommitLock ctx k >>= fun _ => keys.forM (createCommitLock ctx)) s = _ at h
    rw [exec_bind] at h
    cases hk : s.commitLocks ctx k with
    | none =>
      obtain ⟨errors, herror⟩ := exec_createCommitLock_of_none hk
      rw [herror] at h
      cases h
    | some l =>
      rw [exec_createCommitLock hk] at h
      obtain ⟨hwrites, hstorage, hlocks⟩ := foldl_exclusiveLockAdd l s
      obtain ⟨hw, hs, hkept, hall⟩ := ih h
      refine ⟨hw.trans hwrites, hs.trans hstorage, fun x hx => hkept x (hlocks x (.inr hx)),
        forall_mem_cons.mpr ⟨⟨l, hk, fun x hx => hkept x (hlocks x (.inl hx))⟩, ?_⟩⟩
      intro k' hk'
      rw [← commitLocks_congr hwrites hstorage ctx k']
      exact hall k' hk'

theorem exec_of_locked {keys : List Key} (h : ∀ k ∈ keys, ∃ l, s.commitLocks ctx k = some l ∧
      ∀ x ∈ l, s.locks.get? x = some .exclusive) :
    exec (keys.forM (createCommitLock ctx)) s = some (.ok ⟨⟩, s) := by
  induction keys with
  | nil => rfl
  | cons k keys ih =>
    obtain ⟨⟨l, hk, hlocked⟩, hkeys⟩ := forall_mem_cons.mp h
    change exec (createCommitLock ctx k >>= fun _ => keys.forM (createCommitLock ctx)) s = _
    rw [exec_bind, exec_createCommitLock hk, foldl_exclusiveLockAdd_eq hlocked]
    exact ih hkeys

theorem exec_finalise (ctx : Context) (s : Snapshot) (himmutable : ctx.immutableSchema = true) :
    exec (finalise ctx .none) s = (s.changeTracker ctx .none).bind fun tracker =>
      if (s.cardinalityErrors ctx tracker).isEmpty then
        (s.cleanupRelations ctx .none).bind fun s => (s.cleanupAttributes ctx .none).bind fun s =>
          exec (createCommitLocks ctx) s
      else some (.error (s.cardinalityErrors ctx tracker), s) := by
  have hbuild : exec (buildTracker ctx .none) s =
      (s.changeTracker ctx .none).map fun tracker => (Except.ok tracker, s) := rfl
  rw [finalise, exec_bind, hbuild]
  cases s.changeTracker ctx .none with
  | none => rfl
  | some tracker =>
    simp only [map_some, bind_some, exec_bind, exec_read, himmutable, Bool.not_true,
      Bool.false_and, Bool.false_eq_true, if_false]
    split_ifs with herrors
    · rw [exec_bind, exec_update]
      cases s.cleanupRelations ctx .none with
      | none => rfl
      | some t =>
        simp only [map_some, bind_some, exec_bind, exec_update]
        cases t.cleanupAttributes ctx .none <;> rfl
    · rfl

end Finalise

namespace Snapshot
variable {ctx : Context} {s t : Snapshot}

theorem writes_eq_of_operations (h : t.operations = s.operations) (k : Key) :
    t.writes.get? k = s.writes.get? k := by
  have hk : (t.operations.writes k.keyspace).get? k = (s.operations.writes k.keyspace).get? k := by
    rw [h]
  rw [get?_operations, get?_operations, if_pos rfl, if_pos rfl] at hk
  exact hk

theorem presence_congr (h : ∀ k, t.writes.get? k = s.writes.get? k) : t.presence = s.presence := by
  funext k
  cases k with
  | object v | attr a => exact congrArg writeRank (h _)
  | _ => rfl

theorem Ok.finalise_iff (hs : s.Ok) (himmutable : ctx.immutableSchema = true) :
    (∃ t, exec (finalise ctx .none) s = some (.ok ⟨⟩, t) ∧ t.operations = s.operations) ↔
      s.Settled ctx := by
  have hcleanup := (hs.settles_cleanupRelations ctx).bind
    fun t ht => ht.settles_cleanupAttributes ctx
  rw [exec_finalise ctx s himmutable]
  constructor
  · rintro ⟨t, hexec, hoperations⟩
    obtain ⟨tracker, htracker, hexec⟩ := bind_eq_some_iff.mp hexec
    split_ifs at hexec with herrors
    swap
    · cases hexec
    obtain ⟨s₁, h₁, hexec⟩ := bind_eq_some_iff.mp hexec
    obtain ⟨s₂, h₂, hexec⟩ := bind_eq_some_iff.mp hexec
    have hexec' : exec ((s₂.writes.entries.map (·.1)).forM (createCommitLock ctx)) s₂ =
        some (.ok ⟨⟩, t) := hexec
    obtain ⟨hwrites, -, -, hlocks⟩ := locks_of_exec hexec'
    -- Locks leave the writes as they are, so that the cleanup has kept them too.
    have hpresence : s.presence ≤ s₂.presence := by
      refine (presence_congr fun k => ?_).le
      rw [← hwrites]
      exact (writes_eq_of_operations hoperations k).symm
    obtain ⟨-, -, hsame⟩ := hcleanup.lowers s₂ (bind_eq_some_iff.mpr ⟨s₁, h₁, h₂⟩)
    obtain ⟨rfl, ⟨hunlinked, hinserted⟩, hunowned, hput⟩ := hsame hpresence
    refine ⟨⟨tracker, htracker, List.isEmpty_iff.mp herrors⟩, hunlinked, hinserted, hunowned, hput,
      fun k w hw => ?_⟩
    obtain ⟨l, hl, hlocked⟩ := hlocks k
      (mem_map.mpr ⟨(k, w), OrderedMap.mem_entries.mpr hw, rfl⟩)
    have heq : t.locks = s₂.locks := congrArg Storage.OperationsBuffer.locks hoperations
    exact ⟨l, hl, fun lock hlock => heq ▸ hlocked lock hlock⟩
  · rintro ⟨⟨tracker, htracker, herrors⟩, hunlinked, hinserted, hunowned, hput, hlocks⟩
    have hkept := hcleanup.keeps ⟨⟨hunlinked, hinserted⟩, hunowned, hput⟩
    obtain ⟨s₁, h₁, h₂⟩ := bind_eq_some_iff.mp hkept
    refine ⟨s, ?_, rfl⟩
    rw [htracker, bind_some, herrors]
    simp only [isEmpty_nil, if_true, h₁, bind_some, h₂]
    refine exec_of_locked fun k hk => ?_
    obtain ⟨⟨k', w⟩, hmem, rfl⟩ := mem_map.mp hk
    exact hlocks k' w (OrderedMap.mem_entries.mp hmem)

end Snapshot

namespace Session
variable {session : Session} {storage : OrderedMap Key StoredValue} {s : Snapshot}

theorem perform_of_execute (h : session.execute storage = some s) :
    (opened storage).perform session.requests = some s := by
  rw [execute] at h
  rw [perform]
  generalize opened storage = s₀ at h ⊢
  generalize session.requests = requests at h ⊢
  induction requests generalizing s₀ with
  | nil => exact h
  | cons request requests ih =>
    rw [foldlM_cons] at h ⊢
    obtain ⟨s₁, h₁, h⟩ := bind_eq_some_iff.mp h
    obtain ⟨⟨r, s₂⟩, h₂, h₁⟩ := bind_eq_some_iff.mp h₁
    cases r with
    | error e => cases h₁
    | ok a =>
      obtain rfl := some.inj h₁
      rw [h₂]
      exact ih s₂ h

theorem ok_of_execute (hstorage : Consistent storage.get?)
    (hnew : ∀ v ∈ session.created, storage.get? (.object v) = none)
    (h : session.execute storage = some s) : s.Ok := by
  have h₀ := ok_opened hstorage
  have hT := session.keeps_terms
  have hsteps : Steps session.terms (.opened storage) s := by
    refine (Steps.perform .refl h₀ fun request hmem => ⟨hT.allows request hmem, ?_⟩).of_some
      (perform_of_execute h)
    refine ⟨fun v hv => ?_, fun ht => hT.typed ht request hmem, hT.sets request hmem⟩
    have hcreated : v ∈ session.created := mem_filterMap.mpr ⟨request, hmem, hv⟩
    exact ⟨hnew v hcreated, hT.created v hcreated⟩
  exact hsteps.ok h₀

structure WritesData (session : Session) : Prop where
  immutable : session.ctx.immutableSchema = true
  writes : session.writes = .none

theorem run_iff (hdata : session.WritesData) (h : session.execute storage = some s)
    {t : Snapshot} : session.run storage = some t ↔
      exec (finalise session.ctx .none) s = some (.ok ⟨⟩, t) := by
  constructor
  · intro hrun
    obtain ⟨s₁, h₁, h₂⟩ := run_eq_some hrun
    obtain rfl := some.inj ((perform_of_execute h).symm.trans h₁)
    rw [← hdata.writes]
    exact h₂
  · intro hexec
    rw [run, perform_of_execute h, hdata.writes]
    simp only [bind_eq_bind, bind_some, hexec]

end Session

def Server.settles (sv : Server) : Event → Prop
  | .commit i session => session.WritesData ∧
      ∀ s, session.execute (sv.view (sv.db.threads i).openSequenceNumber) = some s →
        s.Settled session.ctx
  | _ => True

theorem Server.Ok.step_of_stepEmbedded {first : Nat} {sv sv' : Server} {event : Event}
    (h : sv.Ok first) (hok : sv.settles event) (hstep : sv.stepEmbedded event = some sv') :
    sv.step event = some sv' := by
  cases event with
  | storage a => exact hstep
  | commit i session =>
    rw [Server.stepEmbedded] at hstep
    rw [Server.step, Server.stepBy]
    split_ifs at hstep ⊢ with hcreated
    obtain ⟨s, hs, hstep⟩ := bind_eq_some_iff.mp hstep
    obtain ⟨db, hdb, hstep⟩ := bind_eq_some_iff.mp hstep
    obtain ⟨-, -, hopen⟩ := h.open_le hdb
    have hsok : s.Ok := Session.ok_of_execute (h.view_consistent hopen)
      (fun v hv => h.view_object hopen (hcreated.2 v hv)) hs
    obtain ⟨t, ht, hoperations⟩ := (hsok.finalise_iff hok.1.immutable).mpr (hok.2 s hs)
    have hrun := (Session.run_iff hok.1 hs).mpr ht
    rw [Server.view] at hrun
    simp only [bind_eq_bind, hrun, bind_some, hoperations, hdb]
    exact hstep

/-- What a transaction of the embedded API commits is what the server would commit for the same
query exactly if the query leaves nothing to finalise, and a run of the embedded API in which every
commit does so is a run of the server. -/
theorem embedded_commits_iff (session : Session) (storage : OrderedMap Key StoredValue)
    (s : Snapshot) (hdata : session.WritesData) (hstorage : Consistent storage.get?)
    (hnew : ∀ v ∈ session.created, storage.get? (.object v) = none)
    (hexecute : session.execute storage = some s) :
    ((∃ t, session.run storage = some t ∧ t.operations = s.operations) ↔ s.Settled session.ctx) ∧
    ∀ (previous : Nat) (sv sv' : Server), Reaches step (.create previous) sv →
      Reach stepEmbedded settles sv sv' → Reaches step sv sv' := by
  refine ⟨?_, fun previous sv sv' hsv h => ?_⟩
  · rw [← (Session.ok_of_execute hstorage hnew hexecute).finalise_iff hdata.immutable]
    simp only [Session.run_iff hdata hexecute]
  · induction h with
    | refl => exact .refl
    | tail _ hok hstep ih =>
      exact ih.tail trivial ((Ok.reach (hsv.trans ih)).step_of_stepEmbedded hok hstep)

/-- An owner may have any number of the first attribute and at most one of the second. -/
def manySchema : Schema :=
  { ownerSchema with
    ownsDeclared := fun _ => [0, 1]
    ownsAnnotations := fun owns => if owns.interface = 0 then [.cardinality ⟨0, none⟩] else [] }

/-- The entity of `ownerSession` with two attributes. -/
def manySession : Session where
  requests := [.createObject ⟨.entity, 0, 0⟩, .createAttribute ⟨0, ⟨.integer, [7]⟩⟩,
    .setHasUnordered ⟨.entity, 0, 0⟩ ⟨0, ⟨.integer, [7]⟩⟩, .createAttribute ⟨0, ⟨.integer, [8]⟩⟩,
    .setHasUnordered ⟨.entity, 0, 0⟩ ⟨0, ⟨.integer, [8]⟩⟩].map (Context.ofSchema manySchema, ·)
  ctx := .ofSchema manySchema
  writes := .none

def manySnapshot : Snapshot := (manySession.execute .empty).getD (.opened .empty)

theorem manySnapshot_tracked :
    (manySnapshot.changeTracker manySession.ctx .none).isSome := by decide +kernel

/-- The owner is checked for both attributes, and neither attribute is without an owner. -/
theorem manySession_commits :
    (manySnapshot.changeTracker manySession.ctx .none).map (·.owns.map (·.2)) =
      some [0, 1, 0, 0] ∧
    manySnapshot.putAttributes.length = 2 ∧
    ∃ t, manySession.run .empty = some t ∧ t.operations = manySnapshot.operations := by
  have hexecute : manySession.execute .empty = some manySnapshot := by decide +kernel
  refine ⟨by decide +kernel, by decide +kernel, (embedded_commits_iff manySession .empty
    manySnapshot ⟨rfl, rfl⟩ consistent_empty (fun _ _ => rfl) hexecute).1.mpr ?_⟩
  refine ⟨⟨_, (some_get manySnapshot_tracked).symm, by decide +kernel⟩, by decide +kernel,
    by decide +kernel, by decide +kernel, by decide +kernel, fun k w hw => ?_⟩
  have hlocks : ∀ p ∈ manySnapshot.writes.entries,
      manySnapshot.commitLocks manySession.ctx p.1 = some [] := by decide +kernel
  exact ⟨[], hlocks _ (OrderedMap.mem_entries.mpr hw), by simp⟩

def loneSession : Session := { ownerSession with
  requests := [(.ofSchema ownerSchema, .createAttribute ⟨0, ⟨.integer, [7]⟩⟩)] }

def loneSnapshot : Snapshot := (loneSession.execute .empty).getD (.opened .empty)

def loneServer : Server :=
  (Event.opens 0 ++ Event.commits 0 loneSession).foldl (attempt stepEmbedded) (.create 0)

/-- The attribute is committed by the embedded API and taken back by the server. -/
theorem loneSession_differs :
    (loneSession.execute .empty = some loneSnapshot ∧
      ∃ t, loneSession.run .empty = some t ∧ t.operations ≠ loneSnapshot.operations) ∧
    Reaches stepEmbedded (.create 0) loneServer ∧
      loneServer.keys = [.attr ⟨0, ⟨.integer, [7]⟩⟩] ∧
      (loneServer.read 1 (.attr ⟨0, ⟨.integer, [7]⟩⟩)).isSome := by
  refine ⟨⟨by decide +kernel, .opened .empty, by decide +kernel, fun h => ?_⟩, ?_,
    by decide +kernel, by decide +kernel⟩
  · have hwrite := writes_eq_of_operations h (.attr ⟨0, ⟨.integer, [7]⟩⟩)
    exact absurd hwrite (by decide +kernel)
  · exact reaches_foldl (reaches_attempt stepEmbedded) _ _

end TypeDB.Concept
