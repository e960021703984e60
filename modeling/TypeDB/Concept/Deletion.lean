import TypeDB.Concept.Consistency

/-! Deletion of entities, relations and attributes: exactly the edges at what is deleted go, and
nothing else that is visible changes. -/

namespace TypeDB.Concept
open Encoding (ObjectVertex)
open Storage (Write)
open Programs Edge

def Edge.Touches (e : Edge) (v : ObjectVertex) : Prop := e.source = v ∨ e.target = .object v

@[simp] theorem Edge.touches_has {o v : ObjectVertex} {a : AttributeVertex} :
    (has o a).Touches v ↔ o = v := by
  simp [Touches, source, target]

@[simp] theorem Edge.touches_links {r p v : ObjectVertex} {role : RoleType} :
    (links r p role).Touches v ↔ r = v ∨ p = v := by
  simp [Touches, source, target]

namespace Snapshot
variable {ctx : Context} {s t u : Snapshot} {e : Edge} {v r p : ObjectVertex} {a : AttributeVertex}
  {role : RoleType} {P P' : Edge → Prop}

def clearedWrite (s : Snapshot) (e : Edge) : Option (Write StoredValue) :=
  if (s.storage.get? e.key).isSome then some .delete else none

/-- The edges in `P` were cleared, and no other edge and no vertex was written. -/
structure Cleared (P : Edge → Prop) (s t : Snapshot) : Prop where
  ok : t.Ok
  storage : t.storage = s.storage
  locks : t.locks = s.locks
  objects : ∀ v, t.writes.get? (.object v) = s.writes.get? (.object v)
  attributes : ∀ a, t.writes.get? (.attr a) = s.writes.get? (.attr a)
  cleared : ∀ e, P e → t.writes.get? e.key = s.clearedWrite e
  edges : ∀ e, ¬ P e → t.writes.get? e.key = s.writes.get? e.key

theorem Ok.cleared (h : s.Ok) : Cleared (fun _ => False) s s :=
  ⟨h, rfl, rfl, fun _ => rfl, fun _ => rfl, fun _ h => h.elim, fun _ _ => rfl⟩

theorem Ok.write_of_invisible (h : s.Ok) (he : s.get e.key = none) :
    s.writes.get? e.key = s.clearedWrite e := by
  rw [clearedWrite]
  cases hw : s.writes.get? e.key with
  | none =>
    rw [get_of_not_written hw] at he
    simp [he]
  | some w =>
    rcases h.edges e w hw with ⟨n, -, rfl⟩ | ⟨rfl, hstored⟩
    · rw [get_of_write hw] at he
      cases he
    · rw [if_pos hstored]

theorem get_of_clearedWrite (h : s.writes.get? e.key = s.clearedWrite e) : s.get e.key = none := by
  rw [clearedWrite] at h
  split_ifs at h with hstored
  · rw [get_of_write h]
    rfl
  · rw [get_of_not_written h]
    simpa using hstored

namespace Cleared

section Reads
variable (h : Cleared P s t)
include h

theorem get_object : t.get (.object v) = s.get (.object v) := by
  rw [get_eq, get_eq, h.objects, h.storage]

theorem get_attr : t.get (.attr a) = s.get (.attr a) := by
  rw [get_eq, get_eq, h.attributes, h.storage]

theorem get_cleared (he : P e) : t.get e.key = none := by
  refine get_of_clearedWrite ?_
  rw [h.cleared e he, clearedWrite, clearedWrite, h.storage]

theorem get_edge (he : ¬ P e) : t.get e.key = s.get e.key := by
  rw [get_eq, get_eq, h.edges e he, h.storage]

theorem weaken (hs : s.Ok) (hP : ∀ e, P e → P' e) (hP' : ∀ e, P' e → P e ∨ s.get e.key = none) :
    Cleared P' s t := by
  refine { h with cleared := fun e he => ?_, edges := fun e he => h.edges e fun h' => he (hP e h') }
  by_cases hPe : P e
  · exact h.cleared e hPe
  · rw [h.edges e hPe, hs.write_of_invisible ((hP' e he).resolve_left hPe)]

theorem other {Q : Key → Prop} (hok : u.Ok) (hag : AgreesOff Q t u) (hv : ∀ v, ¬ Q (.object v))
    (ha : ∀ a, ¬ Q (.attr a)) (he : ∀ e : Edge, ¬ Q e.key) :
    Cleared P s u where
  ok := hok
  storage := hag.storage.trans h.storage
  locks := hag.locks.trans h.locks
  objects v := (hag.writes _ (hv v)).trans (h.objects v)
  attributes a := (hag.writes _ (ha a)).trans (h.attributes a)
  cleared e hP := (hag.writes _ (he e)).trans (h.cleared e hP)
  edges e hP := (hag.writes _ (he e)).trans (h.edges e hP)

theorem clearEdge : Cleared (fun f => P f ∨ f = e) s (t.clearEdge e) where
  ok := h.ok.clearEdge
  storage := storage_clearEdge.trans h.storage
  locks := locks_clearEdge.trans h.locks
  objects v := by
    rw [h.ok.writes_clearEdge, if_neg (by simp), h.objects]
  attributes a := by
    rw [h.ok.writes_clearEdge, if_neg (by simp), h.attributes]
  cleared f hf := by
    rw [h.ok.writes_clearEdge, h.storage]
    by_cases hfe : f = e
    · subst hfe
      simp [clearedWrite]
    · simpa [hfe] using h.cleared f (hf.resolve_right hfe)
  edges f hf := by
    rw [h.ok.writes_clearEdge]
    have hfe : f ≠ e := fun heq => hf (.inr heq)
    simpa [hfe] using h.edges f fun hP => hf (.inl hP)

theorem indexStep (hi : IndexStep r t u) : Cleared P s u :=
  h.other hi.ok hi.agrees (fun _ => id) (fun _ => id) fun e => by cases e <;> exact id

theorem unsetHas : ∃ u, t.unsetHas v a = some u ∧ Cleared (fun f => P f ∨ f = .has v a) s u :=
  ⟨_, h.ok.unsetEdge_eq (.has v a), h.clearEdge⟩

end Reads

theorem unsetLinks (ctx : Context) (h : Cleared P s t) : ∃ u, t.unsetLinks ctx r p role = some u ∧
    Cleared (fun f => P f ∨ f = .links r p role) s u := by
  have hunset : t.unsetEdge r (.links r p role) (.linksReverse p r role) =
      some (t.clearEdge (.links r p role)) := h.ok.unsetEdge_eq (.links r p role)
  have hclear := h.clearEdge (e := .links r p role)
  rw [Snapshot.unsetLinks, hunset]
  simp only [Option.bind_eq_bind, Option.bind_some]
  split_ifs
  · obtain ⟨u, hu, hstep⟩ := hclear.ok.remove r p role
    exact ⟨u, hu, hclear.indexStep hstep⟩
  · exact ⟨_, rfl, hclear⟩

theorem deleteOrders (h : Cleared P s t) (v : ObjectVertex) (types : List AttributeType) :
    Cleared P s (types.foldl (fun t a => t.delete (.hasOrder v a)) t) := by
  refine List.foldlRecOn types _ h fun u hu a _ => ?_
  have hag : AgreesOff (fun k => k = .hasOrder v a) u (u.delete (.hasOrder v a)) :=
    agreesOff_write rfl
  refine hu.other (hu.ok.changeOther hag nofun nofun ?_ fun p q r role role' w h => nomatch h) hag
    nofun nofun ?_
  · intro e
    cases e <;> exact ⟨nofun, nofun⟩
  · intro e
    cases e <;> nofun

theorem loop {β : Type} {f : Snapshot → β → Option Snapshot} (edge : β → Edge)
    (hf : ∀ {P : Edge → Prop} {t : Snapshot} (x : β), Cleared P s t →
      ∃ u, f t x = some u ∧ Cleared (fun e => P e ∨ e = edge x) s u)
    (xs : List β) (h : Cleared P s t) :
    ∃ u, xs.foldlM f t = some u ∧ Cleared (fun e => P e ∨ ∃ x ∈ xs, e = edge x) s u := by
  induction xs generalizing P t with
  | nil => exact ⟨t, rfl, by simpa using h⟩
  | cons x xs ih =>
    obtain ⟨t', ht', hstep⟩ := hf x h
    obtain ⟨u, hu, hall⟩ := ih hstep
    refine ⟨u, ?_, by simpa [or_assoc] using hall⟩
    rw [List.foldlM_cons, ht']
    exact hu

end Cleared

theorem mem_iterate_iff {α : Type} (decode : Key → Option α) (key : α → Key)
    (h : ∀ k a, decode k = some a ↔ k = key a) {x : α × StoredValue} :
    x ∈ s.iterate decode ↔ s.get (key x.1) = some x.2 := by
  obtain ⟨a, value⟩ := x
  simp [mem_iterate, h]

theorem mem_getHas {x : AttributeVertex × StoredValue} :
    x ∈ s.getHas v ↔ s.get (.has v x.1) = some x.2 :=
  mem_iterate_iff (Key.hasFrom v) (.has v) fun k a => by cases k <;> simp [Key.hasFrom]

theorem mem_getOwners {x : ObjectVertex × StoredValue} :
    x ∈ s.getOwners a ↔ s.get (.hasReverse a x.1) = some x.2 :=
  mem_iterate_iff (Key.hasTo a) (.hasReverse a) fun k o => by cases k <;> simp [Key.hasTo]

theorem mem_getPlayers {x : (ObjectVertex × RoleType) × StoredValue} :
    x ∈ s.getPlayers r ↔ s.get (.links r x.1.1 x.1.2) = some x.2 :=
  mem_iterate_iff (Key.linksFrom r) (fun y => .links r y.1 y.2) fun k y => by
    cases k <;> simp [Key.linksFrom, Prod.ext_iff]

theorem mem_getRelationsRoles {x : (ObjectVertex × RoleType) × StoredValue} :
    x ∈ s.getRelationsRoles p ↔ s.get (.linksReverse p x.1.1 x.1.2) = some x.2 :=
  mem_iterate_iff (Key.linksTo p) (fun y => .linksReverse p y.1 y.2) fun k y => by
    cases k <;> simp [Key.linksTo, Prod.ext_iff]

theorem Ok.deleteEdges (hs : s.Ok) (ctx : Context) (v : ObjectVertex) :
    ∃ t, s.deleteEdges ctx v = some t ∧
      Cleared (fun e => (∃ a, e = .has v a) ∨ ∃ r role, e = .links r v role) s t := by
  rw [Snapshot.deleteEdges]
  -- the list is read before the loop, so it has every visible edge
  obtain ⟨t₁, h₁, hc₁⟩ := Cleared.loop (fun x => .has v x.1) (fun x h => h.unsetHas)
    (s.getHas v) hs.cleared
  have hhas : Cleared (fun e => ∃ a, e = .has v a) s t₁ := by
    refine hc₁.weaken hs ?_ ?_
    · rintro e (h | ⟨x, -, rfl⟩)
      · exact h.elim
      · exact ⟨x.1, rfl⟩
    · rintro e ⟨a, rfl⟩
      cases hget : s.get (.has v a) with
      | none => exact .inr hget
      | some value => exact .inl (.inr ⟨(a, value), mem_getHas.mpr hget, rfl⟩)
  have horder := hhas.deleteOrders v (orderedOwns ctx (vertexType v))
  simp only [h₁, Option.bind_eq_bind, Option.bind_some]
  generalize (orderedOwns ctx (vertexType v)).foldl _ t₁ = t₂ at horder ⊢
  obtain ⟨t₃, h₃, hc₃⟩ := Cleared.loop (fun x => .links x.1.1 v x.1.2)
    (fun x h => h.unsetLinks ctx) (t₂.getRelationsRoles v) horder
  refine ⟨t₃, h₃, hc₃.weaken hs ?_ ?_⟩
  · rintro e (h | ⟨x, -, rfl⟩)
    · exact .inl h
    · exact .inr ⟨_, _, rfl⟩
  · rintro e (h | ⟨r, role, rfl⟩)
    · exact .inl (.inl h)
    · cases hget : s.get (.links r v role) with
      | none => exact .inr hget
      | some value =>
        refine .inl (.inr ⟨((r, role), value), mem_getRelationsRoles.mpr ?_, rfl⟩)
        exact ((horder.ok.get_reverse (.links r v role)).trans (horder.get_edge (by simp))).trans hget

/-- Exactly an object, its lock and the edges it is an end of are gone. -/
structure ObjectRemoved (v : ObjectVertex) (s t : Snapshot) : Prop where
  ok : t.Ok
  storage : t.storage = s.storage
  locks : ∀ k, t.locks.get? k = if k = .object v then none else s.locks.get? k
  object : t.writes.get? (.object v) =
    if (s.storage.get? (.object v)).isSome then some .delete else none
  objects : ∀ u, u ≠ v → t.writes.get? (.object u) = s.writes.get? (.object u)
  attributes : ∀ a, t.writes.get? (.attr a) = s.writes.get? (.attr a)
  cleared : ∀ e : Edge, e.Touches v → t.writes.get? e.key = s.clearedWrite e
  edges : ∀ e : Edge, ¬ e.Touches v → t.writes.get? e.key = s.writes.get? e.key

theorem Cleared.deleteObject (h : Cleared (fun e => e.Touches v) s t) :
    ∃ u, t.deleteObject v = some u ∧ ObjectRemoved v s u := by
  refine ⟨_, h.ok.deleteObject_eq, ?_⟩
  have hw : ∀ k, k ≠ .object v → ((t.clear (.object v)).unmodifiableLockRemove
      (.object v)).writes.get? k = t.writes.get? k := by
    intro k hk
    rw [writes_lockRemove, writes_clear, if_neg hk]
  exact {
    ok := h.ok.clearObject fun e he => h.get_cleared he
    storage := storage_clear.trans h.storage
    locks := fun k => by rw [locks_lockRemove, locks_clear, h.locks]
    object := by rw [writes_lockRemove, writes_clear, if_pos rfl, h.storage]
    objects := fun u hu => by rw [hw _ (by simpa using hu), h.objects]
    attributes := fun a => by rw [hw _ (by simp), h.attributes]
    cleared := fun e he => by rw [hw _ (by simp), h.cleared e he]
    edges := fun e he => by rw [hw _ (by simp), h.edges e he] }

theorem Ok.deleteEntityEdges (hs : s.Ok) (ctx : Context) (hv : v.kind = .entity) :
    ∃ t, s.deleteEdges ctx v = some t ∧ Cleared (fun e => e.Touches v) s t := by
  obtain ⟨t, ht, hc⟩ := hs.deleteEdges ctx v
  refine ⟨t, ht, hc.weaken hs ?_ ?_⟩
  · rintro e (⟨a, rfl⟩ | ⟨r, role, rfl⟩) <;> simp
  · intro e he
    cases e with
    | has o a => exact .inl (.inl ⟨a, by rw [touches_has.mp he]⟩)
    | links r p role =>
      rcases touches_links.mp he with rfl | rfl
      · right
        cases hget : s.get (links r p role).key with
        | none => rfl
        | some value =>
          have hproper : r.kind = .relation := hs.proper (.links r p role) (by simp [hget])
          rw [hv] at hproper
          cases hproper
      · exact .inl (.inr ⟨r, role, rfl⟩)

theorem Ok.deleteRelationEdges (hs : s.Ok) (ctx : Context) (v : ObjectVertex) :
    ∃ t u, s.deleteEdges ctx v = some t ∧ t.deletePlayers ctx v = some u ∧
      Cleared (fun e => e.Touches v) s u := by
  obtain ⟨t, ht, hc⟩ := hs.deleteEdges ctx v
  obtain ⟨u, hu, hcu⟩ := Cleared.loop (fun x => .links v x.1.1 x.1.2)
    (fun x h => h.unsetLinks ctx) (t.getPlayers v) hc
  refine ⟨t, u, ht, hu, hcu.weaken hs ?_ ?_⟩
  · rintro e ((⟨a, rfl⟩ | ⟨r, role, rfl⟩) | ⟨x, -, rfl⟩) <;> simp
  · intro e he
    by_cases hP : (∃ a, e = .has v a) ∨ ∃ r role, e = .links r v role
    · exact .inl (.inl hP)
    cases e with
    | has o a => exact absurd (.inl ⟨a, by rw [touches_has.mp he]⟩) hP
    | links r p role =>
      rcases touches_links.mp he with rfl | rfl
      · cases hget : s.get (links r p role).key with
        | none => exact .inr rfl
        | some value =>
          refine .inl (.inr ⟨((p, role), value), mem_getPlayers.mpr ?_, rfl⟩)
          exact (hc.get_edge hP).trans hget
      · exact absurd (.inr ⟨r, role, rfl⟩) hP

theorem Ok.entity_removed (hs : s.Ok) (ctx : Context) (hv : v.kind = .entity) :
    ∃ t, s.deleteEntity ctx v = some t ∧ ObjectRemoved v s t := by
  obtain ⟨t, ht, hc⟩ := hs.deleteEntityEdges ctx hv
  rw [Snapshot.deleteEntity, ht]
  exact hc.deleteObject

/-- Of two entities the first owns an attribute and plays a role in a relation. -/
def linkedEntity : Snapshot :=
  let created := (((opened .empty).createObject ⟨.entity, 0, 7⟩).createObject
    ⟨.entity, 0, 8⟩).createObject ⟨.relation, 1, 3⟩
  let owned := (created.createAttribute ⟨0, .integer, [5]⟩).putHas ⟨.entity, 0, 7⟩
    ⟨0, .integer, [5]⟩ 1
  owned.putLinks (.ofSchema .empty) ⟨.relation, 1, 3⟩ ⟨.entity, 0, 7⟩ 2 1

theorem linkedEntity_ok : linkedEntity.Ok := by
  have hcreated := ((ok_opened consistent_empty).createObject (v := ⟨.entity, 0, 7⟩) rfl
    |>.createObject (v := ⟨.entity, 0, 8⟩) rfl).createObject (v := ⟨.relation, 1, 3⟩) rfl
  have howned := (hcreated.createAttribute (a := ⟨0, .integer, [5]⟩)).putHas
    (o := ⟨.entity, 0, 7⟩) (a := ⟨0, .integer, [5]⟩) Nat.one_pos rfl rfl
  exact howned.putLinks (.ofSchema .empty) 2 Nat.one_pos rfl rfl rfl

theorem linkedEntity_removed : ∃ t : Snapshot,
    (linkedEntity.get (.has ⟨.entity, 0, 7⟩ ⟨0, .integer, [5]⟩)).isSome ∧
    (linkedEntity.get (.links ⟨.relation, 1, 3⟩ ⟨.entity, 0, 7⟩ 2)).isSome ∧
    linkedEntity.deleteEntity (.ofSchema .empty) ⟨.entity, 0, 7⟩ = some t ∧
    ObjectRemoved ⟨.entity, 0, 7⟩ linkedEntity t ∧
    t.writes.get? (.object ⟨.entity, 0, 8⟩) = some (.insert .empty) := by
  obtain ⟨t, ht, hremoved⟩ := linkedEntity_ok.entity_removed (.ofSchema .empty)
    (v := ⟨.entity, 0, 7⟩) rfl
  refine ⟨t, rfl, rfl, ht, hremoved, ?_⟩
  rw [hremoved.objects _ (by decide)]
  rfl

theorem Ok.deleteRelation (hs : s.Ok) (ctx : Context) (v : ObjectVertex) :
    ∃ t, s.deleteRelation ctx v = some t ∧ ObjectRemoved v s t := by
  obtain ⟨t, u, ht, hu, hc⟩ := hs.deleteRelationEdges ctx v
  rw [Snapshot.deleteRelation, ht]
  simp only [Option.bind_eq_bind, Option.bind_some, hu]
  exact hc.deleteObject

structure AttributeRemoved (a : AttributeVertex) (s t : Snapshot) : Prop where
  ok : t.Ok
  storage : t.storage = s.storage
  locks : t.locks = s.locks
  objects : ∀ v, t.writes.get? (.object v) = s.writes.get? (.object v)
  removed : t.writes.get? (.attr a) =
    if (s.storage.get? (.attr a)).isSome then some .delete else none
  attributes : ∀ b, b ≠ a → t.writes.get? (.attr b) = s.writes.get? (.attr b)
  cleared : ∀ o, t.writes.get? (.has o a) = s.clearedWrite (.has o a)
  edges : ∀ e : Edge, e.target ≠ .attr a → t.writes.get? e.key = s.writes.get? e.key

theorem Ok.deleteOwners (hs : s.Ok) (a : AttributeVertex) :
    ∃ t, (s.getOwners a).foldlM (fun s owner => s.unsetHas owner.1 a) s = some t ∧
      Cleared (fun e => ∃ o, e = .has o a) s t := by
  obtain ⟨t, ht, hc⟩ := Cleared.loop (fun x => .has x.1 a) (fun x h => h.unsetHas)
    (s.getOwners a) hs.cleared
  refine ⟨t, ht, hc.weaken hs ?_ ?_⟩
  · rintro e (h | ⟨x, -, rfl⟩)
    · exact h.elim
    · exact ⟨x.1, rfl⟩
  · rintro e ⟨o, rfl⟩
    cases hget : s.get (.has o a) with
    | none => exact .inr hget
    | some value =>
      refine .inl (.inr ⟨(o, value), mem_getOwners.mpr ?_, rfl⟩)
      exact (hs.get_reverse (.has o a)).trans hget

theorem Ok.attribute_removed (hs : s.Ok)
    (hvalue : s.getStatus (.attr a) = .put → a.storedValue = a.unputValue) :
    ∃ t, s.deleteOwnedAttribute a = some t ∧ AttributeRemoved a s t := by
  obtain ⟨t, ht, hall⟩ := hs.deleteOwners a
  have hstatus : t.getStatus (.attr a) = s.getStatus (.attr a) := by
    rw [getStatus, getStatus, getWrite, getWrite, hall.attributes, hall.storage]
  rw [Snapshot.deleteOwnedAttribute, ht]
  refine ⟨_, hall.ok.deleteAttribute_eq (hstatus ▸ hvalue), ?_⟩
  have hw : ∀ k, k ≠ .attr a → (t.clear (.attr a)).writes.get? k = t.writes.get? k := by
    intro k hk
    rw [writes_clear, if_neg hk]
  exact {
    ok := hall.ok.clearAttribute fun o => hall.get_cleared ⟨o, rfl⟩
    storage := storage_clear.trans hall.storage
    locks := locks_clear.trans hall.locks
    objects := fun v => by rw [hw _ (by simp), hall.objects]
    removed := by rw [writes_clear, if_pos rfl, hall.storage]
    attributes := fun b hb => by rw [hw _ (by simpa using hb), hall.attributes]
    cleared := fun o => by
      rw [hw _ (by simp)]
      exact hall.cleared (.has o a) ⟨o, rfl⟩
    edges := fun e he => by
      rw [hw _ (by simp)]
      refine hall.edges e ?_
      rintro ⟨o, rfl⟩
      exact he rfl }

theorem linkedAttribute_removed : ∃ t : Snapshot,
    linkedEntity.deleteOwnedAttribute ⟨0, .integer, [5]⟩ = some t ∧
    AttributeRemoved ⟨0, .integer, [5]⟩ linkedEntity t ∧
    t.writes.get? (.has ⟨.entity, 0, 7⟩ ⟨0, .integer, [5]⟩) = none ∧
    t.writes.get? (.links ⟨.relation, 1, 3⟩ ⟨.entity, 0, 7⟩ 2) = some (.put (.count 1) false) := by
  obtain ⟨t, ht, hremoved⟩ := linkedEntity_ok.attribute_removed (a := ⟨0, .integer, [5]⟩)
    fun _ => rfl
  refine ⟨t, ht, hremoved, ?_, ?_⟩
  · rw [hremoved.cleared]
    rfl
  · refine (hremoved.edges (.links ⟨.relation, 1, 3⟩ ⟨.entity, 0, 7⟩ 2) (by decide)).trans ?_
    rfl

end Snapshot
end TypeDB.Concept
