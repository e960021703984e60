import TypeDB.Concept.Steps

/-! The operations of a transaction are made of steps: whether one returns or fails, what it has
written was written step by step. -/

namespace TypeDB.Concept
open List Snapshot Capabilities Operate
open Encoding (ObjectVertex)
open Programs

namespace Steps
variable {T : Terms} {s₀ s t : Snapshot} {ctx : Context}

theorem step (h : Steps T s₀ s) (hC : T.allows ctx) (hs : Step T ctx s t) :
    Steps T s₀ t := h.tail ⟨ctx, hC, hs⟩

theorem ok (h : Steps T s₀ s) (h₀ : s₀.Ok) : s.Ok := by
  induction h with
  | refl => exact h₀
  | tail _ hs ih =>
    obtain ⟨ctx, -, hs⟩ := hs
    exact ih.step hs

theorem storage (h : Steps T s₀ s) (h₀ : s₀.Ok) : s.storage = s₀.storage := by
  induction h with
  | refl => rfl
  | tail hprev hs ih =>
    obtain ⟨ctx, -, hs⟩ := hs
    exact (step_storage (ok hprev h₀) hs).trans ih

theorem fresh_of_insert {v : ObjectVertex} {value : StoredValue} {storage : OrderedMap Key StoredValue}
    (h : Steps T (.opened storage) s) (h₀ : (opened storage).Ok)
    (hv : s.writes.get? (.object v) = some (.insert value)) : T.fresh v := by
  induction h with
  | refl => cases hv
  | tail hprev hs ih =>
    obtain ⟨ctx, -, hs⟩ := hs
    exact (step_inserts (ok hprev h₀) hs hv).elim ih id

end Steps

/-- Between the writes of an operation: the vertices it has looked up are still there. -/
def Between (T : Terms) (s₀ : Snapshot) (keys : Key → Prop)
    (s : Snapshot) : Prop :=
  Steps T s₀ s ∧ ∀ k, keys k → k.IsVertex ∧ (s.get k).isSome

section Between
variable {T : Terms} {panics : Prop} {s₀ s t : Snapshot} {keys : Key → Prop}
  {ctx : Context} {o r p v : ObjectVertex} {a : AttributeVertex} {role : RoleType} {n : Nat}

theorem Steps.between (h : Steps T s₀ s) : Between T s₀ (fun _ => False) s :=
  ⟨h, fun _ hk => hk.elim⟩

theorem Between.steps {s : Snapshot} (h : Between T s₀ keys s) : Steps T s₀ s := h.1

theorem Between.found {k : Key} (h : Between T s₀ keys s) (hk : k.IsVertex)
    (hget : s.contains k = true) : Between T s₀ (fun k' => keys k' ∨ k' = k) s := by
  refine ⟨h.1, ?_⟩
  rintro k' (hk' | rfl)
  · exact h.2 k' hk'
  · exact ⟨hk, hget⟩

theorem Between.step (h : Between T s₀ keys s) (hC : T.allows ctx) (hs : Step T ctx s t)
    (hget : ∀ k : Key, k.IsVertex → t.get k = s.get k) : Between T s₀ keys t :=
  ⟨h.1.step hC hs, fun k hk => ⟨(h.2 k hk).1, hget k (h.2 k hk).1 ▸ (h.2 k hk).2⟩⟩

variable (h : Between T s₀ keys s) (h₀ : s₀.Ok) (hC : T.allows ctx)
include h h₀ hC

theorem Between.unsetHas : Returns panics (s.unsetHas o a) (Between T s₀ keys) := by
  have hok := h.1.ok h₀
  have heq : s.unsetHas o a = some (s.clearEdge (.has o a)) := hok.unsetEdge_eq (.has o a)
  refine returns_of_eq heq (h.step hC (.unsetHas o a heq) fun k hk => ?_)
  rw [get_clearEdge, if_neg (not_or.mpr (key_ne_of_isVertex hk))]

theorem Between.unsetLinks : Returns panics (s.unsetLinks ctx r p role) (Between T s₀ keys) := by
  have hok := h.1.ok h₀
  obtain ⟨t, ht, hc⟩ : ∃ t, s.unsetLinks ctx r p role = some t ∧ Cleared _ s t :=
    hok.cleared.unsetLinks ctx
  refine returns_of_eq ht (h.step hC (.unsetLinks r p role ht) fun k hk => ?_)
  cases k with
  | object v => exact hc.get_object
  | attr a => exact hc.get_attr
  | _ => exact hk.elim

theorem Between.putLinks (hn : 0 < n) (hkind : r.kind = .relation) (hr : keys (.object r))
    (hp : keys (.object p)) (hrelates : ctx.schema.relates.Has (vertexType r) role)
    (hplays : ctx.schema.plays.Has (vertexType p) role) :
    Between T s₀ keys (s.putLinks ctx r p role n) := by
  have hr' := (h.2 _ hr).2
  have hp' := (h.2 _ hp).2
  exact h.step hC (.putLinks r p role hn hkind hr' hp' hrelates hplays) fun k hk =>
    (h.1.ok h₀).get_putLinks ctx role hn hkind hr' hp' hk

theorem Between.setLinksCount (hkind : r.kind = .relation) (hr : keys (.object r))
    (hp : n ≠ 0 → keys (.object p)) (hrelates : ctx.schema.relates.Has (vertexType r) role)
    (hplays : ctx.schema.plays.Has (vertexType p) role) :
    Returns panics (s.setLinksCount ctx r p role n) (Between T s₀ keys) := by
  rw [Snapshot.setLinksCount]
  split_ifs with hn
  · exact h.unsetLinks h₀ hC
  · exact h.putLinks h₀ hC (Nat.pos_of_ne_zero hn) hkind hr (hp hn) hrelates hplays

end Between

open Between

open Triple

theorem triple_found {ε : Type} {T : Terms} {panics : Prop} {s₀ : Snapshot}
    {keys : Key → Prop} (k : Key) (hk : k.IsVertex) {error : ε} :
    Triple panics (Between T s₀ keys) (check (fun s => s.contains k) error)
      (fun _ => Between T s₀ fun k' => keys k' ∨ k' = k) (Steps T s₀) :=
  (check fun _ => steps).post fun _ _ h => h.1.found hk h.2

namespace Operate

/-- The operation may start between its writes and leaves steps behind, also if it fails. -/
abbrev Works (panics : Prop) (T : Terms) (s₀ : Snapshot) (keys : Key → Prop) (op : Operate) : Prop :=
  Triple panics (Between T s₀ keys) op (fun _ => Steps T s₀) (Steps T s₀)

variable {T : Terms} {panics : Prop} {s₀ : Snapshot} {keys : Key → Prop}
  {ctx : Context} {o p v : ObjectVertex} {r : Relation} {a : AttributeVertex}
  {t : AttributeType} {role : RoleType} {n : Nat}

theorem validateValueType_triple {P E : Snapshot → Prop} (hE : ∀ s, P s → E s) :
    Triple panics P (validateValueType ctx a) (fun _ => P) E := by
  rw [validateValueType]
  split
  · exact .throw hE
  · exact .checked hE

theorem forM_triple {β : Type} {l : List β} {g : β → Operate}
    (hg : ∀ x ∈ l, Triple panics (Between T s₀ keys) (g x)
      (fun _ => Between T s₀ keys) (Steps T s₀)) :
    Triple panics (Between T s₀ keys) (l.forM g) (fun _ => Between T s₀ keys)
      (Steps T s₀) := by
  induction l with
  | nil => exact .pure fun _ h => h
  | cons x l ih =>
    exact (hg x mem_cons_self).bind fun _ => ih fun y hy => hg y (mem_cons_of_mem _ hy)

theorem lookup_triple {β : Type} (key : β → Key) {error : β → ConceptWriteError} {l : List β}
    (hkey : ∀ x, (key x).IsVertex) :
    Triple panics (Between T s₀ keys) (l.forM fun x =>
        (check (fun s => s.contains (key x)) (error x) : Operate))
      (fun _ => Between T s₀ fun k => keys k ∨ ∃ x ∈ l, k = key x) (Steps T s₀) := by
  induction l generalizing keys with
  | nil => exact .pure fun _ h => ⟨h.1, fun k hk => h.2 k (by simpa using hk)⟩
  | cons x l ih =>
    refine (triple_found (key x) (hkey x)).bind fun _ => ?_
    refine ih.post fun _ s h => ⟨h.1, fun k hk => h.2 k ?_⟩
    simpa [or_assoc] using hk

theorem mem_sortedAttributes {l : List AttributeVertex} : a ∈ sortedAttributes l ↔ a ∈ l := by
  simp [sortedAttributes]

theorem players_triple (players : List ObjectVertex) :
    Triple panics (Between T s₀ keys) (players.forM fun player => do
        validatePlays ctx player role
        validatePlaysIsNotAbstract ctx player role
        check (fun s => s.contains (.object player)) (.addDeletedPlayer player r))
      (fun _ s => Between T s₀ (fun k => keys k ∨ ∃ p ∈ players, k = .object p) s ∧
        ∀ p ∈ players, ctx.schema.plays.Has (vertexType p) role) (Steps T s₀) := by
  induction players generalizing keys with
  | nil => exact .pure fun _ h => ⟨⟨h.1, fun k hk => h.2 k (by simpa using hk)⟩, by simp⟩
  | cons p players ih =>
    refine bind (Q := fun _ s => Between T s₀ (fun k => keys k ∨ k = .object p) s ∧
      ctx.schema.plays.Has (vertexType p) role) ?_ fun _ => assume fun hp => ?_
    · refine guard (fun _ => steps) fun hplays => ?_
      refine (checked fun _ => steps).bind fun _ => ?_
      exact (triple_found (.object p) trivial).post
        fun _ _ h => ⟨h, capabilityFor_isSome_iff.mp hplays⟩
    · refine ih.post fun _ s h => ⟨⟨h.1.1, fun k hk => h.1.2 k ?_⟩, ?_⟩
      · simpa [or_assoc] using hk
      · exact forall_mem_cons.mpr ⟨hp, h.2⟩

variable (h₀ : s₀.Ok) (hC : T.allows ctx)
include h₀ hC

theorem setHasCount_triple (ho : keys (.object o)) (ha : keys (.attr a))
    (howned : T.typed → ctx.schema.owns.Has (vertexType o) a.typeId) (hsets : T.sets o a) :
    Triple panics (Between T s₀ keys) (setHasCount ctx o a n)
      (fun _ => Between T s₀ keys) (Steps T s₀) := by
  refine (validateValueType_triple fun _ => steps).bind fun _ => ?_
  refine (check fun _ => steps).bind fun _ => ?_
  refine (checked fun s h => h.1.1).bind fun _ => ?_
  refine update fun s hs => ?_
  obtain ⟨hs, hunique⟩ := hs
  split_ifs with hn
  · exact hs.unsetHas h₀ hC
  · have hn := Nat.pos_of_ne_zero hn
    exact hs.step hC (.putHas o a hn (hs.2 _ ho).2 (hs.2 _ ha).2 hunique howned hsets)
      fun k hk => get_putHas hk

theorem setHasUnordered_triple (hsets : T.sets o a) :
    Works panics T s₀ keys (setHasUnordered ctx o a) := by
  refine (triple_found (.object o) trivial).bind fun _ => ?_
  refine (triple_found (.attr a) trivial).bind fun _ => ?_
  refine guard (fun _ => steps) fun howns => guard (fun _ => steps) fun _ => ?_
  refine (checked fun _ => steps).bind fun _ => ?_
  have howned := capabilityFor_isSome_iff.mp howns
  exact (setHasCount_triple h₀ hC (.inl (.inr rfl)) (.inr rfl) (fun _ => howned) hsets).post
    fun _ _ => steps

theorem unsetHasUnordered_triple : Works panics T s₀ keys (unsetHasUnordered ctx o a) := by
  refine (checked fun _ => steps).bind fun _ => ?_
  refine guard (fun _ => steps) fun _ => guard (fun _ => steps) fun _ => ?_
  exact update fun s hs => (hs.unsetHas h₀ hC).mono fun _ => steps

theorem setHasOrdered_triple {attributes : List AttributeVertex}
    (htyped : T.typed → ∀ a ∈ attributes, a.typeId = t) (hsets : ∀ a ∈ attributes, T.sets o a) :
    Works panics T s₀ keys (setHasOrdered ctx o t attributes) := by
  refine (triple_found (.object o) trivial).bind fun _ => ?_
  refine guard (fun _ => steps) fun howns => guard (fun _ => steps) fun _ => ?_
  refine (checked fun _ => steps).bind fun _ => ?_
  refine (lookup_triple .attr fun _ => trivial).bind fun _ => ?_
  refine guard (fun _ => steps) fun _ => ?_
  refine read.bind fun old => ?_
  refine (forM_triple fun a _ => ?_).bind fun _ => ?_
  · split_ifs
    · exact .pure fun _ h => h
    · exact .update fun s hs => hs.unsetHas h₀ hC
  refine (forM_triple fun a ha => ?_).bind fun _ => guard (fun _ => steps) fun _ => ?_
  · have ha := mem_sortedAttributes.mp ha
    refine setHasCount_triple h₀ hC (.inl (.inr rfl)) (.inr ⟨a, ha, rfl⟩) (fun h => ?_) (hsets a ha)
    rw [htyped h a ha]
    exact capabilityFor_isSome_iff.mp howns
  · refine .update fun s hs => ?_
    exact (hs.1.step hC (.writeOrder (.hasOrder o t) trivial _)).step hC (.lock _ id)

theorem unsetHasOrdered_triple : Works panics T s₀ keys (unsetHasOrdered ctx o t) := by
  refine (checked fun _ => steps).bind fun _ => ?_
  refine guard (fun _ => steps) fun _ => guard (fun _ => steps) fun _ => ?_
  refine read.bind fun old => ?_
  refine (forM_triple fun a _ => .update fun s hs => hs.unsetHas h₀ hC).bind fun _ => ?_
  exact .update fun s hs => hs.1.step hC (.writeOrder (.hasOrder o t) trivial _)

theorem addPlayer_triple : Works panics T s₀ keys (addPlayer ctx r role p) := by
  refine (triple_found (.object r) trivial).bind fun _ => ?_
  refine (triple_found (.object p) trivial).bind fun _ => ?_
  refine guard (fun _ => steps) fun hrelates => guard (fun _ => steps) fun hplays => ?_
  refine (checked fun _ => steps).bind fun _ => (checked fun _ => steps).bind
    fun _ => ?_
  have hrelates := capabilityFor_isSome_iff.mp hrelates
  have hplays := capabilityFor_isSome_iff.mp hplays
  split_ifs
  · exact .update fun s hs => (hs.putLinks h₀ hC one_pos r.2 (.inl (.inr rfl)) (.inr rfl)
      hrelates hplays).steps
  · exact .update fun s hs => (hs.setLinksCount h₀ hC r.2 (.inl (.inr rfl)) (fun _ => .inr rfl)
      hrelates hplays).mono fun _ => steps

theorem removePlayer_triple : Works panics T s₀ keys (removePlayer ctx r role p n) := by
  refine (triple_found (.object r) trivial).bind fun _ => ?_
  refine guard (fun _ => steps) fun hrelates => guard (fun _ => steps) fun hplays => ?_
  refine (checked fun _ => steps).bind fun _ => ?_
  have hrelates := capabilityFor_isSome_iff.mp hrelates
  have hplays := capabilityFor_isSome_iff.mp hplays
  split_ifs
  · exact .update fun s hs => (hs.unsetLinks h₀ hC).mono fun _ => steps
  · refine (checked fun _ => steps).bind fun _ => (check fun _ => steps).bind
      fun _ => ?_
    refine .update fun s hs => ?_
    have hplayer : (s.get (.object p)).isSome := (hs.1.1.ok h₀).target (.links r p role) hs.2
    have hfound := hs.1.found (k := .object p) trivial hplayer
    exact (hfound.setLinksCount h₀ hC r.2 (.inl (.inr rfl)) (fun _ => .inr rfl) hrelates
      hplays).mono fun _ => steps

theorem setPlayersOrdered_triple {players : List ObjectVertex} :
    Works panics T s₀ keys (setPlayersOrdered ctx r role players) := by
  refine guard (fun _ => steps) fun _ => (triple_found (.object r) trivial).bind fun _ => ?_
  refine guard (fun _ => steps) fun hrelates => ?_
  refine (checked fun _ => steps).bind fun _ => ?_
  have hrelates := capabilityFor_isSome_iff.mp hrelates
  refine bind (players_triple players) fun _ => assume fun hplays => ?_
  refine guard (fun _ => steps) fun _ => ?_
  refine read.bind fun old => ?_
  refine (forM_triple fun p _ => ?_).bind fun _ => ?_
  · split_ifs
    · exact .pure fun _ h => h
    · exact .update fun s hs => hs.unsetLinks h₀ hC
  refine (forM_triple fun p hp => .update fun s hs => ?_).bind fun _ => ?_
  · have hp : p ∈ players := mem_dedup.mp ((ctx.objectOrder.perm _).mem_iff.mp hp)
    exact hs.setLinksCount h₀ hC r.2 (.inl (.inr rfl)) (fun _ => .inr ⟨p, hp, rfl⟩) hrelates
      (hplays p hp)
  · refine .update fun s hs => ?_
    exact (hs.1.step hC (.writeOrder (.linksOrder r role) trivial _)).step hC (.lock _ id)

end Operate

section Deletions
variable {T : Terms} {panics : Prop} {s₀ s t : Snapshot} {ctx : Context}
  {v : ObjectVertex} {a : AttributeVertex}

theorem Steps.foldlM {β : Type} {f : Snapshot → β → Option Snapshot} {l : List β}
    (hf : ∀ x s, Steps T s₀ s → Returns True (f s x) (Steps T s₀))
    (h : Steps T s₀ s) (ht : l.foldlM f s = some t) : Steps T s₀ t :=
  (returns_foldlM (I := fun _ => Steps T s₀) (fun x _ s hs => hf x s hs) h).of_some ht

section Steps
variable (h : Steps T s₀ s) (h₀ : s₀.Ok) (hC : T.allows ctx)
include h h₀ hC

theorem Steps.deleteEdges (ht : s.deleteEdges ctx v = some t) : Steps T s₀ t := by
  rw [Snapshot.deleteEdges] at ht
  obtain ⟨s₁, h₁, ht⟩ := Option.bind_eq_some_iff.mp ht
  have hs₁ := h.foldlM (fun x s hs => (hs.between.unsetHas h₀ hC).mono fun _ => steps) h₁
  refine Steps.foldlM (fun x s hs => (hs.between.unsetLinks h₀ hC).mono fun _ => steps) ?_
    ht
  exact List.foldlRecOn _ _ hs₁ fun u hu a _ => hu.step hC (.writeOrder (.hasOrder v a) trivial _)

theorem Steps.deleteEntity (hv : v.kind = .entity) :
    Returns panics (s.deleteEntity ctx v) (Steps T s₀) := by
  obtain ⟨t, ht, hc⟩ := (h.ok h₀).deleteEntityEdges ctx hv
  obtain ⟨u, hu, -⟩ := hc.deleteObject
  rw [Snapshot.deleteEntity, ht]
  exact returns_of_eq hu ((h.deleteEdges h₀ hC ht).step hC
    (.deleteObject v (fun e he => hc.get_cleared he) hu))

theorem Steps.deleteRelation : Returns panics (s.deleteRelation ctx v) (Steps T s₀) := by
  obtain ⟨t, u, ht, hu, hc⟩ := (h.ok h₀).deleteRelationEdges ctx v
  obtain ⟨w, hw, -⟩ := hc.deleteObject
  have hplayers : Steps T s₀ u := (h.deleteEdges h₀ hC ht).foldlM
    (fun x s hs => (hs.between.unsetLinks h₀ hC).mono fun _ => steps) hu
  rw [Snapshot.deleteRelation, ht]
  simp only [Option.bind_eq_bind, Option.bind_some, hu]
  exact returns_of_eq hw (hplayers.step hC (.deleteObject v (fun e he => hc.get_cleared he) hw))

theorem Steps.deleteOwnedAttribute
    (hsafe : panics ∨ (s.getStatus (.attr a) = .put → a.storedValue = a.unputValue)) :
    Returns panics (s.deleteOwnedAttribute a) (Steps T s₀) := by
  obtain ⟨t, ht, hc⟩ := (h.ok h₀).deleteOwners a
  have howners : Steps T s₀ t :=
    h.foldlM (fun x s hs => (hs.between.unsetHas h₀ hC).mono fun _ => steps) ht
  cases hu : t.deleteAttribute a with
  | some u =>
    rw [Snapshot.deleteOwnedAttribute, ht]
    exact returns_of_eq hu (howners.step hC
      (.deleteAttribute a (fun o => hc.get_cleared ⟨o, rfl⟩) hu))
  | none =>
    rcases hsafe with hpanics | hvalue
    · rw [Snapshot.deleteOwnedAttribute, ht]
      simp only [Option.bind_eq_bind, Option.bind_some, hu]
      exact hpanics
    · have hstatus : t.getStatus (.attr a) = s.getStatus (.attr a) := by
        rw [getStatus, getStatus, getWrite, getWrite, hc.attributes, hc.storage]
      rw [hc.ok.deleteAttribute_eq (hstatus ▸ hvalue)] at hu
      cases hu

end Steps

end Deletions

namespace Operation

def created : Operation → Option ObjectVertex
  | .createObject v => some v
  | _ => none

def Typed : Operation → Prop
  | .setHasOrdered _ t attributes => ∀ a ∈ attributes, a.typeId = t
  | _ => True

def Sets (op : Operation) (o : ObjectVertex) (a : AttributeVertex) : Prop :=
  match op with
  | .setHasUnordered owner attr => owner = o ∧ attr = a
  | .setHasOrdered owner _ attributes => owner = o ∧ a ∈ attributes
  | _ => False

/-- The operation keeps to the terms, and what it creates is not stored. -/
structure Within (T : Terms) (storage : OrderedMap Key StoredValue) (op : Operation) : Prop where
  fresh : ∀ v, op.created = some v → storage.get? (.object v) = none ∧ T.fresh v
  typed : T.typed → op.Typed
  sets : ∀ o a, op.Sets o a → T.sets o a

/-- No attribute is deleted that is put and could not be un-put. -/
def Safe (s : Snapshot) : Operation → Prop
  | .deleteAttribute a => s.getStatus (.attr a) = .put → a.storedValue = a.unputValue
  | _ => True

variable {T : Terms} {panics : Prop} {s₀ : Snapshot} {ctx : Context}

theorem run_triple (op : Operation) (h₀ : s₀.Ok) (hC : T.allows ctx)
    (hop : op.Within T s₀.storage) :
    Triple panics (fun s => Steps T s₀ s ∧ (panics ∨ op.Safe s)) (op.run ctx)
      (fun _ => Steps T s₀) (Steps T s₀) := by
  cases op with
  | createObject v =>
    refine (checked fun _ h => h.1).bind fun _ => .update fun s hs => ?_
    obtain ⟨hnew, hid⟩ := hop.fresh v rfl
    exact hs.1.step hC (.createObject v ((hs.1.storage h₀).symm ▸ hnew) hid)
  | createAttribute a =>
    refine (checked fun _ h => h.1).bind fun _ =>
      (checked fun _ h => h.1).bind fun _ => ?_
    refine (validateValueType_triple fun _ h => h.1).bind fun _ =>
      guard (fun _ h => h.1) fun hvalue => .update fun s hs => ?_
    exact hs.1.step hC (.createAttribute a (of_decide_eq_true hvalue))
  | setHasUnordered o a =>
    exact (setHasUnordered_triple h₀ hC (hop.sets o a ⟨rfl, rfl⟩)).pre fun _ h => h.1.between
  | unsetHasUnordered o a =>
    exact (unsetHasUnordered_triple h₀ hC).pre fun _ h => h.1.between
  | setHasOrdered o t attributes =>
    have hsets : ∀ a ∈ attributes, T.sets o a := fun a ha => hop.sets o a ⟨rfl, ha⟩
    exact (setHasOrdered_triple h₀ hC hop.typed hsets).pre fun _ h => h.1.between
  | unsetHasOrdered o t =>
    exact (unsetHasOrdered_triple h₀ hC).pre fun _ h => h.1.between
  | addPlayer r role p =>
    exact (addPlayer_triple h₀ hC).pre fun _ h => h.1.between
  | removePlayer r role p n =>
    exact (removePlayer_triple h₀ hC).pre fun _ h => h.1.between
  | setPlayersOrdered r role players =>
    exact (setPlayersOrdered_triple h₀ hC).pre fun _ h => h.1.between
  | unsetLinks r p role =>
    exact .update fun s hs => (hs.1.between.unsetLinks h₀ hC).mono fun _ => steps
  | deleteObject v =>
    refine .update fun s hs => ?_
    split
    · exact hs.1.deleteEntity h₀ hC ‹_›
    · exact hs.1.deleteRelation h₀ hC
  | deleteAttribute a => exact .update fun s hs => hs.1.deleteOwnedAttribute h₀ hC hs.2

end Operation

namespace Snapshot
variable {s : Snapshot} {r : ObjectVertex} {a : AttributeVertex}

theorem Ok.get_has_of_hasOwners (h : s.Ok) (ha : s.hasOwners a = some false) (o : ObjectVertex) :
    s.get (.has o a) = none := by
  have hempty : (s.getOwners a).isEmpty = true := by
    rw [hasOwners] at ha
    split at ha <;> simp at ha ⊢ <;> exact ha
  cases hget : s.get (.has o a) with
  | none => rfl
  | some value =>
    have hmem : (o, value) ∈ s.getOwners a :=
      mem_getOwners.mpr ((h.get_reverse (.has o a)).trans hget)
    rw [List.isEmpty_iff.mp hempty] at hmem
    cases hmem

end Snapshot

section Finalising
variable {T : Terms} {s₀ s : Snapshot} {ctx : Context} {writes : SchemaWrites}

theorem Steps.cleanupPass {α : Type} {visit : Snapshot → α → Option (Snapshot × Bool)} {l : List α}
    (h : Steps T s₀ s) (hvisit : ∀ s x, Steps T s₀ s →
      Returns True (visit s x) fun r => Steps T s₀ r.1) :
    Returns True (s.cleanupPass visit l) fun r => Steps T s₀ r.1 := by
  rw [Snapshot.cleanupPass]
  refine returns_foldlM (I := fun _ (r : Snapshot × Bool) => Steps T s₀ r.1)
    (fun x _ r hr => ?_) h
  rw [Option.map_eq_bind]
  exact (hvisit r.1 x hr).bind fun _ h => h

theorem Steps.whileChanged {pass : Snapshot → Option (Snapshot × Bool)} {fuel : Nat}
    (hpass : ∀ s, Steps T s₀ s → Returns True (pass s) fun r => Steps T s₀ r.1) :
    ∀ {s : Snapshot}, Steps T s₀ s →
      Returns True (Programs.whileChanged pass fuel s) (Steps T s₀) := by
  induction fuel with
  | zero => exact fun _ => trivial
  | succ fuel ih =>
    intro s h
    rw [Programs.whileChanged]
    refine (hpass s h).bind fun r hr => ?_
    split_ifs
    · exact ih hr
    · exact hr

/-- What a loop over steps comes to. -/
theorem Steps.fold {β : Type} {f : Snapshot → β → Option Snapshot} {l : List β} (h : Steps T s₀ s)
    (hf : ∀ s x, Steps T s₀ s → Returns True (f s x) (Steps T s₀)) :
    Returns True (l.foldlM f s) (Steps T s₀) :=
  returns_foldlM (I := fun _ => Steps T s₀) (fun x _ s hs => hf s x hs) h

section Cleanup
variable (h : Steps T s₀ s) (h₀ : s₀.Ok) (hC : T.allows ctx)
include h h₀ hC

theorem Steps.cleanupRelation (r : ObjectVertex) :
    Returns True (s.cleanupRelation ctx r) fun r => Steps T s₀ r.1 :=
  returns_ite h fun _ => (h.deleteRelation h₀ hC).bind fun _ h => h

theorem Steps.cleanupUnlinked (r : ObjectVertex) :
    Returns True (s.cleanupUnlinked ctx r) fun r => Steps T s₀ r.1 := by
  rw [Snapshot.cleanupUnlinked]
  split_ifs
  · exact h
  · exact returns_ite h fun _ => h
  · exact returns_ite h fun _ => (h.deleteRelation h₀ hC).bind fun _ h => h

theorem Steps.cleanupRelations : Returns True (s.cleanupRelations ctx writes) (Steps T s₀) := by
  rw [Snapshot.cleanupRelations]
  have hrelation : ∀ s r, Steps T s₀ s →
      Returns True (s.cleanupRelation ctx r) fun r => Steps T s₀ r.1 :=
    fun s r hs => hs.cleanupRelation h₀ hC r
  refine (Steps.whileChanged (fun s hs => hs.cleanupPass fun s r hs =>
    hs.cleanupUnlinked h₀ hC r) h).bind fun s₁ h₁ => ?_
  refine (Steps.whileChanged (fun s hs => hs.cleanupPass hrelation) h₁).bind fun s₂ h₂ => ?_
  exact Steps.whileChanged (fun s hs => hs.cleanupPass fun s type hs =>
    hs.cleanupPass hrelation) h₂

theorem Steps.cleanupAttributes : Returns True (s.cleanupAttributes ctx writes) (Steps T s₀) := by
  have hdelete : ∀ s a, Steps T s₀ s →
      Returns True (do if ← s.hasOwners a then some s else s.deleteOwnedAttribute a)
        (Steps T s₀) :=
    fun s a hs => returns_ite hs fun _ => hs.deleteOwnedAttribute h₀ hC (.inl trivial)
  have hput : ∀ s a, Steps T s₀ s → Returns True (cleanupPut ctx s a) (Steps T s₀) := by
    intro s a hs
    rw [cleanupPut]
    split_ifs
    · exact hs
    · refine returns_ite hs fun howners => ?_
      cases ht : s.unputAttribute a with
      | none => trivial
      | some t =>
        exact hs.step hC (.unputAttribute a ((hs.ok h₀).get_has_of_hasOwners howners) ht)
  rw [Snapshot.cleanupAttributes]
  refine (h.fold fun s a hs => ?_).bind fun s₁ h₁ => (h₁.fold hput).bind fun s₂ h₂ =>
    (h₂.fold hput).bind fun s₃ h₃ => h₃.fold fun s type hs => ?_
  · rw [cleanupUnowned]
    split_ifs
    · exact hs
    · exact hs
    · exact hdelete s a hs
  · rw [cleanupInstances]
    split_ifs
    · exact hs.fold hdelete
    · exact hs

theorem Steps.updateRelationIndices {tracker : CardinalityChangeTracker} :
    Returns True (s.updateRelationIndices ctx tracker) (Steps T s₀) := by
  refine h.fold fun s p hs => ?_
  rw [updateRelationIndex]
  refine hs.fold fun s q hs => ?_
  split_ifs
  · exact hs.step hC (.index p.1 (hs.ok h₀).regenerate)
  · obtain ⟨t, ht, hstep⟩ := (hs.ok h₀).remove p.1 q.1.1 p.2
    exact returns_of_eq ht (hs.step hC (.index p.1 hstep))

end Cleanup

theorem Steps.lockCardinalities {I : Type} {interface : I → Encoding.TypeID}
    {kind : CapabilityKind} {object : ObjectVertex}
    {constraints : List (CapabilityConstraint ObjectType I)} (h : Steps T s₀ s)
    (hC : T.allows ctx) :
    Steps T s₀ (s.lockCardinalities interface kind object constraints) :=
  List.foldlRecOn _ _ h fun _ ht _ _ => ht.step hC (.lock _ id)

theorem Steps.lockUnique {o : ObjectVertex} {a : AttributeVertex} (h : Steps T s₀ s)
    (hC : T.allows ctx) : Returns True (s.lockUnique ctx o a) (Steps T s₀) := by
  rw [Snapshot.lockUnique]
  split
  · exact h
  · split_ifs
    · exact h.step hC (.lock _ id)
    · trivial

namespace Finalise

theorem createCommitLocks_triple (hC : T.allows ctx) :
    Triple True (Steps T s₀) (createCommitLocks ctx) (fun _ => Steps T s₀)
      (Steps T s₀) := by
  refine read.bind fun keys => ?_
  refine forM (I := fun _ => Steps T s₀) (fun k _ => ?_) keys
  unfold createCommitLock
  split
  · refine (checked fun _ h => h).bind fun _ => ?_
    refine (update fun s hs => hs.lockUnique hC).bind fun _ => ?_
    exact .update fun s hs => hs.lockCardinalities hC
  · exact .update fun s hs => (hs.lockCardinalities hC).lockCardinalities hC
  · exact .pure fun _ h => h

theorem finalise_triple (h₀ : s₀.Ok) (hC : T.allows ctx) :
    Triple True (Steps T s₀) (finalise ctx writes) (fun _ => Steps T s₀)
      (Steps T s₀) := by
  have hbuild : Triple True (Steps T s₀) (buildTracker ctx writes)
      (fun _ => Steps T s₀) (Steps T s₀) := by
    intro s hs
    change Returns True ((s.changeTracker ctx writes).map _) _
    rw [Option.map_eq_bind]
    exact (show Returns True (s.changeTracker ctx writes) fun _ => True by
      cases s.changeTracker ctx writes <;> trivial).bind fun _ _ => hs
  refine hbuild.bind fun tracker => ?_
  refine read.bind fun errors => ?_
  have hcleanup : Triple True (Steps T s₀) (do
      update fun s => s.cleanupRelations ctx writes
      update fun s => s.cleanupAttributes ctx writes
      createCommitLocks ctx) (fun _ => Steps T s₀) (Steps T s₀) := by
    refine (update fun s hs => hs.cleanupRelations h₀ hC).bind fun _ => ?_
    refine (update fun s hs => hs.cleanupAttributes h₀ hC).bind fun _ => ?_
    exact createCommitLocks_triple hC
  split_ifs
  · exact (update fun s hs => hs.updateRelationIndices h₀ hC).bind fun _ => hcleanup
  · exact hcleanup
  · exact .throw fun _ h => h

end Finalise

end Finalising

abbrev Requests := List (Context × Operation)

/-- One operation after the other, also after one has failed; `none` is a panic. -/
def Snapshot.perform (requests : Requests) (s : Snapshot) : Option Snapshot :=
  requests.foldlM (fun s request => (exec (request.2.run request.1) s).map (·.2)) s

theorem Steps.perform {T : Terms} {s₀ s : Snapshot} {requests : Requests}
    (h : Steps T s₀ s) (h₀ : s₀.Ok)
    (hrequests : ∀ request ∈ requests, T.allows request.1 ∧ request.2.Within T s₀.storage) :
    Returns True (s.perform requests) (Steps T s₀) := by
  rw [Snapshot.perform]
  induction requests generalizing s with
  | nil => exact h
  | cons request requests ih =>
    obtain ⟨hC, hop⟩ := hrequests request mem_cons_self
    rw [foldlM_cons]
    refine ((request.2.run_triple h₀ hC hop).state ⟨h, .inl trivial⟩).bind
      fun s₁ h₁ => ?_
    exact ih h₁ fun r hr => hrequests r (mem_cons_of_mem _ hr)

end TypeDB.Concept
