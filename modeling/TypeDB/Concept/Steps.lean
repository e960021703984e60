import Mathlib.Logic.Relation
import TypeDB.Concept.Deletion
import TypeDB.Concept.Finalise

/-! The writes of a transaction taken one by one. Whatever an operation does, it does it in such
steps, so that what a step keeps holds throughout a transaction. -/

namespace TypeDB.Concept
open Option Snapshot
open Encoding (ObjectVertex)
open Programs Edge

def Key.IsOrder : Key → Prop
  | .hasOrder _ _ | .linksOrder _ _ => True
  | _ => False

def Key.IsVertex : Key → Prop
  | .object _ | .attr _ => True
  | _ => False

/-- What the operations of a transaction keep to: the contexts they run in, whether only ownerships
that the schema knows of are put, the objects that are the transaction's to create, and the
ownerships that it asks for. -/
structure Terms where
  allows : Context → Prop
  typed : Prop
  fresh : ObjectVertex → Prop
  sets : ObjectVertex → AttributeVertex → Prop

inductive Step (T : Terms) (ctx : Context) (s : Snapshot) : Snapshot → Prop
  | createObject (v : ObjectVertex) (hnew : s.storage.get? (.object v) = none)
      (hfresh : T.fresh v) : Step T ctx s (s.createObject v)
  | createAttribute (a : AttributeVertex)
      (hvalue : ctx.schema.valueType a.typeId = some a.value.category) :
      Step T ctx s (s.createAttribute a)
  | putHas (o : ObjectVertex) (a : AttributeVertex) {n : Nat} (hn : 0 < n)
      (ho : (s.get (.object o)).isSome) (ha : (s.get (.attr a)).isSome)
      (hunique : s.validateHasUniqueConstraint ctx o a = true)
      (howned : T.typed → ctx.schema.owns.Has (vertexType o) a.typeId) (hsets : T.sets o a) :
      Step T ctx s (s.putHas o a n)
  | unsetHas (o : ObjectVertex) (a : AttributeVertex) {t : Snapshot}
      (ht : s.unsetHas o a = some t) : Step T ctx s t
  | putLinks (r p : ObjectVertex) (role : RoleType) {n : Nat} (hn : 0 < n)
      (hkind : r.kind = .relation) (hr : (s.get (.object r)).isSome)
      (hp : (s.get (.object p)).isSome) (hrelates : ctx.schema.relates.Has (vertexType r) role)
      (hplays : ctx.schema.plays.Has (vertexType p) role) :
      Step T ctx s (s.putLinks ctx r p role n)
  | unsetLinks (r p : ObjectVertex) (role : RoleType) {t : Snapshot}
      (ht : s.unsetLinks ctx r p role = some t) : Step T ctx s t
  | deleteObject (v : ObjectVertex) (hv : s.Isolated v) {t : Snapshot}
      (ht : s.deleteObject v = some t) : Step T ctx s t
  | deleteAttribute (a : AttributeVertex) (ha : ∀ o, s.get (.has o a) = none) {t : Snapshot}
      (ht : s.deleteAttribute a = some t) : Step T ctx s t
  | unputAttribute (a : AttributeVertex) (ha : ∀ o, s.get (.has o a) = none) {t : Snapshot}
      (ht : s.unputAttribute a = some t) : Step T ctx s t
  | writeOrder (k : Key) (hk : k.IsOrder) (w : Storage.Write StoredValue) :
      Step T ctx s (s.write k w)
  | lock (k : Key) (hk : ¬ k.IsVertex) : Step T ctx s (s.exclusiveLockAdd k)
  | index (r : ObjectVertex) {t : Snapshot} (ht : Snapshot.IndexStep r s t) : Step T ctx s t

def Steps (T : Terms) : Snapshot → Snapshot → Prop :=
  Relation.ReflTransGen fun s t => ∃ ctx, T.allows ctx ∧ Step T ctx s t

namespace Snapshot
variable {ctx : Context} {s t : Snapshot} {v r p o : ObjectVertex} {a : AttributeVertex}
  {role : RoleType} {k k' : Key} {n : Nat} {e : Edge} {T : Terms}

theorem key_ne_of_isVertex (hk : k.IsVertex) : k ≠ e.key ∧ k ≠ e.reverse := by
  constructor <;> rintro rfl <;> cases e <;> exact hk

theorem writes_putHas : (s.putHas o a n).writes.get? k =
    if k = .has o a ∨ k = .hasReverse a o then some (.put (.count n) false)
    else s.writes.get? k := by
  refine (writes_putEdge (e := .has o a)).trans ?_
  change (if _ then _ else (s.setRequiredObject o).writes.get? k) = _
  rw [writes_setRequiredObject]
  rfl

theorem get_putHas (hk : k.IsVertex) : (s.putHas o a n).get k = s.get k := by
  have hne : ¬ (k = .has o a ∨ k = .hasReverse a o) :=
    not_or.mpr (key_ne_of_isVertex (e := .has o a) hk)
  have hstorage : (s.putHas o a n).storage = s.storage := storage_setRequiredObject
  rw [get_eq, get_eq, writes_putHas, if_neg hne, hstorage]

theorem storage_regenerate (s : Snapshot) (r p : ObjectVertex) (role : RoleType) (n : Nat) :
    (s.relationIndexPlayerRegenerate r p role n).storage = s.storage := by
  rw [relationIndexPlayerRegenerate]
  refine List.foldlRecOn (motive := fun t : Snapshot => t.storage = s.storage) _ _ rfl
    fun t ht rp _ => ?_
  obtain ⟨⟨rpPlayer, rpRole⟩, rpCount⟩ := rp
  dsimp only
  split_ifs <;> exact ht

theorem storage_putLinks (s : Snapshot) (ctx : Context) (r p : ObjectVertex) (role : RoleType)
    (n : Nat) : (s.putLinks ctx r p role n).storage = s.storage := by
  have hput : ((s.setRequiredObject r).setRequiredObject p).storage = s.storage := by simp
  rw [putLinks]
  split_ifs
  · exact (storage_regenerate ..).trans hput
  · exact hput

section PutLinks
variable (h : s.Ok) (ctx : Context) (role : RoleType) (hn : 0 < n) (hkind : r.kind = .relation)
  (hr : (s.get (.object r)).isSome) (hp : (s.get (.object p)).isSome)
include h hn hkind hr hp

theorem Ok.writes_putLinks (hk : ¬ k.IndexOf r) : (s.putLinks ctx r p role n).writes.get? k =
      if k = .links r p role ∨ k = .linksReverse p r role then some (.put (.count n) false)
      else s.writes.get? k := by
  have hput := h.putLinked role hn hkind hr hp
  have hwrites : (((s.setRequiredObject r).setRequiredObject p).putEdge (.links r p role)
      (.linksReverse p r role) n).writes.get? k =
      if k = .links r p role ∨ k = .linksReverse p r role then some (.put (.count n) false)
      else s.writes.get? k := by
    refine (writes_putEdge (e := .links r p role)).trans ?_
    rw [writes_setRequiredObject, writes_setRequiredObject]
    rfl
  rw [Snapshot.putLinks]
  by_cases hindex : ctx.relationIndexAvailable r = true
  · rw [if_pos hindex]
    exact (hput.regenerate.agrees.writes k hk).trans hwrites
  · rw [if_neg hindex]
    exact hwrites

theorem Ok.get_putLinks (hk : k.IsVertex) : (s.putLinks ctx r p role n).get k = s.get k := by
  have hindex : ¬ k.IndexOf r := by cases k <;> first | exact id | exact hk.elim
  have hne : ¬ (k = .links r p role ∨ k = .linksReverse p r role) :=
    not_or.mpr (key_ne_of_isVertex (e := .links r p role) hk)
  rw [get_eq, get_eq, h.writes_putLinks ctx role hn hkind hr hp hindex, storage_putLinks,
    if_neg hne]

end PutLinks

theorem Ok.writeOrder (h : s.Ok) (hk : k.IsOrder) (w : Storage.Write StoredValue) :
    (s.write k w).Ok := by
  have hag : AgreesOff (fun k' => k' = k) s (s.write k w) := agreesOff_write rfl
  refine h.changeOther hag ?_ ?_ ?_ ?_
  · rintro v rfl
    exact hk
  · rintro a rfl
    exact hk
  · intro e
    cases e <;> exact ⟨fun h => by rw [← h] at hk; exact hk, fun h => by rw [← h] at hk; exact hk⟩
  · rintro p q r role role' w' rfl
    exact hk.elim

theorem Ok.deleteObject (h : s.Ok) (hv : s.Isolated v) (ht : s.deleteObject v = some t) : t.Ok := by
  rw [h.deleteObject_eq] at ht
  cases ht
  exact h.clearObject hv

theorem Ok.eq_of_deleteAttribute (h : s.Ok) (ht : s.deleteAttribute a = some t) :
    t = s.clear (.attr a) := by
  have hvalue : s.getStatus (.attr a) = .put → a.storedValue = a.unputValue := by
    intro hput
    rw [deleteAttribute, hput] at ht
    rw [h.getStatus_attr_eq_put] at hput
    by_contra hne
    simp only [unputAttribute_of_put hput, if_neg hne, bind_eq_bind, bind_none, reduceCtorEq] at ht
  rw [h.deleteAttribute_eq hvalue] at ht
  exact (some.inj ht).symm

theorem eq_of_unputAttribute (ht : s.unputAttribute a = some t) :
    (s.get (.attr a)).isSome ∧ t = s.unwrite (.attr a) := by
  rw [unputAttribute, unputVal] at ht
  split at ht
  · rename_i hw
    split_ifs at ht
    exact ⟨by rw [get_of_write hw]; rfl, (some.inj ht).symm⟩
  · cases ht

theorem Ok.unsetHas (h : s.Ok) (ht : s.unsetHas o a = some t) : t = s.clearEdge (.has o a) := by
  have heq := h.unsetEdge_eq (.has o a)
  exact (some.inj (heq.symm.trans ht)).symm

theorem Ok.unsetLinks (h : s.Ok) (ht : s.unsetLinks ctx r p role = some t) : t.Ok := by
  obtain ⟨u, hu, hc⟩ : ∃ u, s.unsetLinks ctx r p role = some u ∧ Cleared _ s u :=
    h.cleared.unsetLinks ctx
  rw [hu] at ht
  cases ht
  exact hc.ok

theorem Ok.step (h : s.Ok) (hstep : Step T ctx s t) : t.Ok := by
  cases hstep with
  | createObject v hnew => exact h.createObject hnew
  | createAttribute a => exact h.createAttribute
  | putHas o a hn ho ha => exact h.putHas hn ho ha
  | unsetHas o a ht => exact h.unsetHas ht ▸ h.clearEdge
  | putLinks r p role hn hkind hr hp => exact h.putLinks ctx role hn hkind hr hp
  | unsetLinks r p role ht => exact h.unsetLinks ht
  | deleteObject v hv ht => exact h.deleteObject hv ht
  | deleteAttribute a ha ht => exact h.eq_of_deleteAttribute ht ▸ h.clearAttribute ha
  | unputAttribute a ha ht => exact (eq_of_unputAttribute ht).2 ▸ h.unwriteAttribute ha
  | writeOrder k hk w => exact h.writeOrder hk w
  | lock k hk =>
    refine h.lockAdd (.inr ⟨?_, ?_⟩)
    · rintro v rfl
      exact hk trivial
    · rintro a rfl
      exact hk trivial
  | index r ht => exact ht.ok

theorem step_storage (h : s.Ok) (hstep : Step T ctx s t) : t.storage = s.storage := by
  cases hstep with
  | createObject v hnew => rfl
  | createAttribute a =>
    rw [createAttribute]
    split_ifs <;> rfl
  | putHas o a => exact storage_setRequiredObject
  | unsetHas o a ht => rw [h.unsetHas ht, storage_clearEdge]
  | putLinks r p role => exact storage_putLinks ..
  | unsetLinks r p role ht =>
    obtain ⟨u, hu, hc⟩ : ∃ u, s.unsetLinks ctx r p role = some u ∧ Cleared _ s u :=
      h.cleared.unsetLinks ctx
    rw [hu] at ht
    exact some.inj ht ▸ hc.storage
  | deleteObject v hv ht =>
    rw [h.deleteObject_eq] at ht
    cases ht
    exact storage_clear
  | deleteAttribute a ha ht => rw [h.eq_of_deleteAttribute ht, storage_clear]
  | unputAttribute a ha ht => rw [(eq_of_unputAttribute ht).2, storage_unwrite]
  | writeOrder k hk w | lock k hk => rfl
  | index r ht => exact ht.agrees.storage

inductive EdgePut (T : Terms) (ctx : Context) (s : Snapshot) : Edge → Prop
  | has {o : ObjectVertex} {a : AttributeVertex} (ho : (s.get (.object o)).isSome)
      (ha : (s.get (.attr a)).isSome) (hunique : s.validateHasUniqueConstraint ctx o a = true)
      (howned : T.typed → ctx.schema.owns.Has (vertexType o) a.typeId) (hsets : T.sets o a) :
      EdgePut T ctx s (.has o a)
  | links {r p : ObjectVertex} {role : RoleType} (hr : (s.get (.object r)).isSome)
      (hp : (s.get (.object p)).isSome) (hrelates : ctx.schema.relates.Has (vertexType r) role)
      (hplays : ctx.schema.plays.Has (vertexType p) role) : EdgePut T ctx s (.links r p role)

/-- What a step may do to the write of a key, where `e` is the edge that it puts. -/
inductive Change (T : Terms) (ctx : Context) (s t : Snapshot) (e : Option Edge) (k : Key) : Prop
  | same (hw : t.writes.get? k = s.writes.get? k)
  | insert {v : ObjectVertex} (hk : k = .object v) (hfresh : T.fresh v)
  | create {a : AttributeVertex} (hk : k = .attr a)
      (hvalue : ctx.schema.valueType a.typeId = some a.value.category)
  | put {f : Edge} (he : e = some f) (hk : k = f.key ∨ k = f.reverse)
  | clear (hw : t.writes.get? k = if (s.storage.get? k).isSome then some .delete else none)
  | unput {a : AttributeVertex} (hk : k = .attr a) (hs : (s.get k).isSome)
      (hw : t.writes.get? k = none)
  | other (hk : k.IsOrder ∨ ∃ r, k.IndexOf r)

theorem Change.of_clear {e : Option Edge} (k' : Key) (hw : t.writes = (s.clear k').writes) :
    Change T ctx s t e k := by
  by_cases hk : k = k'
  · exact .clear (by rw [hw, writes_clear, if_pos hk, hk])
  · exact .same (by rw [hw, writes_clear, if_neg hk])

theorem Ok.change_clearEdge {e : Option Edge} (h : s.Ok) (f : Edge)
    (hw : t.writes.get? k = (s.clearEdge f).writes.get? k) : Change T ctx s t e k := by
  rw [h.writes_clearEdge] at hw
  by_cases hk : k = f.key ∨ k = f.reverse
  · rw [if_pos hk] at hw
    refine .clear (hw.trans ?_)
    rcases hk with rfl | rfl
    · rfl
    · rw [h.stored.paired]
  · exact .same (hw.trans (if_neg hk))

theorem Ok.writes_unsetLinks (h : s.Ok) (ht : s.unsetLinks ctx r p role = some t)
    (hk : ¬ k.IndexOf r) : t.writes.get? k = (s.clearEdge (.links r p role)).writes.get? k := by
  have hunset : s.unsetEdge r (.links r p role) (.linksReverse p r role) =
      some (s.clearEdge (.links r p role)) := h.unsetEdge_eq (.links r p role)
  rw [Snapshot.unsetLinks, hunset, bind_eq_bind, bind_some] at ht
  split_ifs at ht
  · obtain ⟨u, hu, hstep⟩ := h.clearEdge.remove r p role
    rw [hu] at ht
    exact some.inj ht ▸ hstep.agrees.writes k hk
  · rw [some.inj ht]

section
variable (h : s.Ok) (hstep : Step T ctx s t)
include h hstep

theorem step_writes :
    ∃ e : Option Edge, (∀ f, e = some f → EdgePut T ctx s f) ∧ ∀ k, Change T ctx s t e k := by
  cases hstep with
  | createObject v hnew hfresh =>
    refine ⟨none, nofun, fun k => ?_⟩
    by_cases hk : k = .object v
    · exact .insert hk hfresh
    · exact .same (writes_write.trans (if_neg hk))
  | createAttribute a hvalue =>
    refine ⟨none, nofun, fun k => ?_⟩
    by_cases hk : k = .attr a
    · exact .create hk hvalue
    · refine .same ?_
      rw [createAttribute]
      split_ifs <;> exact writes_write.trans (if_neg hk)
  | putHas o a hn ho ha hunique howned hsets =>
    refine ⟨some (.has o a), fun f hf => ?_, fun k => ?_⟩
    · cases hf
      exact .has ho ha hunique howned hsets
    · by_cases hk : k = .has o a ∨ k = .hasReverse a o
      · exact .put rfl hk
      · exact .same (writes_putHas.trans (if_neg hk))
  | unsetHas o a ht =>
    exact ⟨none, nofun, fun k => h.change_clearEdge (.has o a) (by rw [h.unsetHas ht])⟩
  | putLinks r p role hn hkind hr hp hrelates hplays =>
    refine ⟨some (.links r p role), fun f hf => ?_, fun k => ?_⟩
    · cases hf
      exact .links hr hp hrelates hplays
    · by_cases hindex : k.IndexOf r
      · exact .other (.inr ⟨r, hindex⟩)
      · by_cases hk : k = .links r p role ∨ k = .linksReverse p r role
        · exact .put rfl hk
        · exact .same ((h.writes_putLinks ctx role hn hkind hr hp hindex).trans (if_neg hk))
  | unsetLinks r p role ht =>
    refine ⟨none, nofun, fun k => ?_⟩
    by_cases hindex : k.IndexOf r
    · exact .other (.inr ⟨r, hindex⟩)
    · exact h.change_clearEdge (.links r p role) (h.writes_unsetLinks ht hindex)
  | deleteObject v hv ht =>
    rw [h.deleteObject_eq] at ht
    cases ht
    exact ⟨none, nofun, fun k => .of_clear (.object v) rfl⟩
  | deleteAttribute a ha ht =>
    exact ⟨none, nofun, fun k => .of_clear (.attr a) (by rw [h.eq_of_deleteAttribute ht])⟩
  | unputAttribute a ha ht =>
    refine ⟨none, nofun, fun k => ?_⟩
    obtain ⟨hget, heq⟩ := eq_of_unputAttribute ht
    by_cases hk : k = .attr a
    · exact .unput hk (hk ▸ hget) (by rw [heq, writes_unwrite, if_pos hk])
    · exact .same (by rw [heq, writes_unwrite, if_neg hk])
  | writeOrder k' hk' w =>
    refine ⟨none, nofun, fun k => ?_⟩
    by_cases hk : k = k'
    · exact .other (.inl (hk ▸ hk'))
    · exact .same (writes_write.trans (if_neg hk))
  | lock k' hk' => exact ⟨none, nofun, fun k => .same rfl⟩
  | index r ht =>
    refine ⟨none, nofun, fun k => ?_⟩
    by_cases hk : k.IndexOf r
    · exact .other (.inr ⟨r, hk⟩)
    · exact .same (ht.agrees.writes k hk)

theorem step_inserts {value : StoredValue}
    (hv : t.writes.get? (.object v) = some (.insert value)) :
    s.writes.get? (.object v) = some (.insert value) ∨ T.fresh v := by
  obtain ⟨e, -, hchange⟩ := step_writes h hstep
  cases hchange (.object v) with
  | same hw => exact .inl (hw ▸ hv)
  | insert hk hfresh => exact .inr (Key.object.inj hk ▸ hfresh)
  | create hk => cases hk
  | put _ hk => exact (hk.elim object_ne_key object_ne_reverse).elim
  | clear hw =>
    rw [hw] at hv
    split_ifs at hv
    cases hv
  | unput hk => cases hk
  | other hk =>
    rcases hk with hk | ⟨_, hk⟩
    · exact hk.elim
    · exact hk.elim

theorem get_of_change_clear
    (hw : t.writes.get? k = if (s.storage.get? k).isSome then some .delete else none) :
    t.get k = none := by
  cases hstored : s.storage.get? k with
  | none => rw [get_eq, hw, hstored, step_storage h hstep]; exact hstored
  | some value => rw [get_eq, hw, hstored]; rfl

theorem step_attribute (ha : (t.get (.attr a)).isSome) :
    (s.get (.attr a)).isSome ∨ ctx.schema.valueType a.typeId = some a.value.category := by
  obtain ⟨e, -, hchange⟩ := step_writes h hstep
  cases hchange (.attr a) with
  | same hw =>
    rw [get_eq, hw, step_storage h hstep, ← get_eq] at ha
    exact .inl ha
  | insert hk => cases hk
  | create hk hvalue => exact .inr (Key.attr.inj hk ▸ hvalue)
  | put _ hk => exact (hk.elim attr_ne_key attr_ne_reverse).elim
  | clear hw =>
    rw [get_of_change_clear h hstep hw] at ha
    cases ha
  | unput _ hs => exact .inl hs
  | other hk =>
    rcases hk with hk | ⟨_, hk⟩
    · exact hk.elim
    · exact hk.elim

end

def EdgeKept (s t : Snapshot) (e : Edge) : Prop :=
  t.writes.get? e.key = s.writes.get? e.key ∨ t.get e.key = none

theorem step_edges (h : s.Ok) (hstep : Step T ctx s t) :
    ∃ put : Option Edge, (∀ e, put = some e → EdgePut T ctx s e) ∧
      ∀ e, put ≠ some e → EdgeKept s t e := by
  obtain ⟨put, hput, hchange⟩ := step_writes h hstep
  refine ⟨put, hput, fun e he => ?_⟩
  cases hchange e.key with
  | same hw => exact .inl hw
  | insert hk => exact (key_ne_object hk).elim
  | create hk => exact (key_ne_attr hk).elim
  | put hf hk =>
    rcases hk with hk | hk
    · exact absurd (key_inj.mp hk ▸ hf) he
    · exact (key_ne_reverse hk).elim
  | clear hw => exact .inr (get_of_change_clear h hstep hw)
  | unput hk => exact (key_ne_attr hk).elim
  | other hk =>
    rcases hk with hk | ⟨_, hk⟩ <;> cases e <;> exact hk.elim

end Snapshot
end TypeDB.Concept
