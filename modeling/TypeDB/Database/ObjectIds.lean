import TypeDB.Encoding.VertexGenerator

/-! Object ids over the life of a database: snapshots create objects and commit them, the
database is restarted and loads its generator, or has its storage replaced by an import and keeps
the generator it has. -/

namespace TypeDB.Database
open ByteString Encoding List Runs Storage Storage.MVCCKey Function OrderedMap Option ObjectVertex
open ThingVertexGenerator
variable {keyspace : ObjectKeyspace} {v : ObjectVertex}

structure ThingWrite where
  key : Bytes
  operation : StorageOperation
  value : Bytes
  isKey : IsKey key

def ThingWrite.ofObject (v : ObjectVertex) (operation : StorageOperation) : ThingWrite where
  key := v.toBytes
  operation := operation
  value := []
  isKey := ⟨.inl (by simp [ObjectVertex.length]), fun _ _ => ⟨v, rfl⟩⟩

def ThingWrite.ofType (kind : ObjectKind) (typeId : TypeID) (operation : StorageOperation) :
    ThingWrite where
  key := kind.typeByte :: encodeBE 2 typeId.val
  operation := operation
  value := []
  isKey := ⟨.inl (by simp), fun kind' h => by cases kind <;> cases kind' <;> cases h⟩

def ThingWrite.ofLabel (label : Bytes) (kind : ObjectKind) (typeId : TypeID) : ThingWrite where
  key := 182 :: label
  operation := .insert
  value := kind.typeByte :: encodeBE 2 typeId.val
  isKey := ⟨.inr ⟨182, by decide, rfl⟩, fun kind' h => by cases kind' <;> cases h⟩

def ThingWrite.apply (n : Nat) (keyspace : ObjectKeyspace) (w : ThingWrite) : ObjectKeyspace where
  raw := keyspace.raw.insert (MVCCKey.build w.key n w.operation) w.value
  built p hp := by
    rcases OrderedMap.mem_insertList hp with rfl | hp
    · exact ⟨w.key, n, w.operation, rfl, w.isKey⟩
    · exact keyspace.built p hp

/-- `created` holds the vertices that the open snapshots have inserted. -/
structure Objects where
  keyspace : ObjectKeyspace
  watermark : Nat
  generator : ThingVertexGenerator
  created : Nat → List ObjectVertex

inductive ObjectEvent
  | create (i : Nat) (kind : ObjectKind) (typeId : TypeID)
  | commit (i : Nat) (writes : List ThingWrite)
  | close (i : Nat)
  | restart
  | importSnapshot (keyspace : ObjectKeyspace) (watermark : Nat)

namespace Objects

def new : Objects := ⟨.empty, 0, .new, fun _ => []⟩

/-- An object vertex is written by the snapshot that created it, or has been written before. -/
def admits (s : Objects) (i : Nat) (w : ThingWrite) : Bool :=
  [ObjectKind.entity, .relation].all fun kind =>
    !isVertexOf kind keyspaceId w.key ||
      (decide (decode kind w.key ∈ s.created i) ||
        s.keyspace.raw.entries.any fun p => decide (MVCCKey.key p.1 = w.key))

/-- An import needs the storage for itself, and a restart leaves no snapshot open. -/
def step (s : Objects) : ObjectEvent → Option Objects
  | .create i kind typeId =>
    let (vertex, generator) := s.generator.create kind typeId
    some { s with
      generator := generator
      created := Function.update s.created i (vertex :: s.created i) }
  | .commit i writes =>
    if writes.all (s.admits i) then
      some { s with
        keyspace := writes.foldl (ThingWrite.apply (s.watermark + 1)) s.keyspace
        watermark := s.watermark + 1
        created := Function.update s.created i [] }
    else none
  | .close i => some { s with created := Function.update s.created i [] }
  | .restart => (load s.keyspace s.watermark).map fun generator =>
      { s with generator := generator, created := fun _ => [] }
  | .importSnapshot keyspace watermark =>
    some ⟨keyspace, watermark, s.generator, fun _ => []⟩

/-- What a step has to find for ids to stay unused: a counter that does not wrap around, at a
restart only objects of types that are seen, and in an import only ids the generator is past. -/
def KeepsIds (s : Objects) : ObjectEvent → Prop
  | .create _ kind typeId => s.generator.ids kind typeId ≠ Fin.last _
  | .restart => ∀ v, s.keyspace.Stores v →
      v.typeId ∈ s.keyspace.typesAt s.watermark v.kind ∧ v.objectId ≠ Fin.last _
  | .importSnapshot keyspace _ => ∀ v, keyspace.Stores v →
      v.objectId < s.generator.ids v.kind v.typeId
  | _ => True

def KeepsStorage : ObjectEvent → Prop
  | .importSnapshot _ _ => False
  | _ => True

instance (s : Objects) : ∀ e, Decidable (s.KeepsIds e)
  | .create _ kind typeId => inferInstanceAs (Decidable (s.generator.ids kind typeId ≠ _))
  | .restart => decidable_of_iff (∀ v ∈ s.keyspace.vertices,
      v.typeId ∈ s.keyspace.typesAt s.watermark v.kind ∧ v.objectId ≠ Fin.last _)
      (forall_congr' fun _ => by rw [ObjectKeyspace.stores_iff])
  | .importSnapshot keyspace _ => decidable_of_iff (∀ v ∈ keyspace.vertices,
      v.objectId < s.generator.ids v.kind v.typeId)
      (forall_congr' fun _ => by rw [ObjectKeyspace.stores_iff])
  | .commit _ _ => .isTrue trivial
  | .close _ => .isTrue trivial

instance : DecidablePred KeepsStorage
  | .importSnapshot _ _ => .isFalse id
  | .create _ _ _ | .commit _ _ | .close _ | .restart => .isTrue trivial

def Past (s : Objects) (v : ObjectVertex) : Prop := v.objectId < s.generator.ids v.kind v.typeId

structure IdsOk (s : Objects) : Prop where
  stored : ∀ v, s.keyspace.Stores v → s.Past v
  created : ∀ i, ∀ v ∈ s.created i, s.Past v

theorem idsOk_new : IdsOk new := by
  refine ⟨?_, fun _ _ => nofun⟩
  rintro v ⟨p, hp, -⟩
  cases hp

end Objects

theorem ThingWrite.stores_apply {n : Nat} {w : ThingWrite} (h : (w.apply n keyspace).Stores v) :
    w.key = v.toBytes ∨ keyspace.Stores v := by
  obtain ⟨p, hp, hkey⟩ := h
  rcases mem_insertList hp with rfl | hp
  · exact .inl (by rwa [key_build] at hkey)
  · exact .inr ⟨p, hp, hkey⟩

open ThingWrite

theorem ThingWrite.stores_of_stores (n : Nat) (w : ThingWrite) (h : keyspace.Stores v) :
    (w.apply n keyspace).Stores v := by
  obtain ⟨p, hp, hkey⟩ := h
  by_cases hsame : p.1 = MVCCKey.build w.key n w.operation
  · refine ⟨(p.1, w.value), mem_entries.mpr ?_, hkey⟩
    rw [apply, get?_insert, if_pos hsame]
  · refine ⟨p, mem_entries.mpr ?_, hkey⟩
    rw [apply, get?_insert, if_neg hsame]
    exact mem_entries.mp hp

theorem stores_foldl_of_stores (n : Nat) (writes : List ThingWrite) (h : keyspace.Stores v) :
    (writes.foldl (apply n) keyspace).Stores v := by
  induction writes generalizing keyspace with
  | nil => exact h
  | cons w rest ih => exact ih (w.stores_of_stores n h)

theorem stores_foldl_apply {n : Nat} {writes : List ThingWrite}
    (h : (writes.foldl (apply n) keyspace).Stores v) :
    (∃ w ∈ writes, w.key = v.toBytes) ∨ keyspace.Stores v := by
  induction writes generalizing keyspace with
  | nil => exact .inr h
  | cons w rest ih =>
    rcases ih h with ⟨w', hw', hkey⟩ | h
    · exact .inl ⟨w', mem_cons_of_mem _ hw', hkey⟩
    · exact (stores_apply h).imp_left fun hkey => ⟨w, mem_cons_self, hkey⟩

namespace Objects
variable {s s' : Objects} {v : ObjectVertex}

theorem stores_or_created_of_admits {i : Nat} {w : ThingWrite} (h : s.admits i w = true)
    (hkey : w.key = v.toBytes) : v ∈ s.created i ∨ s.keyspace.Stores v := by
  have hkind : v.kind ∈ [ObjectKind.entity, .relation] := by cases v.kind <;> decide
  have hv := all_eq_true.mp h v.kind hkind
  rw [hkey, isVertexOf_toBytes, decode_toBytes, Bool.not_true,
    Bool.false_or, Bool.or_eq_true] at hv
  rcases hv with hv | hv
  · exact .inl (of_decide_eq_true hv)
  · obtain ⟨p, hp, hpkey⟩ := any_eq_true.mp hv
    exact .inr ⟨p, hp, of_decide_eq_true hpkey⟩

theorem lt_add_one_of_le {a b : ObjectID} (hle : a ≤ b) (hb : b ≠ Fin.last _) : a < b + 1 :=
  hle.trans_lt (Fin.lt_add_one_iff.mpr (Fin.lt_last_iff_ne_last.mpr hb))

theorem past_create {kind : ObjectKind} {typeId : TypeID}
    (hwrap : s.generator.ids kind typeId ≠ Fin.last _)
    (h : s.Past v ∨ v = (s.generator.create kind typeId).1) :
    v.objectId < (s.generator.create kind typeId).2.ids v.kind v.typeId := by
  have hsucc : s.generator.ids kind typeId < s.generator.ids kind typeId + 1 :=
    lt_add_one_of_le le_rfl hwrap
  simp only [create]
  by_cases hkind : v.kind = kind
  · rw [hkind, update_self]
    by_cases htype : v.typeId = typeId
    · rw [htype, update_self]
      rcases h with h | rfl
      · rw [Past, hkind, htype] at h
        exact h.trans hsucc
      · exact hsucc
    · rw [update_of_ne htype]
      rcases h with h | rfl
      · exact hkind ▸ h
      · exact absurd rfl htype
  · rw [update_of_ne hkind]
    rcases h with h | rfl
    · exact h
    · exact absurd rfl hkind

theorem idsOk_load (hkeeps : s.KeepsIds .restart) {generator : ThingVertexGenerator}
    (hload : load s.keyspace s.watermark = some generator)
    (hv : s.keyspace.Stores v) : v.objectId < generator.ids v.kind v.typeId := by
  obtain ⟨generator', hload', hids⟩ := load_spec s.keyspace s.watermark
  obtain rfl := some.inj (hload.symm.trans hload')
  obtain ⟨last, hlast, hle, hstored⟩ := loadId_of_stores hv
  have hid := hids v.kind v.typeId (hkeeps v hv).1
  rw [← some.inj (hlast.symm.trans hid)]
  exact lt_add_one_of_le hle (hkeeps _ hstored).2

theorem IdsOk.step (h : s.IdsOk) {e : ObjectEvent} (hkeeps : s.KeepsIds e)
    (hstep : s.step e = some s') : s'.IdsOk := by
  have hclosed : ∀ {t : Objects} (i : Nat), (∀ v, s.Past v → t.Past v) →
      t.created = update s.created i [] → ∀ j, ∀ v ∈ t.created j, t.Past v := by
    intro t i hpast ht j v hv
    rw [ht] at hv
    by_cases hj : j = i
    · rw [hj, update_self] at hv
      cases hv
    · rw [update_of_ne hj] at hv
      exact hpast v (h.created j v hv)
  cases e with
  | create i kind typeId =>
    cases hstep
    refine ⟨fun v hv => past_create hkeeps (.inl (h.stored v hv)), fun j v hv => ?_⟩
    dsimp only at hv
    by_cases hj : j = i
    · subst hj
      rw [update_self] at hv
      rcases mem_cons.mp hv with hv | hv
      · exact past_create hkeeps (.inr hv)
      · exact past_create hkeeps (.inl (h.created j v hv))
    · rw [update_of_ne hj] at hv
      exact past_create hkeeps (.inl (h.created j v hv))
  | commit i writes =>
    rw [Objects.step] at hstep
    split_ifs at hstep with hadmits
    cases hstep
    refine ⟨fun v hv => ?_, hclosed i (fun _ hv => hv) rfl⟩
    rcases stores_foldl_apply hv with ⟨w, hw, hkey⟩ | hv
    · rcases stores_or_created_of_admits (all_eq_true.mp hadmits w hw) hkey with hv | hv
      · exact h.created i v hv
      · exact h.stored v hv
    · exact h.stored v hv
  | close i =>
    cases hstep
    exact ⟨h.stored, hclosed i (fun _ hv => hv) rfl⟩
  | restart =>
    obtain ⟨generator, hload, rfl⟩ := map_eq_some_iff.mp hstep
    exact ⟨fun v hv => idsOk_load hkeeps hload hv, fun _ _ => nofun⟩
  | importSnapshot keyspace watermark =>
    cases hstep
    exact ⟨hkeeps, fun _ _ => nofun⟩

theorem idsOk_of_reach (h : Reach step KeepsIds new s) : s.IdsOk :=
  h.invariant idsOk_new fun _ _ _ hs hkeeps hstep => hs.step hkeeps hstep

theorem stores_of_reach (h : Reach step (fun s e => s.KeepsIds e ∧ KeepsStorage e) s s')
    (hv : s.keyspace.Stores v) : s'.keyspace.Stores v := by
  refine h.invariant (P := fun s => s.keyspace.Stores v) hv ?_
  rintro t e t' ht ⟨-, hkeeps⟩ hstep
  cases e with
  | create i kind typeId =>
    cases hstep
    exact ht
  | commit i writes =>
    rw [Objects.step] at hstep
    split_ifs at hstep
    cases hstep
    exact stores_foldl_of_stores _ writes ht
  | close i =>
    cases hstep
    exact ht
  | restart =>
    obtain ⟨generator, -, rfl⟩ := map_eq_some_iff.mp hstep
    exact ht
  | importSnapshot keyspace watermark => exact hkeeps.elim

/-- As long as every step finds what it has to, no id that is handed out later is that of an
object of the type with a version in the storage. -/
theorem created_ids_unused (h : Reach step KeepsIds new s)
    (h' : Reach step (fun s e => s.KeepsIds e ∧ KeepsStorage e) s s') (kind : ObjectKind)
    (typeId : TypeID) : ¬ s.keyspace.Stores (s'.generator.create kind typeId).1 := by
  intro hv
  have hreach : Reach step KeepsIds new s' := h.trans (h'.mono fun _ _ hk => hk.1)
  exact lt_irrefl _ ((idsOk_of_reach hreach).stored _ (stores_of_reach h' hv))

/-- A type with a label of one letter, and its first entity. -/
def oneEntityEvents : List ObjectEvent :=
  [.commit 0 [.ofType .entity 0 .insert, .ofLabel [97] .entity 0], .create 1 .entity 0,
    .commit 1 [.ofObject ⟨.entity, 0, 0⟩ .insert]]

def oneEntity : Option Objects := run step new oneEntityEvents

/-- A second entity, a restart, and an import of what was stored with the first one only. -/
def reimported : Option Objects :=
  oneEntity.bind fun s => runIf step (fun s e => decide (s.KeepsIds e)) new (oneEntityEvents ++
    [.create 2 .entity 0, .commit 2 [.ofObject ⟨.entity, 0, 1⟩ .insert], .restart,
      .importSnapshot s.keyspace s.watermark])

def recreated (s : Objects) : Option Objects :=
  runIf step (fun s e => decide (s.KeepsIds e ∧ KeepsStorage e)) s
    [.create 0 .entity 0, .commit 0 [.ofObject ⟨.entity, 0, 2⟩ .insert], .restart]

theorem reimported_ids_unused : ∃ s s', reimported = some s ∧ recreated s = some s' ∧
    s.keyspace.Stores ⟨.entity, 0, 0⟩ ∧ s'.keyspace.Stores ⟨.entity, 0, 2⟩ ∧
    ¬ s.keyspace.Stores (s'.generator.create .entity 0).1 := by
  obtain ⟨s, hs, h⟩ := (any_eq_true _ _).mp (by decide +kernel : reimported.any (fun s =>
    decide (⟨.entity, 0, 0⟩ ∈ s.keyspace.vertices) && (recreated s).any fun s' =>
      decide (⟨.entity, 0, 2⟩ ∈ s'.keyspace.vertices)) = true)
  rw [Bool.and_eq_true, Option.any_eq_true] at h
  obtain ⟨hstored, s', hs', hstored'⟩ := h
  obtain ⟨t, -, hrun⟩ := bind_eq_some_iff.mp hs
  refine ⟨s, s', hs, hs', ObjectKeyspace.stores_iff.mpr (of_decide_eq_true hstored),
    ObjectKeyspace.stores_iff.mpr (of_decide_eq_true hstored'), ?_⟩
  exact created_ids_unused (reach_of_runIf (fun _ _ => of_decide_eq_true) hrun)
    (reach_of_runIf (fun _ _ => of_decide_eq_true) hs') .entity 0

def restarted : Option Objects :=
  let entity : ObjectVertex := ⟨.entity, 0, 0⟩
  oneEntity.bind fun s => run step s [.commit 2 [.ofObject entity .delete],
    .commit 3 [.ofType .entity 0 .delete], .restart]

def imported : Option Objects :=
  oneEntity.bind fun s => run step new [.importSnapshot s.keyspace s.watermark]

def returnsStored (s : Objects) (kind : ObjectKind) (typeId : TypeID) : Bool :=
  decide ((s.generator.create kind typeId).1 ∈ s.keyspace.vertices)

theorem stores_of_returnsStored {kind : ObjectKind} {typeId : TypeID}
    (h : s.returnsStored kind typeId = true) :
    s.keyspace.Stores (s.generator.create kind typeId).1 :=
  ObjectKeyspace.stores_iff.mpr (of_decide_eq_true h)

theorem exists_returnsStored : (∃ s, imported = some s ∧ s.returnsStored .entity 0 = true) ∧
      ∃ s, restarted = some s ∧ s.returnsStored .entity 0 = true := by
  have h : imported.any (fun s => s.returnsStored .entity 0) = true ∧
      restarted.any (fun s => s.returnsStored .entity 0) = true := by decide +kernel
  exact ⟨(any_eq_true _ _).mp h.1, (any_eq_true _ _).mp h.2⟩

/-- After the import, and after the restart, the first entity of the type gets the id of the
entity that is stored. -/
theorem import_and_restart_reuse_ids :
    (∃ s, imported = some s ∧ Reaches step new s ∧
      s.keyspace.Stores (s.generator.create .entity 0).1) ∧
    ∃ s, restarted = some s ∧ Reaches step new s ∧
      s.keyspace.Stores (s.generator.create .entity 0).1 := by
  obtain ⟨⟨s, hs, hstored⟩, ⟨t, ht, htstored⟩⟩ := exists_returnsStored
  refine ⟨⟨s, hs, ?_, stores_of_returnsStored hstored⟩,
    ⟨t, ht, ?_, stores_of_returnsStored htstored⟩⟩
  · rw [imported] at hs
    obtain ⟨s₁, -, hrun⟩ := bind_eq_some_iff.mp hs
    exact reaches_of_run hrun
  · rw [restarted] at ht
    obtain ⟨t₁, hone, hrun⟩ := bind_eq_some_iff.mp ht
    exact (reaches_of_run hone).trans (reaches_of_run hrun)

end Objects
end TypeDB.Database
