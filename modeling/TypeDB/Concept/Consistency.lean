import TypeDB.Foundations.Programs
import TypeDB.Concept.ThingManager

/-! Edges and their reverses, and what the writes of a transaction look like: what a key of each
kind is written with, that an edge is written as its reverse is, that both ends of what is visible
are visible, and that the ends of an edge put by the transaction are either new or locked. -/

namespace TypeDB.Concept
open Option
open Encoding (ObjectVertex)
open Storage (Write LockType)

inductive Edge
  | has (owner : ObjectVertex) (attr : AttributeVertex)
  | links (relation player : ObjectVertex) (role : RoleType)
  deriving DecidableEq

namespace Edge

def key : Edge → Key
  | has o a => .has o a
  | links r p role => .links r p role

def reverse : Edge → Key
  | has o a => .hasReverse a o
  | links r p role => .linksReverse p r role

def source : Edge → ObjectVertex
  | has o _ => o
  | links r _ _ => r

def target : Edge → Key
  | has _ a => .attr a
  | links _ p _ => .object p

def Proper : Edge → Prop
  | has _ _ => True
  | links r _ _ => r.kind = .relation

variable {e f : Edge} {v p q r : ObjectVertex} {a : AttributeVertex} {role role' : RoleType}

@[simp] theorem key_inj : e.key = f.key ↔ e = f := by
  cases e <;> cases f <;> simp [key]

@[simp] theorem reverse_inj : e.reverse = f.reverse ↔ e = f := by
  cases e <;> cases f <;> simp [reverse, and_comm, and_left_comm]

@[simp] theorem key_ne_reverse : e.key ≠ f.reverse := by cases e <;> cases f <;> simp [key, reverse]
@[simp] theorem reverse_ne_key : e.reverse ≠ f.key := by cases e <;> cases f <;> simp [key, reverse]
@[simp] theorem key_ne_object : e.key ≠ .object v := by cases e <;> simp [key]
@[simp] theorem object_ne_key : .object v ≠ e.key := by cases e <;> simp [key]
@[simp] theorem object_ne_reverse : .object v ≠ e.reverse := by cases e <;> simp [reverse]
@[simp] theorem attr_ne_key : .attr a ≠ e.key := by cases e <;> simp [key]
@[simp] theorem attr_ne_reverse : .attr a ≠ e.reverse := by cases e <;> simp [reverse]
@[simp] theorem index_ne_key : .indexedRelation p q r role role' ≠ e.key := by
  cases e <;> simp [key]
@[simp] theorem index_ne_reverse : .indexedRelation p q r role role' ≠ e.reverse := by
  cases e <;> simp [reverse]
@[simp] theorem reverse_ne_object : e.reverse ≠ .object v := by cases e <;> simp [reverse]
@[simp] theorem key_ne_attr : e.key ≠ .attr a := by cases e <;> simp [key]
@[simp] theorem reverse_ne_attr : e.reverse ≠ .attr a := by cases e <;> simp [reverse]
@[simp] theorem target_ne_key : e.target ≠ f.key := by cases e <;> cases f <;> simp [key, target]
@[simp] theorem target_ne_reverse : e.target ≠ f.reverse := by
  cases e <;> cases f <;> simp [reverse, target]
end Edge

/-- Edges come with their reverses, under the same value, and with both their ends. -/
structure Consistent (view : Key → Option StoredValue) : Prop where
  paired : ∀ e : Edge, view e.reverse = view e.key
  source : ∀ e : Edge, (view e.key).isSome → (view (.object e.source)).isSome
  target : ∀ e : Edge, (view e.key).isSome → (view e.target).isSome
  proper : ∀ e : Edge, (view e.key).isSome → e.Proper

theorem consistent_empty : Consistent (.empty : OrderedMap Key StoredValue).get? :=
  ⟨fun _ => rfl, fun _ h => absurd h Bool.false_ne_true, fun _ h => absurd h Bool.false_ne_true,
    fun _ h => absurd h Bool.false_ne_true⟩

def Snapshot.Held (s : Snapshot) (k : Key) : Prop :=
  (∃ value, s.writes.get? k = some (.insert value)) ∨ s.locks.get? k = some .unmodifiable

structure Snapshot.Ok (s : Snapshot) : Prop where
  stored : Consistent s.storage.get?
  objects : ∀ v w, s.writes.get? (.object v) = some w →
    w = .insert .empty ∧ s.storage.get? (.object v) = none ∨
      w = .delete ∧ (s.storage.get? (.object v)).isSome
  attributes : ∀ a w, s.writes.get? (.attr a) = some w →
    w = .put a.storedValue false ∨ w = .delete ∧ (s.storage.get? (.attr a)).isSome
  edges : ∀ (e : Edge) w, s.writes.get? e.key = some w →
    (∃ n, 0 < n ∧ w = .put (.count n) false) ∨ w = .delete ∧ (s.storage.get? e.key).isSome
  reverses : ∀ e : Edge, s.writes.get? e.reverse = s.writes.get? e.key
  indexes : ∀ p q r role role' w, s.writes.get? (.indexedRelation p q r role role') = some w →
    (∃ n, w = .put (.count n) false) ∨ w = .delete
  source : ∀ e : Edge, (s.get e.key).isSome → (s.get (.object e.source)).isSome
  target : ∀ e : Edge, (s.get e.key).isSome → (s.get e.target).isSome
  proper : ∀ e : Edge, (s.get e.key).isSome → e.Proper
  heldSource : ∀ (e : Edge) value known, s.writes.get? e.key = some (.put value known) →
    s.Held (.object e.source)
  heldTarget : ∀ (e : Edge) value known, s.writes.get? e.key = some (.put value known) →
    s.Held e.target

namespace Snapshot
variable {s : Snapshot} {e : Edge} {k : Key} {v : ObjectVertex} {a : AttributeVertex} {n : Nat}
  {P : Key → Prop} {t : Snapshot}

theorem Ok.get_reverse (h : s.Ok) (e : Edge) : s.get e.reverse = s.get e.key := by
  rw [get_eq, get_eq, h.reverses, h.stored.paired]

theorem Ok.consistent (h : s.Ok) : Consistent s.get :=
  ⟨h.get_reverse, h.source, h.target, h.proper⟩

theorem ok_opened {storage : OrderedMap Key StoredValue} (h : Consistent storage.get?) :
    (opened storage).Ok where
  stored := h
  objects _ _ hw := by cases hw
  attributes _ _ hw := by cases hw
  edges _ _ hw := by cases hw
  reverses _ := rfl
  indexes _ _ _ _ _ _ hw := by cases hw
  source := h.source
  target := h.target
  proper := h.proper
  heldSource _ _ _ hw := by cases hw
  heldTarget _ _ _ hw := by cases hw

theorem Held.congr (h : s.Held k) (hw : t.writes.get? k = s.writes.get? k)
    (hl : t.locks.get? k = s.locks.get? k) : t.Held k := by
  rwa [Held, hw, hl]

def IsEnd (s : Snapshot) (k : Key) : Prop :=
  ∃ e : Edge, (s.get e.key).isSome ∧ (k = .object e.source ∨ k = e.target)

theorem IsEnd.isVertex (h : s.IsEnd k) : (∃ v, k = .object v) ∨ ∃ a, k = .attr a := by
  obtain ⟨e, -, rfl | rfl⟩ := h
  · exact .inl ⟨_, rfl⟩
  · cases e with
    | has o a => exact .inr ⟨a, rfl⟩
    | links r p role => exact .inl ⟨p, rfl⟩

def Kept (s t : Snapshot) (k : Key) : Prop :=
  ((s.get k).isSome → (t.get k).isSome) ∧ (s.Held k → t.Held k)

theorem kept_of_unchanged (hstorage : t.storage = s.storage)
    (hw : t.writes.get? k = s.writes.get? k) (hl : t.locks.get? k = s.locks.get? k) :
    Kept s t k := by
  rw [Kept, get_eq, get_eq, hw, hstorage]
  exact ⟨id, fun h => h.congr hw hl⟩

/-- A change of keys in `P` that leaves the edges alone, keeps the ends of those that are visible
and writes what may be written. -/
theorem Ok.change (h : s.Ok) (hstorage : t.storage = s.storage)
    (hw : ∀ k, ¬ P k → t.writes.get? k = s.writes.get? k)
    (hedges : ∀ e : Edge, ¬ P e.key ∧ ¬ P e.reverse)
    (hobjects : ∀ v w, P (.object v) → t.writes.get? (.object v) = some w →
      w = .insert .empty ∧ s.storage.get? (.object v) = none ∨
        w = .delete ∧ (s.storage.get? (.object v)).isSome)
    (hattributes : ∀ a w, P (.attr a) → t.writes.get? (.attr a) = some w →
      w = .put a.storedValue false ∨ w = .delete ∧ (s.storage.get? (.attr a)).isSome)
    (hindexes : ∀ p q r role role' w, P (.indexedRelation p q r role role') →
      t.writes.get? (.indexedRelation p q r role role') = some w →
        (∃ n, w = .put (.count n) false) ∨ w = .delete)
    (hends : ∀ k, s.IsEnd k → Kept s t k) : t.Ok := by
  have hget : ∀ e : Edge, t.get e.key = s.get e.key := by
    intro e
    rw [get_eq, get_eq, hw _ (hedges e).1, hstorage]
  have hsource : ∀ e : Edge, (s.get e.key).isSome → Kept s t (.object e.source) :=
    fun e he => hends _ ⟨e, he, .inl rfl⟩
  have htarget : ∀ e : Edge, (s.get e.key).isSome → Kept s t e.target :=
    fun e he => hends _ ⟨e, he, .inr rfl⟩
  have hput : ∀ (e : Edge) value known, t.writes.get? e.key = some (.put value known) →
      s.writes.get? e.key = some (.put value known) ∧ (s.get e.key).isSome := by
    intro e value known he
    rw [hw _ (hedges e).1] at he
    exact ⟨he, by rw [get_of_write he]; rfl⟩
  exact {
    stored := hstorage ▸ h.stored
    objects := fun v w hv => by
      rw [hstorage]
      by_cases hp : P (.object v)
      · exact hobjects v w hp hv
      · exact h.objects v w (hw _ hp ▸ hv)
    attributes := fun a w ha => by
      rw [hstorage]
      by_cases hp : P (.attr a)
      · exact hattributes a w hp ha
      · exact h.attributes a w (hw _ hp ▸ ha)
    edges := fun e w he => hstorage ▸ h.edges e w (hw _ (hedges e).1 ▸ he)
    reverses := fun e => by rw [hw _ (hedges e).2, h.reverses, hw _ (hedges e).1]
    indexes := fun p q r role role' w hi => by
      by_cases hp : P (.indexedRelation p q r role role')
      · exact hindexes p q r role role' w hp hi
      · exact h.indexes p q r role role' w (hw _ hp ▸ hi)
    source := fun e he => (hsource e (hget e ▸ he)).1 (h.source e (hget e ▸ he))
    target := fun e he => (htarget e (hget e ▸ he)).1 (h.target e (hget e ▸ he))
    proper := fun e he => h.proper e (hget e ▸ he)
    heldSource := fun e value known he =>
      let ⟨hs, hvisible⟩ := hput e value known he
      (hsource e hvisible).2 (h.heldSource e value known hs)
    heldTarget := fun e value known he =>
      let ⟨hs, hvisible⟩ := hput e value known he
      (htarget e hvisible).2 (h.heldTarget e value known hs) }

theorem Ok.lockAdd (h : s.Ok) {lock : LockType}
    (hlock : lock = .unmodifiable ∨ (∀ v, k ≠ .object v) ∧ ∀ a, k ≠ .attr a) :
    (s.lockAdd k lock).Ok := by
  refine h.change (P := fun _ => False) rfl (fun _ _ => rfl) (by simp) (by simp) (by simp)
    (by simp) fun k' hk' => ⟨id, ?_⟩
  rintro (hins | hl)
  · exact .inl hins
  · right
    rw [locks_lockAdd]
    split_ifs with hk
    · rcases hlock with rfl | ⟨hv, ha⟩
      · rfl
      · rcases hk'.isVertex with ⟨v, rfl⟩ | ⟨a, rfl⟩
        · exact absurd hk.symm (hv v)
        · exact absurd hk.symm (ha a)
    · exact hl

theorem visible_write {w : Write StoredValue} (hw : (writtenValue w).isSome) {k' : Key}
    (hk : (s.get k').isSome) : ((s.write k w).get k').isSome := by
  rw [get_write]
  split_ifs
  · exact hw
  · exact hk

theorem Ok.createObject (h : s.Ok) (hnew : s.storage.get? (.object v) = none) :
    (s.createObject v).Ok := by
  have hw : ∀ k, (s.createObject v).writes.get? k =
      if k = .object v then some (.insert .empty) else s.writes.get? k := fun k => writes_write
  refine h.change (P := (· = .object v)) rfl (fun k hk => by rw [hw, if_neg hk]) (by simp) ?_
    (by simp) (by simp) fun k _ => ⟨visible_write rfl, fun hk => ?_⟩
  · intro v' w hp hv'
    rw [hw, if_pos hp] at hv'
    exact .inl ⟨(some.inj hv').symm, hp ▸ hnew⟩
  · by_cases hkv : k = .object v
    · exact .inl ⟨.empty, by rw [hw, if_pos hkv]⟩
    · exact hk.congr (by rw [hw, if_neg hkv]) rfl

theorem Ok.putAttribute (h : s.Ok) : (s.putVal (.attr a) a.storedValue).Ok := by
  have hw : ∀ k, (s.putVal (.attr a) a.storedValue).writes.get? k =
      if k = .attr a then some (.put a.storedValue false) else s.writes.get? k :=
    fun k => writes_write
  refine h.change (P := (· = .attr a)) rfl (fun k hk => by rw [hw, if_neg hk]) (by simp) (by simp)
    ?_ (by simp) fun k _ => ⟨visible_write rfl, ?_⟩
  · intro a' w hp ha
    rw [hw, if_pos hp] at ha
    obtain rfl := Key.attr.inj hp
    exact .inl (some.inj ha).symm
  · rintro (⟨value, hk⟩ | hk)
    · refine .inl ⟨value, ?_⟩
      rw [hw, if_neg ?_, hk]
      rintro rfl
      rcases h.attributes a _ hk with h' | ⟨h', -⟩ <;> cases h'
    · exact .inr hk

theorem Ok.createAttribute (h : s.Ok) : (s.createAttribute a).Ok := by
  rw [Snapshot.createAttribute]
  split_ifs
  · exact (h.lockAdd (.inr ⟨fun _ => by simp, fun _ => by simp⟩)).putAttribute
  · exact h.putAttribute

def Isolated (s : Snapshot) (v : ObjectVertex) : Prop :=
  ∀ e : Edge, e.source = v ∨ e.target = .object v → s.get e.key = none

theorem Ok.clearObject (h : s.Ok) (hv : s.Isolated v) :
    ((s.clear (.object v)).unmodifiableLockRemove (.object v)).Ok := by
  have hw : ∀ k, ((s.clear (.object v)).unmodifiableLockRemove (.object v)).writes.get? k = _ :=
    fun k => writes_clear
  refine h.change (P := (· = .object v)) storage_clear (fun k hk => by rw [hw, if_neg hk])
    (by simp) ?_ (by simp) (by simp) fun k hk => ?_
  · intro v' w hp hv'
    rw [hw, if_pos hp] at hv'
    split_ifs at hv' with hstored
    exact .inr ⟨(some.inj hv').symm, hp ▸ hstored⟩
  · -- an end of an edge that is visible is not the object
    have hkv : k ≠ .object v := by
      obtain ⟨e, he, hk⟩ := hk
      rintro rfl
      rw [hv e (hk.imp (fun h => (Key.object.inj h).symm) Eq.symm)] at he
      cases he
    refine kept_of_unchanged storage_clear (by rw [hw, if_neg hkv]) ?_
    rw [locks_lockRemove, if_neg hkv, locks_clear]

open Edge

/-- Nothing but writes of the keys in `P` was changed. -/
structure AgreesOff (P : Key → Prop) (s t : Snapshot) : Prop where
  storage : t.storage = s.storage
  locks : t.locks = s.locks
  writes : ∀ k, ¬ P k → t.writes.get? k = s.writes.get? k

theorem AgreesOff.refl (P : Key → Prop) (s : Snapshot) : AgreesOff P s s :=
  ⟨rfl, rfl, fun _ _ => rfl⟩

theorem AgreesOff.trans {t u : Snapshot} (h : AgreesOff P s t) (h' : AgreesOff P t u) :
    AgreesOff P s u :=
  ⟨h'.storage.trans h.storage, h'.locks.trans h.locks,
    fun k hk => (h'.writes k hk).trans (h.writes k hk)⟩

theorem agreesOff_write {w : Write StoredValue} (hk : P k) : AgreesOff P s (s.write k w) :=
  ⟨rfl, rfl, fun k' hk' => by rw [writes_write, if_neg fun heq : k' = k => hk' (heq ▸ hk)]⟩

theorem agreesOff_unwrite (hk : P k) : AgreesOff P s (s.unwrite k) :=
  ⟨rfl, rfl, fun k' hk' => by rw [writes_unwrite, if_neg fun heq : k' = k => hk' (heq ▸ hk)]⟩

theorem AgreesOff.kept (h : AgreesOff P s t) (hk : ¬ P k) : Kept s t k :=
  kept_of_unchanged h.storage (h.writes k hk) (by rw [h.locks])

theorem Ok.changeAttribute (h : s.Ok) (ha : ∀ o, s.get (.has o a) = none)
    (hag : AgreesOff (· = .attr a) s t)
    (hwrite : ∀ w, t.writes.get? (.attr a) = some w →
      w = .delete ∧ (s.storage.get? (.attr a)).isSome) : t.Ok := by
  refine h.change hag.storage hag.writes (by simp) (by simp) ?_ (by simp) fun k hk => hag.kept ?_
  · rintro a' w ⟨⟩ ha'
    exact .inr (hwrite w ha')
  · rintro rfl
    obtain ⟨e, he, hk | hk⟩ := hk
    · cases hk
    · cases e with
      | has o a' =>
        obtain rfl := Key.attr.inj hk
        rw [key, ha o] at he
        cases he
      | links r p role => cases hk

theorem Ok.changeOther (h : s.Ok) (hag : AgreesOff P s t) (hv : ∀ v, ¬ P (.object v))
    (ha : ∀ a, ¬ P (.attr a)) (he : ∀ e : Edge, ¬ P e.key ∧ ¬ P e.reverse)
    (hi : ∀ p q r role role' w, P (.indexedRelation p q r role role') →
      t.writes.get? (.indexedRelation p q r role role') = some w →
        (∃ n, w = .put (.count n) false) ∨ w = .delete) : t.Ok := by
  refine h.change hag.storage hag.writes he (fun v w hp => absurd hp (hv v))
    (fun a w hp => absurd hp (ha a)) hi fun k hk => hag.kept ?_
  rcases hk.isVertex with ⟨v, rfl⟩ | ⟨a, rfl⟩
  · exact hv v
  · exact ha a

theorem writes_putEdge : (s.putEdge e.key e.reverse n).writes.get? k =
    if k = e.key ∨ k = e.reverse then some (.put (.count n) false) else s.writes.get? k := by
  rw [putEdge, putVal, putVal, writes_write, writes_write]
  by_cases hr : k = e.reverse <;> by_cases hk : k = e.key <;> simp [hr, hk]

/-- A change of one edge and its reverse. -/
theorem Ok.changeEdge (h : s.Ok) (hstorage : t.storage = s.storage) (hlocks : t.locks = s.locks)
    {w : Option (Write StoredValue)} (hw : ∀ k, t.writes.get? k =
      if k = e.key ∨ k = e.reverse then w else s.writes.get? k)
    (hwrite : ∀ w', w = some w' → (∃ n, 0 < n ∧ w' = .put (.count n) false) ∨
      w' = .delete ∧ (s.storage.get? e.key).isSome)
    (hproper : (t.get e.key).isSome → e.Proper)
    (hends : (t.get e.key).isSome → ∀ k, k = .object e.source ∨ k = e.target →
      (s.get k).isSome ∧ s.Held k) : t.Ok := by
  have hother : ∀ {k}, (∀ f : Edge, k ≠ f.key ∧ k ≠ f.reverse) →
      t.writes.get? k = s.writes.get? k := by
    intro k hk
    rw [hw, if_neg]
    simp [hk]
  have hkept : ∀ {k}, (∀ f : Edge, k ≠ f.key ∧ k ≠ f.reverse) → Kept s t k :=
    fun hk => kept_of_unchanged hstorage (hother hk) (by rw [hlocks])
  have hkey : ∀ {f : Edge}, f ≠ e → t.writes.get? f.key = s.writes.get? f.key := by
    intro f hf
    rw [hw, if_neg]
    simp [hf]
  have hget : ∀ {f : Edge}, f ≠ e → t.get f.key = s.get f.key := by
    intro f hf
    rw [get_eq, get_eq, hkey hf, hstorage]
  have hvisible : ∀ {f : Edge} {value known}, t.writes.get? f.key = some (.put value known) →
      (t.get f.key).isSome := fun hf => by rw [get_of_write hf]; rfl
  exact {
    stored := hstorage ▸ h.stored
    objects := fun v w hv => hstorage ▸ h.objects v w (by rwa [hother (by simp)] at hv)
    attributes := fun a w ha => hstorage ▸ h.attributes a w (by rwa [hother (by simp)] at ha)
    edges := fun f w' hf => by
      rw [hstorage]
      by_cases hfe : f = e
      · subst hfe
        exact hwrite w' (by rwa [hw, if_pos (.inl rfl)] at hf)
      · exact h.edges f w' (hkey hfe ▸ hf)
    reverses := fun f => by simp [hw, h.reverses]
    indexes := fun p q r role role' w hi =>
      h.indexes p q r role role' w (by rwa [hother (by simp)] at hi)
    source := fun f hf => (hkept (by simp)).1 <| by
      by_cases hfe : f = e
      · subst hfe
        exact (hends hf _ (.inl rfl)).1
      · exact h.source f (hget hfe ▸ hf)
    target := fun f hf => (hkept (by simp)).1 <| by
      by_cases hfe : f = e
      · subst hfe
        exact (hends hf _ (.inr rfl)).1
      · exact h.target f (hget hfe ▸ hf)
    proper := fun f hf => by
      by_cases hfe : f = e
      · subst hfe
        exact hproper hf
      · exact h.proper f (hget hfe ▸ hf)
    heldSource := fun f value known hf => (hkept (by simp)).2 <| by
      by_cases hfe : f = e
      · subst hfe
        exact (hends (hvisible hf) _ (.inl rfl)).2
      · exact h.heldSource f value known (hkey hfe ▸ hf)
    heldTarget := fun f value known hf => (hkept (by simp)).2 <| by
      by_cases hfe : f = e
      · subst hfe
        exact (hends (hvisible hf) _ (.inr rfl)).2
      · exact h.heldTarget f value known (hkey hfe ▸ hf) }

theorem Ok.putEdge (h : s.Ok) (hn : 0 < n) (hproper : e.Proper)
    (hsource : (s.get (.object e.source)).isSome) (htarget : (s.get e.target).isSome)
    (heldSource : s.Held (.object e.source)) (heldTarget : s.Held e.target) :
    (s.putEdge e.key e.reverse n).Ok := by
  refine h.changeEdge rfl rfl (fun _ => writes_putEdge) ?_ (fun _ => hproper) fun _ => ?_
  · exact fun w hw => .inl ⟨n, hn, (some.inj hw).symm⟩
  · rintro k (rfl | rfl)
    · exact ⟨hsource, heldSource⟩
    · exact ⟨htarget, heldTarget⟩

def clearEdge (s : Snapshot) (e : Edge) : Snapshot := (s.clear e.key).clear e.reverse

@[simp] theorem storage_clearEdge : (s.clearEdge e).storage = s.storage := by simp [clearEdge]

@[simp] theorem locks_clearEdge : (s.clearEdge e).locks = s.locks := by simp [clearEdge]

theorem get_clearEdge : (s.clearEdge e).get k =
    if k = e.key ∨ k = e.reverse then none else s.get k := by
  rw [clearEdge, get_clear, get_clear]
  by_cases hr : k = e.reverse <;> by_cases hk : k = e.key <;> simp [hr, hk]

theorem Ok.writes_clearEdge (h : s.Ok) : (s.clearEdge e).writes.get? k =
    if k = e.key ∨ k = e.reverse then
      if (s.storage.get? e.key).isSome then some .delete else none
    else s.writes.get? k := by
  rw [clearEdge, writes_clear, writes_clear, storage_clear, h.stored.paired]
  by_cases hr : k = e.reverse <;> by_cases hk : k = e.key <;> simp [hr, hk]

theorem Ok.clearEdge (h : s.Ok) : (s.clearEdge e).Ok := by
  have hnone : ¬ ((s.clearEdge e).get e.key).isSome := by simp [get_clearEdge]
  refine h.changeEdge storage_clearEdge locks_clearEdge (fun _ => h.writes_clearEdge) ?_
    (fun he => absurd he hnone) fun he => absurd he hnone
  intro w hw
  split_ifs at hw with hstored
  exact .inr ⟨(some.inj hw).symm, hstored⟩

theorem unputVal_of_put {value : StoredValue} {known : Bool}
    (h : s.writes.get? k = some (.put value known)) : s.unputVal k value = some (s.unwrite k) := by
  rw [unputVal, getWrite, h]
  exact if_pos rfl

theorem Ok.status_source (h : s.Ok) (he : (s.storage.get? e.key).isSome) :
    s.getStatus (.object e.source) ≠ .inserted := by
  have hstored := h.stored.source e he
  rw [getStatus, getWrite]
  cases hw : s.writes.get? (.object e.source) with
  | none => simp [hstored]
  | some w =>
    rcases h.objects _ w hw with ⟨rfl, hnone⟩ | ⟨rfl, -⟩
    · rw [hnone] at hstored
      cases hstored
    · simp

theorem Ok.unsetEdge_eq (h : s.Ok) (e : Edge) :
    s.unsetEdge e.source e.key e.reverse = some (s.clearEdge e) := by
  have hpaired : s.storage.get? e.reverse = s.storage.get? e.key := h.stored.paired e
  -- after the puts are taken back what is left of the edge is what is stored
  have key : ∀ t : Snapshot, t.storage = s.storage → t.locks = s.locks →
      (∀ k, k ≠ e.key → k ≠ e.reverse → t.writes.get? k = s.writes.get? k) →
      t.writes.get? e.key = none → t.writes.get? e.reverse = none →
      (if s.getStatus (.object e.source) ≠ .inserted ∧ t.contains e.key = true then
        some ((t.delete e.key).delete e.reverse) else some t) = some (s.clearEdge e) := by
    intro t hstorage hlocks hw hkey hreverse
    have hcontains : t.contains e.key = (s.storage.get? e.key).isSome := by
      rw [contains, get_of_not_written hkey, hstorage]
    rw [hcontains]
    cases hstored : (s.storage.get? e.key).isSome with
    | true =>
      rw [if_pos ⟨h.status_source hstored, rfl⟩]
      refine congrArg some (ext_get? ?_ (fun k => ?_) (fun k => ?_))
      · rw [storage_clearEdge]
        exact hstorage
      · rw [h.writes_clearEdge, hstored, delete, delete, writes_write, writes_write]
        by_cases hr : k = e.reverse <;> by_cases hk : k = e.key <;> simp [hr, hk, hw]
      · rw [locks_clearEdge, ← hlocks]
        rfl
    | false =>
      rw [if_neg (by simp)]
      refine congrArg some (ext_get? ?_ (fun k => ?_) (fun k => ?_))
      · rw [storage_clearEdge, hstorage]
      · rw [h.writes_clearEdge, hstored]
        by_cases hr : k = e.reverse <;> by_cases hk : k = e.key <;> simp [hr, hk, hw, hkey, hreverse]
      · rw [locks_clearEdge, hlocks]
  have hrev := h.reverses e
  rw [unsetEdge, unputEdge, getWrite]
  cases hw : s.writes.get? e.key with
  | none => exact key s rfl rfl (fun _ _ _ => rfl) hw (hrev.trans hw)
  | some w =>
    rcases h.edges e w hw with ⟨n, -, rfl⟩ | ⟨rfl, hstored⟩
    · have hrev' : (s.unwrite e.key).writes.get? e.reverse = some (.put (.count n) false) := by
        rw [writes_unwrite, if_neg (by simp), hrev, hw]
      simp only [unputVal_of_put hw, unputVal_of_put hrev', bind_eq_bind, bind_some]
      refine key _ rfl rfl (fun k hk hr => ?_) ?_ ?_
      · rw [writes_unwrite, if_neg hr, writes_unwrite, if_neg hk]
      · rw [writes_unwrite, if_neg (by simp), writes_unwrite, if_pos rfl]
      · rw [writes_unwrite, if_pos rfl]
    · have hcontains : s.contains e.key = false := by
        rw [contains, get_of_write hw]
        rfl
      simp only [bind_eq_bind, bind_some, hcontains, Bool.false_eq_true, and_false, if_false]
      refine congrArg some (ext_get? storage_clearEdge.symm (fun k => ?_) (fun k => ?_))
      · rw [h.writes_clearEdge, hstored]
        by_cases hr : k = e.reverse <;> by_cases hk : k = e.key <;> simp [hr, hk, hw, hrev]
      · rw [locks_clearEdge]

theorem write_eq_self {w : Write StoredValue} (h : s.writes.get? k = some w) : s.write k w = s := by
  refine ext_get? rfl (fun k' => ?_) fun _ => rfl
  rw [writes_write]
  split_ifs with hk
  · rw [hk, h]
  · rfl

theorem unwrite_eq_self (h : s.writes.get? k = none) : s.unwrite k = s := by
  refine ext_get? rfl (fun k' => ?_) fun _ => rfl
  rw [writes_unwrite]
  split_ifs with hk
  · rw [hk, h]
  · rfl

theorem Ok.deleteObject_eq (h : s.Ok) :
    s.deleteObject v = some ((s.clear (.object v)).unmodifiableLockRemove (.object v)) := by
  rw [deleteObject, getStatus, getWrite]
  cases hw : s.writes.get? (.object v) with
  | none =>
    cases hstored : (s.storage.get? (.object v)).isSome with
    | true =>
      simp only [if_true]
      rw [clear, if_pos hstored]
      rfl
    | false =>
      simp only [Bool.false_eq_true, if_false]
      rw [clear, if_neg (by simp [hstored]), unwrite_eq_self hw]
  | some w =>
    rcases h.objects v w hw with ⟨rfl, hnone⟩ | ⟨rfl, hstored⟩
    · simp only [uninsert, getWrite, writes_lockRemove, hw, if_true]
      rw [clear, hnone]
      rfl
    · simp only
      rw [clear, if_pos hstored, delete, write_eq_self hw]

theorem Ok.getStatus_attr_eq_put (h : s.Ok) : s.getStatus (.attr a) = .put ↔
    s.writes.get? (.attr a) = some (.put a.storedValue false) := by
  rw [getStatus, getWrite]
  cases hw : s.writes.get? (.attr a) with
  | none =>
    simp only [reduceCtorEq, iff_false]
    split_ifs <;> simp
  | some w =>
    rcases h.attributes a w hw with rfl | ⟨rfl, -⟩
    · simp
    · simp

theorem unputAttribute_of_put (hw : s.writes.get? (.attr a) = some (.put a.storedValue false)) :
    s.unputAttribute a =
      if a.storedValue = a.unputValue then some (s.unwrite (.attr a)) else none := by
  rw [unputAttribute, unputVal, getWrite, hw]

theorem Ok.deleteAttribute_eq (h : s.Ok)
    (hvalue : s.getStatus (.attr a) = .put → a.storedValue = a.unputValue) :
    s.deleteAttribute a = some (s.clear (.attr a)) := by
  rw [h.getStatus_attr_eq_put] at hvalue
  rw [deleteAttribute, getStatus, getWrite]
  cases hw : s.writes.get? (.attr a) with
  | none =>
    rw [clear]
    cases hstored : (s.storage.get? (.attr a)).isSome with
    | true => rfl
    | false => exact congrArg some (unwrite_eq_self hw).symm
  | some w =>
    rcases h.attributes a w hw with rfl | ⟨rfl, hstored⟩
    · simp only [unputAttribute_of_put hw, if_pos (hvalue hw), bind_eq_bind, bind_some]
      have hcontains : (s.unwrite (.attr a)).contains (.attr a) =
          (s.storage.get? (.attr a)).isSome := by
        rw [contains, get_unwrite, if_pos rfl]
      rw [hcontains, clear]
      split_ifs
      · refine congrArg some (ext_get? rfl (fun k => ?_) fun k => rfl)
        simp only [delete, writes_write, writes_unwrite]
        split_ifs <;> rfl
      · rfl
    · have hclear : s.clear (.attr a) = s := by
        rw [clear, if_pos hstored, delete, write_eq_self hw]
      rw [hclear]

theorem Ok.clearAttribute (h : s.Ok) (ha : ∀ o, s.get (.has o a) = none) :
    (s.clear (.attr a)).Ok := by
  refine h.changeAttribute ha ⟨storage_clear, locks_clear, fun k hk => ?_⟩ fun w hw => ?_
  · rw [writes_clear, if_neg hk]
  · rw [writes_clear, if_pos rfl] at hw
    split_ifs at hw with hstored
    exact ⟨(some.inj hw).symm, hstored⟩

theorem Ok.unwriteAttribute (h : s.Ok) (ha : ∀ o, s.get (.has o a) = none) :
    (s.unwrite (.attr a)).Ok := by
  refine h.changeAttribute ha (agreesOff_unwrite rfl) fun w hw => ?_
  rw [writes_unwrite, if_pos rfl] at hw
  cases hw

end Snapshot

def Key.IndexOf (r : ObjectVertex) : Key → Prop
  | .indexedRelation _ _ r' _ _ => r' = r
  | _ => False

namespace Snapshot
variable {s t : Snapshot} {k : Key} {r p q : ObjectVertex} {role role' : RoleType} {n : Nat}

theorem Ok.of_index (h : s.Ok) (hag : AgreesOff (Key.IndexOf r) s t)
    (hi : ∀ p q role role' w, t.writes.get? (.indexedRelation p q r role role') = some w →
      (∃ n, w = .put (.count n) false) ∨ w = .delete) : t.Ok := by
  refine h.changeOther hag (fun _ => id) (fun _ => id) ?_ ?_
  · intro e
    cases e <;> exact ⟨id, id⟩
  · rintro p q r' role role' w rfl
    exact hi p q role role' w

/-- Everything but the index of one relation is as it was. -/
structure IndexStep (r : ObjectVertex) (s t : Snapshot) : Prop where
  agrees : AgreesOff (Key.IndexOf r) s t
  ok : t.Ok

theorem IndexStep.put (h : IndexStep r s t) :
    IndexStep r s (t.putVal (.indexedRelation p q r role role') (.count n)) := by
  have hag : AgreesOff (Key.IndexOf r) t (t.putVal (.indexedRelation p q r role role') (.count n)) :=
    agreesOff_write rfl
  refine ⟨h.agrees.trans hag, h.ok.of_index hag fun p' q' a a' w hw => ?_⟩
  rw [putVal, writes_write] at hw
  split_ifs at hw
  · exact .inl ⟨n, (some.inj hw).symm⟩
  · exact h.ok.indexes p' q' r a a' w hw

theorem IndexStep.delete (h : IndexStep r s t) :
    IndexStep r s (t.delete (.indexedRelation p q r role role')) := by
  have hag : AgreesOff (Key.IndexOf r) t (t.delete (.indexedRelation p q r role role')) :=
    agreesOff_write rfl
  refine ⟨h.agrees.trans hag, h.ok.of_index hag fun p' q' a a' w hw => ?_⟩
  rw [Snapshot.delete, writes_write] at hw
  split_ifs at hw
  · exact .inr (some.inj hw).symm
  · exact h.ok.indexes p' q' r a a' w hw

theorem IndexStep.unputOwn (h : IndexStep r s t) (p q : ObjectVertex) (role role' : RoleType) :
    ∃ u, t.unputOwn (.indexedRelation p q r role role') = some u ∧ IndexStep r s u := by
  rw [Snapshot.unputOwn, getWrite]
  cases hw : t.writes.get? (.indexedRelation p q r role role') with
  | none => exact ⟨t, rfl, h⟩
  | some w =>
    rcases h.ok.indexes p q r role role' w hw with ⟨n, rfl⟩ | rfl
    · refine ⟨_, unputVal_of_put hw, ?_⟩
      have hag : AgreesOff (Key.IndexOf r) t (t.unwrite (.indexedRelation p q r role role')) :=
        agreesOff_unwrite rfl
      refine ⟨h.agrees.trans hag, h.ok.of_index hag fun p' q' a a' w hw => ?_⟩
      rw [writes_unwrite] at hw
      split_ifs at hw
      exact h.ok.indexes p' q' r a a' w hw
    · exact ⟨t, rfl, h⟩

theorem Ok.regenerate (h : s.Ok) : IndexStep r s (s.relationIndexPlayerRegenerate r p role n) := by
  rw [relationIndexPlayerRegenerate]
  refine List.foldlRecOn _ _ ⟨.refl _ s, h⟩ fun t ht rp _ => ?_
  obtain ⟨⟨rpPlayer, rpRole⟩, rpCount⟩ := rp
  dsimp only
  split_ifs
  · exact ht.put
  · exact ht
  · exact ht.put.put

theorem Ok.remove (h : s.Ok) (r p : ObjectVertex) (role : RoleType) :
    ∃ t, s.relationIndexPlayerRemove r p role = some t ∧ IndexStep r s t := by
  rw [relationIndexPlayerRemove]
  refine (Programs.returns_foldlM (I := fun _ t => IndexStep r s t) ?_ ⟨.refl _ s, h⟩).exists
  rintro ⟨⟨rpPlayer, rpRole⟩, rpCount⟩ _ t ht
  obtain ⟨t₁, h₁, ht₁⟩ := ht.unputOwn p rpPlayer role rpRole
  obtain ⟨t₂, h₂, ht₂⟩ := ht₁.unputOwn rpPlayer p rpRole role
  simp only [h₁, h₂, bind_eq_bind, bind_some]
  split_ifs
  · exact ht₂.delete
  · exact ht₂.delete.delete
  · exact ht₂

section Required
variable {o : ObjectVertex} {k' : Key}

@[simp] theorem writes_setRequiredObject : (s.setRequiredObject v).writes = s.writes := by
  rw [setRequiredObject]
  split_ifs <;> rfl

@[simp] theorem storage_setRequiredObject : (s.setRequiredObject v).storage = s.storage := by
  rw [setRequiredObject]
  split_ifs <;> rfl

@[simp] theorem get_setRequiredObject : (s.setRequiredObject v).get k = s.get k := by
  rw [get_eq, get_eq, writes_setRequiredObject, storage_setRequiredObject]

theorem Held.lockAdd (h : s.Held k) : (s.lockAdd k' .unmodifiable).Held k := by
  refine h.imp id fun hl => ?_
  rw [locks_lockAdd]
  split_ifs
  · rfl
  · exact hl

theorem Held.setRequiredObject (h : s.Held k) : (s.setRequiredObject v).Held k := by
  rw [Snapshot.setRequiredObject]
  split_ifs
  · exact h.lockAdd
  · exact h

theorem Ok.setRequiredObject (h : s.Ok) : (s.setRequiredObject v).Ok := by
  rw [Snapshot.setRequiredObject]
  split_ifs
  · exact h.lockAdd (.inl rfl)
  · exact h

theorem Ok.held_setRequiredObject (h : s.Ok) (hv : (s.get (.object v)).isSome) :
    (s.setRequiredObject v).Held (.object v) := by
  cases hw : s.writes.get? (.object v) with
  | none =>
    rw [get_of_not_written hw] at hv
    have hstatus : s.getStatus (.object v) = .persisted := by
      rw [getStatus, getWrite, hw]
      exact if_pos hv
    right
    rw [Snapshot.setRequiredObject, if_pos hstatus]
    exact locks_lockAdd.trans (if_pos rfl)
  | some w =>
    rcases h.objects v w hw with ⟨rfl, -⟩ | ⟨rfl, -⟩
    · exact .inl ⟨.empty, by rw [writes_setRequiredObject, hw]⟩
    · rw [get_of_write hw] at hv
      cases hv

theorem Ok.putHas (h : s.Ok) (hn : 0 < n) (ho : (s.get (.object o)).isSome)
    (ha : (s.get (.attr a)).isSome) : (s.putHas o a n).Ok := by
  refine Ok.putEdge (e := .has o a) (h.setRequiredObject.lockAdd (.inl rfl)) hn trivial ?_ ?_ ?_ ?_
  · exact get_setRequiredObject.symm ▸ ho
  · exact get_setRequiredObject.symm ▸ ha
  · exact (h.held_setRequiredObject ho).lockAdd
  · exact .inr (locks_lockAdd.trans (if_pos rfl))

section PutLinks
variable (h : s.Ok) (ctx : Context) (role : RoleType) (hn : 0 < n) (hkind : r.kind = .relation)
  (hr : (s.get (.object r)).isSome) (hp : (s.get (.object p)).isSome)
include h hn hkind hr hp

theorem Ok.putLinked : (((s.setRequiredObject r).setRequiredObject p).putEdge (.links r p role)
      (.linksReverse p r role) n).Ok :=
  Ok.putEdge (e := .links r p role) h.setRequiredObject.setRequiredObject hn hkind
    (by simpa [Edge.source] using hr) (by simpa [Edge.target] using hp)
    (h.held_setRequiredObject hr).setRequiredObject
    (h.setRequiredObject.held_setRequiredObject (by simpa using hp))

theorem Ok.putLinks : (s.putLinks ctx r p role n).Ok := by
  have hput := h.putLinked role hn hkind hr hp
  rw [Snapshot.putLinks]
  split_ifs
  · exact hput.regenerate.ok
  · exact hput

end PutLinks
end Required

end Snapshot
end TypeDB.Concept
