import TypeDB.Storage.History
import TypeDB.Concept.Transactions

/-! The committed states of the data. Each transaction is in order by itself; that its edges do not
lose an end to another one is due to the locks on the ends and to ids being handed out once. -/

namespace TypeDB.Concept
open Option Snapshot
open Encoding (ObjectVertex)
open Storage (Write Committed History)

structure Snapshot.Recorded (s : Snapshot) (h : History Key StoredValue)
    (t : Committed Key StoredValue) : Prop where
  storage : ∀ k, s.storage.get? k = h.state t.opened k
  writes : ∀ k, t.writes k = s.writes.get? k
  locks : ∀ k, t.locks k = s.locks.get? k

/-- Every transaction is in order by itself, and no two insert one object. -/
structure Orderly (h : History Key StoredValue) : Prop where
  valid : h.Valid
  recorded : ∀ {n t}, h n = some t → ∃ s : Snapshot, s.Recorded h t ∧ s.Ok
  once : ∀ {n m v value value'}, h.writeAt (.object v) n = some (.insert value) →
    h.writeAt (.object v) m = some (.insert value') → n = m

def Edge.End (e : Edge) (k : Key) : Prop := k = .object e.source ∨ k = e.target

theorem Edge.End.isVertex {e : Edge} {k : Key} (h : e.End k) : k.IsVertex := by
  rcases h with rfl | rfl
  · trivial
  · cases e <;> trivial

theorem Consistent.isSome_end {view : Key → Option StoredValue} {e : Edge} {k : Key}
    (h : Consistent view) (hk : e.End k) (he : (view e.key).isSome) : (view k).isSome := by
  rcases hk with rfl | rfl
  · exact h.source e he
  · exact h.target e he

namespace Snapshot
variable {s : Snapshot} {k : Key} {e : Edge} {w : Write StoredValue}

theorem Ok.held_end (h : s.Ok) (hk : e.End k) {value : StoredValue} {known : Bool}
    (hw : s.writes.get? e.key = some (.put value known)) : s.Held k := by
  rcases hk with rfl | rfl
  · exact h.heldSource e value known hw
  · exact h.heldTarget e value known hw

inductive VertexWrite (s : Snapshot) (k : Key) : Write StoredValue → Prop
  | insert (v : ObjectVertex) (hv : k = .object v) : VertexWrite s k (.insert .empty)
  | put (value : StoredValue) : VertexWrite s k (.put value false)
  | delete (hstored : (s.storage.get? k).isSome) : VertexWrite s k .delete

theorem Ok.vertexWrite (h : s.Ok) (hk : k.IsVertex) (hw : s.writes.get? k = some w) :
    s.VertexWrite k w := by
  cases k with
  | object v =>
    rcases h.objects v w hw with ⟨rfl, -⟩ | ⟨rfl, hstored⟩
    · exact .insert v rfl
    · exact .delete hstored
  | attr a =>
    rcases h.attributes a w hw with rfl | ⟨rfl, hstored⟩
    · exact .put a.storedValue
    · exact .delete hstored
  | _ => exact hk.elim

theorem Ok.edge_put (h : s.Ok) (hw : s.writes.get? e.key = some w) (hne : w ≠ .delete) :
    ∃ n, w = .put (.count n) false := by
  rcases h.edges e w hw with ⟨n, -, rfl⟩ | ⟨rfl, -⟩
  · exact ⟨n, rfl⟩
  · exact absurd rfl hne

end Snapshot

namespace Orderly
variable {h : History Key StoredValue} {n m : Nat} {t : Committed Key StoredValue} {s : Snapshot}
  {k : Key} {e : Edge}

theorem isSome_of_held (ho : Orderly h) (ht : h n = some t)
    (hs : s.Recorded h t) (hok : s.Ok) (hk : k.IsVertex) (hheld : s.Held k)
    (hget : (s.get k).isSome) : (h.state n k).isSome := by
  have hat : h.writeAt k n = s.writes.get? k := by
    rw [History.writeAt, ht, bind_some, hs.writes]
  cases hw : s.writes.get? k with
  | some w =>
    rw [hw] at hat
    have hvertex := hok.vertexWrite hk hw
    cases hvertex with
    | insert v hv =>
      rw [ho.valid.state_of_insert hat]
      rfl
    | put value =>
      refine ho.valid.isSome_state_of_put (fun m hm value known hput => ?_) hat
      obtain ⟨u, hu, hwrite⟩ := bind_eq_some_iff.mp hput
      obtain ⟨s', hs', hok'⟩ := ho.recorded hu
      rw [hs'.writes] at hwrite
      have hvertex := hok'.vertexWrite hk hwrite
      cases hvertex with
      | put value => rfl
    | delete =>
      rw [get_of_write hw] at hget
      cases hget
  | none =>
    -- it is stored, and the lock keeps others from deleting it
    have hlock : t.locks k = some .unmodifiable := by
      rcases hheld with ⟨value, hins⟩ | hlock
      · rw [hw] at hins
        cases hins
      · rw [hs.locks, hlock]
    rw [get_of_not_written hw, hs.storage] at hget
    refine History.isSome_state_of_kept (ho.valid.opened_lt ht).le (fun m hm hm' hdelete => ?_) hget
    rcases Nat.lt_or_eq_of_le hm' with hlt | rfl
    · obtain ⟨u, hu, hdelete⟩ := bind_eq_some_iff.mp hdelete
      exact ho.valid.apart ht hu hm hlt (.requiresDeleted hlock hdelete)
    · rw [hat, hw] at hdelete
      cases hdelete

theorem not_deleted (ho : Orderly h) (ht : h (n + 1) = some t) (hs : s.Recorded h t)
    (hok : s.Ok) (hk : e.End k) (hwrite : t.writes e.key = none) (hedge : (h.state n e.key).isSome) :
    t.writes k ≠ some .delete := by
  intro hdelete
  have hopened := Nat.le_of_lt_succ (ho.valid.opened_lt ht)
  have hwk := (hs.writes k).symm.trans hdelete
  have hstored : (h.state t.opened k).isSome := by
    have hvertex := hok.vertexWrite hk.isVertex hwk
    cases hvertex with
    | delete hstored => exact hs.storage k ▸ hstored
  -- the transaction sees no edge, so one that it did not see has put it
  have hnone : h.state t.opened e.key = none := by
    have hget : s.get e.key = none := by
      cases hget : s.get e.key with
      | none => rfl
      | some value =>
        have := hok.consistent.isSome_end hk (by rw [hget]; rfl)
        rw [get_of_write hwk] at this
        cases this
    rwa [get_of_not_written (hs.writes e.key ▸ hwrite), hs.storage] at hget
  obtain ⟨m, w, hlow, hhigh, hw, hne⟩ := History.exists_write_of_state hopened hnone hedge
  obtain ⟨u, hu, hw⟩ := bind_eq_some_iff.mp hw
  obtain ⟨s', hs', hok'⟩ := ho.recorded hu
  rw [hs'.writes] at hw
  obtain ⟨count, rfl⟩ := hok'.edge_put hw hne
  rcases hok'.held_end hk hw with ⟨value, hins⟩ | hlock
  · -- it would have inserted an object that was there before
    obtain ⟨v, rfl⟩ : ∃ v, k = .object v := by
      have hvertex := hok'.vertexWrite hk.isVertex hins
      cases hvertex with
      | insert v hv => exact ⟨v, hv⟩
    obtain ⟨p, w', -, hp, hw', hne'⟩ := History.exists_write_of_state (Nat.zero_le _) rfl hstored
    obtain ⟨u', hu', hwrite'⟩ := bind_eq_some_iff.mp hw'
    obtain ⟨s'', hs'', hok''⟩ := ho.recorded hu'
    rw [hs''.writes] at hwrite'
    obtain ⟨rfl, -⟩ | ⟨rfl, -⟩ := hok''.objects v w' hwrite'
    · have hat : h.writeAt (.object v) m = some (.insert value) := by
        rw [History.writeAt, hu, bind_some, hs'.writes, hins]
      have := ho.once hw' hat
      omega
    · exact hne' rfl
  · exact ho.valid.apart ht hu hlow (Nat.lt_succ_of_le hhigh)
      (.deletesRequired hdelete (hs'.locks k ▸ hlock))

theorem edge_of_recorded (ht : h (n + 1) = some t) (hs : s.Recorded h t) (hok : s.Ok)
    (he : (h.state (n + 1) e.key).isSome) :
    (h.state n e.key).isSome ∧ s.writes.get? e.key = none ∨
      ∃ count, s.writes.get? e.key = some (.put (.count count) false) := by
  rw [History.state_succ_some ht, hs.writes] at he
  cases hw : s.writes.get? e.key with
  | none =>
    rw [hw] at he
    exact .inl ⟨he, rfl⟩
  | some w =>
    right
    have hne : w ≠ .delete := by
      rintro rfl
      rw [hw] at he
      cases he
    obtain ⟨count, rfl⟩ := hok.edge_put hw hne
    exact ⟨count, rfl⟩

theorem edge_cases (ho : Orderly h) (he : (h.state (n + 1) e.key).isSome) :
    (h.state n e.key).isSome ∧ h.writeAt e.key (n + 1) = none ∨
      ∃ (t : Committed Key StoredValue) (s : Snapshot) (count : Nat),
        h (n + 1) = some t ∧ s.Recorded h t ∧ s.Ok ∧
        s.writes.get? e.key = some (.put (.count count) false) := by
  cases ht : h (n + 1) with
  | none =>
    rw [History.state_succ_none ht] at he
    exact .inl ⟨he, by rw [History.writeAt, ht]; rfl⟩
  | some t =>
    obtain ⟨s, hs, hok⟩ := ho.recorded ht
    obtain ⟨hedge, hw⟩ | ⟨count, hw⟩ := edge_of_recorded ht hs hok he
    · refine .inl ⟨hedge, ?_⟩
      rw [History.writeAt, ht, bind_some, hs.writes, hw]
    · exact .inr ⟨t, s, count, rfl, hs, hok, hw⟩

theorem consistent_succ (ho : Orderly h) (hn : Consistent (h.state n)) :
    Consistent (h.state (n + 1)) := by
  have hend : ∀ (e : Edge) (k : Key), e.End k → (h.state (n + 1) e.key).isSome →
      (h.state (n + 1) k).isSome := by
    intro e k hk he
    rcases ho.edge_cases he with ⟨hedge, hat⟩ | ⟨t, s, count, ht, hs, hok, hw⟩
    · have hbefore := hn.isSome_end hk hedge
      cases ht : h (n + 1) with
      | none => rwa [History.state_succ_none ht]
      | some t =>
        rw [History.writeAt, ht, bind_some] at hat
        obtain ⟨s, hs, hok⟩ := ho.recorded ht
        rw [History.state_succ_some ht]
        exact History.isSome_afterWrite hbefore (ho.not_deleted ht hs hok hk hat hedge)
    · have hget : (s.get k).isSome :=
        hok.consistent.isSome_end hk (by rw [get_of_write hw]; rfl)
      exact ho.isSome_of_held ht hs hok hk.isVertex (hok.held_end hk hw) hget
  refine ⟨fun e => ?_, fun e he => hend e _ (.inl rfl) he, fun e he => hend e _ (.inr rfl) he,
    fun e he => ?_⟩
  · refine History.state_congr fun m hm => ?_
    cases ht : h m with
    | none => rw [History.writeAt, History.writeAt, ht]; rfl
    | some t =>
      obtain ⟨s, hs, hok⟩ := ho.recorded ht
      simp only [History.writeAt, ht, bind_some, hs.writes, hok.reverses]
  · rcases ho.edge_cases he with ⟨hedge, -⟩ | ⟨t, s, count, ht, hs, hok, hw⟩
    · exact hn.proper e hedge
    · exact hok.proper e (by rw [get_of_write hw]; rfl)

theorem consistent (ho : Orderly h) (n : Nat) : Consistent (h.state n) := by
  induction n with
  | zero => exact ⟨fun _ => rfl, nofun, nofun, nofun⟩
  | succ n ih => exact ho.consistent_succ ih

end Orderly
end TypeDB.Concept
