import TypeDB.Storage.Quiet
import TypeDB.Concept.Server

/-! Sessions since a quiet state. Each that has committed was opened in one of the states since
then; what is known of every session, and of every two that did not see each other, holds of the
history. -/

namespace TypeDB.Concept
open Encoding (ObjectVertex)
open Storage (Write LockType KeyspaceId Action Buffered Database Log History Committed Carries
  Carried Separate Pc)
open Runs

/-- The writes and the locks that a session hands over. -/
abbrev Handover := (Key → Option (Write StoredValue)) × (Key → Option LockType)

namespace Handover

def ofBuffered (b : Buffered Key StoredValue) : Handover :=
  (fun k => (b.1 k.keyspace).get? k, b.2.get?)

def ofSnapshot (s : Snapshot) : Handover := (s.writes.get?, s.locks.get?)

def ofCommitted (t : Committed Key StoredValue) : Handover := (t.writes, t.locks)

/-- What `compute_dependency` takes for a conflict. -/
def Clashes (b b' : Handover) : Prop := Committed.Clashes ⟨0, b.1, b.2⟩ ⟨0, b'.1, b'.2⟩

theorem ofBuffered_operations (s : Snapshot) : ofBuffered s.operations.buffered = ofSnapshot s :=
  Prod.ext (funext fun _ => Snapshot.get?_operations.trans (if_pos rfl)) rfl

theorem clashes_of_ofCommitted {t u : Committed Key StoredValue}
    (h : (ofCommitted t).Clashes (ofCommitted u)) : t.Clashes u := by
  cases h with
  | deletesRequired ht hu => exact .deletesRequired ht hu
  | requiresDeleted ht hu => exact .requiresDeleted ht hu
  | bothExclusive ht hu => exact .bothExclusive ht hu

end Handover

namespace Server
variable {first base n : Nat} {sv sv' : Server} {Q : Snapshot → Prop}
  {R : Handover → Handover → Prop}

/-- A buffer that the session of thread `i` does not see: handed over by another thread, or in the
log after the number at which the session was opened. -/
inductive Unseen (sv : Server) (i : Nat) : Handover → Prop
  | pending {j : Nat} {todo : List (KeyspaceId × Key)}
      (hj : (sv.db.threads j).pc.handedOver = some todo) :
      Unseen sv i (.ofBuffered (sv.db.threads j).operations.buffered)
  | logged {n : Nat} {r : Storage.CommitRecord Key StoredValue}
      (hn : (sv.db.threads i).openSequenceNumber < n)
      (hr : sv.db.shared.log.commitAt n = some r) :
      Unseen sv i (.ofBuffered r.operations.buffered)

theorem Ok.state_of_reach {ok : Server → Event → Prop} (h : sv.Ok first)
    (hr : Reach Server.step ok sv sv') (hn : n ≤ sv.db.shared.watermark) :
    sv'.history.state n = sv.history.state n ∧ n ≤ sv'.db.shared.watermark := by
  have hinv : sv'.Ok first ∧ Storage.Evolves sv.db.shared sv'.db.shared := by
    refine hr.invariant (P := fun u => u.Ok first ∧ Storage.Evolves sv.db.shared u.db.shared)
      ⟨h, .refl _⟩ ?_
    rintro t e u ⟨hok, hev⟩ - hstep
    refine ⟨hok.step hstep, hev.trans ?_⟩
    have hcases := stepCases hstep
    cases hcases with
    | storage _ _ hdb | commit _ _ hdb => exact (hok.flags.ok.step hdb).2
  have hlt := h.flags.ok.shared.watermark_lt_next
  refine ⟨funext fun k => ?_, hn.trans hinv.2.watermark_le⟩
  calc sv'.history.state n k
      = sv'.db.shared.log.value k.keyspace k n := (hinv.1.flags.value_eq_state n).symm
    _ = sv.db.shared.log.value k.keyspace k n :=
        Log.value_congr fun m hm => hinv.2.commits m (by omega)
    _ = sv.history.state n k := h.flags.value_eq_state n

structure Since (first base : Nat) (Q : Snapshot → Prop) (R : Handover → Handover → Prop)
    (sv : Server) : Prop where
  ok : sv.Ok first
  opened : sv.db.Since base
  sessions : Carries (Handed fun o s => base ≤ o ∧ Q s) first base sv.db
  apart : Separate (· < ·) base (fun b b' => R (.ofBuffered b) (.ofBuffered b')) sv.db

theorem Ok.since (h : sv.Ok first) (hquiet : sv.db.Settled) :
    sv.Since first sv.db.shared.watermark Q R := by
  have hlast : ∀ {n r}, sv.db.shared.log.commitAt n = some r → n ≤ sv.db.shared.watermark := by
    intro n r hr
    have := (h.flags.ok.shared.wellFormed.bounds hr).2
    have := hquiet.done
    omega
  have hpending : ∀ {i todo}, (sv.db.threads i).pc.handedOver ≠ some todo := by
    intro i todo hi
    rw [Pc.handedOver_of_isQuiet (hquiet.threads i)] at hi
    cases hi
  exact ⟨h, hquiet.since,
    ⟨h.flags.ok, fun n r hn hr => absurd (hlast hr) (by omega), fun i todo hi => absurd hi hpending⟩,
    ⟨fun _ hm hbase => absurd (hlast hm) (by omega), fun hi => absurd hi hpending,
      fun hi => absurd hi hpending⟩⟩

theorem Since.step {e : Event} (h : sv.Since first base Q R) (hsymm : ∀ {b b'}, R b b' → R b' b)
    (hcommit : ∀ i session s, e = .commit i session → sv.Opened i session s →
      base ≤ (sv.db.threads i).openSequenceNumber →
      Q s ∧ ∀ b, sv.Unseen i b → R (.ofSnapshot s) b)
    (hstep : sv.step e = some sv') : sv'.Since first base Q R := by
  have hcases := stepCases hstep
  have hopen : ∀ {i session s}, sv.Opened i session s →
      base ≤ (sv.db.threads i).openSequenceNumber := fun ho =>
    h.opened.reading _ (by rw [ho.pc]; rfl) ho.registers
  refine ⟨h.ok.step hstep, ?_, ?_, ?_⟩
  · cases hcases with
    | storage _ hne hdb => exact h.opened.step h.ok.flags.ok hne hdb
    | commit _ _ hdb => exact h.opened.step h.ok.flags.ok (fun _ _ ha => by cases ha) hdb
  · exact carries_step h.ok h.sessions hcases fun i session s he ho =>
      ⟨hopen ho, (hcommit i session s he ho (hopen ho)).1⟩
  · cases hcases with
    | storage hne _ hdb =>
      exact h.apart.step hsymm h.ok.flags.ok (fun i operations ha => absurd ha (hne i operations)) hdb
    | @commit i session s db hfresh hrun hdb =>
      refine h.apart.step hsymm h.ok.flags.ok (fun i' operations ha _ => ?_) hdb
      cases ha
      have ho := h.ok.opened hfresh hrun hdb
      obtain ⟨-, hR⟩ := hcommit i session s rfl ho (hopen ho)
      rw [Handover.ofBuffered_operations]
      exact ⟨fun n r hr _ hn => hR _ (.logged hn hr), fun j todo hj => hR _ (.pending hj)⟩

theorem Since.recorded {t : Committed Key StoredValue} (h : sv.Since first base Q R)
    (hn : base < n) (ht : sv.history n = some t) :
    base ≤ t.opened ∧ ∃ s : Snapshot, s.Recorded sv.history t ∧ s.Ok ∧ Q s := by
  obtain ⟨s, hs, hopened, hQ⟩ := recorded_of_carries h.ok.flags h.sessions hn ht
  obtain ⟨s', hs', hok⟩ := h.ok.orderly.recorded ht
  obtain rfl : s' = s := by
    refine Snapshot.ext_get? (OrderedMap.ext_get? fun k => ?_) (fun k => ?_) fun k => ?_
    · rw [hs.storage, hs'.storage]
    · rw [← hs.writes, ← hs'.writes]
    · rw [← hs.locks, ← hs'.locks]
  exact ⟨hopened, s', hs', hok, hQ⟩

theorem Since.unseen {m : Nat} {t u : Committed Key StoredValue} (h : sv.Since first base Q R)
    (ht : sv.history n = some t) (hu : sv.history m = some u) (hm : base < m) (hlt : m < n)
    (hopened : t.opened < m) : R (.ofCommitted t) (.ofCommitted u) := by
  obtain ⟨r, -, hr, hopen, hw, hl⟩ := Log.history_eq_some ht
  obtain ⟨r', -, hr', -, hw', hl'⟩ := Log.history_eq_some hu
  have hR := h.apart.logged hr hr' hm hlt (hopen ▸ hopened)
  rwa [show Handover.ofCommitted t = .ofBuffered r.operations.buffered from
      Prod.ext (funext hw) (funext hl),
    show Handover.ofCommitted u = .ofBuffered r'.operations.buffered from
      Prod.ext (funext hw') (funext hl')]

end Server
end TypeDB.Concept
