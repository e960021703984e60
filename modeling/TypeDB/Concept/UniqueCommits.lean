import TypeDB.Concept.Uniqueness
import TypeDB.Concept.FixedSchema

/-! Unique ownership across transactions. The key that a transaction locks for a unique owns holds
the owner as well, so that two transactions which give one value to two owners do not clash; what
each has checked in its own snapshot is not enough for both. -/

namespace TypeDB.Concept
open List Snapshot Event Nat
open Encoding (ObjectVertex)
open Storage (Write History Committed CommitRecord)
open Runs

namespace Schema
variable {schema : Schema} {o o' : ObjectVertex} {a a' : AttributeVertex}

def Collides (schema : Schema) (o : ObjectVertex) (a : AttributeVertex) (o' : ObjectVertex)
    (a' : AttributeVertex) : Prop :=
  o ≠ o' ∧ a.value = a'.value ∧
    ∃ U, schema.UniqueOwns U ∧ schema.Covers U o a ∧ schema.Covers U o' a'

theorem Collides.symm (h : schema.Collides o a o' a') : schema.Collides o' a' o a := by
  obtain ⟨hne, hvalue, U, hU, ho, ho'⟩ := h
  exact ⟨hne.symm, hvalue.symm, U, hU, ho', ho⟩

theorem uniqueHolds_iff {view : Key → Option StoredValue} :
    schema.UniqueHolds view ↔ ∀ o o' a a', schema.Collides o a o' a' →
      (view (.has o a)).isSome → ¬ (view (.has o' a')).isSome := by
  constructor
  · rintro h o o' a a' ⟨hne, hvalue, U, hU, ho, ho'⟩ he he'
    exact hne (h U o o' a a' hU ho ho' hvalue he he')
  · intro h U o o' a a' hU ho ho' hvalue he he'
    by_contra hne
    exact h o o' a a' ⟨hne, hvalue, U, hU, ho, ho'⟩ he he'

/-- Two sessions that would break a unique owns together get into conflict. -/
def PutsApart (schema : Schema) (b b' : Handover) : Prop :=
  ∀ o a o' a' n n', b.1 (.has o a) = some (.put (.count n) false) →
    b'.1 (.has o' a') = some (.put (.count n') false) → schema.Collides o a o' a' → b.Clashes b'

theorem PutsApart.symm {b b' : Handover} (h : schema.PutsApart b b') : schema.PutsApart b' b :=
  fun o a o' a' n n' hw hw' hcollides => (h o' a' o a n' n hw' hw hcollides.symm).symm

end Schema

namespace Server
variable {schema : Schema} {first base n : Nat} {sv sv' : Server}

/-- Operations under the schema, which give no owner a value that a session they do not see gives
to another owner in the scope of the same unique owns, unless the two get into conflict. -/
def UniqueSafe (schema : Schema) (sv : Server) : Event → Prop
  | .storage _ => True
  | .commit i session =>
    session.ctx.schema = schema ∧
    (∀ request ∈ session.requests, request.1.schema = schema ∧ request.2.Typed) ∧
    ∀ s, session.run (sv.view (sv.db.threads i).openSequenceNumber) = some s →
      ∀ b, sv.Unseen i b → schema.PutsApart (.ofSnapshot s) b

def Under (schema : Schema) (s : Snapshot) : Prop :=
  Steps (.ofSchema schema) (.opened s.storage) s

abbrev UniqueSince (first base : Nat) (schema : Schema) (sv : Server) : Prop :=
  sv.Since first base (Under schema) schema.PutsApart

section
variable (h : sv.UniqueSince first base schema)
include h

theorem UniqueSince.step {e : Event}
    (hsafe : sv.UniqueSafe schema e) (hstep : sv.step e = some sv') :
    sv'.UniqueSince first base schema := by
  refine Since.step h Schema.PutsApart.symm (fun i session s he ho _ => ?_) hstep
  subst he
  obtain ⟨hctx, hrequests, hapart⟩ := hsafe
  refine ⟨?_, hapart s ho.run⟩
  rw [Under, ho.storage]
  exact ho.steps _ ⟨fun r hr => (hrequests r hr).1, fun _ r hr => (hrequests r hr).2,
    fun _ _ _ _ _ => trivial, hctx, fun _ _ => trivial⟩

theorem UniqueSince.not_collides {t : Committed Key StoredValue} {s : Snapshot}
    {o o' : ObjectVertex} {a a' : AttributeVertex} {count : Nat} (hbase : base ≤ t.opened)
    (ht : sv.history (n + 1) = some t) (hs : s.Recorded sv.history t)
    (hunique : schema.UniqueHolds s.get)
    (hput : s.writes.get? (.has o a) = some (.put (.count count) false))
    (he' : (sv.history.state n (.has o' a')).isSome) (hleft : s.writes.get? (.has o' a') = none) :
    ¬ schema.Collides o a o' a' := by
  intro hcollides
  have hopened := le_of_lt_succ (h.ok.orderly.valid.opened_lt ht)
  cases hstored : sv.history.state t.opened (.has o' a') with
  | some value =>
    -- the transaction sees both of them
    have hget : (s.get (.has o a)).isSome := by rw [get_of_write hput]; rfl
    have hget' : (s.get (.has o' a')).isSome := by
      rw [get_of_not_written hleft, hs.storage, hstored]
      rfl
    exact Schema.uniqueHolds_iff.mp hunique o o' a a' hcollides hget hget'
  | none =>
    -- the other one was put by a transaction that is not seen
    obtain ⟨m, w, hlow, hhigh, hw, hne⟩ := History.exists_write_of_state hopened hstored he'
    obtain ⟨u, hu, hw⟩ := Option.bind_eq_some_iff.mp hw
    obtain ⟨s', hs', hok'⟩ := h.ok.orderly.recorded hu
    obtain ⟨count', rfl⟩ := hok'.edge_put (e := .has o' a') (hs'.writes _ ▸ hw) hne
    have hapart := Since.unseen h ht hu (hbase.trans_lt hlow) (lt_succ_of_le hhigh) hlow
    have hclashes := hapart o a o' a' count count' ((hs.writes _).trans hput) hw hcollides
    exact h.ok.orderly.valid.apart ht hu hlow (lt_succ_of_le hhigh)
      (Handover.clashes_of_ofCommitted hclashes)

theorem UniqueSince.succ (hnested : schema.UniquesNested)
    (hbase : base ≤ n) (hbefore : ∀ m, base ≤ m → m ≤ n →
      schema.ValuesTyped (sv.history.state m) ∧ schema.UniqueHolds (sv.history.state m)) :
    schema.ValuesTyped (sv.history.state (n + 1)) ∧
      schema.UniqueHolds (sv.history.state (n + 1)) := by
  obtain ⟨hvalues, hunique⟩ := hbefore n hbase le_rfl
  cases ht : sv.history (n + 1) with
  | none =>
    rw [show sv.history.state (n + 1) = sv.history.state n from
      funext fun k => History.state_succ_none ht]
    exact ⟨hvalues, hunique⟩
  | some t =>
    obtain ⟨hopened, s, hs, hok, hsteps⟩ := Since.recorded h (lt_succ_of_le hbase) ht
    have hstorage : s.storage.get? = sv.history.state t.opened := funext hs.storage
    have hle := le_of_lt_succ (h.ok.orderly.valid.opened_lt ht)
    obtain ⟨hvaluesSeen, huniqueSeen⟩ := hbefore t.opened hopened hle
    rw [← hstorage] at hvaluesSeen huniqueSeen
    have hopenedOk : (opened s.storage).Ok :=
      ok_opened (hstorage ▸ h.ok.orderly.consistent t.opened)
    obtain ⟨hvaluesOwn, huniqueOwn⟩ := hsteps.unique hopenedOk hnested trivial (fun _ h => h)
      hvaluesSeen huniqueSeen
    refine ⟨fun a ha => ?_, Schema.uniqueHolds_iff.mpr fun o o' a a' hcollides he he' => ?_⟩
    · rw [History.state_succ_some ht, hs.writes] at ha
      cases hw : s.writes.get? (.attr a) with
      | none =>
        rw [hw] at ha
        exact hvalues a ha
      | some w =>
        rcases hok.attributes a w hw with rfl | ⟨rfl, -⟩
        · exact hvaluesOwn a (by rw [get_of_write hw]; rfl)
        · rw [hw] at ha
          cases ha
    · have hcases := Orderly.edge_of_recorded (e := .has o a) ht hs hok he
      have hcases' := Orderly.edge_of_recorded (e := .has o' a') ht hs hok he'
      rcases hcases with ⟨he, hleft⟩ | ⟨count, hput⟩ <;>
        rcases hcases' with ⟨he', hleft'⟩ | ⟨count', hput'⟩
      · exact Schema.uniqueHolds_iff.mp hunique o o' a a' hcollides he he'
      · exact h.not_collides hopened ht hs huniqueOwn hput' he hleft hcollides.symm
      · exact h.not_collides hopened ht hs huniqueOwn hput he' hleft' hcollides
      · exact Schema.uniqueHolds_iff.mp huniqueOwn o o' a a' hcollides
          (by rw [get_of_write (k := .has o a) hput]; rfl)
          (by rw [get_of_write (k := .has o' a') hput']; rfl)

theorem UniqueSince.unique (hnested : schema.UniquesNested)
    (hvalues : schema.ValuesTyped (sv.history.state base))
    (hunique : schema.UniqueHolds (sv.history.state base)) (hn : base ≤ n) :
    schema.ValuesTyped (sv.history.state n) ∧ schema.UniqueHolds (sv.history.state n) := by
  induction n using Nat.strong_induction_on with
  | _ n ih =>
    rcases eq_or_lt_of_le hn with rfl | hlt
    · exact ⟨hvalues, hunique⟩
    · obtain ⟨m, rfl⟩ := exists_eq_succ_of_ne_zero (by omega : n ≠ 0)
      exact h.succ hnested (le_of_lt_succ hlt) fun k hk hkm => ih k (lt_succ_of_le hkm) hk

end

end Server

def uniqueSession (v : ObjectVertex) : Session where
  requests := [.createObject v, .createAttribute ⟨0, ⟨.integer, [7]⟩⟩,
    .setHasUnordered v ⟨0, ⟨.integer, [7]⟩⟩].map (Context.ofSchema uniqueSchema, ·)
  ctx := .ofSchema uniqueSchema
  writes := .none

namespace Server
variable {schema : Schema} {sv : Server} {i : Nat} {session : Session}

theorem reach_opens (sv : Server) (i : Nat) :
    Reach Server.step (UniqueSafe schema) sv (sv.attemptAll (opens i)) :=
  reach_attempts (by simp [opens, UniqueSafe]) sv

theorem reach_commits (h : sv.UniqueSafe schema (.commit i session)) :
    Reach Server.step (UniqueSafe schema) sv (sv.attemptAll (commits i session)) := by
  have hsplit : commits i session = .commit i session :: (commits i session).tail := rfl
  rw [attemptAll, hsplit, foldl_cons]
  refine (reach_attempt h).trans (reach_attempts (fun e he t => ?_) _)
  obtain ⟨a, rfl⟩ : ∃ a, e = .storage a := by
    simp only [commits, cons_append, tail_cons, mem_append, mem_replicate, mem_cons] at he
    rcases he with ⟨-, rfl⟩ | rfl | ⟨-, rfl⟩ <;> exact ⟨_, rfl⟩
  trivial

/-- No buffer of the first threads is on its way, and `p` holds of every record that thread `i`
has not seen. -/
def unseenAll (sv : Server) (i bound : Nat) (p : CommitRecord Key StoredValue → Bool) : Bool :=
  (List.range bound).all (fun j => (sv.db.threads j).pc.handedOver.isNone) &&
    sv.db.shared.log.all fun record =>
      match record.commit? with
      | some (n, r) => decide (n ≤ (sv.db.threads i).openSequenceNumber) || p r
      | none => true

theorem Unseen.exists_record {bound : Nat} {p : CommitRecord Key StoredValue → Bool}
    {b : Handover} (hb : sv.Unseen i b) (hcheck : sv.unseenAll i bound p = true)
    (hthreads : ∀ j ≥ bound, sv.db.threads j = .new) :
    ∃ r, p r = true ∧ b = .ofBuffered r.operations.buffered := by
  obtain ⟨hpending, hlogged⟩ := Bool.and_eq_true_iff.mp hcheck
  rw [all_eq_true] at hpending hlogged
  cases hb with
  | @pending j todo hj =>
    rcases Nat.lt_or_ge j bound with hlt | hge
    · have := hpending j (mem_range.mpr hlt)
      rw [hj] at this
      cases this
    · rw [hthreads j hge] at hj
      cases hj
  | @logged n r hn hr =>
    obtain ⟨record, hmem, hcommit⟩ := exists_of_findSome?_eq_some hr
    have hrecord := hlogged record hmem
    cases hc : record.commit? with
    | none =>
      rw [hc] at hcommit
      cases hcommit
    | some q =>
      rw [hc] at hcommit hrecord
      dsimp only at hcommit
      split_ifs at hcommit with hq
      cases hcommit
      refine ⟨q.2, ?_, rfl⟩
      simpa [hq, Nat.not_le.mpr hn] using hrecord

theorem uniqueSafe_of_check (bound : Nat) {p : CommitRecord Key StoredValue → Bool}
    (hctx : session.ctx.schema = schema)
    (hrequests : ∀ request ∈ session.requests, request.1.schema = schema ∧ request.2.Typed)
    (hcheck : sv.unseenAll i bound p = true) (hthreads : ∀ j ≥ bound, sv.db.threads j = .new)
    (hclashes : ∀ s r, session.run (sv.view (sv.db.threads i).openSequenceNumber) = some s →
      p r = true → (Handover.ofSnapshot s).Clashes (.ofBuffered r.operations.buffered)) :
    sv.UniqueSafe schema (.commit i session) := by
  refine ⟨hctx, hrequests, fun s hs b hb o a o' a' n n' _ _ _ => ?_⟩
  obtain ⟨r, hr, rfl⟩ := hb.exists_record hcheck hthreads
  exact hclashes s r hs hr

end Server

def sharedOwner : ObjectVertex := ⟨.entity, 0, 2⟩

/-- Besides an owner of its own for the value 7, a session gives the shared owner a value. -/
def sharingSession (v : ObjectVertex) (value : Nat) : Session where
  requests := (uniqueSession v).requests ++
    [.createAttribute ⟨0, ⟨.integer, [value]⟩⟩,
      .setHasUnordered sharedOwner ⟨0, ⟨.integer, [value]⟩⟩].map (Context.ofSchema uniqueSchema, ·)
  ctx := .ofSchema uniqueSchema
  writes := .none

def sharedOwnerSession : Session where
  requests := [(Context.ofSchema uniqueSchema, .createObject sharedOwner)]
  ctx := .ofSchema uniqueSchema
  writes := .none

def sharingOpened : Server :=
  (Server.create 0).attemptAll (opens 0 ++ commits 0 sharedOwnerSession ++ opens 1 ++ opens 2)

def sharingServer : Server :=
  sharingOpened.attemptAll (commits 1 (sharingSession ⟨.entity, 0, 0⟩ 8) ++
    commits 2 (sharingSession ⟨.entity, 0, 1⟩ 9))

namespace Server

theorem sharingOpened_reach :
    Reach Server.step (UniqueSafe uniqueSchema) (create 0) sharingOpened := by
  have hsafe : ((create 0).attemptAll (opens 0)).UniqueSafe uniqueSchema
      (.commit 0 sharedOwnerSession) := by
    refine uniqueSafe_of_check 3 (p := fun _ => false) rfl ?_ (by decide +kernel)
      (fun j hj => attemptAll_threads ?_) (by simp)
    · simp [sharedOwnerSession, Context.ofSchema, Operation.Typed]
    · simp [opens, Event.thread, Storage.Action.thread]
      omega
  rw [sharingOpened, attemptAll, foldl_append, foldl_append, foldl_append]
  exact (reach_opens _ 0).trans <| (reach_commits hsafe).trans <|
    (reach_opens _ 1).trans (reach_opens _ 2)

def sharedLock : Key := .cardinalityLock sharedOwner .owns 0

theorem sharing_requests {v : ObjectVertex} {value : Nat} :
    ∀ request ∈ (sharingSession v value).requests,
      request.1.schema = uniqueSchema ∧ request.2.Typed := by
  simp [sharingSession, uniqueSession, Context.ofSchema, Operation.Typed]

def sharingFirst : Server :=
  sharingOpened.attemptAll (commits 1 (sharingSession ⟨.entity, 0, 0⟩ 8))

theorem sharingServer_reach :
    Reach Server.step (UniqueSafe uniqueSchema) (create 0) sharingServer := by
  have hidle : ∀ j ≥ 3, sharingOpened.db.threads j = .new := fun j hj => by
    rw [sharingOpened, attemptAll_threads]
    · rfl
    · simp [opens, commits, Event.thread, Storage.Action.thread]
      omega
  have hfirst : sharingOpened.UniqueSafe uniqueSchema
      (.commit 1 (sharingSession ⟨.entity, 0, 0⟩ 8)) :=
    uniqueSafe_of_check 3 (p := fun _ => false) rfl sharing_requests
      (by decide +kernel) hidle (by simp)
  have hlock : ((sharingSession ⟨.entity, 0, 1⟩ 9).run
      (sharingFirst.view (sharingFirst.db.threads 2).openSequenceNumber)).all
      (fun s => decide (s.locks.get? sharedLock = some .exclusive)) = true := by decide +kernel
  have hsecond : sharingFirst.UniqueSafe uniqueSchema
      (.commit 2 (sharingSession ⟨.entity, 0, 1⟩ 9)) := by
    refine uniqueSafe_of_check 3
      (p := fun r => decide (r.operations.locks.get? sharedLock = some .exclusive)) rfl
      sharing_requests (by decide +kernel) (fun j hj => ?_) fun s r hs hr => ?_
    · rw [sharingFirst, attemptAll_threads, hidle j hj]
      simp [commits, Event.thread, Storage.Action.thread]
      omega
    · -- both take the lock on the values of the shared owner
      rw [Option.all_eq_true] at hlock
      exact .bothExclusive (of_decide_eq_true (hlock s hs)) (of_decide_eq_true hr)
  rw [sharingServer, attemptAll, foldl_append]
  exact sharingOpened_reach.trans <| (reach_commits hfirst).trans (reach_commits hsecond)

end Server

def duplicateServer : Server :=
  (Server.create 0).attemptAll (Event.opens 0 ++ Event.opens 1 ++
    Event.commits 0 (uniqueSession ⟨.entity, 0, 0⟩) ++
    Event.commits 1 (uniqueSession ⟨.entity, 0, 1⟩))

end TypeDB.Concept
