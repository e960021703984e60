import TypeDB.Storage.Memory
import TypeDB.Concept.CommittedStates

/-! Sessions on the storage. A session performs its operations on the snapshot of a thread,
finalises it and hands the buffer over to be committed, which then runs with all the others. That
the operations are performed when the commit is called is no restriction: what a snapshot reads
does not depend on when it is read. -/

namespace TypeDB.Concept
open List Snapshot OrderedMap
open Option hiding mem_map
open Encoding (ObjectVertex)
open Storage (Write LockType KeyspaceId OperationsBuffer Buffered CommitRecord Action Database Log History
  Committed Carries Carried Separate StorageOk Pc)
open Programs Runs

def Key.keyspace : Key → KeyspaceId
  | .attr a => if a.value.category.isShort then 0 else 3
  | .has _ _ | .links _ _ _ | .linksReverse _ _ _ => 1
  | .hasReverse a _ => if a.value.category.isShort then 2 else 4
  | .indexedRelation _ _ _ _ _ => 3
  | _ => 0

def Snapshot.operations (s : Snapshot) : OperationsBuffer Key StoredValue where
  writes i := ⟨s.writes.entries.filter fun p => decide (p.1.keyspace = i), s.writes.sorted.filter _⟩
  locks := s.locks
  reinsert _ _ := false

structure Session where
  requests : Requests
  ctx : Context
  writes : SchemaWrites

def Session.created (session : Session) : List ObjectVertex :=
  session.requests.filterMap fun request => request.2.created

/-- The snapshot that is committed, if nothing panics and `finalise` returns without errors. -/
def Session.run (session : Session) (storage : OrderedMap Key StoredValue) : Option Snapshot := do
  let s ← (Snapshot.opened storage).perform session.requests
  match ← exec (Finalise.finalise session.ctx session.writes) s with
  | (.ok _, s) => some s
  | (.error _, _) => none

/-- The database with the ids that its generator has handed out. -/
structure Server where
  db : Database Key StoredValue
  handedOut : List ObjectVertex

inductive Event
  | storage (a : Action Key StoredValue)
  | commit (i : Nat) (session : Session)

def Event.thread : Event → Option Nat
  | .storage a => a.thread
  | .commit i _ => some i

namespace Server

def create (previous : Nat) : Server := ⟨.create previous, []⟩

def read (sv : Server) (n : Nat) (k : Key) : Option StoredValue :=
  (sv.db.shared.keyspaces k.keyspace).get k n

def writtenKeys (r : CommitRecord Key StoredValue) : List Key :=
  (List.finRange Storage.keyspaceMaximumCount).flatMap fun i =>
    (r.operations.writes i).entries.map (·.1)

def keys (sv : Server) : List Key :=
  sv.db.shared.log.flatMap fun record =>
    match record.commit? with
    | some (_, r) => writtenKeys r
    | none => []

def view (sv : Server) (n : Nat) : OrderedMap Key StoredValue :=
  .ofKeys (sv.read n) sv.keys

/-- A generator hands out its ids once. Transactions are opened at the watermark. -/
def stepBy (step : Database Key StoredValue → Action Key StoredValue →
      Option (Database Key StoredValue)) (keys : Server → List Key) (sv : Server) :
    Event → Option Server
  | .storage (.commit _ _) => none
  | .storage (.open _ (.writeAt _)) => none
  | .storage a => (step sv.db a).map fun db => { sv with db := db }
  | .commit i session =>
    if session.created.Nodup ∧ ∀ v ∈ session.created, v ∉ sv.handedOut then do
      let n := (sv.db.threads i).openSequenceNumber
      let s ← session.run (.ofKeys (sv.read n) (keys sv))
      let db ← step sv.db (.commit i s.operations)
      some ⟨db, sv.handedOut ++ session.created⟩
    else none

def step : Server → Event → Option Server := stepBy Database.step keys

def history (sv : Server) : History Key StoredValue := sv.db.shared.log.history Key.keyspace

end Server

section Views
variable {s : Snapshot} {k : Key} {i : KeyspaceId} {n first : Nat} {sv : Server}

theorem Snapshot.get?_operations :
    (s.operations.writes i).get? k = if k.keyspace = i then s.writes.get? k else none := by
  have h := getList_filter (fun k : Key => decide (k.keyspace = i)) k s.writes.entries
  simpa [get?, operations] using h

theorem Snapshot.get?_operations_object {v : ObjectVertex} :
    (s.operations.writes 0).get? (.object v) = s.writes.get? (.object v) :=
  get?_operations.trans (if_pos rfl)

open Server

theorem Server.mem_keys {r : CommitRecord Key StoredValue} {w : Write StoredValue}
    (hr : sv.db.shared.log.commitAt n = some r) (hw : (r.operations.writes i).get? k = some w) :
    k ∈ sv.keys := by
  obtain ⟨record, hrecord, hcommit⟩ := exists_of_findSome?_eq_some hr
  simp only [keys, mem_flatMap]
  refine ⟨record, hrecord, ?_⟩
  cases hc : record.commit? with
  | none =>
    rw [hc] at hcommit
    cases hcommit
  | some p =>
    obtain ⟨m, r'⟩ := p
    rw [hc] at hcommit
    dsimp only at hcommit
    split_ifs at hcommit
    cases hcommit
    simp only [writtenKeys, mem_flatMap, mem_map]
    exact ⟨i, mem_finRange i, (k, w), mem_entries.mpr hw, rfl⟩

theorem Server.get?_view (h : StorageOk first sv.db.shared) : (sv.view n).get? k = sv.read n k := by
  rw [view, get?_ofKeys]
  split_ifs with hk
  · rfl
  · cases hget : sv.read n k with
    | none => rfl
    | some value =>
      obtain ⟨v, hv, -⟩ := bind_eq_some_iff.mp hget
      obtain ⟨m, -, hm, -⟩ := Versions.newest_eq_some_iff.mp hv
      obtain ⟨-, -, r, hout, hversion⟩ := h.version _ _ _ _ hm
      have hc : sv.db.shared.log.committed m = true := by rw [Log.committed_eq_isSome, hout]; rfl
      obtain ⟨r₀, hr₀⟩ := Log.commitAt_of_committed hc
      rw [OperationsBuffer.version,
        (Log.alike_of_against ((Log.outcome_eq hr₀).symm.trans hout)).writes] at hversion
      cases hw : (r₀.operations.writes k.keyspace).get? k with
      | none =>
        rw [hw] at hversion
        cases hversion
      | some w => exact absurd (mem_keys hr₀ hw) hk

end Views

def Handed (Q : Nat → Snapshot → Prop) (log : Log Key StoredValue) (_ : List (KeyspaceId × Key))
    (r : CommitRecord Key StoredValue) : Prop :=
  ∃ s : Snapshot, Q r.openSequenceNumber s ∧
    (∀ k, s.storage.get? k = log.value k.keyspace k r.openSequenceNumber) ∧
    r.operations.writes = s.operations.writes ∧ r.operations.locks = s.locks

theorem carried_handed (Q : Nat → Snapshot → Prop) : Carried (Handed Q) where
  congr hlog h := by
    obtain ⟨s, hQ, hstorage, hrest⟩ := h
    exact ⟨s, hQ, fun k => (hstorage k).trans (Log.value_congr hlog).symm, hrest⟩
  setFlag _ _ h := h

def InsertsApart (b b' : Buffered Key StoredValue) : Prop :=
  ∀ v value value', (b.1 0).get? (.object v) = some (.insert value) →
    (b'.1 0).get? (.object v) ≠ some (.insert value')

theorem InsertsApart.symm {b b' : Buffered Key StoredValue} (h : InsertsApart b b') :
    InsertsApart b' b :=
  fun v value value' hw hw' => h v value' value hw' hw

namespace Session
variable {T : Terms} {session : Session} {storage : OrderedMap Key StoredValue} {s : Snapshot}

def terms (session : Session) : Terms where
  allows _ := True
  typed := False
  fresh v := v ∈ session.created
  sets o a := ∃ request ∈ session.requests, request.2.Sets o a

structure Keeps (T : Terms) (session : Session) : Prop where
  allows : ∀ request ∈ session.requests, T.allows request.1
  typed : T.typed → ∀ request ∈ session.requests, request.2.Typed
  sets : ∀ request ∈ session.requests, ∀ o a, request.2.Sets o a → T.sets o a
  ctx : T.allows session.ctx
  created : ∀ v ∈ session.created, T.fresh v

theorem keeps_terms (session : Session) : session.Keeps session.terms :=
  ⟨fun _ _ => trivial, False.elim, fun request hmem _ _ h => ⟨request, hmem, h⟩, trivial,
    fun _ => id⟩

theorem run_eq_some (h : session.run storage = some s) :
    ∃ s₁, (opened storage).perform session.requests = some s₁ ∧
      exec (Finalise.finalise session.ctx session.writes) s₁ = some (.ok ⟨⟩, s) := by
  rw [run] at h
  obtain ⟨s₁, h₁, h⟩ := bind_eq_some_iff.mp h
  obtain ⟨⟨r, s₂⟩, h₂, h⟩ := bind_eq_some_iff.mp h
  cases r with
  | error _ => cases h
  | ok _ =>
    cases h
    exact ⟨s₁, h₁, h₂⟩

theorem run_steps (hT : session.Keeps T) (hstorage : Consistent storage.get?)
    (hnew : ∀ v ∈ session.created, storage.get? (.object v) = none)
    (hrun : session.run storage = some s) : Steps T (.opened storage) s := by
  have h₀ := ok_opened hstorage
  obtain ⟨s₁, h₁, h₂⟩ := run_eq_some hrun
  have hperform : Steps T (.opened storage) s₁ := by
    refine (Steps.perform .refl h₀ fun request hmem => ⟨hT.allows request hmem, ?_⟩).of_some h₁
    refine ⟨fun v hv => ?_, fun ht => hT.typed ht request hmem, hT.sets request hmem⟩
    have hmem : v ∈ session.created := mem_filterMap.mpr ⟨request, hmem, hv⟩
    exact ⟨hnew v hmem, hT.created v hmem⟩
  exact (Finalise.finalise_triple h₀ hT.ctx s₁ hperform).of_some h₂

end Session

namespace Server
variable {first n : Nat} {sv sv' : Server} {v : ObjectVertex} {k : Key} {session : Session}
  {s : Snapshot} {i : Nat}

structure Ok (first : Nat) (sv : Server) : Prop where
  flags : Carries Log.FlagsExact first 0 sv.db
  handed : Carries (Handed fun _ s => s.Ok ∧ ∀ v value,
    s.writes.get? (.object v) = some (.insert value) → v ∈ sv.handedOut) first 0 sv.db
  separate : Separate (fun _ _ => True) 0 InsertsApart sv.db

theorem Ok.read_eq (h : sv.Ok first) (hn : n ≤ sv.db.shared.watermark) :
    sv.read n k = sv.history.state n k := h.flags.get_eq_state hn

theorem Ok.get?_view (h : sv.Ok first) (hn : n ≤ sv.db.shared.watermark) :
    (sv.view n).get? k = sv.history.state n k :=
  (Server.get?_view h.flags.ok.shared).trans (h.read_eq hn)

theorem recorded_of_carries {Q : Nat → Snapshot → Prop} {base : Nat}
    {t : Committed Key StoredValue} (hflags : Carries Log.FlagsExact first 0 sv.db)
    (h : Carries (Handed Q) first base sv.db) (hn : base < n) (ht : sv.history n = some t) :
    ∃ s : Snapshot, s.Recorded sv.history t ∧ Q t.opened s := by
  obtain ⟨r, -, hr, hopened, hwrites, hlocks⟩ := Log.history_eq_some ht
  obtain ⟨s, hQ, hstorage, hw, hl⟩ := h.logged n r hn hr
  refine ⟨s, ⟨fun k => ?_, fun k => ?_, fun k => ?_⟩, hopened ▸ hQ⟩
  · rw [hstorage, hopened]
    exact hflags.value_eq_state _
  · rw [hwrites, hw, get?_operations, if_pos rfl]
  · rw [hlocks, hl]

theorem Ok.orderly (h : sv.Ok first) : Orderly sv.history where
  valid := Log.history_valid fun _ _ => h.flags.ok.shared.wellFormed.open_lt
  recorded {n t} ht := by
    obtain ⟨r, -, hr, -⟩ := Log.history_eq_some ht
    have hn : 0 < n := (h.flags.ok.shared.wellFormed.open_lt hr).pos
    obtain ⟨s, hs, hok, -⟩ := recorded_of_carries h.flags h.handed hn ht
    exact ⟨s, hs, hok⟩
  once {n m v value value'} hn hm := by
    by_contra hne
    obtain ⟨t, ht, hn⟩ := bind_eq_some_iff.mp hn
    obtain ⟨u, hu, hm⟩ := bind_eq_some_iff.mp hm
    obtain ⟨r, -, hr, -, hw, -⟩ := Log.history_eq_some ht
    obtain ⟨r', -, hr', -, hw', -⟩ := Log.history_eq_some hu
    have hpos : ∀ {n r}, sv.db.shared.log.commitAt n = some r → 0 < n := fun hr =>
      (h.flags.ok.shared.wellFormed.open_lt hr).pos
    rcases Nat.lt_or_gt_of_ne hne with hlt | hlt
    · exact h.separate.logged hr' hr (hpos hr) hlt trivial v value' value (hw' _ ▸ hm) (hw _ ▸ hn)
    · exact h.separate.logged hr hr' (hpos hr') hlt trivial v value value' (hw _ ▸ hn) (hw' _ ▸ hm)

theorem Ok.mem_handedOut (h : sv.Ok first) (hv : (sv.history.state n (.object v)).isSome) :
    v ∈ sv.handedOut := by
  obtain ⟨m, w, hm, -, hw, hne⟩ := History.exists_write_of_state (Nat.zero_le n) rfl hv
  obtain ⟨t, ht, hw⟩ := bind_eq_some_iff.mp hw
  obtain ⟨s, hs, hok, hinserts⟩ := recorded_of_carries h.flags h.handed hm ht
  rw [hs.writes] at hw
  rcases hok.objects v w hw with ⟨rfl, -⟩ | ⟨rfl, -⟩
  · exact hinserts v _ hw
  · exact absurd rfl hne

theorem ok_create (first : Nat) : (create first).Ok first :=
  ⟨Storage.carries_create, Storage.carries_create, Storage.separate_create⟩

inductive StepCases (sv : Server) : Event → Server → Prop
  | storage {a : Action Key StoredValue} {db : Database Key StoredValue}
      (hcommit : ∀ i operations, a ≠ .commit i operations)
      (hopen : ∀ i n, a ≠ .open i (.writeAt n)) (hstep : sv.db.step a = some db) :
      StepCases sv (.storage a) ⟨db, sv.handedOut⟩
  | commit {i : Nat} {session : Session} {s : Snapshot} {db : Database Key StoredValue}
      (hfresh : ∀ v ∈ session.created, v ∉ sv.handedOut)
      (hrun : session.run (sv.view (sv.db.threads i).openSequenceNumber) = some s)
      (hstep : sv.db.step (.commit i s.operations) = some db) :
      StepCases sv (.commit i session) ⟨db, sv.handedOut ++ session.created⟩

theorem stepCases {e : Event} (hstep : sv.step e = some sv') : sv.StepCases e sv' := by
  cases e with
  | storage a =>
    unfold step stepBy at hstep
    split at hstep
    · cases hstep
    · cases hstep
    · rename_i hcommit hopen heq
      cases heq
      obtain ⟨db, hdb, rfl⟩ := map_eq_some_iff.mp hstep
      exact .storage (fun i operations ha => hcommit i operations (by rw [ha]))
        (fun i n ha => hopen i n (by rw [ha])) hdb
    · rename_i heq
      cases heq
  | commit i session =>
    rw [step, stepBy] at hstep
    split_ifs at hstep with hfresh
    obtain ⟨s, hrun, hstep⟩ := bind_eq_some_iff.mp hstep
    obtain ⟨db, hdb, hstep⟩ := bind_eq_some_iff.mp hstep
    cases hstep
    exact .commit hfresh.2 hrun hdb

/-- A session that may commit: its operations were steps from the committed state it was opened
in. -/
structure Opened (sv : Server) (i : Nat) (session : Session) (s : Snapshot) : Prop where
  pc : (sv.db.threads i).pc = .opened
  registers : (sv.db.threads i).call.registers = true
  opened_le : (sv.db.threads i).openSequenceNumber ≤ sv.db.shared.watermark
  view : ∀ k, (sv.view (sv.db.threads i).openSequenceNumber).get? k =
    sv.history.state (sv.db.threads i).openSequenceNumber k
  ok : (Snapshot.opened (sv.view (sv.db.threads i).openSequenceNumber)).Ok
  steps : ∀ T, session.Keeps T →
    Steps T (.opened (sv.view (sv.db.threads i).openSequenceNumber)) s
  run : session.run (sv.view (sv.db.threads i).openSequenceNumber) = some s

theorem Ok.open_le {operations : Storage.OperationsBuffer Key StoredValue}
    {db : Database Key StoredValue} (h : sv.Ok first)
    (hdb : sv.db.step (.commit i operations) = some db) :
    (sv.db.threads i).pc = .opened ∧ (sv.db.threads i).call.registers = true ∧
      (sv.db.threads i).openSequenceNumber ≤ sv.db.shared.watermark := by
  obtain ⟨hpc, hregisters⟩ : (sv.db.threads i).pc = .opened ∧
      (sv.db.threads i).call.registers = true := by
    simp only [Database.step] at hdb
    split at hdb
    · exact ⟨by assumption, by assumption⟩
    · cases hdb
  exact ⟨hpc, hregisters, ((h.flags.ok.own i).at_pc hpc).1⟩

theorem Ok.view_consistent (h : sv.Ok first) (hn : n ≤ sv.db.shared.watermark) :
    Consistent (sv.view n).get? := by
  rw [show (sv.view n).get? = _ from funext fun k => h.get?_view hn]
  exact h.orderly.consistent n

theorem Ok.view_object (h : sv.Ok first) (hn : n ≤ sv.db.shared.watermark)
    (hv : v ∉ sv.handedOut) : (sv.view n).get? (.object v) = none := by
  by_contra hne
  rw [h.get?_view hn, ← ne_eq, ne_none_iff_isSome] at hne
  exact hv (h.mem_handedOut hne)

theorem Ok.opened {db : Database Key StoredValue} (h : sv.Ok first)
    (hfresh : ∀ v ∈ session.created, v ∉ sv.handedOut)
    (hrun : session.run (sv.view (sv.db.threads i).openSequenceNumber) = some s)
    (hdb : sv.db.step (.commit i s.operations) = some db) : sv.Opened i session s := by
  obtain ⟨hpc, hregisters, hopen⟩ := h.open_le hdb
  have hconsistent := h.view_consistent hopen
  refine ⟨hpc, hregisters, hopen, fun k => h.get?_view hopen, ok_opened hconsistent,
    fun T hT => ?_, hrun⟩
  exact Session.run_steps hT hconsistent (fun v hv => h.view_object hopen (hfresh v hv)) hrun

theorem Opened.storage (h : sv.Opened i session s) :
    s.storage = sv.view (sv.db.threads i).openSequenceNumber :=
  (h.steps _ session.keeps_terms).storage h.ok

theorem Opened.snapshot_ok (h : sv.Opened i session s) : s.Ok :=
  (h.steps _ session.keeps_terms).ok h.ok

theorem carries_step {Q : Nat → Snapshot → Prop} {base : Nat} {e : Event} (h : sv.Ok first)
    (hQ : Carries (Handed Q) first base sv.db) (hstep : sv.StepCases e sv')
    (hcommit : ∀ i session s, e = .commit i session → sv.Opened i session s →
      Q (sv.db.threads i).openSequenceNumber s) :
    Carries (Handed Q) first base sv'.db := by
  cases hstep with
  | storage hne _ hdb =>
    exact hQ.step (carried_handed Q) (fun i operations ha => absurd ha (hne i operations)) hdb
  | @commit i session s db hfresh hrun hdb =>
    refine hQ.step (carried_handed Q) (fun i' operations ha _ => ?_) hdb
    cases ha
    have hopened := h.opened hfresh hrun hdb
    refine ⟨s, hcommit i session s rfl hopened, fun k => ?_, rfl, rfl⟩
    rw [hopened.storage, hopened.view]
    exact (h.flags.value_eq_state _).symm

theorem Ok.step {e : Event} (h : sv.Ok first) (hstep : sv.step e = some sv') : sv'.Ok first := by
  have hcases := stepCases hstep
  -- what was handed out before stays so
  have hgrows : ∀ v ∈ sv.handedOut, v ∈ sv'.handedOut := by
    cases hcases with
    | storage => exact fun _ => id
    | commit => exact fun _ hv => mem_append_left _ hv
  have hinserted : ∀ {i session s}, e = .commit i session → sv.Opened i session s → ∀ v value,
      s.writes.get? (.object v) = some (.insert value) → v ∈ session.created :=
    fun _ ho v value hv => (ho.steps _ (Session.keeps_terms _)).fresh_of_insert ho.ok hv
  refine ⟨?_, ?_, ?_⟩
  · cases hcases with
    | storage _ _ hdb | commit _ _ hdb => exact h.flags.flagsExact_step hdb
  · refine carries_step h (h.handed.mono ?_) hcases fun i session s he ho => ⟨ho.snapshot_ok, ?_⟩
    · rintro log todo r ⟨s, ⟨hok, hins⟩, hrest⟩
      exact ⟨s, ⟨hok, fun v value hv => hgrows v (hins v value hv)⟩, hrest⟩
    · intro v value hv
      have hmem := hinserted he ho v value hv
      subst he
      cases hcases with
      | commit => exact mem_append_right _ hmem
  · cases hcases with
    | storage hne _ hdb =>
      exact h.separate.step InsertsApart.symm h.flags.ok
        (fun i operations ha => absurd ha (hne i operations)) hdb
    | @commit i session s db hfresh hrun hdb =>
      refine h.separate.step InsertsApart.symm h.flags.ok (fun i' operations ha _ => ?_) hdb
      cases ha
      have ho := h.opened hfresh hrun hdb
      -- the ids of the session are new, those of other buffers are not
      have hapart : ∀ {todo r}, Handed (fun _ s => s.Ok ∧ ∀ v value,
          s.writes.get? (.object v) = some (.insert value) → v ∈ sv.handedOut)
          sv.db.shared.log todo r → InsertsApart s.operations.buffered r.operations.buffered := by
        rintro todo r ⟨s', ⟨-, hins⟩, -, hw, -⟩ v value value' hv hv'
        rw [OperationsBuffer.buffered, get?_operations_object] at hv
        rw [OperationsBuffer.buffered, hw, get?_operations_object] at hv'
        exact hfresh v (hinserted rfl ho v value hv) (hins v value' hv')
      exact ⟨fun n r hr hn _ => hapart (h.handed.logged n r hn hr),
        fun j todo hj => hapart (h.handed.pending j todo hj)⟩

theorem Ok.reach {ok : Server → Event → Prop} (hr : Reach Server.step ok (create first) sv) :
    sv.Ok first :=
  hr.invariant (ok_create first) fun _ _ _ h _ hstep => h.step hstep

theorem Ok.consistent (h : sv.Ok first) (hn : n ≤ sv.db.shared.watermark) :
    Consistent (sv.read n) := by
  rw [show sv.read n = sv.history.state n from funext fun _ => h.read_eq hn]
  exact h.orderly.consistent n

/-- Whatever transactions commit, and however their steps interleave, in every committed state an
edge is there as its reverse is, with the same count, and both its ends are there. -/
theorem committed_edges_whole {previous : Nat}
    (hr : Reaches Server.step (create previous) sv) (hn : n ≤ sv.db.shared.watermark) :
    (∀ o a, sv.read n (.hasReverse a o) = sv.read n (.has o a)) ∧
    (∀ r p role, sv.read n (.linksReverse p r role) = sv.read n (.links r p role)) ∧
    (∀ o a, (sv.read n (.has o a)).isSome →
      (sv.read n (.object o)).isSome ∧ (sv.read n (.attr a)).isSome) ∧
    ∀ r p role, (sv.read n (.links r p role)).isSome →
      (sv.read n (.object r)).isSome ∧ (sv.read n (.object p)).isSome := by
  have h := (Ok.reach hr).consistent hn
  exact ⟨fun o a => h.paired (.has o a), fun r p role => h.paired (.links r p role),
    fun o a he => ⟨h.source (.has o a) he, h.target (.has o a) he⟩,
    fun r p role he => ⟨h.source (.links r p role) he, h.target (.links r p role) he⟩⟩

def attemptAll (sv : Server) (events : List Event) : Server :=
  events.foldl (attempt Server.step) sv

theorem reaches_attemptAll (sv : Server) (events : List Event) :
    Reaches step sv (sv.attemptAll events) :=
  reaches_foldl (reaches_attempt step) sv events

theorem step_threads {e : Event} {j : Nat} (hstep : sv.step e = some sv')
    (he : e.thread ≠ some j) : sv'.db.threads j = sv.db.threads j := by
  have hcases := stepCases hstep
  cases hcases with
  | storage _ _ hdb | commit _ _ hdb => exact Database.step_threads hdb he

theorem attemptAll_threads {events : List Event} {j : Nat}
    (he : ∀ e ∈ events, e.thread ≠ some j) : (sv.attemptAll events).db.threads j =
      sv.db.threads j := by
  induction events generalizing sv with
  | nil => rfl
  | cons e events ih =>
    rw [attemptAll, foldl_cons]
    refine (ih fun e' he' => he e' (mem_cons_of_mem e he')).trans ?_
    rw [attempt]
    cases hstep : step sv e with
    | none => rfl
    | some sv' => exact step_threads hstep (he e mem_cons_self)

end Server

def Event.opens (i : Nat) : List Event :=
  .storage (.open i .write) :: List.replicate 3 (.storage (.run i))

def Event.commits (i : Nat) (session : Session) : List Event :=
  .commit i session :: List.replicate 40 (.storage (.run i)) ++
    .storage .sync :: List.replicate 20 (.storage (.run i))

def ownerSchema : Schema :=
  { Schema.empty with
    valueType := fun _ => some .integer
    ownsDeclared := fun _ => [0] }

def ownerSession : Session where
  requests := [.createObject ⟨.entity, 0, 0⟩, .createAttribute ⟨0, ⟨.integer, [7]⟩⟩,
    .setHasUnordered ⟨.entity, 0, 0⟩ ⟨0, ⟨.integer, [7]⟩⟩].map (Context.ofSchema ownerSchema, ·)
  ctx := .ofSchema ownerSchema
  writes := .none

def ownerServer : Server :=
  (Server.create 0).attemptAll (Event.opens 0 ++ Event.commits 0 ownerSession)

theorem Server.ownerServer_edge_whole :
    Reaches Server.step (create 0) ownerServer ∧ 1 ≤ ownerServer.db.shared.watermark ∧
      (ownerServer.read 1 (.has ⟨.entity, 0, 0⟩ ⟨0, ⟨.integer, [7]⟩⟩)).isSome ∧
      (ownerServer.read 1 (.object ⟨.entity, 0, 0⟩)).isSome := by
  have hr : Reaches step (create 0) ownerServer := reaches_attemptAll _ _
  have hn : 1 ≤ ownerServer.db.shared.watermark := by decide +kernel
  have he : (ownerServer.read 1 (.has ⟨.entity, 0, 0⟩ ⟨0, ⟨.integer, [7]⟩⟩)).isSome := by
    decide +kernel
  exact ⟨hr, hn, he, ((committed_edges_whole hr hn).2.2.1 _ _ he).1⟩

namespace Server

/-- The build without a log after `import_snapshot`. The generator is not told of the ids that
came with the data. -/
def imported (watermark : Nat) (data : OrderedMap Key StoredValue) : Server :=
  ⟨.importSnapshot watermark fun i k n =>
    if k.keyspace = i ∧ n = watermark then (data.get? k).map .insert else none, []⟩

/-- Without a log the keys are those of the data and those of the records in the slots. -/
def stepImported (data : OrderedMap Key StoredValue) : Server → Event → Option Server :=
  stepBy Database.stepMemory fun sv => data.entries.map (·.1) ++
    (List.range sv.db.shared.nextSequenceNumber).flatMap fun n =>
      match sv.db.shared.commitRecords n with
      | some r => writtenKeys r
      | none => []

end Server

def importedEntity : OrderedMap Key StoredValue := .insert .empty (.object ⟨.entity, 0, 0⟩) .empty

def deleteSession : Session where
  requests := [(Context.ofSchema ownerSchema, .deleteObject ⟨.entity, 0, 0⟩)]
  ctx := .ofSchema ownerSchema
  writes := .none

/-- The generator hands out the id of the entity that was imported. One session creates an entity
under it that has an attribute, another one deletes the entity that it has seen. -/
def danglingServer : Server :=
  (Event.opens 0 ++ Event.opens 1 ++ Event.commits 0 ownerSession ++
    Event.commits 1 deleteSession).foldl (attempt (Server.stepImported importedEntity))
    (Server.imported 1 importedEntity)

theorem Server.danglingServer_dangling : Consistent importedEntity.get? ∧
    Reaches (stepImported importedEntity) (imported 1 importedEntity) danglingServer ∧
      danglingServer.db.shared.watermark = 3 ∧
      (danglingServer.read 3 (.has ⟨.entity, 0, 0⟩ ⟨0, ⟨.integer, [7]⟩⟩)).isSome ∧
      danglingServer.read 3 (.object ⟨.entity, 0, 0⟩) = none := by
  have hkey : ∀ e : Edge, importedEntity.get? e.key = none := by
    intro e
    cases e <;> rfl
  refine ⟨⟨fun e => ?_, fun e he => ?_, fun e he => ?_, fun e he => ?_⟩,
    reaches_foldl (reaches_attempt _) _ _, by decide +kernel, by decide +kernel, by decide +kernel⟩
  · cases e <;> rfl
  all_goals simp [hkey] at he

end TypeDB.Concept
