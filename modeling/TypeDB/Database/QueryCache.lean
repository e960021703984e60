import TypeDB.Database.SchemaCaches

/-! The query cache. All transactions that read or write data share it, it is emptied at the end of
a schema commit, and a read transaction stays open across one. The reservations keep write
transactions away from schema commits. -/

namespace TypeDB.Database.Caches
open List Option Runs Caches.State Phase Transaction

variable {ι κ : Type}

def Phase.isActive : Phase κ → Bool
  | .idle | .closed => false
  | _ => true

def Phase.wasOpen : Phase κ → Bool
  | .opened | .compiling _ | .committing | .committingSchema _ _ | .closed => true
  | _ => false

def Stage.stored (empty : Bool) : Stage → Bool
  | .cachingTypes _ | .cachingFunctions _ _ => true
  | .counting _ | .resetting _ => !empty
  | _ => false

def Phase.supersedes : Phase κ → Bool
  | .committingSchema empty stage => stage.stored empty
  | _ => false

variable (s : State ι κ)

def State.Holding (i : ι) : TransactionType → Prop
  | .read => True
  | .write => s.reservations.attempts i = .holding .write
  | .schema => s.reservations.attempts i = .holding .schema

/-- What is known of a transaction besides its caches: it has its reservation, no schema commit
comes between if it writes, and an executable from the cache fits its caches. -/
structure State.Behaves (s : State ι κ) (i : ι) (t : Transaction κ) : Prop where
  holds : t.phase.isActive = true → s.Holding i t.type_
  typed : ∀ empty stage, t.phase = .committingSchema empty stage → t.type_ = .schema
  latest : t.type_ = .write → t.phase.isOpen = true → s.Latest t.sequenceNumber
  executable : ∀ e, t.executable = some e → t.phase.wasOpen = true ∧ e = t.schema

def State.Fresh : Prop := ∀ query e, s.queryCache query = some e → s.Current e

/-- A schema commit is on its way to empty the cache, and whoever could use the cache meanwhile has
an older snapshot. -/
def State.Superseded : Prop :=
  (∃ i, (s.transactions i).phase.supersedes = true) ∧
    ∀ j, (s.transactions j).hasCaches = true → ¬ s.Latest (s.transactions j).sequenceNumber

structure State.Prepared (s : State ι κ) : Prop where
  consistent : s.Consistent
  reservations : s.reservations.Ok
  behaves : ∀ i, s.Behaves i (s.transactions i)
  queries : s.Fresh ∨ s.Superseded

/-- A read transaction uses the cache only while no schema commit after its snapshot is applied. -/
def State.upToDate (i : ι) : Bool :=
  (s.transactions i).type_ != .read ||
    versionAt s.commits (s.transactions i).sequenceNumber == s.version

/-- No schema commit returns an error after its commit was applied, and no read transaction that a
schema commit has overtaken uses the cache. -/
def State.keepsQueries : Action ι κ → Bool
  | .prepare i _ => s.upToDate i
  | .run i outcome => match (s.transactions i).phase with
    | .compiling _ => s.upToDate i
    | _ => s.keepsCaches (.run i outcome)
  | _ => true

theorem State.keepsCaches_of_keepsQueries {s : State ι κ} {action : Action ι κ}
    (h : s.keepsQueries action = true) : s.keepsCaches action = true := by
  cases action with
  | run i outcome =>
    rw [keepsQueries] at h
    cases hphase : (s.transactions i).phase with
    | compiling query => rw [keepsCaches, hphase]
    | _ => simpa only [hphase] using h
  | _ => rfl

section Steps
variable {s s' u : State ι κ} {i j : ι} {t : Transaction κ} {type_ : TransactionType}

theorem State.Holding.transfer (h : s.Holding i type_)
    (hreservations : u.reservations = s.reservations) : u.Holding i type_ := by
  cases type_ with
  | read => trivial
  | write | schema =>
    rw [Holding, hreservations]
    exact h

theorem State.Behaves.transfer (h : s.Behaves j t) (hreservations : u.reservations = s.reservations)
    (hcommits : s.commits <+: u.commits)
    (hversion : t.type_ = .write → t.phase.isOpen = true → u.version = s.version) :
    u.Behaves j t where
  holds hactive := (h.holds hactive).transfer hreservations
  typed := h.typed
  latest htype hopen := (h.latest htype hopen).transfer hcommits (hversion htype hopen)
  executable := h.executable

theorem State.Behaves.phase (h : s.Behaves i t) {phase : Phase κ}
    (hactive : phase.isActive = true → t.phase.isActive = true)
    (htyped : ∀ empty stage, phase = .committingSchema empty stage → t.type_ = .schema)
    (hopen : phase.isOpen = true → t.phase.isOpen = true)
    (hwas : t.phase.wasOpen = true → phase.wasOpen = true) :
    s.Behaves i { t with phase := phase } where
  holds ha := h.holds (hactive ha)
  typed := htyped
  latest htype ho := h.latest htype (hopen ho)
  executable e he := ⟨hwas (h.executable e he).1, (h.executable e he).2⟩

theorem State.Fits.sequenceNumber_le (h : s.Fits i t) (ht : t.hasCaches = true) :
    t.sequenceNumber ≤ s.commits.length := by
  obtain ⟨type_, phase, n, schema, executable⟩ := t
  obtain ⟨-, hopen⟩ : type_ ≠ .schema ∧ phase.isOpen = true := by
    simpa [hasCaches] using ht
  cases phase with
  | opened | compiling query | committing => exact h.1
  | _ => cases hopen

theorem State.Fits.writer_eq (h : s.Fits i t) (ht : t.phase.supersedes = true) :
    s.writer = some i := by
  obtain ⟨type_, phase, n, schema, executable⟩ := t
  cases phase with
  | committingSchema empty stage =>
    cases stage with
    | cachingTypes n | cachingFunctions n typeCache | counting schema | resetting schema =>
      exact h.1
    | _ => cases ht
  | _ => cases ht

theorem State.Prepared.fresh (h : s.Prepared) (hwriter : s.writer = none) : s.Fresh := by
  refine h.queries.resolve_right fun ⟨⟨i, hi⟩, _⟩ => ?_
  simp [(h.consistent.fits i).writer_eq hi] at hwriter

section
variable (h : s.Prepared) (hcaches : (s.transactions i).hasCaches = true)
include h hcaches

theorem State.Prepared.latest
    (hok : s.upToDate i = true) : s.Latest (s.transactions i).sequenceNumber := by
  have hle := (h.consistent.fits i).sequenceNumber_le hcaches
  obtain ⟨htype, hopen⟩ := Bool.and_eq_true_iff.mp hcaches
  cases ht : (s.transactions i).type_ with
  | read =>
    rw [upToDate, ht] at hok
    exact ⟨hle, by simpa using hok⟩
  | write => exact (h.behaves i).latest ht hopen
  | schema => simp [ht] at htype

theorem State.Prepared.fresh_of_latest
    (hlatest : s.Latest (s.transactions i).sequenceNumber) : s.Fresh :=
  h.queries.resolve_right fun hsup => hsup.2 i hcaches hlatest

theorem State.Prepared.current
    (hlatest : s.Latest (s.transactions i).sequenceNumber) :
    s.Current (s.transactions i).schema := by
  rw [Current, (h.consistent.fits i).schema_eq hcaches, Schema.visibleAt, hlatest.2]

end

theorem State.Behaves.executable_eq_none (h : s.Behaves i t) (hwas : t.phase.wasOpen = false) :
    t.executable = none := by
  cases he : t.executable with
  | none => rfl
  | some e => exact absurd (hwas.symm.trans (h.executable e he).1) Bool.false_ne_true

variable [DecidableEq ι]

structure State.Extends (s u : State ι κ) : Prop where
  reservations : u.reservations = s.reservations
  transactions : u.transactions = s.transactions
  commits : s.commits <+: u.commits
  version : u.version = s.version

theorem State.Prepared.queries_set (h : s.Prepared) (hu : s.Extends u) (hcache : s.Fresh → u.Fresh)
    (hphase : (s.transactions i).phase.supersedes = true → t.phase.supersedes = true)
    (hopen : t.hasCaches = true → (s.transactions i).hasCaches = true ∧
      t.sequenceNumber = (s.transactions i).sequenceNumber) : u.Fresh ∨ (u.set i t).Superseded := by
  refine h.queries.imp hcache fun ⟨⟨k, hk⟩, hold⟩ => ⟨⟨k, ?_⟩, fun j hj hlatest => ?_⟩
  · rw [transactions_set]
    split_ifs with hki
    · subst hki
      exact hphase hk
    · rw [hu.transactions]
      exact hk
  · rw [transactions_set] at hj hlatest
    obtain ⟨hcaches, hlatest⟩ : (s.transactions j).hasCaches = true ∧
        u.Latest (s.transactions j).sequenceNumber := by
      split_ifs at hj hlatest with hji
      · subst hji
        obtain ⟨hcaches, hseq⟩ := hopen hj
        exact ⟨hcaches, hseq ▸ hlatest⟩
      · rw [hu.transactions] at hj hlatest
        exact ⟨hj, hlatest⟩
    have hle := (h.consistent.fits j).sequenceNumber_le hcaches
    refine hold j hcaches ⟨hle, ?_⟩
    rw [← versionAt_of_isPrefix hu.commits hle, ← hu.version]
    exact hlatest.2

theorem State.Prepared.update (h : s.Prepared) (hc : (u.set i t).Consistent) (hu : s.Extends u)
    (ht : u.Behaves i t) (hqueries : u.Fresh ∨ (u.set i t).Superseded) : (u.set i t).Prepared where
  consistent := hc
  reservations := by
    show u.reservations.Ok
    rw [hu.reservations]
    exact h.reservations
  behaves j := by
    rw [transactions_set]
    split_ifs with hj
    · subst hj
      exact ht.transfer rfl (prefix_refl _) fun _ _ => rfl
    · rw [hu.transactions]
      exact (h.behaves j).transfer hu.reservations hu.commits fun _ _ => hu.version
  queries := hqueries

theorem State.Prepared.move (h : s.Prepared) {old phase : Phase κ}
    (hold : (s.transactions i).phase = old)
    (hc : (u.set i { s.transactions i with phase := phase }).Consistent) (hu : s.Extends u)
    (hcache : s.Fresh → u.Fresh) (hactive : phase.isActive = true → old.isActive = true)
    (htyped : ∀ empty stage, phase = .committingSchema empty stage →
      (s.transactions i).type_ = .schema)
    (hopen : phase.isOpen = true → old.isOpen = true)
    (hwas : old.wasOpen = true → phase.wasOpen = true)
    (hphase : old.supersedes = true → phase.supersedes = true) :
    (u.set i { s.transactions i with phase := phase }).Prepared := by
  subst hold
  refine h.update hc hu ?_ ?_
  · exact ((h.behaves i).phase hactive htyped hopen hwas).transfer hu.reservations hu.commits
      fun _ _ => hu.version
  refine h.queries_set hu hcache hphase fun ht => ⟨?_, rfl⟩
  obtain ⟨htype, ho⟩ := Bool.and_eq_true_iff.mp ht
  exact Bool.and_eq_true_iff.mpr ⟨htype, hopen ho⟩

omit [DecidableEq ι] in
theorem State.version_schema (s : State ι κ) : (s.applied .schema).version = s.version + 1 := by
  rw [version_eq, version_eq, applied, count_append]
  rfl

omit [DecidableEq ι] in
theorem State.not_latest_applied {n : Nat} (hn : n ≤ s.commits.length) :
    ¬ (s.applied .schema).Latest n := by
  intro hlatest
  have hat : versionAt s.commits n = s.version + 1 := by
    rw [← s.version_schema, ← hlatest.2]
    exact (versionAt_of_isPrefix (prefix_append _ _) hn).symm
  have hle : versionAt s.commits n ≤ s.version := by
    rw [version_eq]
    exact (take_sublist n s.commits).count_le _
  omega

theorem State.Prepared.store (h : s.Prepared) {n : Nat}
    (hphase : (s.transactions i).phase = .committingSchema false .storing)
    (hc : ((s.applied .schema).atStage i false (.cachingTypes n)).Consistent) :
    ((s.applied .schema).atStage i false (.cachingTypes n)).Prepared where
  consistent := hc
  reservations := h.reservations
  behaves j := by
    have hcommits : s.commits <+: (s.applied .schema).commits := prefix_append _ _
    have htype := (h.behaves i).typed _ _ hphase
    have hown : s.Behaves i
        { s.transactions i with phase := .committingSchema false (.cachingTypes n) } :=
      (h.behaves i).phase (fun _ => by rw [hphase]; rfl) (fun _ _ _ => htype) nofun fun _ => rfl
    rw [atStage, transactions_set]
    split_ifs with hj
    · subst hj
      exact hown.transfer rfl hcommits nofun
    · refine (h.behaves j).transfer rfl hcommits fun hwrite hopen => ?_
      have hi := (h.behaves i).holds (by rw [hphase]; rfl)
      have hactive : (s.transactions j).phase.isActive = true := by
        cases hp : (s.transactions j).phase <;> simp [hp, isOpen] at hopen <;> rfl
      have hheld := (h.behaves j).holds hactive
      rw [htype, Holding] at hi
      rw [hwrite, Holding] at hheld
      have hschema : (s.reservations.attempts i).Holds .schema := by rw [hi]; rfl
      have hwriting : (s.reservations.attempts j).Holds .write := by rw [hheld]; rfl
      exact absurd (h.reservations.alone hschema hwriting).symm hj
  queries := by
    refine .inr ⟨⟨i, ?_⟩, fun j hj hlatest => ?_⟩
    · rw [atStage, transactions_set, if_pos rfl]
      rfl
    · rw [atStage, transactions_set] at hj hlatest
      split_ifs at hj hlatest with hji
      · simp [hasCaches, isOpen] at hj
      · exact not_latest_applied ((h.consistent.fits j).sequenceNumber_le hj) hlatest

/-- The part of the state that a schema commit leaves alone but for its storing and resetting. -/
structure State.Keeps (s u : State ι κ) : Prop where
  reservations : u.reservations = s.reservations
  transactions : u.transactions = s.transactions
  commits : u.commits = s.commits
  queryCache : u.queryCache = s.queryCache

omit [DecidableEq ι] in
theorem State.Keeps.version (h : s.Keeps u) : u.version = s.version := by
  rw [version_eq, version_eq, h.commits]

omit [DecidableEq ι] in
theorem State.Keeps.fresh (h : s.Keeps u) (hfresh : s.Fresh) : u.Fresh := by
  intro query e he
  rw [h.queryCache] at he
  exact (hfresh query e he).transfer h.version

theorem State.Prepared.turn (h : s.Prepared) {old phase : Phase κ}
    (hold : (s.transactions i).phase = old)
    (hc : (u.set i { s.transactions i with phase := phase }).Consistent) (hu : s.Keeps u)
    (hactive : phase.isActive = true → old.isActive = true)
    (htyped : ∀ empty stage, phase = .committingSchema empty stage →
      (s.transactions i).type_ = .schema)
    (hopen : phase.isOpen = true → old.isOpen = true)
    (hwas : old.wasOpen = true → phase.wasOpen = true)
    (hphase : old.supersedes = true → phase.supersedes = true) :
    (u.set i { s.transactions i with phase := phase }).Prepared :=
  h.move hold hc ⟨hu.reservations, hu.transactions, hu.commits ▸ prefix_refl _, hu.version⟩ hu.fresh
    hactive htyped hopen hwas hphase

theorem State.Prepared.close (h : s.Prepared) {old : Phase κ}
    (hold : (s.transactions i).phase = old)
    (hc : (u.set i { u.transactions i with phase := .closed }).Consistent) (hu : s.Keeps u)
    (hphase : old.supersedes = false) :
    (u.set i { u.transactions i with phase := .closed }).Prepared := by
  rw [hu.transactions] at hc ⊢
  exact h.turn hold hc hu nofun nofun nofun (fun _ => rfl) fun hsup =>
    absurd (hphase.symm.trans hsup) Bool.false_ne_true

theorem State.Prepared.atStage (h : s.Prepared) {empty : Bool} {stage stage' : Stage}
    (hc : (u.atStage i empty stage').Consistent) (hu : s.Keeps u)
    (hphase : (s.transactions i).phase = .committingSchema empty stage)
    (hstored : stage.stored empty = true → stage'.stored empty = true) :
    (u.atStage i empty stage').Prepared := by
  rw [State.atStage, hu.transactions] at hc ⊢
  exact h.turn hphase hc hu id (fun _ _ _ => (h.behaves i).typed _ _ hphase) nofun id hstored

theorem State.Prepared.commitSchema (h : s.Prepared) {empty : Bool} {stage : Stage}
    {outcome : Outcome} (hphase : (s.transactions i).phase = .committingSchema empty stage)
    (hok : stage.failsApplied empty outcome = false)
    (hstep : s.commitSchema i empty stage outcome = some s') : s'.Prepared := by
  have hfits := h.consistent.fits i
  rw [State.Fits, hphase] at hfits
  have hc : s'.Consistent := h.consistent.commitSchema hfits hok hstep
  cases stage <;> cases outcome <;> simp only [State.commitSchema, ite_none_left_eq_some,
    some.injEq, reduceCtorEq] at hstep
  case validating.ok | synchronising.ok | cachingTypes.ok | counting.ok =>
    subst hstep
    exact h.atStage hc ⟨rfl, rfl, rfl, rfl⟩ hphase id
  case validating.error | synchronising.error | storing.error | publishing.ok =>
    subst hstep
    exact h.close hphase hc ⟨rfl, rfl, rfl, rfl⟩ rfl
  case storing.errorApplied | cachingTypes.error | cachingFunctions.error =>
    simp [Stage.failsApplied] at hok
  case acquiring.ok =>
    obtain ⟨-, rfl⟩ := hstep
    exact h.atStage hc ⟨rfl, rfl, rfl, rfl⟩ hphase id
  case storing.ok =>
    split_ifs at hstep with hempty
    all_goals cases hstep
    · exact h.atStage hc ⟨rfl, rfl, rfl, rfl⟩ hphase (by rintro ⟨⟩)
    · obtain rfl : empty = false := by simpa using hempty
      exact h.store hphase hc
  case storing.errorWriting =>
    obtain ⟨-, rfl⟩ := hstep
    exact h.close hphase hc ⟨rfl, rfl, rfl, rfl⟩ rfl
  case cachingFunctions.ok n typeCache =>
    subst hstep
    refine h.atStage hc ⟨rfl, rfl, rfl, rfl⟩ hphase fun _ => ?_
    rw [Stage.stored, hfits.2.1]
    rfl
  case counting.error schema =>
    subst hstep
    exact h.close hphase hc ⟨rfl, rfl, rfl, rfl⟩ hok
  case resetting.ok schema =>
    subst hstep
    have hown : s.Behaves i { s.transactions i with
        phase := .committingSchema empty (.publishing schema) } :=
      (h.behaves i).phase (fun _ => by rw [hphase]; rfl)
        (fun _ _ _ => (h.behaves i).typed _ _ hphase) (by rintro ⟨⟩) fun _ => rfl
    exact h.update hc ⟨rfl, rfl, prefix_refl _, rfl⟩
      (hown.transfer rfl (prefix_refl _) fun _ _ => rfl)
      (.inl fun _ _ he => by cases he)

omit [DecidableEq ι] in
theorem State.holding_of_reserved (h : s.reserved i type_ = true) : s.Holding i type_ := by
  cases type_ with
  | read => trivial
  | write | schema =>
    rw [reserved] at h
    split at h
    next hattempt => exact hattempt
    next => cases h

theorem State.Holding.reserve {action : Database.Action ι} {reservations : Database.State ι}
    (h : s.Holding i type_) (hactive : (s.transactions i).phase.isActive = true)
    (hmay : s.mayReserve action = true) (hstep : s.reservations.step action = some reservations) :
    { s with reservations := reservations }.Holding i type_ := by
  have hrelease : action ≠ .release i := by
    rintro rfl
    cases hphase : (s.transactions i).phase <;>
      simp [State.mayReserve, isActive, hphase] at hmay hactive
  cases type_ with
  | read => trivial
  | write | schema => exact State.holding_step h hrelease hstep

variable [DecidableEq κ]

omit [DecidableEq ι] in
theorem State.Fresh.update (h : s.Fresh) (query : κ) {executable : Option Schema}
    (hexecutable : ∀ e, executable = some e → s.Current e) :
    { s with queryCache := Function.update s.queryCache query executable }.Fresh := by
  intro query' e he
  by_cases hquery : query' = query
  · subst hquery
    have hself : Function.update s.queryCache query' executable query' = executable :=
      Function.update_self _ _ _
    exact hexecutable e (hself.symm.trans he)
  · exact h query' e ((Function.update_of_ne hquery _ _).symm.trans he)

theorem State.Prepared.proceed (h : s.Prepared) {outcome : Outcome}
    (hok : s.keepsQueries (.run i outcome) = true) (hstep : s.proceed i outcome = some s') :
    s'.Prepared := by
  have hc := h.consistent.proceed (State.keepsCaches_of_keepsQueries hok) hstep
  have hfits := h.consistent.fits i
  rw [State.Fits] at hfits
  cases hphase : (s.transactions i).phase <;> simp only [State.proceed, hphase] at hfits hstep
  case committingSchema empty stage =>
    simp only [State.keepsQueries, State.keepsCaches, hphase] at hok
    exact h.commitSchema hphase (by simpa using hok) hstep
  all_goals
    have hactive := (h.behaves i).holds
    cases outcome <;>
      simp only [ite_none_left_eq_some, some.injEq, reduceCtorEq] at hstep
  case openingSchema.ok =>
    obtain ⟨-, rfl⟩ := hstep
    have hnone := (h.behaves i).executable_eq_none (by rw [hphase]; rfl)
    refine h.update hc ⟨rfl, rfl, prefix_refl _, rfl⟩ ?_ ?_
    · refine ⟨fun _ => hactive (by rw [hphase]; rfl), by simp, fun hw => ?_, by simp [hnone]⟩
      simp [hfits] at hw
    · refine h.queries_set ⟨rfl, rfl, prefix_refl _, rfl⟩ id (by simp [hphase, supersedes])
        fun ht => ?_
      simp [hasCaches, hfits] at ht
  case acquiring.ok =>
    obtain ⟨-, rfl⟩ := hstep
    exact h.turn hphase hc ⟨rfl, rfl, rfl, rfl⟩ id (by simp) id id id
  case snapshotting.ok =>
    obtain ⟨-, rfl⟩ := hstep
    have hnone := (h.behaves i).executable_eq_none (by rw [hphase]; rfl)
    refine h.update hc ⟨rfl, rfl, prefix_refl _, rfl⟩ ?_ ?_
    · exact ⟨fun _ => hactive (by rw [hphase]; rfl), by simp, by simp [isOpen], by simp [hnone]⟩
    · refine h.queries_set ⟨rfl, rfl, prefix_refl _, rfl⟩ id (by simp [hphase, supersedes])
        fun ht => ?_
      simp [hasCaches, isOpen] at ht
  case cloning.ok =>
    subst hstep
    have hnone := (h.behaves i).executable_eq_none (by rw [hphase]; rfl)
    -- The lock is held for reading, so that no schema commit is about to empty the cache.
    have hw : s.writer = none := by
      cases hw : s.writer with
      | none => rfl
      | some j => simp [h.consistent.alone (by simp [hw])] at hfits
    refine h.update hc ⟨rfl, rfl, prefix_refl _, rfl⟩ ?_ (.inl (h.fresh hw))
    exact ⟨fun _ => hactive (by rw [hphase]; rfl), by simp, fun _ _ => hfits.2, by simp [hnone]⟩
  case compiling.ok query =>
    subst hstep
    have hcaches : (s.transactions i).hasCaches = true := by
      simp [hasCaches, hphase, isOpen, hfits.2.1]
    simp only [State.keepsQueries, hphase] at hok
    have hlatest := h.latest hcaches hok
    refine h.move hphase hc ⟨rfl, rfl, prefix_refl _, rfl⟩ (fun hfresh => hfresh.update query ?_)
      id (by simp) id id id
    rintro e ⟨⟩
    exact h.current hcaches hlatest
  case compiling.error query =>
    exact hstep ▸ h.turn hphase (hstep ▸ hc) ⟨rfl, rfl, rfl, rfl⟩ id (by simp) id id id
  case committing.ok | committing.errorApplied =>
    subst hstep
    exact h.move hphase hc ⟨rfl, rfl, prefix_append _ _, s.version_data⟩
      (fun hfresh query e he => (hfresh query e he).transfer s.version_data)
      (by simp [isActive]) (by simp) (by simp [isOpen]) id id
  case committing.error | committing.errorWriting =>
    subst hstep
    exact h.close hphase hc ⟨rfl, rfl, rfl, rfl⟩ rfl

theorem State.Prepared.step (h : s.Prepared) {action : Action ι κ}
    (hok : s.keepsQueries action = true) (hstep : s.step action = some s') : s'.Prepared := by
  have hc := h.consistent.step (keepsCaches_of_keepsQueries hok) hstep
  cases action with
  | reservation action =>
    simp only [State.step] at hstep
    split_ifs at hstep with hmay
    obtain ⟨reservations, hres, rfl⟩ := map_eq_some_iff.mp hstep
    refine ⟨hc, h.reservations.step hres, fun i => ⟨fun ha => ?_, ?_, ?_, ?_⟩, h.queries⟩
    · exact ((h.behaves i).holds ha).reserve ha hmay hres
    · exact (h.behaves i).typed
    · exact (h.behaves i).latest
    · exact (h.behaves i).executable
  | open_ i type_ =>
    simp only [State.step] at hstep
    split at hstep
    next hphase =>
      have hnone := (h.behaves i).executable_eq_none (by rw [hphase]; rfl)
      split_ifs at hstep with hr ht
      all_goals
        cases hstep
        refine h.update hc ⟨rfl, rfl, prefix_refl _, rfl⟩
          ⟨fun _ => holding_of_reserved hr, by simp, by simp [isOpen], by simp [hnone]⟩ ?_
        refine h.queries_set ⟨rfl, rfl, prefix_refl _, rfl⟩ id (by simp [hphase, supersedes])
          fun ht => ?_
        simp [hasCaches, isOpen] at ht
    next => cases hstep
  | prepare i query =>
    simp only [State.step] at hstep
    split at hstep
    next hphase =>
      split_ifs at hstep with htype
      have hcaches : (s.transactions i).hasCaches = true := by
        simp [hasCaches, hphase, isOpen, htype]
      have hlatest := h.latest hcaches hok
      split at hstep
      next e he =>
        cases hstep
        have hfits : e = (s.transactions i).schema := by
          rw [h.fresh_of_latest hcaches hlatest query e he, h.current hcaches hlatest]
        refine h.update hc ⟨rfl, rfl, prefix_refl _, rfl⟩ ?_ ?_
        · refine ⟨(h.behaves i).holds, (h.behaves i).typed, (h.behaves i).latest, ?_⟩
          intro e' he'
          exact ⟨by rw [hphase]; rfl, (some.inj he').symm.trans hfits⟩
        · exact h.queries_set ⟨rfl, rfl, prefix_refl _, rfl⟩ id id fun ht => ⟨ht, rfl⟩
      next =>
        cases hstep
        exact h.turn hphase hc ⟨rfl, rfl, rfl, rfl⟩ id (by simp) id id id
    next => cases hstep
  | commit i empty =>
    simp only [State.step] at hstep
    split at hstep
    next hphase htype =>
      cases hstep
      exact h.turn hphase hc ⟨rfl, rfl, rfl, rfl⟩ id (by simp) id id id
    next hphase htype =>
      cases hstep
      exact h.turn hphase hc ⟨rfl, rfl, rfl, rfl⟩ id (fun _ _ _ => htype) (by simp [isOpen])
        id id
    next => cases hstep
  | close i =>
    simp only [State.step] at hstep
    split at hstep
    next hphase =>
      cases hstep
      exact h.close hphase hc ⟨rfl, rfl, rfl, rfl⟩ rfl
    next => cases hstep
  | run i outcome => exact h.proceed hok hstep
  | evict query =>
    cases hstep
    refine ⟨hc, h.reservations, fun i => (h.behaves i).transfer rfl (prefix_refl _)
      fun _ _ => rfl, h.queries.imp (fun hfresh => hfresh.update query (by simp)) id⟩

omit [DecidableEq ι] [DecidableEq κ] in
theorem State.prepared_new (commits : List CommitType) : (new commits : State ι κ).Prepared where
  consistent := consistent_new commits
  reservations := Database.State.ok_new
  behaves _ := ⟨nofun, nofun, nofun, nofun⟩
  queries := .inl nofun

end Steps

/-- In a run without an error of a schema commit that is applied already, and in which no read
transaction uses the cache after a schema commit has overtaken it, an executable from the cache was
compiled with the schema its transaction sees. -/
theorem executables_fit_snapshots {commits : List CommitType} {s : State ι κ} [DecidableEq ι]
    [DecidableEq κ]
    (h : Reach State.step (fun t a => t.keepsQueries a = true) (State.new commits) s) {i : ι}
    {e : Schema} (hi : (s.transactions i).hasCaches = true)
    (he : (s.transactions i).executable = some e) :
    e = .visibleAt s.commits (s.transactions i).sequenceNumber := by
  have hs : s.Prepared :=
    h.invariant (prepared_new commits) fun _ _ _ hp hok hstep => hp.step hok hstep
  rw [((hs.behaves i).executable e he).2, (hs.consistent.fits i).schema_eq hi]

def prepared (i : Nat) : List (Action Nat Nat) := [.prepare i 0, .run i .ok]

theorem preparedTwice_run : (runIf step keepsQueries (new [] : State Nat Nat)
    (schemaStored ++ schemaPublished ++ readOpened 2 ++ prepared 2 ++ readOpened 3 ++
      [.prepare 3 0])).isSome := by decide

def preparedTwiceEnd : State Nat Nat := (runIf State.step State.keepsQueries (State.new [])
  (schemaStored ++ schemaPublished ++ readOpened 2 ++ prepared 2 ++ readOpened 3 ++
    [.prepare 3 0])).get preparedTwice_run

theorem preparedTwice_fits :
    (preparedTwiceEnd.transactions 3).executable = some ⟨1, 1⟩ ∧
      (⟨1, 1⟩ : Schema) = .visibleAt preparedTwiceEnd.commits
        (preparedTwiceEnd.transactions 3).sequenceNumber :=
  ⟨by decide, executables_fit_snapshots (reach_of_runIf (fun _ _ => id)
    (some_get preparedTwice_run).symm) (by decide) (by decide)⟩

def overtaken : List (Action Nat Nat) :=
  readOpened 2 ++ schemaStored ++ schemaPublished ++ prepared 2 ++ readOpened 3 ++
    [.prepare 3 0]

theorem overtaken_run : (run step (new []) overtaken).isSome := by decide

def overtakenEnd : State Nat Nat := (run State.step (State.new []) overtaken).get overtaken_run

theorem overtaken_unfit :
    Reaches State.step (State.new []) overtakenEnd ∧
      (overtakenEnd.transactions 3).hasCaches = true ∧
      (overtakenEnd.transactions 3).executable = some ⟨0, 0⟩ ∧
      (⟨0, 0⟩ : Schema) ≠ .visibleAt overtakenEnd.commits
        (overtakenEnd.transactions 3).sequenceNumber :=
  ⟨reaches_of_run (some_get overtaken_run).symm, by decide, by decide, by decide⟩

end TypeDB.Database.Caches
