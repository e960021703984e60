import Mathlib.Data.Finset.Basic
import TypeDB.Database.Reservations

/-! The schema of a database and its copies. A transaction that reads or writes data takes the
type cache and the function cache under the schema lock, beside its snapshot; a schema commit
stores first, builds the caches from what is stored and publishes them at the end, and may stop
with an error at most of the points between. A schema stands here for the number of schema commits
it is made of, and a snapshot for the number of commits it sees. -/

namespace TypeDB.Database.Caches
open List Option Runs State Function

inductive CommitType
  | data
  | schema
  deriving DecidableEq

inductive TransactionType
  | read
  | write
  | schema
  deriving DecidableEq

def versionAt (commits : List CommitType) (sequenceNumber : Nat) : Nat :=
  (commits.take sequenceNumber).count .schema

/-- The caches of `Schema`, each as the version it was built from. -/
structure Schema where
  typeCache : Nat
  functionCache : Nat
  deriving DecidableEq

def Schema.visibleAt (commits : List CommitType) (sequenceNumber : Nat) : Schema :=
  ⟨versionAt commits sequenceNumber, versionAt commits sequenceNumber⟩

/-- Where `TransactionSchema::try_commit` is. From `synchronising` on it has the schema lock. -/
inductive Stage
  /-- `validate` of the types, and `finalise` of the things and of the functions. -/
  | validating
  | acquiring
  /-- The statistics are synchronised and written to the log. -/
  | synchronising
  | storing
  | cachingTypes (sequenceNumber : Nat)
  | cachingFunctions (sequenceNumber : Nat) (typeCache : Nat)
  /-- The statistics are synchronised once more. -/
  | counting (schema : Schema)
  | resetting (schema : Schema)
  | publishing (schema : Schema)

inductive Phase (κ : Type)
  | idle
  /-- `TransactionSchema::open` takes no caches. -/
  | openingSchema
  | acquiring
  /-- `open` of the other two, with the schema lock for reading. -/
  | snapshotting
  | cloning
  | opened
  /-- The query was not in the cache. -/
  | compiling (query : κ)
  | committing
  | committingSchema (empty : Bool) (stage : Stage)
  | closed

structure Transaction (κ : Type) where
  type_ : TransactionType
  phase : Phase κ
  sequenceNumber : Nat
  schema : Schema
  /-- The last executable that came out of the query cache, as the caches it was compiled with. -/
  executable : Option Schema

inductive Outcome
  | ok
  | error
  /-- An error of `snapshot.commit` after the commit was applied: its status is not persisted. -/
  | errorApplied
  /-- An error of the keyspaces: the commit is validated and never applied. -/
  | errorWriting
  deriving DecidableEq

variable {ι κ : Type}

structure State (ι κ : Type) where
  reservations : Database.State ι
  /-- The commits that are applied. -/
  commits : List CommitType
  /-- A commit is validated and will not be applied: whoever opens a snapshot waits for it. -/
  stuck : Bool
  schema : Schema
  readers : Finset ι
  writer : Option ι
  queryCache : κ → Option Schema
  transactions : ι → Transaction κ

def State.new (commits : List CommitType) : State ι κ where
  reservations := .new
  commits := commits
  stuck := false
  schema := .visibleAt commits commits.length
  readers := ∅
  writer := none
  queryCache := fun _ => none
  transactions := fun _ => ⟨.read, .idle, 0, ⟨0, 0⟩, none⟩

inductive Action (ι κ : Type)
  | reservation (action : Database.Action ι)
  | open_ (i : ι) (type_ : TransactionType)
  | prepare (i : ι) (query : κ)
  | commit (i : ι) (empty : Bool)
  | close (i : ι)
  | run (i : ι) (outcome : Outcome)
  /-- `may_evict` by the thread that updates the statistics. -/
  | evict (query : κ)

variable [DecidableEq ι] (s : State ι κ) (i : ι)

def State.set (t : Transaction κ) : State ι κ :=
  { s with transactions := update s.transactions i t }

def State.applied (commit : CommitType) : State ι κ :=
  { s with commits := s.commits ++ [commit] }

/-- The part of `open` that reserves comes before. -/
def State.reserved : TransactionType → Bool
  | .read => true
  | .write => match s.reservations.attempts i with
    | .holding .write => true
    | _ => false
  | .schema => match s.reservations.attempts i with
    | .holding .schema => true
    | _ => false

def State.mayReserve : Database.Action ι → Bool
  | .release i => match (s.transactions i).phase with
    | .idle | .closed => true
    | _ => false
  | _ => true

/-- `try_commit` returns: the guard of the schema lock is dropped and with it the new caches. -/
def State.abandon : State ι κ :=
  { s with writer := none }.set i { s.transactions i with phase := .closed }

def State.atStage (empty : Bool) (stage : Stage) : State ι κ :=
  s.set i { s.transactions i with phase := .committingSchema empty stage }

/-- The next step of `TransactionSchema::try_commit`. -/
def State.commitSchema (empty : Bool) :
    Stage → Outcome → Option (State ι κ)
  | .validating, .ok => some (s.atStage i empty .acquiring)
  | .validating, .error => some (s.set i { s.transactions i with phase := .closed })
  | .acquiring, .ok =>
    if s.writer.isSome || decide (s.readers ≠ ∅) then none
    else some ({ s with writer := some i }.atStage i empty .synchronising)
  | .synchronising, .ok => some (s.atStage i empty .storing)
  | .synchronising, .error => some (s.abandon i)
  | .storing, .ok =>
    -- A commit without writes is not stored, and the caches are those there were.
    if empty then some (s.atStage i empty (.counting s.schema))
    else some ((s.applied .schema).atStage i empty (.cachingTypes (s.commits.length + 1)))
  | .storing, .error => some (s.abandon i)
  | .storing, .errorApplied =>
    if empty then none else some ((s.applied .schema).abandon i)
  | .storing, .errorWriting => if empty then none else some ({ s with stuck := true }.abandon i)
  | .cachingTypes n, .ok => some (s.atStage i empty (.cachingFunctions n (versionAt s.commits n)))
  | .cachingTypes _, .error => some (s.abandon i)
  | .cachingFunctions n typeCache, .ok =>
    some (s.atStage i empty (.counting ⟨typeCache, versionAt s.commits n⟩))
  | .cachingFunctions _ _, .error => some (s.abandon i)
  | .counting schema, .ok => some (s.atStage i empty (.resetting schema))
  | .counting _, .error => some (s.abandon i)
  | .resetting schema, .ok =>
    some ({ s with queryCache := fun _ => none }.atStage i empty (.publishing schema))
  | .publishing schema, .ok => some ({ s with schema := schema }.abandon i)
  | _, _ => none

variable [DecidableEq κ]

def State.proceed (s : State ι κ) (i : ι) (outcome : Outcome) : Option (State ι κ) :=
  let t := s.transactions i
  match t.phase, outcome with
  | .openingSchema, .ok =>
    if s.stuck then none
    else some (s.set i { t with phase := .opened, sequenceNumber := s.commits.length })
  | .acquiring, .ok =>
    if s.writer.isSome then none
    else some ({ s with readers := insert i s.readers }.set i { t with phase := .snapshotting })
  | .snapshotting, .ok =>
    if s.stuck then none
    else some (s.set i { t with phase := .cloning, sequenceNumber := s.commits.length })
  | .cloning, .ok =>
    some ({ s with readers := s.readers.erase i }.set i
      { t with phase := .opened, schema := s.schema })
  | .compiling query, .ok =>
    some ({ s with queryCache := update s.queryCache query (some t.schema) }.set i
      { t with phase := .opened })
  | .compiling _, .error => some (s.set i { t with phase := .opened })
  | .committing, .ok | .committing, .errorApplied =>
    some ((s.applied .data).set i { t with phase := .closed })
  | .committing, .error => some (s.set i { t with phase := .closed })
  | .committing, .errorWriting =>
    some ({ s with stuck := true }.set i { t with phase := .closed })
  | .committingSchema empty stage, outcome => s.commitSchema i empty stage outcome
  | _, _ => none

def State.step (s : State ι κ) : Action ι κ → Option (State ι κ)
  | .reservation action =>
    if s.mayReserve action then
      (s.reservations.step action).map fun reservations => { s with reservations := reservations }
    else none
  | .open_ i type_ =>
    match (s.transactions i).phase with
    | .idle =>
      if s.reserved i type_ then
        some (s.set i { s.transactions i with
          type_ := type_, phase := if type_ = .schema then .openingSchema else .acquiring })
      else none
    | _ => none
  | .prepare i query =>
    let t := s.transactions i
    match t.phase with
    | .opened =>
      -- A schema transaction has no query cache.
      if t.type_ = .schema then none
      else match s.queryCache query with
        | some executable => some (s.set i { t with executable := some executable })
        | none => some (s.set i { t with phase := .compiling query })
    | _ => none
  | .commit i empty =>
    let t := s.transactions i
    match t.phase, t.type_ with
    | .opened, .write => some (s.set i { t with phase := .committing })
    | .opened, .schema => some (s.atStage i empty .validating)
    | _, _ => none
  | .close i =>
    match (s.transactions i).phase with
    | .opened => some (s.set i { s.transactions i with phase := .closed })
    | _ => none
  | .run i outcome => s.proceed i outcome
  | .evict query => some { s with queryCache := update s.queryCache query none }

def State.version : Nat := versionAt s.commits s.commits.length

/-- No schema commit after `n` is applied. -/
def State.Latest (n : Nat) : Prop :=
  n ≤ s.commits.length ∧ versionAt s.commits n = s.version

def State.Current (schema : Schema) : Prop := schema = ⟨s.version, s.version⟩

/-- What is known of a schema commit: with the lock, what it has built so far is current, and so is
what was published as long as it has not stored. -/
def State.FitsStage (empty : Bool) : Stage → Prop
  | .validating | .acquiring => True
  | .synchronising | .storing => s.writer = some i ∧ s.Current s.schema
  | .cachingTypes n => s.writer = some i ∧ empty = false ∧ s.Latest n
  | .cachingFunctions n typeCache =>
    s.writer = some i ∧ empty = false ∧ s.Latest n ∧ typeCache = s.version
  | .counting schema | .resetting schema | .publishing schema =>
    s.writer = some i ∧ s.Current schema ∧ (empty = true → s.Current s.schema)

/-- What is known of a transaction: while it opens it has the lock, so that its snapshot sees the
latest schema commit, and then its caches are those of its snapshot. -/
def State.Fits (t : Transaction κ) : Prop :=
  match t.phase with
  | .idle | .acquiring | .closed => True
  | .openingSchema => t.type_ = .schema
  | .snapshotting => i ∈ s.readers
  | .cloning => i ∈ s.readers ∧ s.Latest t.sequenceNumber
  | .opened => t.sequenceNumber ≤ s.commits.length ∧
      (t.type_ ≠ .schema → t.schema = .visibleAt s.commits t.sequenceNumber)
  | .compiling _ | .committing => t.sequenceNumber ≤ s.commits.length ∧ t.type_ ≠ .schema ∧
      t.schema = .visibleAt s.commits t.sequenceNumber
  | .committingSchema empty stage => s.FitsStage i empty stage

structure State.Consistent (s : State ι κ) : Prop where
  fits : ∀ i, s.Fits i (s.transactions i)
  alone : s.writer.isSome → s.readers = ∅
  published : s.writer = none → s.Current s.schema

section Steps
variable {s u : State ι κ} {i j : ι} {t : Transaction κ}

omit [DecidableEq ι] [DecidableEq κ]

theorem versionAt_of_isPrefix {commits later : List CommitType} {n : Nat} (h : commits <+: later)
    (hn : n ≤ commits.length) : versionAt later n = versionAt commits n := by
  obtain ⟨rest, rfl⟩ := h
  rw [versionAt, versionAt, take_append_of_le_length hn]

theorem State.version_eq (s : State ι κ) : s.version = s.commits.count .schema := by
  rw [version, versionAt, take_length]

theorem State.version_data (s : State ι κ) : (s.applied .data).version = s.version := by
  rw [version_eq, version_eq, applied, count_append]
  rfl

theorem State.latest_length (s : State ι κ) : s.Latest s.commits.length := ⟨le_rfl, rfl⟩

theorem State.Latest.transfer {n : Nat} (h : s.Latest n) (hcommits : s.commits <+: u.commits)
    (hversion : u.version = s.version) : u.Latest n :=
  ⟨h.1.trans hcommits.length_le,
    (versionAt_of_isPrefix hcommits h.1).trans (h.2.trans hversion.symm)⟩

theorem State.Current.transfer {schema : Schema} (h : s.Current schema)
    (hversion : u.version = s.version) : u.Current schema := by
  rw [Current, hversion]
  exact h

/-- What a transaction relies on: that commits are only added, that none of them is a schema commit
while it has the lock, and that it is the only one to publish while it has it for itself. -/
theorem State.Fits.transfer (h : s.Fits j t) (hcommits : s.commits <+: u.commits)
    (hreader : j ∈ s.readers → j ∈ u.readers ∧ u.version = s.version)
    (hwriter : s.writer = some j →
      u.writer = some j ∧ u.schema = s.schema ∧ u.version = s.version) : u.Fits j t := by
  have hlen := hcommits.length_le
  obtain ⟨type_, phase, n, schema, executable⟩ := t
  have hopened : n ≤ s.commits.length → .visibleAt s.commits n = Schema.visibleAt u.commits n := by
    intro hn
    rw [Schema.visibleAt, Schema.visibleAt, versionAt_of_isPrefix hcommits hn]
  have hbuilt : ∀ {e schema}, (s.writer = some j ∧ s.Current schema ∧
      (e = true → s.Current s.schema)) → u.writer = some j ∧ u.Current schema ∧
      (e = true → u.Current u.schema) := by
    rintro e schema ⟨hw, hcurrent, hempty⟩
    obtain ⟨hw', hschema, hversion⟩ := hwriter hw
    rw [hschema]
    exact ⟨hw', hcurrent.transfer hversion, fun he => (hempty he).transfer hversion⟩
  cases phase with
  | snapshotting => exact (hreader h).1
  | cloning =>
    obtain ⟨hr, hversion⟩ := hreader h.1
    exact ⟨hr, h.2.transfer hcommits hversion⟩
  | opened => exact ⟨h.1.trans hlen, fun ht => (h.2 ht).trans (hopened h.1)⟩
  | compiling q | committing => exact ⟨h.1.trans hlen, h.2.1, h.2.2.trans (hopened h.1)⟩
  | openingSchema => exact h
  | committingSchema empty stage =>
    cases stage with
    | synchronising | storing =>
      have hkept := hbuilt (e := true) ⟨h.1, h.2, fun _ => h.2⟩
      exact ⟨hkept.1, hkept.2.2 rfl⟩
    | cachingTypes n =>
      obtain ⟨hw, -, hversion⟩ := hwriter h.1
      exact ⟨hw, h.2.1, h.2.2.transfer hcommits hversion⟩
    | cachingFunctions n typeCache =>
      obtain ⟨hw, -, hversion⟩ := hwriter h.1
      exact ⟨hw, h.2.1, h.2.2.1.transfer hcommits hversion, h.2.2.2.trans hversion.symm⟩
    | counting schema | resetting schema | publishing schema => exact hbuilt h
    | _ => trivial
  | _ => trivial

end Steps

def Stage.failsApplied (empty : Bool) : Stage → Outcome → Bool
  | .storing, .errorApplied => true
  | .cachingTypes _, .error | .cachingFunctions _ _, .error => true
  | .counting _, .error => !empty
  | _, _ => false

def State.keepsCaches : Action ι κ → Bool
  | .run i outcome => match (s.transactions i).phase with
    | .committingSchema empty stage => !stage.failsApplied empty outcome
    | _ => true
  | _ => true

section Runs
variable {s s' u : State ι κ} {i : ι} {t : Transaction κ}

section
omit [DecidableEq κ]

theorem State.transactions_set (s : State ι κ) (i j : ι) (t : Transaction κ) :
    (s.set i t).transactions j = if j = i then t else s.transactions j := by
  exact update_apply _ _ _ _

theorem State.Consistent.set (hfits : ∀ j, j ≠ i → u.Fits j (u.transactions j)) (ht : u.Fits i t)
    (halone : u.writer.isSome → u.readers = ∅) (hpublished : u.writer = none → u.Current u.schema) :
    (u.set i t).Consistent where
  fits j := by
    by_cases hj : j = i
    · rw [transactions_set, if_pos hj, hj]
      exact ht
    · rw [transactions_set, if_neg hj]
      exact hfits j hj
  alone := halone
  published := hpublished

theorem State.Consistent.own (h : s.Consistent) (ht : s.Fits i t) : (s.set i t).Consistent :=
  .set (fun j _ => h.fits j) ht h.alone h.published

theorem State.Consistent.locked (h : s.Consistent) (hwriter : s.writer = some i)
    (hcommits : s.commits <+: u.commits) (hsame : u.transactions = s.transactions)
    (ht : u.Fits i t) (halone : u.readers = ∅)
    (hpublished : u.writer = none → u.Current u.schema) : (u.set i t).Consistent := by
  have hreaders : s.readers = ∅ := h.alone (by simp [hwriter])
  refine .set (fun j hj => ?_) ht (fun _ => halone) hpublished
  rw [hsame]
  refine (h.fits j).transfer hcommits (fun hj => ?_) fun hw => ?_
  · simp [hreaders] at hj
  · exact absurd (some.inj (hwriter.symm.trans hw)).symm hj

theorem State.Consistent.commitSchema (h : s.Consistent) {empty : Bool} {stage : Stage}
    {outcome : Outcome} (hstage : s.FitsStage i empty stage)
    (hok : stage.failsApplied empty outcome = false)
    (hstep : s.commitSchema i empty stage outcome = some s') : s'.Consistent := by
  have habandon : ∀ schema, s.writer = some i → s.Current schema →
      ({ s with schema := schema }.abandon i).Consistent := fun schema hw hcurrent =>
    h.locked hw (prefix_refl _) rfl trivial (h.alone (by simp [hw])) fun _ => hcurrent
  cases stage <;> cases outcome <;> simp only [State.commitSchema, ite_none_left_eq_some,
    some.injEq, reduceCtorEq] at hstep
  case validating.ok | validating.error => exact hstep ▸ h.own trivial
  case synchronising.ok | counting.ok => exact hstep ▸ h.own hstage
  case synchronising.error | storing.error => exact hstep ▸ habandon _ hstage.1 hstage.2
  case storing.errorApplied | cachingTypes.error | cachingFunctions.error =>
    simp [Stage.failsApplied] at hok
  case acquiring.ok =>
    obtain ⟨hfree, rfl⟩ := hstep
    obtain ⟨hw, hr⟩ : s.writer = none ∧ s.readers = ∅ := by simpa using hfree
    refine .set (fun j hj => ?_) ⟨rfl, h.published hw⟩ (fun _ => hr) fun hnone => ?_
    · refine (h.fits j).transfer (prefix_refl _) (fun hj => ⟨hj, rfl⟩) fun hwj => ?_
      simp [hw] at hwj
    · simp at hnone
  case storing.ok =>
    obtain ⟨hw, hcurrent⟩ := hstage
    split_ifs at hstep with hempty
    all_goals cases hstep
    · exact h.own ⟨hw, hcurrent, fun _ => hcurrent⟩
    · have hlatest := (s.applied .schema).latest_length
      rw [State.applied, length_append] at hlatest
      refine h.locked hw (prefix_append _ _) rfl ⟨hw, by simpa using hempty, hlatest⟩
        (h.alone (by simp [hw])) fun hnone => ?_
      simp [State.applied, hw] at hnone
  case storing.errorWriting =>
    obtain ⟨-, rfl⟩ := hstep
    exact h.locked hstage.1 (prefix_refl _) rfl trivial (h.alone (by simp [hstage.1]))
      fun _ => hstage.2
  case cachingTypes.ok n =>
    exact hstep ▸ h.own ⟨hstage.1, hstage.2.1, hstage.2.2, hstage.2.2.2⟩
  case cachingFunctions.ok n typeCache =>
    obtain ⟨hw, hempty, hlatest, rfl⟩ := hstage
    refine hstep ▸ h.own ⟨hw, ?_, fun he => absurd (hempty.symm.trans he) Bool.false_ne_true⟩
    rw [State.Current, hlatest.2]
  case counting.error schema =>
    refine hstep ▸ habandon _ hstage.1 (hstage.2.2 ?_)
    simpa [Stage.failsApplied] using hok
  case resetting.ok schema =>
    exact hstep ▸ h.locked hstage.1 (prefix_refl _) rfl hstage
      (h.alone (by simp [hstage.1])) h.published
  case publishing.ok schema => exact hstep ▸ habandon _ hstage.1 hstage.2.1

theorem State.Consistent.reading (h : s.Consistent) {readers : Finset ι}
    (hreaders : ∀ j, j ≠ i → j ∈ s.readers → j ∈ readers)
    (ht : { s with readers := readers }.Fits i t) (halone : s.writer.isSome → readers = ∅) :
    ({ s with readers := readers }.set i t).Consistent := by
  refine .set (fun j hj => ?_) ht halone h.published
  exact (h.fits j).transfer (prefix_refl _) (fun hr => ⟨hreaders j hj hr, rfl⟩)
    fun hw => ⟨hw, rfl, rfl⟩

omit [DecidableEq ι]

theorem State.Consistent.cached (h : s.Consistent) (queryCache : κ → Option Schema) :
    { s with queryCache := queryCache }.Consistent := ⟨h.fits, h.alone, h.published⟩

theorem State.Consistent.halted (h : s.Consistent) : { s with stuck := true }.Consistent :=
  ⟨h.fits, h.alone, h.published⟩

theorem State.Consistent.applied (h : s.Consistent) : (s.applied .data).Consistent where
  fits j := (h.fits j).transfer (prefix_append _ _) (fun hr => ⟨hr, s.version_data⟩)
    fun hw => ⟨hw, rfl, s.version_data⟩
  alone := h.alone
  published hw := (h.published hw).transfer s.version_data

end

theorem State.Consistent.proceed (h : s.Consistent) {outcome : Outcome}
    (hok : s.keepsCaches (.run i outcome) = true) (hstep : s.proceed i outcome = some s') :
    s'.Consistent := by
  have hfits := h.fits i
  rw [State.Fits] at hfits
  cases hphase : (s.transactions i).phase <;> simp only [State.proceed, hphase] at hfits hstep
  case committingSchema empty stage =>
    rw [State.keepsCaches, hphase] at hok
    exact h.commitSchema hfits (by simpa using hok) hstep
  all_goals
    cases outcome <;>
      simp only [ite_none_left_eq_some, some.injEq, reduceCtorEq] at hstep
  case openingSchema.ok =>
    obtain ⟨-, rfl⟩ := hstep
    exact h.own ⟨le_rfl, fun ht => absurd hfits ht⟩
  case acquiring.ok =>
    obtain ⟨hw, rfl⟩ := hstep
    exact h.reading (fun j _ => Finset.mem_insert_of_mem) (Finset.mem_insert_self _ _)
      fun hw' => absurd hw' hw
  case snapshotting.ok =>
    obtain ⟨-, rfl⟩ := hstep
    exact h.own ⟨hfits, s.latest_length⟩
  case cloning.ok =>
    subst hstep
    obtain ⟨hr, hlatest⟩ := hfits
    -- The lock is held for reading, so that what is published is current.
    have hw : s.writer = none := by
      cases hw : s.writer with
      | none => rfl
      | some j => simp [h.alone (by simp [hw])] at hr
    have hschema : s.schema = .visibleAt s.commits (s.transactions i).sequenceNumber := by
      rw [h.published hw, Schema.visibleAt, hlatest.2]
    exact h.reading (fun j hj => Finset.mem_erase_of_ne_of_mem hj) ⟨hlatest.1, fun _ => hschema⟩
      fun hw' => by simp [hw] at hw'
  case compiling.ok => exact hstep ▸ (h.cached _).own ⟨hfits.1, fun _ => hfits.2.2⟩
  case compiling.error => exact hstep ▸ h.own ⟨hfits.1, fun _ => hfits.2.2⟩
  case committing.ok | committing.errorApplied => exact hstep ▸ h.applied.own trivial
  case committing.error => exact hstep ▸ h.own trivial
  case committing.errorWriting => exact hstep ▸ h.halted.own trivial

theorem State.Consistent.step (h : s.Consistent) {action : Action ι κ}
    (hok : s.keepsCaches action = true) (hstep : s.step action = some s') : s'.Consistent := by
  cases action with
  | reservation action =>
    simp only [State.step] at hstep
    split_ifs at hstep
    obtain ⟨reservations, -, rfl⟩ := map_eq_some_iff.mp hstep
    exact ⟨h.fits, h.alone, h.published⟩
  | open_ i type_ =>
    simp only [State.step] at hstep
    split at hstep
    · split_ifs at hstep with _ ht
      all_goals cases hstep
      · exact h.own ht
      · exact h.own trivial
    · cases hstep
  | prepare i query =>
    have hfits := h.fits i
    simp only [State.step] at hstep
    split at hstep
    next hphase =>
      rw [Fits, hphase] at hfits
      split_ifs at hstep with htype
      split at hstep
      all_goals cases hstep
      · refine h.own ?_
        rw [Fits, hphase]
        exact hfits
      · exact h.own ⟨hfits.1, htype, hfits.2 htype⟩
    next => cases hstep
  | commit i empty =>
    have hfits := h.fits i
    simp only [State.step] at hstep
    split at hstep
    next hphase htype =>
      rw [Fits, hphase] at hfits
      cases hstep
      have hwrite : (s.transactions i).type_ ≠ .schema := by simp [htype]
      exact h.own ⟨hfits.1, hwrite, hfits.2 hwrite⟩
    next hphase htype =>
      cases hstep
      exact h.own trivial
    next => cases hstep
  | close i =>
    simp only [State.step] at hstep
    split at hstep
    · cases hstep
      exact h.own trivial
    · cases hstep
  | run i outcome => exact h.proceed hok hstep
  | evict query =>
    cases hstep
    exact h.cached _

omit [DecidableEq ι] [DecidableEq κ] in
theorem State.consistent_new (commits : List CommitType) : (new commits : State ι κ).Consistent :=
  ⟨fun _ => trivial, fun h => by simp [new] at h, fun _ => rfl⟩

theorem State.consistent_of_reach {commits : List CommitType}
    (h : Reach step (fun t a => t.keepsCaches a = true) (new commits) s) :
    s.Consistent :=
  h.invariant (consistent_new commits) fun _ _ _ hc hok hs => hc.step hok hs

end Runs

def Phase.isOpen : Phase κ → Bool
  | .opened | .compiling _ | .committing => true
  | _ => false

def Transaction.hasCaches (t : Transaction κ) : Bool := t.type_ != .schema && t.phase.isOpen

omit [DecidableEq ι] [DecidableEq κ] in
theorem State.Fits.schema_eq {s : State ι κ} {i : ι} {t : Transaction κ} (h : s.Fits i t)
    (ht : t.hasCaches = true) : t.schema = .visibleAt s.commits t.sequenceNumber := by
  obtain ⟨type_, phase, n, schema, executable⟩ := t
  obtain ⟨htype, hopen⟩ : type_ ≠ .schema ∧ phase.isOpen = true := by
    simpa [Transaction.hasCaches] using ht
  cases phase with
  | opened => exact h.2 htype
  | compiling query | committing => exact h.2.2
  | _ => cases hopen

/-- In a run without an error of a schema commit that is applied already, who opens a transaction
has the caches of its snapshot. Whenever nobody has the schema lock for writing, as before a schema
commit and after it returned, the caches that are published are those of what is stored, so that
both have changed since or neither has. -/
theorem caches_fit_snapshots {commits : List CommitType} {s : State ι κ}
    (h : Reach State.step (fun t a => t.keepsCaches a = true) (State.new commits) s) :
    (∀ i, (s.transactions i).hasCaches = true →
      (s.transactions i).schema = .visibleAt s.commits (s.transactions i).sequenceNumber) ∧
    (s.writer = none → s.schema = .visibleAt s.commits s.commits.length) ∧
    (∀ t, Reach State.step (fun t a => t.keepsCaches a = true) (State.new commits) t →
      Reach State.step (fun t a => t.keepsCaches a = true) t s → t.writer = none →
      s.writer = none → (s.schema = t.schema ↔ s.version = t.version)) := by
  have hs := State.consistent_of_reach h
  refine ⟨fun i => (hs.fits i).schema_eq, hs.published, fun t ht _ htw hsw => ?_⟩
  rw [hs.published hsw, (State.consistent_of_reach ht).published htw]
  simp

def schemaStored : List (Action Nat Nat) :=
  [.reservation (.reserve 0 .schema), .reservation (.run 0), .open_ 0 .schema, .run 0 .ok,
    .commit 0 false, .run 0 .ok, .run 0 .ok, .run 0 .ok, .run 0 .ok]

def readOpened (i : Nat) : List (Action Nat Nat) :=
  [.open_ i .read, .run i .ok, .run i .ok, .run i .ok]

def schemaPublished : List (Action Nat Nat) := List.replicate 5 (.run 0 .ok)

theorem schemaPublished_run : (runIf State.step State.keepsCaches (State.new [] : State Nat Nat)
    (schemaStored ++ schemaPublished ++ readOpened 1)).isSome := by decide

def schemaPublishedEnd : State Nat Nat := (runIf State.step State.keepsCaches (State.new [])
  (schemaStored ++ schemaPublished ++ readOpened 1)).get schemaPublished_run

theorem schemaPublished_fits :
    (schemaPublishedEnd.transactions 1).hasCaches = true ∧
      (schemaPublishedEnd.transactions 1).schema = .visibleAt [.schema] 1 :=
  ⟨by decide, (caches_fit_snapshots (reach_of_runIf (fun _ _ => id)
    (some_get schemaPublished_run).symm)).1 1 (by decide)⟩

theorem typeCacheFails_run : (run State.step (State.new [] : State Nat Nat)
    (schemaStored ++ [.run 0 .error] ++ readOpened 1)).isSome := by decide

def typeCacheFailsEnd : State Nat Nat :=
  (run State.step (State.new []) (schemaStored ++ [.run 0 .error] ++ readOpened 1)).get
    typeCacheFails_run

/-- The schema commit returned an error and what it stored is visible, without the caches. -/
theorem typeCacheFails_unfit :
    Reaches State.step (State.new []) typeCacheFailsEnd ∧
      (typeCacheFailsEnd.transactions 1).hasCaches = true ∧
      (typeCacheFailsEnd.transactions 1).schema ≠
        .visibleAt typeCacheFailsEnd.commits (typeCacheFailsEnd.transactions 1).sequenceNumber :=
  ⟨reaches_of_run (some_get typeCacheFails_run).symm, by decide, by decide⟩

end TypeDB.Database.Caches
