import TypeDB.Storage.Handover

/-! What validation guarantees: commits that did not see one another are not in conflict, and a
key that a committed transaction puts is there afterwards. Both are read off the log, whose commit
records decide everything. -/

namespace TypeDB.Storage
open Option Runs Threads Versions Storage.Database OperationsBuffer Log

variable {K V : Type*} [LinearOrder K]

namespace Log
variable {log log' : Log K V} {n m : Nat} {r r' p : CommitRecord K V} {i : KeyspaceId} {k : K}

def version (log : Log K V) (i : KeyspaceId) (k : K) (n : Nat) : Option (Version V) :=
  (log.outcome n).bind fun r => r.operations.version i k

theorem version_congr (h : ∀ p ≤ n, log.commitAt p = log'.commitAt p) :
    log.version i k n = log'.version i k n := by
  rw [version, version, outcome_congr h]

theorem commitAt_of_committed (h : log.committed n = true) : ∃ p, log.commitAt n = some p := by
  cases hp : log.commitAt n with
  | some p => exact ⟨p, rfl⟩
  | none =>
    rw [committed_eq_isSome, outcome_none hp] at h
    cases h

def NotWritten (log : Log K V) (i : KeyspaceId) (k : K) (n : Nat) : Prop :=
  log.committed n = true → ∀ p, log.commitAt n = some p → (p.operations.writes i).get? k = none

theorem NotWritten.version (h : log.NotWritten i k n) : log.version i k n = none := by
  cases hout : log.outcome n with
  | none => rw [Log.version, hout]; rfl
  | some r' =>
    have hc : log.committed n = true := by rw [committed_eq_isSome, hout]; rfl
    obtain ⟨p, hp⟩ := commitAt_of_committed hc
    have halike := alike_of_against ((outcome_eq hp).symm.trans hout)
    have hwrite := h hc p hp
    rw [← halike.writes] at hwrite
    rw [Log.version, hout, bind_some, OperationsBuffer.version, hwrite]

structure LastWrite (log : Log K V) (i : KeyspaceId) (k : K) (a b m : Nat)
    (write : Write V) : Prop where
  low : a < m
  high : m < b
  committed : log.committed m = true
  logged : ∃ p, log.commitAt m = some p ∧ (p.operations.writes i).get? k = some write
  last : ∀ m', m < m' → m' < b → log.NotWritten i k m'

/-- The last committed write of the key after `a` and before `b` decides the flag; without one it
stays as it was logged. -/
def Decides (log : Log K V) (i : KeyspaceId) (k : K) (a b : Nat) (logged flag : Bool) : Prop :=
  (∃ m write, log.LastWrite i k a b m write ∧ flag = write.flag) ∨
    (∀ m, a < m → m < b → log.NotWritten i k m) ∧ flag = logged

theorem Decides.succ {a b : Nat} {logged flag : Bool} (h : log.Decides i k a b logged flag)
    (hnot : log.NotWritten i k b) : log.Decides i k a (b + 1) logged flag := by
  refine h.imp ?_ ?_
  · rintro ⟨m, write, ⟨hlow, hhigh, hc, hw, hlast⟩, hflag⟩
    refine ⟨m, write, ⟨hlow, hhigh.trans (Nat.lt_succ_self b), hc, hw, fun m' hm hb => ?_⟩, hflag⟩
    rcases Nat.lt_succ_iff_lt_or_eq.mp hb with hlt | rfl
    · exact hlast m' hm hlt
    · exact hnot
  · rintro ⟨hnone, hflag⟩
    refine ⟨fun m hlow hb => ?_, hflag⟩
    rcases Nat.lt_succ_iff_lt_or_eq.mp hb with hlt | rfl
    · exact hnone m hlow hlt
    · exact hnot

theorem against_reinsert {value : V} {known : Bool} (h : log.against r n = some r')
    (hput : (r.operations.writes i).get? k = some (.put value known)) :
    log.Decides i k r.openSequenceNumber n (r.operations.reinsert i k)
      (r'.operations.reinsert i k) := by
  induction n generalizing r' with
  | zero =>
    cases h
    exact .inr ⟨fun m _ hm => by omega, rfl⟩
  | succ n ih =>
    obtain ⟨r₁, h₁⟩ := Validation.against_some_of_le h (Nat.le_succ n)
    change log.against r n = some r₁ at h₁
    rcases Nat.lt_or_ge r.openSequenceNumber n with hopen | hopen
    · by_cases hc : log.committed n = true
      · obtain ⟨p, hp⟩ := commitAt_of_committed hc
        rw [against_succ_committed h₁ hopen hc hp] at h
        have hflag := (CommitRecord.resolve_eq_some h).2.2.2 i k
        rw [flagAfter, (alike_of_against h₁).writes, hput] at hflag
        cases hw : (p.operations.writes i).get? k with
        | some write =>
          rw [hw] at hflag
          exact .inl ⟨n, write, ⟨hopen, Nat.lt_succ_self n, hc, ⟨p, hp, hw⟩,
            fun m' hm hm' => by omega⟩, hflag⟩
        | none =>
          rw [hw] at hflag
          rw [hflag]
          refine (ih h₁).succ fun _ p' hp' => ?_
          obtain rfl := some.inj (hp.symm.trans hp')
          exact hw
      · rw [against_succ_skip h₁ (by simpa using hc)] at h
        cases h
        exact (ih h₁).succ fun hc' => absurd hc' hc
    · rw [against_of_le log (Nat.succ_le_succ hopen)] at h
      cases h
      exact .inr ⟨fun m hm hm' => by omega, rfl⟩

/-- A put that was logged without its flag is of a key visible at the opening. -/
def FlagsOk (log : Log K V) (r : CommitRecord K V) : Prop :=
  ∀ i k value known, (r.operations.writes i).get? k = some (.put value known) →
    r.operations.reinsert i k = false →
    ∃ value', newest (log.version i k) r.openSequenceNumber = some (.insert value')

/-- A key put by a commit is visible at its number: by induction on the number, through the last
commit that wrote the key. -/
theorem newest_of_put (hopen : ∀ n r, log.commitAt n = some r → r.openSequenceNumber < n)
    (hflags : ∀ n r, log.commitAt n = some r → log.FlagsOk r) {value : V} {known : Bool}
    (hc : log.committed n = true) (hr : log.commitAt n = some r)
    (hput : (r.operations.writes i).get? k = some (.put value known)) :
    ∃ value', newest (log.version i k) n = some (.insert value') := by
  induction n using Nat.strong_induction_on generalizing r value known with
  | _ n ih =>
    have hlt := hopen n r hr
    obtain ⟨r', hout⟩ : ∃ r', log.outcome n = some r' := by
      rwa [committed_eq_isSome, isSome_iff_exists] at hc
    have hag : log.against r n = some r' := (outcome_eq hr).symm.trans hout
    have hversion : log.version i k n =
        if r'.operations.reinsert i k then some (.insert value) else none := by
      rw [version, hout, bind_some, OperationsBuffer.version, (alike_of_against hag).writes, hput]
    cases hflag : r'.operations.reinsert i k with
    | true =>
      rw [hflag, if_pos rfl] at hversion
      exact ⟨value, newest_of_some hversion⟩
    | false =>
      rw [hflag, if_neg Bool.false_ne_true] at hversion
      -- the versions after `m` do not matter when nothing is written there
      have hback : ∀ m < n, (∀ m', m < m' → m' < n → log.NotWritten i k m') →
          newest (log.version i k) n = newest (log.version i k) m := by
        intro m hm hnot
        refine newest_eq_of_none hm.le fun m' hlow hhigh => ?_
        rcases Nat.lt_or_eq_of_le hhigh with hlt' | rfl
        · exact (hnot m' hlow hlt').version
        · exact hversion
      rcases against_reinsert hag hput with ⟨m, write, hlast, hw⟩ | ⟨hnone, hlogged⟩
      · obtain ⟨p, hp, hpw⟩ := hlast.logged
        rw [hback m hlast.high hlast.last]
        cases write with
        | insert value' =>
          refine ⟨value', newest_of_some ?_⟩
          obtain ⟨p', hp'⟩ : ∃ p', log.outcome m = some p' := by
            have := hlast.committed
            rwa [committed_eq_isSome, isSome_iff_exists] at this
          have halike := alike_of_against ((outcome_eq hp).symm.trans hp')
          rw [version, hp', bind_some, OperationsBuffer.version, halike.writes, hpw]
        | put value' known' => exact ih m hlast.high hlast.committed hp hpw
        | delete =>
          rw [hflag] at hw
          cases hw
      · rw [hback _ hlt hnone]
        exact hflags n r hr i k value known hput (hlogged.symm.trans hflag)

end Log

section Stored
variable {first n : Nat} {st st' : MVCCStorage K V} {t : Transaction K V} {i : KeyspaceId} {k : K}

theorem StorageOk.version_eq (h : StorageOk first st) (hn : n ≤ st.watermark) :
    st.keyspaces i k n = st.log.version i k n := by
  have hnone : st.log.outcome n = none → st.keyspaces i k n = none := by
    intro hout
    cases hv : st.keyspaces i k n with
    | none => rfl
    | some v =>
      obtain ⟨-, -, r, hr, -⟩ := h.version i k n v hv
      rw [hout] at hr
      cases hr
  cases hout : st.log.outcome n with
  | none => rw [hnone hout, Log.version, hout]; rfl
  | some r =>
    rw [Log.version, hout, bind_some]
    have hfirst : first < n := by
      have hne : st.log.commitAt n ≠ none := fun hc => by
        rw [outcome_none hc] at hout
        cases hout
      obtain ⟨r₀, hr₀⟩ := ne_none_iff_exists'.mp hne
      exact (h.wellFormed.bounds hr₀).1
    rcases h.done n hfirst hn with hs | hs
    · exact (h.complete n hs).2 r hout i k
    · rw [h.aborted n hs] at hout
      cases hout

theorem StorageOk.get_eq (h : StorageOk first st) (hn : n ≤ st.watermark) :
    (st.keyspaces i).get k n = (newest (st.log.version i k) n).bind Version.value := by
  rw [Keyspace.get, newest_congr fun m hm => h.version_eq (hm.trans hn)]

theorem Version.value_eq_some {v : Version V} {value : V} :
    v.value = some value ↔ v = .insert value := by
  cases v <;> simp [Version.value]

theorem StorageOk.visible_iff (h : StorageOk first st) (hn : n ≤ st.watermark) :
    (∃ value, (st.keyspaces i).get k n = some value) ↔
      ∃ value, newest (st.log.version i k) n = some (.insert value) := by
  simp only [h.get_eq hn, bind_eq_some_iff, Version.value_eq_some, exists_eq_right]

theorem TransactionOk.committed (h : StorageOk first st) (ht : TransactionOk first st t)
    (hpc : t.pc = .committed) :
    st.log.commitAt t.commitSequenceNumber = some t.commitRecord ∧
      st.log.committed t.commitSequenceNumber = true := by
  obtain ⟨hs, -⟩ := ht.at_pc hpc
  replace hs : Committing first st t .applied true := hs
  exact ⟨hs.record, h.committed_of_slot (.inr hs.slot)⟩

end Stored

def concurrentPuts : List (Action Nat Nat) :=
  [[.open 0 .write, .run 0, .run 0, .open 1 .write, .run 1, .run 1,
      .commit 0 (OperationsBuffer.new.write 0 5 (.put 1 false)),
      .commit 1 (OperationsBuffer.new.write 0 5 (.put 2 false))],
    List.replicate 13 (.run 0), List.replicate 15 (.run 1), [.sync],
    List.replicate 12 (.run 0), List.replicate 12 (.run 1)].flatten

theorem concurrentPuts_isSome :
    (run step (create 0) concurrentPuts).isSome = true := by decide +kernel

def concurrentPutsEnd : Database Nat Nat :=
  (run Database.step (Database.create 0) concurrentPuts).get concurrentPuts_isSome

theorem concurrentPuts_run : run step (create 0) concurrentPuts = some concurrentPutsEnd := by
  rw [concurrentPutsEnd, some_get]

theorem concurrentPuts_reach {ok : Database Nat Nat → Action Nat Nat → Prop}
    (hok : ∀ a ∈ concurrentPuts, ∀ db, ok db a) :
    Reach step ok (create 0) concurrentPutsEnd :=
  reach_of_run hok concurrentPuts_run

def Pc.isCommitted : Pc K V → Bool
  | .committed => true
  | _ => false

theorem Pc.eq_committed {pc : Pc K V} (h : pc.isCommitted = true) : pc = .committed := by
  cases pc <;> first | rfl | cases h

section Conflicts
variable [DecidableEq V] {previous i j : Nat} {db : Database K V}

/-- Whatever the interleaving, of two commits that returned, the later one, if it was opened
before the earlier one, neither deletes what that one requires, nor requires what that one
deletes, nor has an exclusive lock in common with it. -/
theorem committed_not_conflicts (hr : Reaches Database.step (Database.create previous) db)
    (hi : (db.threads i).pc = .committed) (hj : (db.threads j).pc = .committed)
    (hopen : (db.threads j).openSequenceNumber < (db.threads i).commitSequenceNumber)
    (hlt : (db.threads i).commitSequenceNumber < (db.threads j).commitSequenceNumber) :
    ¬ Conflicts (db.threads j).commitRecord (db.threads i).commitRecord := by
  have h := ok_of_reaches hr
  obtain ⟨hreci, hci⟩ := (h.own i).committed h.shared hi
  obtain ⟨hrecj, hcj⟩ := (h.own j).committed h.shared hj
  rw [committed_eq_isSome, outcome_eq hrecj, isSome_iff_exists] at hcj
  obtain ⟨r, hag⟩ := hcj
  exact not_conflicts_of_against hag hopen hlt hci hreci

theorem concurrentPuts_not_conflicts :
    Reaches Database.step (Database.create 0) concurrentPutsEnd ∧
      (concurrentPutsEnd.threads 0).pc = .committed ∧
      (concurrentPutsEnd.threads 1).pc = .committed ∧
      (concurrentPutsEnd.threads 1).openSequenceNumber = 0 ∧
      (concurrentPutsEnd.threads 0).commitSequenceNumber = 1 ∧
      (concurrentPutsEnd.threads 1).commitSequenceNumber = 2 ∧
      ¬ Conflicts (concurrentPutsEnd.threads 1).commitRecord
        (concurrentPutsEnd.threads 0).commitRecord := by
  have hr : Reaches step (create 0) concurrentPutsEnd :=
    concurrentPuts_reach fun _ _ _ => trivial
  have h₀ : (concurrentPutsEnd.threads 0).pc = .committed := Pc.eq_committed (by decide +kernel)
  have h₁ : (concurrentPutsEnd.threads 1).pc = .committed := Pc.eq_committed (by decide +kernel)
  exact ⟨hr, h₀, h₁, by decide +kernel, by decide +kernel, by decide +kernel,
    committed_not_conflicts hr h₀ h₁ (by decide +kernel) (by decide +kernel)⟩

end Conflicts

section Puts
variable {first n : Nat} {st : MVCCStorage K V} {t : Transaction K V}

/-- The caller says of a key that it exists only where it is visible to the snapshot. -/
def KnownPutsVisible (db : Database K V) : Action K V → Prop
  | .commit i operations => ∀ j k value, (operations.writes j).get? k = some (.put value true) →
      ∃ value', (db.shared.keyspaces j).get k (db.threads i).openSequenceNumber = some value'
  | _ => True

theorem initialFlag_eq_false [DecidableEq V] {i : KeyspaceId} {k : K} {value : V} {known : Bool}
    (hput : (t.operations.writes i).get? k = some (.put value known))
    (hflag : t.initialFlag st i k = false) :
    known = true ∨ (st.keyspaces i).get k t.openSequenceNumber = some value := by
  rw [Transaction.initialFlag, hput] at hflag
  cases known with
  | true => exact .inl rfl
  | false => simpa using hflag

/-- What the flags of a buffer are on their way to the log, those in `todo` apart. -/
def Log.PutsOk (log : Log K V) (todo : List (KeyspaceId × K)) (r : CommitRecord K V) : Prop :=
  (∀ i k value, (r.operations.writes i).get? k = some (.put value true) →
    ∃ value', newest (log.version i k) r.openSequenceNumber = some (.insert value')) ∧
  ∀ i k value known, (r.operations.writes i).get? k = some (.put value known) →
    (i, k) ∉ todo → r.operations.reinsert i k = false →
    ∃ value', newest (log.version i k) r.openSequenceNumber = some (.insert value')

theorem Log.newest_version_congr {log log' : Log K V} {i : KeyspaceId} {k : K}
    (h : ∀ m ≤ n, log'.commitAt m = log.commitAt m) :
    newest (log'.version i k) n = newest (log.version i k) n :=
  newest_congr fun _ hm => version_congr fun p hp => h p (hp.trans hm)

variable [DecidableEq V]

theorem carried_putsOk : Carried (PutsOk (K := K) (V := V)) where
  congr hlog h := by
    simp only [PutsOk, newest_version_congr hlog]
    exact h
  setFlag {first st t j k' todo} hst hopen h := by
    obtain ⟨hknown, hset⟩ := h
    refine ⟨hknown, fun i k value known hput hmem hflag => ?_⟩
    change (t.operations.writes i).get? k = some (.put value known) at hput
    dsimp only at hflag
    rw [setReinsert_reinsert] at hflag
    split_ifs at hflag with hik
    · obtain ⟨rfl, rfl⟩ := hik
      rcases initialFlag_eq_false hput hflag with rfl | hget
      · exact hknown i k value hput
      · exact (hst.visible_iff hopen).mp ⟨value, hget⟩
    · refine hset i k value known hput (fun hmem' => ?_) hflag
      rcases List.mem_cons.mp hmem' with heq | hmem'
      · exact hik (by simpa using heq)
      · exact hmem hmem'

variable {db db' : Database K V} {previous : Nat}

theorem putsOk_of_reach (hr : Reach step KnownPutsVisible (create first) db) :
    Carries PutsOk first 0 db := by
  refine hr.invariant carries_create fun db a _ h hknown hstep =>
    h.step carried_putsOk (fun i operations ha hpc => ?_) hstep
  subst ha
  have hopen : (db.threads i).openSequenceNumber ≤ db.shared.watermark :=
    ((h.ok.own i).at_pc hpc).1
  exact ⟨fun j k value hput => (h.ok.shared.visible_iff hopen).mp (hknown j k value hput),
    fun j k value known hput hmem => absurd (mem_puts hput) hmem⟩

omit [DecidableEq V] in
theorem Carries.flagsOk (h : Carries PutsOk first 0 db) {r : CommitRecord K V}
    (hr : db.shared.log.commitAt n = some r) : db.shared.log.FlagsOk r := by
  have hn := h.ok.shared.wellFormed.open_lt hr
  exact fun i k value known hput hflag =>
    (h.logged n r (by omega) hr).2 i k value known hput (by simp) hflag

/-- A key that is put by a transaction whose commit returned is visible at the number of the
commit, once that lies up to the watermark, and so to every snapshot opened there: whatever else
was inserted, put or deleted since the transaction was opened. -/
theorem committed_put_visible {i : Nat} {j : KeyspaceId} {k : K} {value : V} {known : Bool}
    (hr : Reach Database.step KnownPutsVisible (Database.create previous) db)
    (hi : (db.threads i).pc = .committed)
    (hput : ((db.threads i).operations.writes j).get? k = some (.put value known)) :
    ((db.threads i).commitSequenceNumber ≤ db.shared.watermark →
      ∃ value', newest (db.shared.keyspaces j k) (db.threads i).commitSequenceNumber =
        some (.insert value')) ∧
    ∀ s, (db.threads s).pc = .opened →
      (db.threads s).openSequenceNumber = (db.threads i).commitSequenceNumber →
      ∃ value', (db.shared.keyspaces j).get k (db.threads s).openSequenceNumber = some value' := by
  have h := putsOk_of_reach hr
  obtain ⟨hrec, hc⟩ := (h.ok.own i).committed h.ok.shared hi
  have hvisible := newest_of_put (fun _ _ => h.ok.shared.wellFormed.open_lt)
    (fun _ _ => h.flagsOk) hc hrec hput
  refine ⟨fun hle => ?_, fun s hs heq => ?_⟩
  · rw [newest_congr fun m hm => h.ok.shared.version_eq (hm.trans hle)]
    exact hvisible
  · have hopen : (db.threads s).openSequenceNumber ≤ db.shared.watermark :=
      ((h.ok.own s).at_pc hs).1
    rw [h.ok.shared.visible_iff hopen, heq]
    exact hvisible

/-- The second put writes nothing: it relies on the first. -/
theorem concurrentPuts_visible :
    Reach Database.step KnownPutsVisible (Database.create 0) concurrentPutsEnd ∧
      (concurrentPutsEnd.threads 1).pc = .committed ∧
      (concurrentPutsEnd.threads 1).commitSequenceNumber = 2 ∧
      concurrentPutsEnd.shared.keyspaces 0 5 2 = none ∧
      ∃ value, newest (concurrentPutsEnd.shared.keyspaces 0 5)
        (concurrentPutsEnd.threads 1).commitSequenceNumber = some (.insert value) := by
  have hok : ∀ a ∈ concurrentPuts, ∀ db, KnownPutsVisible db a := by
    simp [concurrentPuts, KnownPutsVisible, get?_write, get?_new]
  have hr := concurrentPuts_reach hok
  have h₁ : (concurrentPutsEnd.threads 1).pc = .committed := Pc.eq_committed (by decide +kernel)
  have hput : ((concurrentPutsEnd.threads 1).operations.writes 0).get? 5 = some (.put 2 false) := by
    decide +kernel
  exact ⟨hr, h₁, by decide +kernel, by decide +kernel,
    (committed_put_visible hr h₁ hput).1 (by decide +kernel)⟩

end Puts
end TypeDB.Storage
