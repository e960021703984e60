import TypeDB.Storage.Isolation

/-! Committed states as a history of transactions. A history says which transaction each number
belongs to; its states are computed by replaying it, a put standing back behind a write of the
same key that it did not see. The storage refines this: what a snapshot finds at a number is the
state of the history that the log tells. -/

namespace TypeDB.Storage
open Option Runs Threads Versions Nat

structure Committed (K V : Type*) where
  opened : Nat
  writes : K → Option (Write V)
  locks : K → Option LockType

abbrev History (K V : Type*) := Nat → Option (Committed K V)

inductive Committed.Clashes {K V : Type*} (t u : Committed K V) : Prop
  | deletesRequired {k : K} (ht : t.writes k = some .delete) (hu : u.locks k = some .unmodifiable)
  | requiresDeleted {k : K} (ht : t.locks k = some .unmodifiable) (hu : u.writes k = some .delete)
  | bothExclusive {k : K} (ht : t.locks k = some .exclusive) (hu : u.locks k = some .exclusive)

theorem Committed.Clashes.symm {K V : Type*} {t u : Committed K V} (h : t.Clashes u) :
    u.Clashes t := by
  cases h with
  | deletesRequired ht hu => exact .requiresDeleted hu ht
  | requiresDeleted ht hu => exact .deletesRequired hu ht
  | bothExclusive ht hu => exact .bothExclusive hu ht

namespace History
variable {K V : Type*} {h : History K V} {k : K} {a n m : Nat} {t u : Committed K V}

def writeAt (h : History K V) (k : K) (n : Nat) : Option (Write V) := (h n).bind fun t => t.writes k

def lastWrite (h : History K V) (k : K) (a : Nat) : Nat → Option (Write V)
  | 0 => none
  | n + 1 => if a ≤ n then (h.writeAt k (n + 1)).or (lastWrite h k a n) else none

/-- What a write leaves under its key: `before` is what was there, `last` the last write that the
transaction did not see. -/
def afterWrite (before : Option V) (last : Option (Write V)) : Option (Write V) → Option V
  | none => before
  | some (.insert value) => some value
  | some .delete => none
  | some (.put value knownToExist) =>
    match last with
    | some .delete => some value
    | some _ => before
    | none => if knownToExist then before else some value

def state (h : History K V) : Nat → K → Option V
  | 0, _ => none
  | n + 1, k =>
    match h (n + 1) with
    | none => state h n k
    | some t => afterWrite (state h n k) (h.lastWrite k t.opened n) (t.writes k)

/-- Every transaction is opened before its number, and does not clash with those in between. -/
structure Valid (h : History K V) : Prop where
  opened_lt : ∀ {n t}, h n = some t → t.opened < n
  apart : ∀ {n m t u}, h n = some t → h m = some u → t.opened < m → m < n → ¬ t.Clashes u

theorem state_succ_none (hn : h (n + 1) = none) : h.state (n + 1) k = h.state n k := by
  simp only [state, hn]

theorem state_succ_some (hn : h (n + 1) = some t) :
    h.state (n + 1) k = afterWrite (h.state n k) (h.lastWrite k t.opened n) (t.writes k) := by
  simp only [state, hn]

theorem lastWrite_eq_none :
    h.lastWrite k a n = none ↔ ∀ m, a < m → m ≤ n → h.writeAt k m = none := by
  induction n with
  | zero => exact ⟨fun _ m hm hm' => by omega, fun _ => rfl⟩
  | succ n ih =>
    rw [lastWrite]
    split_ifs with ha
    · rw [or_eq_none_iff, ih]
      constructor
      · rintro ⟨hlast, hbefore⟩ m hm hm'
        rcases lt_or_eq_of_le hm' with hlt | rfl
        · exact hbefore m hm (by omega)
        · exact hlast
      · exact fun hall => ⟨hall _ (by omega) le_rfl, fun m hm hm' => hall m hm (by omega)⟩
    · exact ⟨fun _ m hm hm' => by omega, fun _ => rfl⟩

theorem lastWrite_eq_some {w : Write V} :
    h.lastWrite k a n = some w ↔ ∃ m, a < m ∧ m ≤ n ∧ h.writeAt k m = some w ∧
      ∀ m', m < m' → m' ≤ n → h.writeAt k m' = none := by
  induction n with
  | zero => exact ⟨nofun, fun ⟨m, hm, hm', _⟩ => by omega⟩
  | succ n ih =>
    rw [lastWrite]
    split_ifs with ha
    · cases hw : h.writeAt k (n + 1) with
      | some w' =>
        rw [some_or]
        constructor
        · intro heq
          exact ⟨n + 1, by omega, le_rfl, hw.trans heq, fun m' hm hm' => by omega⟩
        · rintro ⟨m, hm, hm', hmw, hlast⟩
          rcases lt_or_eq_of_le hm' with hlt | rfl
          · exact absurd (hw.symm.trans (hlast _ hlt le_rfl)) nofun
          · exact hw.symm.trans hmw
      | none =>
        rw [none_or, ih]
        constructor
        · rintro ⟨m, hm, hm', hmw, hlast⟩
          refine ⟨m, hm, by omega, hmw, fun p hp hp' => ?_⟩
          rcases lt_or_eq_of_le hp' with hlt | rfl
          · exact hlast p hp (by omega)
          · exact hw
        · rintro ⟨m, hm, hm', hmw, hlast⟩
          rcases lt_or_eq_of_le hm' with hlt | rfl
          · exact ⟨m, hm, by omega, hmw, fun p hp hp' => hlast p hp (by omega)⟩
          · exact absurd (hw.symm.trans hmw) nofun
    · exact ⟨nofun, fun ⟨m, hm, hm', _⟩ => by omega⟩

theorem state_eq_of_unwritten (han : a ≤ n) (hnone : ∀ m, a < m → m ≤ n → h.writeAt k m = none) :
    h.state n k = h.state a k := by
  induction n, han using le_induction with
  | base => rfl
  | succ n han ih =>
    rw [← ih fun m hm hm' => hnone m hm (by omega)]
    have hlast := hnone (n + 1) (by omega) le_rfl
    cases hn : h (n + 1) with
    | none => exact state_succ_none hn
    | some t =>
      rw [writeAt, hn, bind_some] at hlast
      rw [state_succ_some hn, hlast]
      rfl

theorem state_congr {k' : K} (hw : ∀ m ≤ n, h.writeAt k m = h.writeAt k' m) :
    h.state n k = h.state n k' := by
  have hlast : ∀ a m, m ≤ n → h.lastWrite k a m = h.lastWrite k' a m := by
    intro a m hm
    induction m with
    | zero => rfl
    | succ m ih => rw [lastWrite, lastWrite, hw _ hm, ih (by omega)]
  induction n with
  | zero => rfl
  | succ n ih =>
    have hbefore := ih (fun m hm => hw m (by omega)) fun a m hm => hlast a m (by omega)
    cases hn : h (n + 1) with
    | none => rw [state_succ_none hn, state_succ_none hn, hbefore]
    | some t =>
      have hwrite := hw (n + 1) le_rfl
      simp only [writeAt, hn, bind_some] at hwrite
      rw [state_succ_some hn, state_succ_some hn, hbefore, hlast t.opened n (by omega), hwrite]

theorem isSome_afterWrite {before : Option V} {last w : Option (Write V)} (hbefore : before.isSome)
    (hw : w ≠ some .delete) : (afterWrite before last w).isSome := by
  cases w with
  | none => exact hbefore
  | some w =>
    cases w with
    | insert _ => rfl
    | delete => exact absurd rfl hw
    | put value known =>
      unfold afterWrite
      dsimp only
      split
      · rfl
      · exact hbefore
      · split_ifs
        · exact hbefore
        · rfl

theorem isSome_state_of_kept (han : a ≤ n) (hkept : ∀ m, a < m → m ≤ n → h.writeAt k m ≠ some .delete)
    (hstate : (h.state a k).isSome) : (h.state n k).isSome := by
  induction n, han using le_induction with
  | base => exact hstate
  | succ n han ih =>
    have hbefore := ih fun m hm hm' => hkept m hm (by omega)
    have hwrite := hkept (n + 1) (by omega) le_rfl
    cases hn : h (n + 1) with
    | none => rwa [state_succ_none hn]
    | some t =>
      rw [writeAt, hn, bind_some] at hwrite
      rw [state_succ_some hn]
      exact isSome_afterWrite hbefore hwrite

theorem exists_write_of_state (han : a ≤ n) (hnone : h.state a k = none)
    (hstate : (h.state n k).isSome) :
    ∃ m w, a < m ∧ m ≤ n ∧ h.writeAt k m = some w ∧ w ≠ .delete := by
  by_contra hno
  have hstays : h.state n k = none := by
    clear hstate
    induction n, han using le_induction with
    | base => exact hnone
    | succ n han ih =>
      have hbefore := ih fun ⟨m, w, hm, hm', hw⟩ => hno ⟨m, w, hm, by omega, hw⟩
      cases hn : h (n + 1) with
      | none => rw [state_succ_none hn, hbefore]
      | some t =>
        rw [state_succ_some hn, hbefore]
        cases hw : t.writes k with
        | none => rfl
        | some w =>
          by_cases hdelete : w = .delete
          · rw [hdelete]
            rfl
          · refine absurd ⟨n + 1, w, by omega, le_rfl, ?_, hdelete⟩ hno
            rw [writeAt, hn, bind_some, hw]
  rw [hstays] at hstate
  cases hstate

theorem Valid.exists_succ (hv : h.Valid) {w : Write V} (hw : h.writeAt k n = some w) :
    ∃ m t, n = m + 1 ∧ h (m + 1) = some t ∧ t.writes k = some w := by
  obtain ⟨t, ht, hwrite⟩ := bind_eq_some_iff.mp hw
  obtain ⟨m, rfl⟩ := exists_eq_succ_of_ne_zero (ne_of_gt (hv.opened_lt ht).pos)
  exact ⟨m, t, rfl, ht, hwrite⟩

theorem Valid.state_of_insert (hv : h.Valid) {value : V} (hw : h.writeAt k n = some (.insert value)) :
    h.state n k = some value := by
  obtain ⟨m, t, rfl, ht, hw⟩ := hv.exists_succ hw
  rw [state_succ_some ht, hw]
  rfl

theorem Valid.isSome_state_of_put (hv : h.Valid) {value : V} {known : Bool}
    (hknown : ∀ m ≤ n, ∀ value known, h.writeAt k m = some (.put value known) → known = false)
    (hput : h.writeAt k n = some (.put value known)) : (h.state n k).isSome := by
  induction n using Nat.strong_induction_on generalizing value known with
  | _ n ih =>
    obtain rfl := hknown n le_rfl value known hput
    obtain ⟨n, t, rfl, ht, hw⟩ := hv.exists_succ hput
    rw [state_succ_some ht, hw]
    unfold afterWrite
    dsimp only
    split
    · rfl
    · rename_i w hne hlast
      -- the put stands back behind a write that has left something
      obtain ⟨m, hlow, hhigh, hw, hafter⟩ := lastWrite_eq_some.mp hlast
      rw [state_eq_of_unwritten hhigh hafter]
      cases w with
      | insert value' => rw [hv.state_of_insert hw]; rfl
      | put value' known' =>
        exact ih m (by omega) (fun m' hm => hknown m' (by omega)) hw
      | delete => exact absurd rfl hne
    · rfl

end History

variable {K V : Type*} [LinearOrder K]

namespace Log
variable {log log' : Log K V} {n : Nat} {r : CommitRecord K V} {i : KeyspaceId} {k : K}
  {place : K → KeyspaceId}

def value (log : Log K V) (i : KeyspaceId) (k : K) (n : Nat) : Option V :=
  (newest (log.version i k) n).bind Version.value

theorem value_congr (h : ∀ m ≤ n, log'.commitAt m = log.commitAt m) :
    log'.value i k n = log.value i k n := by
  rw [value, value, newest_version_congr h]

def history (log : Log K V) (place : K → KeyspaceId) : History K V := fun n =>
  if log.committed n then (log.commitAt n).map fun r =>
    { opened := r.openSequenceNumber
      writes := fun k => (r.operations.writes (place k)).get? k
      locks := fun k => r.operations.locks.get? k }
  else none

theorem history_of_committed (hc : log.committed n = true) (hr : log.commitAt n = some r) :
    log.history place n = some
      { opened := r.openSequenceNumber
        writes := fun k => (r.operations.writes (place k)).get? k
        locks := fun k => r.operations.locks.get? k } := by
  rw [history, if_pos hc, hr]
  rfl

theorem history_eq_some {t : Committed K V} (h : log.history place n = some t) :
    ∃ r, log.committed n = true ∧ log.commitAt n = some r ∧ t.opened = r.openSequenceNumber ∧
      (∀ k, t.writes k = (r.operations.writes (place k)).get? k) ∧
      ∀ k, t.locks k = r.operations.locks.get? k := by
  rw [history] at h
  split_ifs at h with hc
  obtain ⟨r, hr, rfl⟩ := map_eq_some_iff.mp h
  exact ⟨r, hc, hr, rfl, fun _ => rfl, fun _ => rfl⟩

open History

theorem history_writeAt_eq_none :
    (log.history place).writeAt k n = none ↔ log.NotWritten (place k) k n := by
  constructor
  · intro h hc r hr
    rwa [writeAt, history_of_committed hc hr, bind_some] at h
  · intro h
    cases ht : log.history place n with
    | none => rw [writeAt, ht]; rfl
    | some t =>
      obtain ⟨r, hc, hr, -, hw, -⟩ := history_eq_some ht
      rw [writeAt, ht, bind_some, hw]
      exact h hc r hr

theorem LastWrite.history {a m : Nat} {w : Write V} (h : log.LastWrite (place k) k a (n + 1) m w) :
    (log.history place).lastWrite k a n = some w := by
  obtain ⟨r, hr, hw⟩ := h.logged
  refine lastWrite_eq_some.mpr ⟨m, h.low, by have := h.high; omega, ?_, fun p hp hp' => ?_⟩
  · rw [writeAt, history_of_committed h.committed hr]
    exact hw
  · exact history_writeAt_eq_none.mpr (h.last p hp (by omega))

theorem history_valid (hopen : ∀ n r, log.commitAt n = some r → r.openSequenceNumber < n) :
    (log.history place).Valid where
  opened_lt {n t} ht := by
    obtain ⟨r, -, hr, hopened, -⟩ := history_eq_some ht
    exact hopened ▸ hopen n r hr
  apart {n m t u} ht hu hlow hhigh hclash := by
    obtain ⟨r, hc, hr, hopened, hwrites, hlocks⟩ := history_eq_some ht
    obtain ⟨p, hpc, hp, -, hpwrites, hplocks⟩ := history_eq_some hu
    rw [committed_eq_isSome, outcome_eq hr, isSome_iff_exists] at hc
    obtain ⟨r', hag⟩ := hc
    refine not_conflicts_of_against hag (hopened ▸ hlow) hhigh hpc hp ?_
    cases hclash with
    | deletesRequired h₁ h₂ => exact .deletesRequired _ _ (hwrites _ ▸ h₁) (hplocks _ ▸ h₂)
    | requiresDeleted h₁ h₂ => exact .requiresDeleted _ _ (hlocks _ ▸ h₁) (hpwrites _ ▸ h₂)
    | bothExclusive h₁ h₂ => exact .bothExclusive _ (hlocks _ ▸ h₁) (hplocks _ ▸ h₂)

variable [DecidableEq V]

/-- The flags of the puts are those that the opening gives, those in `todo` apart. -/
def FlagsExact (log : Log K V) (todo : List (KeyspaceId × K)) (r : CommitRecord K V) : Prop :=
  ∀ i k value known, (r.operations.writes i).get? k = some (.put value known) → (i, k) ∉ todo →
    r.operations.reinsert i k =
      (!known && !decide (log.value i k r.openSequenceNumber = some value))

omit [DecidableEq V] in
theorem value_succ_of_none (h : log.version i k (n + 1) = none) :
    log.value i k (n + 1) = log.value i k n := by
  rw [value, newest_succ_of_none h, value]

omit [DecidableEq V] in
theorem value_of_version {v : Version V} (h : log.version i k n = some v) :
    log.value i k n = v.value := by
  rw [value, newest_of_some h, bind_some]

omit [DecidableEq V] in
theorem value_zero (hopen : ∀ n r, log.commitAt n = some r → r.openSequenceNumber < n) :
    log.value i k 0 = none := by
  have hnone : log.commitAt 0 = none := by
    cases hr : log.commitAt 0 with
    | none => rfl
    | some r => exact absurd (hopen 0 r hr) (not_lt_zero _)
  rw [value, newest, version, outcome_none hnone]
  rfl

theorem value_succ_of_committed (hflags : log.FlagsExact [] r)
    (hrefines : ∀ m ≤ n, log.value (place k) k m = (log.history place).state m k)
    (hopen : r.openSequenceNumber ≤ n) (hc : log.committed (n + 1) = true)
    (hr : log.commitAt (n + 1) = some r) :
    log.value (place k) k (n + 1) = afterWrite ((log.history place).state n k)
      ((log.history place).lastWrite k r.openSequenceNumber n)
      ((r.operations.writes (place k)).get? k) := by
  obtain ⟨r', hag⟩ : ∃ r', log.against r (n + 1) = some r' := by
    rwa [committed_eq_isSome, outcome_eq hr, isSome_iff_exists] at hc
  have hversion : log.version (place k) k (n + 1) = r'.operations.version (place k) k := by
    rw [version, outcome_eq hr, hag, bind_some]
  rw [OperationsBuffer.version, (alike_of_against hag).writes] at hversion
  have hstays : log.version (place k) k (n + 1) = none →
      log.value (place k) k (n + 1) = (log.history place).state n k := fun h =>
    (value_succ_of_none h).trans (hrefines n le_rfl)
  have hwritten : ∀ v, log.version (place k) k (n + 1) = some v →
      log.value (place k) k (n + 1) = v.value := fun _ => value_of_version
  cases hw : (r.operations.writes (place k)).get? k with
  | none => exact hstays (by rw [hversion, hw])
  | some w =>
    cases w with
    | insert value | delete => exact hwritten _ (by rw [hversion, hw])
    | put value known =>
      rw [hw] at hversion
      dsimp only at hversion
      rcases against_reinsert hag hw with ⟨m, w, hlast, hflag⟩ | ⟨hnone, hflag⟩
      · -- a write that the transaction did not see decides
        rw [hflag] at hversion
        rw [hlast.history]
        cases w with
        | delete => exact hwritten _ hversion
        | insert _ | put _ _ => exact hstays hversion
      · -- the flag is as it was logged, by what was there at the opening
        have hbetween : ∀ m, r.openSequenceNumber < m → m ≤ n →
            (log.history place).writeAt k m = none := fun m hm hm' =>
          history_writeAt_eq_none.mpr (hnone m hm (by omega))
        have hsame := state_eq_of_unwritten hopen hbetween
        rw [hflag, hflags _ _ _ _ hw (by simp), hrefines _ hopen] at hversion
        rw [lastWrite_eq_none.mpr hbetween]
        cases known with
        | true => exact hstays hversion
        | false =>
          by_cases hvalue : (log.history place).state r.openSequenceNumber k = some value
          · rw [if_neg (by simp [hvalue])] at hversion
            rw [hstays hversion, hsame, hvalue]
            rfl
          · rw [if_pos (by simp [hvalue])] at hversion
            exact hwritten _ hversion

theorem value_eq_state (hopen : ∀ n r, log.commitAt n = some r → r.openSequenceNumber < n)
    (hflags : ∀ n r, log.commitAt n = some r → log.FlagsExact [] r) (n : Nat) :
    log.value (place k) k n = (log.history place).state n k := by
  induction n using Nat.strong_induction_on with
  | _ n ih =>
    cases n with
    | zero => exact value_zero hopen
    | succ n =>
      cases ht : log.history place (n + 1) with
      | none =>
        have hnone : (log.history place).writeAt k (n + 1) = none := by
          rw [writeAt, ht]
          rfl
        rw [state_succ_none ht, ← ih n (lt_succ_self n)]
        exact value_succ_of_none (history_writeAt_eq_none.mp hnone).version
      | some t =>
        obtain ⟨r, hc, hr, hopened, hwrites, -⟩ := history_eq_some ht
        rw [state_succ_some ht, hopened, hwrites]
        exact value_succ_of_committed (hflags _ r hr) (fun m hm => ih m (lt_succ_of_le hm))
          (le_of_lt_succ (hopen _ r hr)) hc hr

end Log

section Refines
variable [DecidableEq V] {first n : Nat} {db db' : Database K V} {a : Action K V}
  {place : K → KeyspaceId} {k : K}

theorem initialFlag_eq {first : Nat} {st : MVCCStorage K V} {t : Transaction K V} {i : KeyspaceId}
    {value : V} {known : Bool} (h : StorageOk first st) (hopen : t.openSequenceNumber ≤ st.watermark)
    (hput : (t.operations.writes i).get? k = some (.put value known)) :
    t.initialFlag st i k =
      (!known && !decide (st.log.value i k t.openSequenceNumber = some value)) := by
  rw [Transaction.initialFlag, hput]
  dsimp only
  rw [h.get_eq hopen]
  rfl

theorem carried_flagsExact : Carried (Log.FlagsExact (K := K) (V := V)) where
  congr hlog h := by
    simp only [Log.FlagsExact, Log.value_congr hlog]
    exact h
  setFlag {first st t j k' todo} hst hopen h := by
    intro i k value known hput hmem
    change (t.operations.writes i).get? k = some (.put value known) at hput
    dsimp only
    rw [OperationsBuffer.setReinsert_reinsert]
    split_ifs with hik
    · obtain ⟨rfl, rfl⟩ := hik
      exact initialFlag_eq hst hopen hput
    · refine h i k value known hput fun hmem' => ?_
      rcases List.mem_cons.mp hmem' with heq | hmem'
      · exact hik (by simpa using heq)
      · exact hmem hmem'

theorem Carries.flagsExact_step (h : Carries Log.FlagsExact first 0 db)
    (hstep : db.step a = some db') : Carries Log.FlagsExact first 0 db' :=
  h.step carried_flagsExact (fun _ _ _ _ _ _ _ _ hput hmem =>
    absurd (OperationsBuffer.mem_puts hput) hmem) hstep

theorem Carries.value_eq_state (h : Carries Log.FlagsExact first 0 db) (n : Nat) :
    db.shared.log.value (place k) k n = (db.shared.log.history place).state n k := by
  have hopen : ∀ n r, db.shared.log.commitAt n = some r → r.openSequenceNumber < n :=
    fun _ _ => h.ok.shared.wellFormed.open_lt
  exact Log.value_eq_state hopen (fun n r hr => h.logged n r (by have := hopen n r hr; omega) hr) n

theorem Carries.get_eq_state (h : Carries Log.FlagsExact first 0 db) (hn : n ≤ db.shared.watermark) :
    (db.shared.keyspaces (place k)).get k n = (db.shared.log.history place).state n k :=
  (h.ok.shared.get_eq hn).trans (h.value_eq_state n)

end Refines
end TypeDB.Storage
