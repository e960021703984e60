import TypeDB.Storage.Operations
import TypeDB.Foundations.Validation

/-! The storage records of the log: commit records, numbered one after the other, and status
records, which carry the number of the last commit record before them. -/

namespace TypeDB.Storage
open List Option CommitRecord

inductive LogBody (K V : Type*) [LinearOrder K]
  | commit (record : CommitRecord K V)
  | status (commitRecordSequenceNumber : Nat) (wasCommitted : Bool)

structure LogRecord (K V : Type*) [LinearOrder K] where
  number : Nat
  body : LogBody K V

variable {K V : Type*} [LinearOrder K]

abbrev Log (K V : Type*) [LinearOrder K] := List (LogRecord K V)

def LogRecord.commit? (record : LogRecord K V) : Option (Nat × CommitRecord K V) :=
  match record.body with
  | .commit r => some (record.number, r)
  | .status _ _ => none

def LogRecord.status? (record : LogRecord K V) : Option (Nat × Bool) :=
  match record.body with
  | .commit _ => none
  | .status n wasCommitted => some (n, wasCommitted)

namespace Log

def commitsFrom (log : Log K V) (start : Nat) : List (Nat × CommitRecord K V) :=
  (log.filter fun record => decide (start ≤ record.number)).filterMap LogRecord.commit?

def statusesFrom (log : Log K V) (start : Nat) : List (Nat × Bool) :=
  (log.filter fun record => decide (start ≤ record.number)).filterMap LogRecord.status?

def commitAt (log : Log K V) (n : Nat) : Option (CommitRecord K V) :=
  log.findSome? fun record =>
    match record.commit? with
    | some (m, r) => if m = n then some r else none
    | none => none

def statusAt (log : Log K V) (n : Nat) : Option Bool :=
  log.findSome? fun record =>
    match record.status? with
    | some (m, b) => if m = n then some b else none
    | none => none

def outcome (log : Log K V) (n : Nat) : Option (CommitRecord K V) :=
  Validation.outcome resolve openSequenceNumber log.commitAt n

def committed (log : Log K V) (n : Nat) : Bool :=
  Validation.committed resolve openSequenceNumber log.commitAt n

def against (log : Log K V) (r : CommitRecord K V) (n : Nat) : Option (CommitRecord K V) :=
  Validation.against resolve log.commitAt log.committed r (r.openSequenceNumber + 1) n

/-- A log that starts after `first` and has handed out the numbers up to `last`: each status
record follows the commit record it is for and is the only one for it. -/
inductive WellFormed (first : Nat) : Nat → Log K V → Prop
  | nil : WellFormed first first []
  | commit {last : Nat} {log : Log K V} (h : WellFormed first last log) (r : CommitRecord K V)
      (hopen : r.openSequenceNumber ≤ last) :
      WellFormed first (last + 1) (log ++ [⟨last + 1, .commit r⟩])
  | status {last : Nat} {log : Log K V} (h : WellFormed first last log) (n : Nat) (b : Bool)
      (hn : log.commitAt n ≠ none) (hnew : log.statusAt n = none) :
      WellFormed first last (log ++ [⟨last, .status n b⟩])

section Lemmas
variable {log : Log K V} {first last n m : Nat} {r r' : CommitRecord K V} {b : Bool}

open LogRecord

theorem commitAt_append_commit (log : Log K V) (m : Nat) (r : CommitRecord K V) (n : Nat) :
    commitAt (log ++ [⟨m, .commit r⟩]) n =
      (log.commitAt n).or (if m = n then some r else none) := by
  rw [commitAt, findSome?_append]
  simp [commitAt, commit?]

theorem commitAt_append_status (log : Log K V) (m p : Nat) (b : Bool) (n : Nat) :
    commitAt (log ++ [⟨m, .status p b⟩]) n = log.commitAt n := by
  rw [commitAt, findSome?_append]
  simp [commitAt, commit?]

theorem statusAt_append_commit (log : Log K V) (m : Nat) (r : CommitRecord K V) (n : Nat) :
    statusAt (log ++ [⟨m, .commit r⟩]) n = log.statusAt n := by
  rw [statusAt, findSome?_append]
  simp [statusAt, status?]

theorem statusAt_append_status (log : Log K V) (m p : Nat) (b : Bool) (n : Nat) :
    statusAt (log ++ [⟨m, .status p b⟩]) n =
      (log.statusAt n).or (if p = n then some b else none) := by
  rw [statusAt, findSome?_append]
  simp [statusAt, status?]

section Numbers
variable (h : WellFormed first last log)
include h

theorem WellFormed.first_le : first ≤ last := by
  induction h with
  | nil => exact le_rfl
  | commit _ _ _ ih => omega
  | status _ _ _ _ _ ih => exact ih

theorem WellFormed.commitAt_isSome_iff : (log.commitAt n).isSome ↔ first < n ∧ n ≤ last := by
  induction h with
  | nil =>
    refine iff_of_false (by simp [commitAt]) (by omega)
  | @commit last log h r _ ih =>
    rw [commitAt_append_commit, isSome_or, Bool.or_eq_true, ih]
    have := h.first_le
    by_cases hn : last + 1 = n
    · simp [hn]
      omega
    · simp [hn]
      omega
  | status h p b _ _ ih => rw [commitAt_append_status, ih]

theorem WellFormed.commitAt_eq_none (hn : last < n) : log.commitAt n = none := by
  have := h.commitAt_isSome_iff (n := n)
  rw [← not_isSome_iff_eq_none, this]
  omega

theorem WellFormed.exists_commitAt (hf : first < n) (hl : n ≤ last) :
    ∃ r, log.commitAt n = some r :=
  isSome_iff_exists.mp (h.commitAt_isSome_iff.mpr ⟨hf, hl⟩)

theorem WellFormed.bounds (hr : log.commitAt n = some r) :
    first < n ∧ n ≤ last := h.commitAt_isSome_iff.mp (by simp [hr])

theorem WellFormed.commitAt_of_statusAt (hb : log.statusAt n = some b) :
    ∃ r, log.commitAt n = some r := by
  induction h with
  | nil => cases hb
  | commit h r _ ih =>
    rw [statusAt_append_commit] at hb
    obtain ⟨r', hr'⟩ := ih hb
    exact ⟨r', by rw [commitAt_append_commit, hr', some_or]⟩
  | @status last log h p b' hp _ ih =>
    rw [commitAt_append_status]
    rw [statusAt_append_status] at hb
    cases hs : log.statusAt n with
    | some b'' =>
      rw [hs, some_or] at hb
      exact ih (hs.trans hb)
    | none =>
      rw [hs, none_or] at hb
      split_ifs at hb with hpn
      exact ne_none_iff_exists'.mp (hpn ▸ hp)

theorem WellFormed.open_lt (hr : log.commitAt n = some r) : r.openSequenceNumber < n := by
  induction h with
  | nil => cases hr
  | @commit last log h r' hopen ih =>
    rw [commitAt_append_commit] at hr
    cases hc : log.commitAt n with
    | some r'' =>
      rw [hc, some_or] at hr
      exact ih (hc.trans hr)
    | none =>
      rw [hc, none_or] at hr
      split_ifs at hr with hn
      cases hr
      omega
  | status h p b' _ _ ih =>
    rw [commitAt_append_status] at hr
    exact ih hr

end Numbers

theorem commitAt_append_of_some (extra : Log K V) (h : log.commitAt n = some r) :
    commitAt (log ++ extra) n = some r := by
  rw [commitAt, findSome?_append, ← commitAt, h]
  rfl

theorem statusAt_append_of_some (extra : Log K V) (h : log.statusAt n = some b) :
    statusAt (log ++ extra) n = some b := by
  rw [statusAt, findSome?_append, ← statusAt, h]
  rfl

end Lemmas

section Outcomes
variable {log log' : Log K V} {first last n m : Nat} {r r' p : CommitRecord K V}

theorem outcome_congr (h : ∀ p ≤ n, log.commitAt p = log'.commitAt p) :
    log.outcome n = log'.outcome n := Validation.outcome_congr h

theorem committed_congr (h : ∀ p ≤ n, log.commitAt p = log'.commitAt p) :
    log.committed n = log'.committed n := Validation.committed_congr h

theorem against_congr (h : ∀ p < n, log.commitAt p = log'.commitAt p) :
    log.against r n = log'.against r n :=
  Validation.against_congr h fun p hp => committed_congr fun q hq => h q (by omega)

theorem committed_eq_isSome (log : Log K V) (n : Nat) :
    log.committed n = (log.outcome n).isSome := Validation.committed_eq_isSome n

theorem outcome_eq (h : log.commitAt n = some r) : log.outcome n = log.against r n :=
  Validation.outcome_eq h

theorem outcome_none (h : log.commitAt n = none) : log.outcome n = none :=
  Validation.outcome_none h

theorem against_of_le (log : Log K V) (h : n ≤ r.openSequenceNumber + 1) :
    log.against r n = some r := Validation.against_of_le h

section
variable (h : log.against r n = some r')
include h

theorem against_succ_committed
    (hlow : r.openSequenceNumber < n) (hc : log.committed n = true)
    (hp : log.commitAt n = some p) : log.against r (n + 1) = r'.resolve p :=
  Validation.against_succ_committed h hlow hc hp

theorem against_succ_skip (hc : log.committed n = false) :
    log.against r (n + 1) = some r' := Validation.against_succ_skip h hc

theorem alike_of_against : r.Alike r' := by
  induction n generalizing r' with
  | zero =>
    cases h
    exact .refl _
  | succ n ih =>
    obtain ⟨r₁, h₁⟩ := Validation.against_some_of_le h (Nat.le_succ n)
    have halike := ih h₁
    change Validation.against _ _ _ _ _ (n + 1) = _ at h
    rw [Validation.against, h₁] at h
    simp only [bind_eq_bind, bind_some] at h
    split_ifs at h with hc
    · split at h
      · exact halike.trans (.of_resolve h)
      · cases h
        exact halike
    · cases h
      exact halike

theorem not_conflicts_of_against (hm : r.openSequenceNumber < m)
    (hmn : m < n) (hc : log.committed m = true) (hp : log.commitAt m = some p) :
    ¬ Conflicts r p := by
  obtain ⟨r₁, h₁⟩ := Validation.against_some_of_le h hmn.le
  obtain ⟨r₂, h₂⟩ := Validation.against_some_of_le h hmn
  change log.against r m = some r₁ at h₁
  change log.against r (m + 1) = some r₂ at h₂
  rw [against_succ_committed h₁ hm hc hp] at h₂
  have hconf : ¬ Conflicts r₁ p := fun hcon => by
    rw [resolve_eq_none_iff.mpr hcon] at h₂
    cases h₂
  obtain ⟨hw, hl, -⟩ := alike_of_against h₁
  rintro (⟨i, k, h₃, h₄⟩ | ⟨i, k, h₃, h₄⟩ | ⟨k, h₃, h₄⟩)
  · exact hconf (.deletesRequired i k (hw ▸ h₃) h₄)
  · exact hconf (.requiresDeleted i k (hl ▸ h₃) h₄)
  · exact hconf (.bothExclusive k (hl ▸ h₃) h₄)

end

theorem WellFormed.against_of_le_first (h : WellFormed first last log) (hn : n ≤ first + 1) :
    log.against r n = some r := by
  induction n with
  | zero => rfl
  | succ n ih =>
    refine against_succ_skip (ih (by omega)) ?_
    have hnone : log.commitAt n = none := by
      rw [← not_isSome_iff_eq_none, h.commitAt_isSome_iff]
      omega
    rw [committed_eq_isSome, outcome_none hnone]
    rfl

end Outcomes

section Scans
variable {log log' : Log K V} {first last start n a : Nat} {b : Bool}
  {l : List (Nat × CommitRecord K V)}

/-- The commit records of the log numbered from `a` on, without a gap. -/
def Segment (log : Log K V) : Nat → List (Nat × CommitRecord K V) → Prop
  | _, [] => True
  | a, (n, r) :: l => n = a ∧ log.commitAt a = some r ∧ Segment log (a + 1) l

theorem Segment.mono (h : ∀ n r, log.commitAt n = some r → log'.commitAt n = some r)
    (hl : Segment log a l) : Segment log' a l := by
  induction l generalizing a with
  | nil => trivial
  | cons p l ih => exact ⟨hl.1, h _ _ hl.2.1, ih hl.2.2⟩

theorem Segment.concat {r : CommitRecord K V} (hl : Segment log a l)
    (hr : log.commitAt (a + l.length) = some r) :
    Segment log a (l ++ [(a + l.length, r)]) := by
  induction l generalizing a with
  | nil => exact ⟨rfl, hr, trivial⟩
  | cons p l ih =>
    have hlen : a + (p :: l).length = a + 1 + l.length := by
      rw [length_cons]
      omega
    rw [hlen] at hr ⊢
    exact ⟨hl.1, hl.2.1, ih hl.2.2 hr⟩

theorem Segment.takeWhile (hl : Segment log a l) (stop : Nat) :
    Segment log a (l.takeWhile fun p => decide (p.1 < stop)) ∧
      (l.takeWhile fun p => decide (p.1 < stop)).length = min (stop - a) l.length := by
  induction l generalizing a with
  | nil => simp [Segment]
  | cons p l ih =>
    obtain ⟨n, r⟩ := p
    obtain ⟨rfl, hr, hrest⟩ := hl
    by_cases hn : n < stop
    · obtain ⟨h₁, h₂⟩ := ih hrest
      rw [takeWhile_cons_of_pos (by simpa using hn)]
      refine ⟨⟨rfl, hr, h₁⟩, ?_⟩
      rw [length_cons, h₂, length_cons]
      omega
    · rw [takeWhile_cons_of_neg (by simpa using hn)]
      refine ⟨trivial, ?_⟩
      simp only [length_nil]
      omega

theorem Segment.le_of_mem (hl : Segment log a l) {p : Nat × CommitRecord K V} (hp : p ∈ l) :
    a ≤ p.1 := by
  induction l generalizing a with
  | nil => cases hp
  | cons e l ih =>
    rcases mem_cons.mp hp with rfl | hp
    · exact hl.1.ge
    · exact (Nat.le_succ a).trans (ih hl.2.2 hp)

theorem commitsFrom_append (log : Log K V) (record : LogRecord K V) :
    commitsFrom (log ++ [record]) start =
      log.commitsFrom start ++ (if start ≤ record.number then record.commit?.toList else []) := by
  rw [commitsFrom, filter_append, filterMap_append, ← commitsFrom]
  by_cases h : start ≤ record.number
  · cases hc : record.commit? <;> simp [h, hc]
  · simp [h]

section
variable (h : WellFormed first last log)
include h

theorem WellFormed.commitsFrom (start : Nat) :
    Segment log (max start (first + 1)) (log.commitsFrom start) ∧
      (log.commitsFrom start).length = last + 1 - max start (first + 1) := by
  induction h with
  | nil => exact ⟨trivial, by simp [Log.commitsFrom]⟩
  | @commit last log h r hopen ih =>
    obtain ⟨hseg, hlen⟩ := ih
    have hfirst := h.first_le
    have hmono : Segment (log ++ [⟨last + 1, .commit r⟩]) (max start (first + 1))
        (log.commitsFrom start) := hseg.mono fun n r' hr' => commitAt_append_of_some _ hr'
    rw [commitsFrom_append]
    by_cases hs : start ≤ last + 1
    · have hnum : max start (first + 1) + (log.commitsFrom start).length = last + 1 := by omega
      have hlast : commitAt (log ++ [⟨last + 1, .commit r⟩]) (last + 1) = some r := by
        rw [commitAt_append_commit, h.commitAt_eq_none (Nat.lt_succ_self last), none_or, if_pos rfl]
      have hconcat := hmono.concat (r := r) (by rw [hnum]; exact hlast)
      rw [hnum] at hconcat
      simp only [if_pos hs, LogRecord.commit?, toList_some]
      refine ⟨hconcat, ?_⟩
      rw [length_append, hlen, length_singleton]
      omega
    · simp only [if_neg hs, append_nil]
      exact ⟨hmono, by omega⟩
  | @status last log h p b _ _ ih =>
    obtain ⟨hseg, hlen⟩ := ih
    have happend : Log.commitsFrom (log ++ [⟨last, .status p b⟩]) start = log.commitsFrom start := by
      rw [commitsFrom_append]
      simp [LogRecord.commit?]
    rw [happend]
    exact ⟨hseg.mono fun n r' hr' => commitAt_append_of_some _ hr', hlen⟩

theorem WellFormed.statusAt_of_mem
    (hm : (n, b) ∈ log.filterMap LogRecord.status?) : log.statusAt n = some b := by
  induction h with
  | nil => cases hm
  | commit h r _ ih =>
    rw [statusAt_append_commit]
    rw [filterMap_append] at hm
    exact ih (by simpa [LogRecord.status?] using hm)
  | @status last log h p b' _ hnew ih =>
    rw [statusAt_append_status]
    rw [filterMap_append, mem_append] at hm
    rcases hm with hm | hm
    · rw [ih hm, some_or]
    · obtain ⟨rfl, rfl⟩ : n = p ∧ b = b' := by simpa [LogRecord.status?] using hm
      rw [hnew, none_or, if_pos rfl]

theorem WellFormed.statusAt_of_mem_statusesFrom
    (hm : (n, b) ∈ log.statusesFrom start) : log.statusAt n = some b := by
  refine h.statusAt_of_mem ?_
  obtain ⟨record, hr, hs⟩ := mem_filterMap.mp hm
  exact mem_filterMap.mpr ⟨record, (mem_filter.mp hr).1, hs⟩

theorem WellFormed.mem_statusesFrom (hs : log.statusAt n = some b)
    (hn : start ≤ n) : (n, b) ∈ log.statusesFrom start := by
  have happend : ∀ (log : Log K V) record, statusesFrom (log ++ [record]) start =
      log.statusesFrom start ++ (if start ≤ record.number then record.status?.toList else []) := by
    intro log record
    rw [statusesFrom, filter_append, filterMap_append, ← statusesFrom]
    by_cases h : start ≤ record.number
    · cases hc : record.status? <;> simp [h, hc]
    · simp [h]
  induction h with
  | nil => cases hs
  | commit h r _ ih =>
    rw [statusAt_append_commit] at hs
    rw [happend]
    exact mem_append_left _ (ih hs)
  | @status last log h p b' hp hnew ih =>
    rw [statusAt_append_status] at hs
    rw [happend, mem_append]
    cases hold : log.statusAt n with
    | some b'' =>
      rw [hold, some_or] at hs
      exact .inl (ih (hold.trans hs))
    | none =>
      rw [hold, none_or] at hs
      split_ifs at hs with hpn
      obtain rfl := hpn
      cases hs
      obtain ⟨r, hr⟩ := ne_none_iff_exists'.mp hp
      have hle : start ≤ last := hn.trans (h.bounds hr).2
      refine .inr ?_
      simp [hle, LogRecord.status?]

end

end Scans

end Log
end TypeDB.Storage
