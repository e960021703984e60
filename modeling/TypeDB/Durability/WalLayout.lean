import TypeDB.Durability.WalEntries

/-! How the files of a log come to be laid out. Every write extends the newest entry of the
file list or opens a new one; an unsequenced write may open an entry with the name of the entry
before it, and the two then share one file. -/

namespace TypeDB.Durability
open List WAL OrderedMap WriteCall Files

variable {codec : Codec}

structure Segment where
  start : Nat
  records : List RawRecord

/-- What the newest entry's file already holds when an entry named `start` is opened. -/
def inherited (start : Nat) : List (Nat × List RawRecord) → List RawRecord
  | [] => []
  | v :: _ => if v.1 = start then v.2 else []

def views : List Segment → List (Nat × List RawRecord)
  | [] => []
  | g :: older => (g.start, inherited g.start (views older) ++ g.records) :: views older

def logOf (segs : List Segment) : List RawRecord := (segs.map (·.records)).reverse.flatten

theorem logOf_cons (g : Segment) (older : List Segment) :
    logOf (g :: older) = logOf older ++ g.records := by simp [logOf]

structure WAL.LaidOut (codec : Codec) (wal : WAL) (segs : List Segment) : Prop where
  files : wal.files.files =
    ((views segs).map fun v => (⟨v.1, (frames codec v.2).length⟩ : File)).reverse
  directory : ∀ a, wal.files.directory.get? a =
    ((views segs).find? fun v => decide (v.1 = a)).map fun v => frames codec v.2
  writer : wal.files.writer = segs.head?.map (·.start)
  heads : ∀ g ∈ segs, ∃ r rs, g.records = r :: rs ∧ r.sequenceNumber = g.start
  sorted : segs.Pairwise fun g g' => g'.start ≤ g.start
  bound : ∀ g ∈ segs, g.start ≤ wal.previous
  steps : Steps 0 (logOf segs)
  next : lastNumber 0 (logOf segs) + 1 = wal.nextSequenceNumber

theorem WAL.create_laidOut (codec : Codec) : LaidOut codec create [] where
  files := rfl
  directory _ := rfl
  writer := rfl
  heads _ h := absurd h not_mem_nil
  sorted := .nil
  bound _ h := absurd h not_mem_nil
  steps := trivial
  next := rfl

theorem views_start (segs : List Segment) : (views segs).map (·.1) = segs.map (·.start) := by
  induction segs with
  | nil => rfl
  | cons g older ih => simp [views, ih]

theorem mem_views_start {segs : List Segment} {v : Nat × List RawRecord} (h : v ∈ views segs) :
    ∃ g ∈ segs, g.start = v.1 := by
  have : v.1 ∈ segs.map (·.start) := by
    rw [← views_start]
    exact mem_map_of_mem h
  simpa using this

theorem find?_views {segs : List Segment} (hs : segs.Pairwise fun g g' => g'.start ≤ g.start)
    {v : Nat × List RawRecord} (hv : v ∈ views segs) :
    ∃ v' ∈ views segs, ((views segs).find? fun w => decide (w.1 = v.1)) = some v' ∧
      v.2 <+: v'.2 := by
  induction segs with
  | nil => simp [views] at hv
  | cons g older ih =>
    obtain ⟨hg, hs⟩ := pairwise_cons.mp hs
    simp only [views, mem_cons] at hv ⊢
    rcases hv with rfl | hv
    · exact ⟨_, .inl rfl, by simp, prefix_refl _⟩
    · obtain ⟨v', hv', hfind, hpre⟩ := ih hs hv
      by_cases hstart : g.start = v.1
      · -- an older entry of the same name is the one just before, as names never fall
        refine ⟨_, .inl rfl, by simp [hstart], hpre.trans ?_⟩
        cases hvs : views older with
        | nil => rw [hvs] at hv; simp at hv
        | cons w ws =>
          have hw : w.1 = g.start := by
            obtain ⟨gw, hgw, hgw'⟩ := mem_views_start (v := w) (by rw [hvs]; exact mem_cons_self)
            have h₁ := hg gw hgw
            obtain ⟨gv, hgv, hgv'⟩ := mem_views_start hv
            have hle : ∀ u ∈ older, u.start ≤ w.1 := by
              cases older with
              | nil => simp [views] at hvs
              | cons o os =>
                simp only [views, List.cons.injEq] at hvs
                obtain ⟨rfl, -⟩ := hvs
                intro u hu
                rcases mem_cons.mp hu with rfl | hu
                · exact le_rfl
                · exact (pairwise_cons.mp hs).1 u hu
            have h₂ := hle gv hgv
            omega
          rw [hvs, find?_cons_of_pos (by simpa using hw.trans hstart)] at hfind
          cases hfind
          simp [inherited, hw]
      · exact ⟨v', .inr hv', by rw [find?_cons_of_neg (by simpa using hstart), hfind], hpre⟩

theorem setLastLen_append (fs : List File) (f : File) (len : Nat) :
    setLastLen len (fs ++ [f]) = fs ++ [{ f with len := len }] := by
  induction fs with
  | nil => rfl
  | cons f' fs ih =>
    cases fs with
    | nil => rfl
    | cons f'' fs =>
      simp only [cons_append, setLastLen] at ih ⊢
      rw [ih]

def grow (roll : Bool) (r : RawRecord) : List Segment → List Segment
  | [] => [⟨r.sequenceNumber, [r]⟩]
  | g :: older =>
    if roll then ⟨r.sequenceNumber, [r]⟩ :: g :: older
    else ⟨g.start, g.records ++ [r]⟩ :: older

theorem logOf_grow (roll : Bool) (r : RawRecord) (segs : List Segment) :
    logOf (grow roll r segs) = logOf segs ++ [r] := by
  cases segs with
  | nil => simp [grow, logOf]
  | cons g older => cases roll <;> simp [grow, logOf]

theorem Files.writeRecord_roll {fs : Files} {r : RawRecord} (hroll : fs.mustRoll = true) :
    fs.writeRecord codec r =
      let file := File.openAt fs.directory r.sequenceNumber
      let created := file.createIn fs.directory
      let content := (created.get? r.sequenceNumber).getD [] ++ r.frame codec
      some ⟨created.insert r.sequenceNumber content, some r.sequenceNumber,
        setLastLen content.length (fs.files ++ [file])⟩ := by
  simp only [writeRecord, hroll, if_true, openNewFileAt]
  rfl

theorem Files.writeRecord_extend {fs : Files} {r : RawRecord} {path : Nat}
    (hroll : fs.mustRoll = false) (hwriter : fs.writer = some path) :
    fs.writeRecord codec r =
      let content := (fs.directory.get? path).getD [] ++ r.frame codec
      some ⟨fs.directory.insert path content, some path, setLastLen content.length fs.files⟩ := by
  simp only [writeRecord, hroll, Bool.false_eq_true, if_false, hwriter]
  rfl

section Write
variable {wal : WAL} {segs : List Segment}

theorem WAL.LaidOut.record_number (h : wal.LaidOut codec segs) (call : WriteCall) :
    (wal.record call).sequenceNumber = lastNumber 0 (logOf segs) ∨
      (wal.record call).sequenceNumber = lastNumber 0 (logOf segs) + 1 := by
  have hn := h.next
  cases call with
  | sequenced t b => exact .inr hn.symm
  | unsequenced t b =>
    left
    simp only [record, previous]
    omega

theorem WAL.LaidOut.existing (h : wal.LaidOut codec segs) (n : Nat) (hn : wal.previous ≤ n) :
    (wal.files.directory.get? n).getD [] = frames codec (inherited n (views segs)) := by
  rw [h.directory]
  cases segs with
  | nil => rfl
  | cons g older =>
    by_cases hg : g.start = n
    · simp [views, inherited, hg]
    · have hnone : ((views older).find? fun v => decide (v.1 = n)) = none := by
        refine find?_eq_none.mpr fun v hv => ?_
        obtain ⟨g', hg', hstart⟩ := mem_views_start hv
        have h₁ := (pairwise_cons.mp h.sorted).1 g' hg'
        have h₂ := h.bound g mem_cons_self
        simp only [decide_eq_true_eq]
        omega
      simp [views, inherited, hg, hnone]

theorem createIn_getD (d : Directory) (f : File) (a : Nat) :
    ((f.createIn d).get? a).getD [] = (d.get? a).getD [] := by
  simp only [File.createIn]
  split
  · rfl
  · rename_i hnone
    rw [get?_insert]
    split_ifs with ha
    · rw [ha, hnone]; rfl
    · rfl

theorem createIn_get?_ne (d : Directory) (f : File) {a : Nat} (ha : a ≠ f.start) :
    (f.createIn d).get? a = d.get? a := by
  simp only [File.createIn]
  split
  · rfl
  · rw [get?_insert, if_neg ha]

theorem WAL.LaidOut.mustRoll_nil (h : wal.LaidOut codec []) : wal.files.mustRoll = true := by
  simp [mustRoll, h.files, views]

theorem WAL.LaidOut.grow_steps (h : wal.LaidOut codec segs) (roll : Bool) (call : WriteCall) :
    Steps 0 (logOf (grow roll (wal.record call) segs)) ∧
      lastNumber 0 (logOf (grow roll (wal.record call) segs)) + 1 =
        if call.isSequenced then wal.nextSequenceNumber + 1 else wal.nextSequenceNumber := by
  rw [logOf_grow, steps_append, lastNumber_append]
  refine ⟨⟨h.steps, h.record_number call, trivial⟩, ?_⟩
  have hn := h.next
  cases call with
  | sequenced t b => simp [record, isSequenced]
  | unsequenced t b =>
    simp only [record, previous, isSequenced]
    simp only [Bool.false_eq_true, if_false]
    omega

theorem WAL.previous_le_record (wal : WAL) (call : WriteCall) :
    wal.previous ≤ (wal.record call).sequenceNumber := by
  cases call with
  | sequenced t b => simp [record, previous]
  | unsequenced t b => exact le_rfl

theorem WAL.LaidOut.record_lt (h : wal.LaidOut codec segs) (call : WriteCall) :
    (wal.record call).sequenceNumber <
      if call.isSequenced then wal.nextSequenceNumber + 1 else wal.nextSequenceNumber := by
  have hn := h.next
  cases call with
  | sequenced t b => simp [record, isSequenced]
  | unsequenced t b =>
    simp only [record, previous, isSequenced, Bool.false_eq_true, if_false]
    omega

theorem WAL.LaidOut.write_roll (h : wal.LaidOut codec segs) (call : WriteCall)
    (hroll : wal.files.mustRoll = true) :
    ∃ wal', wal.write codec call = some wal' ∧
      wal'.LaidOut codec (⟨(wal.record call).sequenceNumber, [wal.record call]⟩ :: segs) := by
  set r := wal.record call with hr
  have hprev : wal.previous ≤ r.sequenceNumber := wal.previous_le_record call
  have hsteps := h.grow_steps true call
  have hlt := h.record_lt call
  rw [← hr] at hlt
  have hcontent := h.existing _ hprev
  refine ⟨_, by rw [write, writeRecord_roll hroll]; rfl, ?_⟩
  have hgrow : grow true r segs = ⟨r.sequenceNumber, [r]⟩ :: segs := by
    cases segs <;> rfl
  rw [← hr, hgrow] at hsteps
  constructor
  · simp only [views, map_cons, reverse_cons, setLastLen_append, h.files, createIn_getD,
      ← hr, hcontent, File.openAt]
    simp
  · intro a
    simp only [views, ← hr, get?_insert, createIn_getD, hcontent]
    by_cases ha : a = r.sequenceNumber
    · simp [ha]
    · rw [if_neg ha, createIn_get?_ne _ _ (by simpa [File.openAt] using ha), h.directory,
        find?_cons_of_neg (by simpa using Ne.symm ha)]
  · rfl
  · intro g hg
    rcases mem_cons.mp hg with rfl | hg
    · exact ⟨r, [], rfl, rfl⟩
    · exact h.heads g hg
  · exact pairwise_cons.mpr ⟨fun g hg => (h.bound g hg).trans hprev, h.sorted⟩
  · intro g hg
    simp only [previous]
    rcases mem_cons.mp hg with rfl | hg
    · simp only
      omega
    · have := h.bound g hg
      simp only [previous] at this hprev
      omega
  · exact hsteps.1
  · exact hsteps.2

theorem WAL.LaidOut.write_extend {g : Segment} {older : List Segment}
    (h : wal.LaidOut codec (g :: older)) (call : WriteCall) (hroll : wal.files.mustRoll = false) :
    ∃ wal', wal.write codec call = some wal' ∧
      wal'.LaidOut codec (⟨g.start, g.records ++ [wal.record call]⟩ :: older) := by
  set r := wal.record call with hr
  have hsteps := h.grow_steps false call
  have hlt := h.record_lt call
  rw [← hr] at hlt
  have hprev : wal.previous ≤ r.sequenceNumber := wal.previous_le_record call
  have hcontent : (wal.files.directory.get? g.start).getD [] =
      frames codec (inherited g.start (views older) ++ g.records) := by
    rw [h.directory]
    simp [views]
  have hwriter : wal.files.writer = some g.start := h.writer
  refine ⟨_, by rw [write, writeRecord_extend hroll hwriter]; rfl, ?_⟩
  rw [← hr] at hsteps
  simp only [grow, Bool.false_eq_true, if_false] at hsteps
  constructor
  · simp only [h.files, views, map_cons, reverse_cons, setLastLen_append, ← hr, hcontent]
    simp
  · intro a
    simp only [views, ← hr, get?_insert, hcontent]
    by_cases ha : a = g.start
    · simp [ha]
    · rw [if_neg ha, h.directory, find?_cons_of_neg (by simpa using Ne.symm ha)]
      simp only [views]
      rw [find?_cons_of_neg (by simpa using Ne.symm ha)]
  · rfl
  · intro g' hg'
    rcases mem_cons.mp hg' with rfl | hg'
    · obtain ⟨r', rs, hrs, hn⟩ := h.heads g mem_cons_self
      exact ⟨r', rs ++ [r], by simp [hrs], hn⟩
    · exact h.heads g' (mem_cons_of_mem _ hg')
  · exact pairwise_cons.mpr (pairwise_cons.mp h.sorted)
  · intro g' hg'
    have hle : g'.start ≤ wal.previous := by
      rcases mem_cons.mp hg' with rfl | hg'
      · exact h.bound g mem_cons_self
      · exact h.bound g' (mem_cons_of_mem _ hg')
    simp only [previous] at hle hprev ⊢
    omega
  · exact hsteps.1
  · exact hsteps.2

theorem WAL.LaidOut.write (h : wal.LaidOut codec segs) (call : WriteCall) :
    ∃ wal', wal.write codec call = some wal' ∧
      wal'.LaidOut codec (grow wal.files.mustRoll (wal.record call) segs) := by
  cases segs with
  | nil =>
    rw [h.mustRoll_nil]
    exact h.write_roll call h.mustRoll_nil
  | cons g older =>
    cases hroll : wal.files.mustRoll with
    | true => exact h.write_roll call hroll
    | false => exact h.write_extend call hroll

end Write
end TypeDB.Durability
