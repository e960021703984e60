import TypeDB.Durability.WalReading

/-! Iterating over a list of files whose names and numbers never fall. The reader starts in the
last file named below the wanted number and skips records there; the files before it hold only
smaller numbers and the files after it none. -/

namespace TypeDB.Durability
open ByteString List RecordIterator

variable {codec : Codec} {rs : List RawRecord}

def lastNumber (n : Nat) (rs : List RawRecord) : Nat := rs.foldl (fun _ r => r.sequenceNumber) n

theorem lastNumber_append (n : Nat) (rs : List RawRecord) (r : RawRecord) :
    lastNumber n (rs ++ [r]) = r.sequenceNumber := by simp [lastNumber]

theorem steps_append {n : Nat} {rs rs' : List RawRecord} :
    Steps n (rs ++ rs') ↔ Steps n rs ∧ Steps (lastNumber n rs) rs' := by
  induction rs generalizing n with
  | nil => simp [Steps, lastNumber]
  | cons r rs ih =>
    simp only [cons_append, Steps, ih, lastNumber, foldl_cons, and_assoc]

theorem Steps.le {n : Nat} (h : Steps n rs) :
    ∀ r ∈ rs, n ≤ r.sequenceNumber ∧ r.sequenceNumber ≤ lastNumber n rs := by
  induction rs generalizing n with
  | nil => simp
  | cons r rs ih =>
    obtain ⟨hr, hrs⟩ := h
    have hlast : r.sequenceNumber ≤ lastNumber n (r :: rs) := by
      cases rs with
      | nil => exact le_rfl
      | cons r' rs =>
        have := ih hrs r' mem_cons_self
        exact this.1.trans this.2
    intro r' hr'
    rcases mem_cons.mp hr' with rfl | hr'
    · exact ⟨by rcases hr with hr | hr <;> omega, hlast⟩
    · have := ih hrs r' hr'
      exact ⟨by rcases hr with hr | hr <;> omega, this.2⟩

theorem Steps.filter_eq_dropWhile {n s : Nat} (h : Steps n rs) :
    rs.filter (fun r => decide (s ≤ r.sequenceNumber)) =
      rs.dropWhile fun r => decide (r.sequenceNumber < s) := by
  induction rs generalizing n with
  | nil => rfl
  | cons r rs ih =>
    obtain ⟨-, hrs⟩ := h
    by_cases hr : r.sequenceNumber < s
    · rw [filter_cons_of_neg (by simpa using hr), ih hrs, dropWhile_cons_of_pos (by simpa using hr)]
    · rw [dropWhile_cons_of_neg (by simpa using hr)]
      apply filter_eq_self.mpr
      intro r' hr'
      rcases mem_cons.mp hr' with rfl | hr'
      · simpa using hr
      · have := (hrs.le r' hr').1
        simp only [decide_eq_true_eq]
        omega

theorem Steps.dropWhile_eq_self {n start : Nat} (h : Steps n rs) (hle : start ≤ n) :
    (rs.dropWhile fun r => decide (r.sequenceNumber < start)) = rs := by
  cases rs with
  | nil => rfl
  | cons r rs =>
    have := (h.le r mem_cons_self).1
    rw [dropWhile_cons_of_neg (by simp only [decide_eq_true_eq]; omega)]

theorem Steps.self {n : Nat} {r : RawRecord} (h : Steps n (r :: rs)) :
    Steps r.sequenceNumber (r :: rs) := ⟨.inl rfl, h.2⟩

theorem Files.iterAnyFrom_nil {fs : Files} (h : fs.files = []) (start : Nat) :
    fs.iterAnyFrom codec start = .ok [] := by
  simp only [Files.iterAnyFrom, RecordIterator.new, h, drop_nil, bind, Except.bind,
    Files.iterations, RecordIterator.collect, RecordIterator.next]

theorem start_split {es : List (File × List RawRecord)} (hne : es ≠ [])
    (hs : es.Pairwise fun e e' => e.1.start ≤ e'.1.start) (start : Nat) :
    ∃ low e high, es = low ++ e :: high ∧ startIndex (es.map (·.1)) start = low.length ∧
      (low ≠ [] → e.1.start < start) ∧ ∀ e' ∈ high, start ≤ e'.1.start := by
  let below : File × List RawRecord → Bool := fun e => decide (e.1.start < start)
  have hindex : startIndex (es.map (·.1)) start = (es.takeWhile below).length - 1 := by
    rw [startIndex, takeWhile_map, length_map]
    rfl
  have hsplit : es.takeWhile below ++ es.dropWhile below = es := takeWhile_append_dropWhile
  have hhigh : ∀ e ∈ es.dropWhile below, start ≤ e.1.start := by
    have hsorted := hs.sublist (dropWhile_suffix below).sublist
    cases hd : es.dropWhile below with
    | nil => simp
    | cons e rest =>
      have hnot := head_dropWhile_not below (l := es) (by simp [hd])
      simp only [hd, head_cons, below, decide_eq_false_iff_not] at hnot
      rw [hd] at hsorted
      intro e' he'
      rcases mem_cons.mp he' with rfl | he'
      · omega
      · have := (pairwise_cons.mp hsorted).1 e' he'
        omega
  rcases eq_nil_or_concat (es.takeWhile below) with hlow | ⟨low, e, hlow⟩
  · rw [hlow, nil_append] at hsplit
    rw [hsplit] at hhigh
    obtain ⟨e, high, rfl⟩ := exists_cons_of_ne_nil hne
    exact ⟨[], e, high, rfl, by rw [hindex, hlow]; rfl, fun h => absurd rfl h,
      fun e' he' => hhigh e' (mem_cons_of_mem _ he')⟩
  · refine ⟨low, e, _, ?_, by rw [hindex, hlow]; simp, fun _ => ?_, hhigh⟩
    · rw [hlow, concat_eq_append, append_assoc] at hsplit
      exact hsplit.symm
    · have hall := all_takeWhile (p := below) (l := es)
      rw [hlow] at hall
      simpa [below] using (all_eq_true.mp hall) e (by simp)

/-- Entries in the order of their names, each with the records it yields: an entry's numbers
start at its name, and no earlier entry has passed it. -/
structure Ordered (es : List (File × List RawRecord)) : Prop where
  pairwise : es.Pairwise fun e e' =>
    e.1.start ≤ e'.1.start ∧ ∀ r ∈ e.2, r.sequenceNumber ≤ e'.1.start
  steps : ∀ e ∈ es, Steps e.1.start e.2

theorem Ordered.nil : Ordered [] := ⟨.nil, by simp⟩

theorem Ordered.concat {es : List (File × List RawRecord)} (h : Ordered es) {f : File}
    (hstart : ∀ e ∈ es, e.1.start ≤ f.start)
    (hrecords : ∀ r ∈ (es.map (·.2)).flatten, r.sequenceNumber ≤ f.start)
    (hsteps : Steps f.start rs) : Ordered (es ++ [(f, rs)]) := by
  refine ⟨pairwise_append.mpr ⟨h.pairwise, pairwise_singleton _ _, ?_⟩, ?_⟩
  · intro e he e' he'
    obtain rfl := mem_singleton.mp he'
    exact ⟨hstart e he, fun r hr =>
      hrecords r (mem_flatten_of_mem (mem_map_of_mem he) hr)⟩
  · intro e he
    rcases mem_append.mp he with he | he
    · exact h.steps e he
    · obtain rfl := mem_singleton.mp he
      exact hsteps

section Entries
variable {fs : Files} {es : List (File × List RawRecord)} {start : Nat}

theorem Ordered.filter_eq (h : Ordered es) {low high : List (File × List RawRecord)}
    {e : File × List RawRecord} (hsplit : es = low ++ e :: high)
    (hlow : low ≠ [] → e.1.start < start) (hhigh : ∀ e' ∈ high, start ≤ e'.1.start) :
    (es.map (·.2)).flatten.filter (fun r => decide (start ≤ r.sequenceNumber)) =
      (e.2.dropWhile fun r => decide (r.sequenceNumber < start)) ++ (high.map (·.2)).flatten := by
  have hmem : ∀ e' ∈ e :: high, e' ∈ es := fun e' he' => by
    rw [hsplit]
    exact mem_append_right _ he'
  have hlowNone : (low.map (·.2)).flatten.filter
      (fun r => decide (start ≤ r.sequenceNumber)) = [] := by
    refine filter_eq_nil_iff.mpr fun r hr => ?_
    obtain ⟨rs, hrs, hr⟩ := mem_flatten.mp hr
    obtain ⟨e', he', rfl⟩ := mem_map.mp hrs
    have hpair := h.pairwise
    rw [hsplit] at hpair
    have hle := ((pairwise_append.mp hpair).2.2 e' he' e mem_cons_self).2 r hr
    have := hlow (ne_nil_of_mem he')
    simp only [decide_eq_true_eq]
    omega
  have hhighAll : (high.map (·.2)).flatten.filter
      (fun r => decide (start ≤ r.sequenceNumber)) = (high.map (·.2)).flatten := by
    refine filter_eq_self.mpr fun r hr => ?_
    obtain ⟨rs, hrs, hr⟩ := mem_flatten.mp hr
    obtain ⟨e', he', rfl⟩ := mem_map.mp hrs
    have hle := ((h.steps e' (hmem e' (mem_cons_of_mem _ he'))).le r hr).1
    have := hhigh e' he'
    simp only [decide_eq_true_eq]
    omega
  have hself := (h.steps e (hmem e mem_cons_self)).filter_eq_dropWhile (s := start)
  rw [hsplit, map_append, flatten_append, filter_append, hlowNone, nil_append,
    map_cons, flatten_cons, filter_append, hself, hhighAll]

/-- Where the skipping loop ends in an entry, the rest of the entry is yielded. -/
def File.SkipsTo (codec : Codec) (directory : Directory) (start : Nat) (f : File)
    (rs : List RawRecord) : Prop :=
  ∃ content rd, directory.get? f.start = some content ∧
    skipTo start (content.length + 1) f.start ⟨f, content, 0⟩ = .ok rd ∧
    rd.Yields codec (rs.dropWhile fun r => decide (r.sequenceNumber < start))

theorem File.Readable.skipsTo (hc : codec.Lawful) {directory : Directory} {f : File}
    {rs : List RawRecord} (hf : f.Readable codec directory rs) (hfit : Fits codec rs)
    (hsteps : Steps f.start rs) (start : Nat) : f.SkipsTo codec directory start rs := by
  obtain ⟨content, hget, hold⟩ := hf
  have hsuffix := (dropWhile_suffix (l := rs) fun r =>
    decide (r.sequenceNumber < start)).sublist
  by_cases hlt : f.start < start
  · have hfuel : rs.length < content.length + 1 := by
      have h₁ := length_le_frames codec rs
      have h₂ := hold.1.length_le
      simp only [FileReader.rest, drop_zero] at h₂
      omega
    obtain ⟨rd, hskip, hrd⟩ := skipTo_eq hold hfit hsteps hlt hfuel
    exact ⟨content, rd, hget, hskip, hrd.yields hc fun r hr => hfit r (hsuffix.mem hr)⟩
  · refine ⟨content, _, hget, by rw [skipTo, if_neg hlt], ?_⟩
    rw [hsteps.dropWhile_eq_self (not_lt.mp hlt)]
    exact hold.yields hc hfit

theorem Files.iterAnyFrom_of_skip {low high : List File} {f : File} {rs : List RawRecord}
    {vs : List (List RawRecord)} (hfiles : fs.files = low ++ f :: high)
    (hindex : startIndex fs.files start = low.length) (hf : f.SkipsTo codec fs.directory start rs)
    (hhigh : List.Forall₂ (File.Yields codec fs.directory) high vs)
    (hfuel : (rs ++ vs.flatten).length ≤ fs.iterations) :
    fs.iterAnyFrom codec start =
      .ok ((rs.dropWhile fun r => decide (r.sequenceNumber < start)) ++ vs.flatten) := by
  obtain ⟨content, rd, hget, hskip, hrd⟩ := hf
  have hdrop : fs.files.drop (startIndex fs.files start) = f :: high := by
    rw [hindex, hfiles, drop_left]
  have hlen := (dropWhile_suffix (l := rs) fun r =>
    decide (r.sequenceNumber < start)).sublist.length_le
  rw [Files.iterAnyFrom, new, hdrop]
  simp only [FileReader.new_eq hget, hskip, bind, Except.bind]
  rw [collect_eq hrd hhigh, take_of_length_le]
  simp only [length_append] at hfuel ⊢
  omega

theorem forall₂_yields (h : ∀ e ∈ es, e.1.Yields codec fs.directory e.2) :
    List.Forall₂ (File.Yields codec fs.directory) (es.map (·.1)) (es.map (·.2)) := by
  rw [forall₂_map_left_iff, forall₂_map_right_iff, forall₂_same]
  exact h

theorem Ordered.iterate (h : Ordered es) (start : Nat) (hfiles : fs.files = es.map (·.1))
    (hyields : ∀ e ∈ es, e.1.Yields codec fs.directory e.2)
    (hskips : ∀ e ∈ es, e.1.SkipsTo codec fs.directory start e.2)
    (hfuel : (es.map (·.2)).flatten.length ≤ fs.iterations) :
    fs.iterAnyFrom codec start =
      .ok ((es.map (·.2)).flatten.filter fun r => decide (start ≤ r.sequenceNumber)) := by
  by_cases hne : es = []
  · subst hne
    exact Files.iterAnyFrom_nil hfiles start
  obtain ⟨low, e, high, hsplit, hindex, hlow, hhigh⟩ :=
    start_split hne (h.pairwise.imp fun hp => hp.1) start
  have hmem : ∀ e' ∈ e :: high, e' ∈ es := fun e' he' => hsplit ▸ mem_append_right _ he'
  have hhighYields := forall₂_yields fun e' he' => hyields e' (hmem e' (mem_cons_of_mem _ he'))
  have hfiles' : fs.files = low.map (·.1) ++ e.1 :: high.map (·.1) := by
    rw [hfiles, hsplit, map_append, map_cons]
  rw [h.filter_eq hsplit hlow hhigh, Files.iterAnyFrom_of_skip hfiles'
    (by rw [hfiles, hindex, length_map]) (hskips e (hmem e mem_cons_self)) hhighYields]
  rw [hsplit, map_append, flatten_append, length_append] at hfuel
  simp only [map_cons, flatten_cons] at hfuel
  omega

theorem Ordered.new_collect (h : Ordered es) (hfiles : fs.files = es.map (·.1))
    (hyields : ∀ e ∈ es, e.1.Yields codec fs.directory e.2)
    (hskips : ∀ e ∈ es, ∀ content rd, fs.directory.get? e.1.start = some content →
      skipTo start (content.length + 1) e.1.start ⟨e.1, content, 0⟩ = .ok rd →
      rd.Yields codec (e.2.dropWhile fun r => decide (r.sequenceNumber < start)))
    {it : RecordIterator} (hit : new fs start = .ok it) (fuel : Nat) :
    ∃ rs, it.collect codec fuel = .ok rs ∧ rs ⊆ (es.map (·.2)).flatten := by
  by_cases hne : es = []
  · have hnil : fs.files = [] := by rw [hfiles, hne]; rfl
    simp only [new, hnil, drop_nil, Except.ok.injEq] at hit
    refine ⟨[], ?_, nil_subset _⟩
    rw [← hit]
    cases fuel <;> rfl
  obtain ⟨low, e, high, hsplit, hindex, -, -⟩ :=
    start_split hne (h.pairwise.imp fun hp => hp.1) start
  have hmem : ∀ e' ∈ e :: high, e' ∈ es := fun e' he' => hsplit ▸ mem_append_right _ he'
  have hhighYields := forall₂_yields fun e' he' => hyields e' (hmem e' (mem_cons_of_mem _ he'))
  have hdrop : fs.files.drop (startIndex fs.files start) = e.1 :: high.map (·.1) := by
    rw [hfiles, hindex, hsplit, map_append, map_cons, drop_left' (by rw [length_map])]
  obtain ⟨content, hget, -⟩ := hyields e (hmem e mem_cons_self)
  simp only [new, hdrop, FileReader.new_eq hget, bind, Except.bind] at hit
  split at hit
  · cases hit
  · rename_i rd hskip
    obtain rfl := Except.ok.inj hit
    have hrd := hskips e (hmem e mem_cons_self) content rd hget hskip
    refine ⟨_, collect_eq hrd hhighYields fuel, fun r hr => ?_⟩
    rw [hsplit, map_append, flatten_append, map_cons, flatten_cons]
    refine mem_append_right _ ?_
    rcases mem_append.mp (mem_of_mem_take hr) with hr | hr
    · exact mem_append_left _ ((dropWhile_suffix _).sublist.mem hr)
    · exact mem_append_right _ hr

end Entries
end TypeDB.Durability
