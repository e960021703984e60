import TypeDB.Durability.WalLayout

/-! What iterating a log yields after any history of writes. The entries of the file list are
read one after the other, so a record is read as often as there are entries that hold it: once,
unless an unsequenced write opened its file a second time. -/

namespace TypeDB.Durability
open List WAL Codec WriteCall

variable {codec : Codec}

def WriteCall.bytes : WriteCall → ByteString.Bytes
  | .sequenced _ b => b
  | .unsequenced _ b => b

def WAL.writeAll (codec : Codec) : WAL → List WriteCall → Option (WAL × List (WriteCall × RawRecord))
  | wal, [] => some (wal, [])
  | wal, call :: calls => do
    let wal' ← wal.write codec call
    let (last, written) ← WAL.writeAll codec wal' calls
    some (last, (call, wal.record call) :: written)

/-- An unsequenced write finds the last file full while that file is named by the last number
handed out: `write_record` then opens the same path again and lists it a second time. -/
def WAL.reopens (wal : WAL) (call : WriteCall) : Bool :=
  !call.isSequenced && match wal.files.files.getLast? with
    | none => false
    | some last => decide (maxWalFileSize ≤ last.len ∧ last.start = wal.previous)

/-- No call of the history opens the last file a second time. -/
def WAL.NeverReopens (codec : Codec) (wal : WAL) (calls : List WriteCall) : Prop :=
  ∀ before call after, calls = before ++ call :: after → ∀ wal' written,
    wal.writeAll codec before = some (wal', written) → wal'.reopens call = false

def sequencedNumbers (written : List (WriteCall × RawRecord)) : List Nat :=
  (written.filter (·.1.isSequenced)).map (·.2.sequenceNumber)

def Apart (segs : List Segment) : Prop := segs.Pairwise fun g g' => g'.start < g.start

theorem Apart.views_eq {segs : List Segment} (h : Apart segs) :
    views segs = segs.map fun g => (g.start, g.records) := by
  induction segs with
  | nil => rfl
  | cons g older ih =>
    obtain ⟨hg, hs⟩ := pairwise_cons.mp h
    have hnew : inherited g.start (views older) = [] := by
      rw [ih hs]
      cases older with
      | nil => rfl
      | cons o os => simp [inherited, (hg o mem_cons_self).ne]
    simp only [views, hnew, nil_append, map_cons]
    rw [ih hs]

section Read
variable {wal : WAL} {segs : List Segment}

theorem WAL.LaidOut.readable (h : wal.LaidOut codec segs) :
    Forall₂ (File.Readable codec wal.files.directory) wal.files.files
      ((views segs).reverse.map (·.2)) := by
  rw [h.files, ← map_reverse, forall₂_map_left_iff, forall₂_map_right_iff, forall₂_same]
  intro v hv
  obtain ⟨v', -, hfind, hpre⟩ := find?_views h.sorted (mem_reverse.mp hv)
  refine ⟨frames codec v'.2, by rw [h.directory, hfind]; rfl, ?_, by simp⟩
  obtain ⟨more, hmore⟩ := hpre
  exact ⟨frames codec more, by rw [← frames_append, hmore]; rfl⟩

theorem length_flatten_le (codec : Codec) (vs : List (List RawRecord)) :
    vs.flatten.length ≤ (vs.map fun rs => (frames codec rs).length).sum := by
  rw [length_flatten]
  exact sum_le_sum fun rs _ => length_le_frames codec rs

theorem WAL.LaidOut.iterations (h : wal.LaidOut codec segs) :
    ((views segs).reverse.map (·.2)).flatten.length < wal.files.iterations := by
  have hle := length_flatten_le codec ((views segs).reverse.map (·.2))
  rw [map_map] at hle
  rw [Files.iterations, h.files, ← map_reverse, map_map]
  exact Nat.lt_succ_of_le hle

def Segment.file (codec : Codec) (g : Segment) : File := ⟨g.start, (frames codec g.records).length⟩

section
variable (h : wal.LaidOut codec segs) (ha : Apart segs)
include h ha

theorem WAL.LaidOut.files_apart :
    wal.files.files = segs.reverse.map (Segment.file codec) := by
  rw [h.files, ha.views_eq, map_map, map_reverse]
  rfl

theorem WAL.LaidOut.readable_apart :
    ∀ g ∈ segs, (g.file codec).Readable codec wal.files.directory g.records := by
  have hread := h.readable
  rw [h.files_apart ha, ha.views_eq, ← map_reverse, map_map, forall₂_map_left_iff,
    forall₂_map_right_iff, forall₂_same] at hread
  exact fun g hg => hread g (mem_reverse.mpr hg)

theorem WAL.LaidOut.iterations_apart :
    (logOf segs).length < wal.files.iterations := by
  have hlen := h.iterations
  rwa [ha.views_eq, ← map_reverse, map_map, map_reverse] at hlen

end

theorem ordered_segments (codec : Codec)
    (hs : segs.Pairwise fun g g' => g'.start ≤ g.start)
    (hheads : ∀ g ∈ segs, ∃ r rs, g.records = r :: rs ∧ r.sequenceNumber = g.start)
    (hsteps : Steps 0 (logOf segs)) :
    Ordered (segs.reverse.map fun g => (g.file codec, g.records)) := by
  induction segs with
  | nil => exact Ordered.nil
  | cons g older ih =>
    obtain ⟨hg, hs⟩ := pairwise_cons.mp hs
    rw [logOf_cons, steps_append] at hsteps
    obtain ⟨holder, hlast⟩ := hsteps
    obtain ⟨r, rs, hrs, hr⟩ := hheads g mem_cons_self
    have ih := ih hs (fun g' hg' => hheads g' (mem_cons_of_mem _ hg')) holder
    rw [reverse_cons, map_append, map_singleton]
    refine ih.concat ?_ ?_ ?_
    · intro e he
      obtain ⟨g', hg', rfl⟩ := mem_map.mp he
      exact hg g' (mem_reverse.mp hg')
    · intro r' hr'
      rw [map_map, ← Function.comp_def, map_reverse] at hr'
      have hle := (holder.le r' hr').2
      rw [hrs] at hlast
      show r'.sequenceNumber ≤ g.start
      rcases hlast.1 with h | h <;> omega
    · show Steps g.start g.records
      rw [hrs] at hlast ⊢
      exact hr ▸ hlast.self

theorem WAL.LaidOut.iterate_apart (hc : codec.Lawful) (h : wal.LaidOut codec segs)
    (ha : Apart segs) (hfit : Fits codec (logOf segs)) (start : Nat) :
    wal.files.iterAnyFrom codec start =
      .ok ((logOf segs).filter fun r => decide (start ≤ r.sequenceNumber)) := by
  have hord := ordered_segments codec h.sorted h.heads h.steps
  have hfitOf : ∀ g ∈ segs, Fits codec g.records := fun g hg r hr =>
    hfit r (mem_flatten_of_mem (mem_reverse.mpr (mem_map_of_mem hg)) hr)
  have hlog : ((segs.reverse.map fun g => (g.file codec, g.records)).map (·.2)).flatten =
      logOf segs := by
    rw [map_map, ← Function.comp_def, map_reverse]
    rfl
  have hentries : ∀ e ∈ segs.reverse.map fun g => (g.file codec, g.records),
      ∃ g ∈ segs, e = (g.file codec, g.records) := by
    intro e he
    obtain ⟨g, hg, rfl⟩ := mem_map.mp he
    exact ⟨g, mem_reverse.mp hg, rfl⟩
  rw [hord.iterate start, hlog]
  · rw [h.files_apart ha, map_map]
    rfl
  · intro e he
    obtain ⟨g, hg, rfl⟩ := hentries e he
    exact (h.readable_apart ha g hg).yields hc (hfitOf g hg)
  · intro e he
    have hsteps := hord.steps e he
    obtain ⟨g, hg, rfl⟩ := hentries e he
    exact (h.readable_apart ha g hg).skipsTo hc (hfitOf g hg) hsteps start
  · rw [hlog]
    exact (h.iterations_apart ha).le

theorem views_concat (older : List Segment) (g : Segment) :
    ∃ vs, views (older ++ [g]) = vs ++ [(g.start, g.records)] := by
  induction older with
  | nil => exact ⟨[], rfl⟩
  | cons o os ih =>
    obtain ⟨vs, hvs⟩ := ih
    exact ⟨_, by rw [cons_append, views, hvs, ← cons_append]⟩

theorem mem_views_log {v : Nat × List RawRecord} (hv : v ∈ views segs) : v.2 ⊆ logOf segs := by
  induction segs generalizing v with
  | nil => simp [views] at hv
  | cons g older ih =>
    have hlog : logOf (g :: older) = logOf older ++ g.records := by simp [logOf]
    rw [hlog]
    rcases mem_cons.mp hv with rfl | hv
    · refine append_subset.mpr ⟨?_, subset_append_right _ _⟩
      cases hvs : views older with
      | nil => simp [inherited]
      | cons w ws =>
        simp only [inherited]
        split_ifs
        · exact subset_append_of_subset_left _ (ih (by rw [hvs]; exact mem_cons_self))
        · exact nil_subset _
    · exact subset_append_of_subset_left _ (ih hv)

theorem WAL.LaidOut.iterate_zero (hc : codec.Lawful) (h : wal.LaidOut codec segs)
    (hfit : Fits codec (logOf segs)) :
    wal.files.iterAnyFrom codec 0 = .ok ((views segs).reverse.map (·.2)).flatten := by
  rcases eq_nil_or_concat segs with rfl | ⟨older, g, rfl⟩
  · exact Files.iterAnyFrom_nil (by rw [h.files]; rfl) 0
  rw [concat_eq_append] at h hfit ⊢
  obtain ⟨vs, hvs⟩ := views_concat older g
  have hread := h.readable
  have hfuel := h.iterations
  have hfiles := h.files
  have hfit' : ∀ v ∈ views (older ++ [g]), Fits codec v.2 :=
    fun v hv r hr => hfit r (mem_views_log hv hr)
  rw [hvs, ← map_reverse, reverse_append] at hfiles
  rw [h.files, hvs, ← map_reverse, reverse_append] at hread
  rw [hvs, reverse_append] at hfuel ⊢
  simp only [reverse_singleton, singleton_append, map_cons,
    forall₂_cons, flatten_cons] at hread hfuel hfiles ⊢
  have hsteps : Steps g.start g.records :=
    (ordered_segments codec h.sorted h.heads h.steps).steps (g.file codec, g.records)
      (mem_map_of_mem (by simp))
  have hrest : Forall₂ (File.Yields codec wal.files.directory)
      (vs.reverse.map fun v => (⟨v.1, (frames codec v.2).length⟩ : File)) (vs.reverse.map (·.2)) := by
    have hrest := hread.2
    rw [forall₂_map_left_iff, forall₂_map_right_iff, forall₂_same] at hrest ⊢
    exact fun v hv => (hrest v hv).yields hc
      (hfit' v (by rw [hvs]; exact mem_append_left _ (mem_reverse.mp hv)))
  have hfirst := hread.1.skipsTo hc (hfit' (g.start, g.records) (by rw [hvs]; simp)) hsteps 0
  rw [@Files.iterAnyFrom_of_skip _ _ _ [] _ _ _ _ hfiles (by simp [startIndex, hfiles]) hfirst
    hrest hfuel.le]
  have hall : (g.records.dropWhile fun r => decide (r.sequenceNumber < 0)) = g.records := by
    rw [← hsteps.filter_eq_dropWhile]
    simp
  rw [hall]

theorem length_log_le_views (segs : List Segment) :
    (logOf segs).length ≤ ((views segs).reverse.map (·.2)).flatten.length := by
  induction segs with
  | nil => simp [logOf]
  | cons g older ih =>
    simp only [logOf, views, map_cons, reverse_cons, map_append, flatten_append,
      length_append, map_nil, flatten_cons, flatten_nil, append_nil] at ih ⊢
    omega

theorem length_log_lt_views (hs : segs.Pairwise fun g g' => g'.start ≤ g.start)
    (hne : ∀ g ∈ segs, g.records ≠ []) (ha : ¬ Apart segs) :
    (logOf segs).length < ((views segs).reverse.map (·.2)).flatten.length := by
  induction segs with
  | nil => exact absurd Pairwise.nil ha
  | cons g older ih =>
    obtain ⟨hg, hs⟩ := pairwise_cons.mp hs
    have hne' := fun g' hg' => hne g' (mem_cons_of_mem _ hg')
    have hlen : (logOf (g :: older)).length = (logOf older).length + g.records.length := by
      simp [logOf]
    have hviews : ((views (g :: older)).reverse.map (·.2)).flatten.length =
        ((views older).reverse.map (·.2)).flatten.length +
          ((inherited g.start (views older)).length + g.records.length) := by
      simp [views]
    rw [hlen, hviews]
    by_cases hold : Apart older
    · have hle := length_log_le_views older
      suffices 0 < (inherited g.start (views older)).length by omega
      cases older with
      | nil => exact absurd (pairwise_singleton _ _) ha
      | cons o os =>
        have ho : o.start = g.start := by
          by_contra hne
          refine ha (pairwise_cons.mpr ⟨fun g' hg' => ?_, hold⟩)
          have h₁ := hg o mem_cons_self
          rcases mem_cons.mp hg' with rfl | hg'
          · omega
          · have := (pairwise_cons.mp hs).1 g' hg'
            omega
        have := length_pos_of_ne_nil (hne' o mem_cons_self)
        simp only [views, inherited, ho, if_true, length_append]
        omega
    · have := ih hs hne' hold
      omega

theorem WAL.LaidOut.iterate_iff (hc : codec.Lawful) (h : wal.LaidOut codec segs)
    (hfit : Fits codec (logOf segs)) :
    (∀ s ≤ wal.previous, wal.files.iterAnyFrom codec s =
      .ok ((logOf segs).filter fun r => decide (s ≤ r.sequenceNumber))) ↔ Apart segs := by
  refine ⟨fun hall => ?_, fun ha s _ => h.iterate_apart hc ha hfit s⟩
  by_contra ha
  have hzero := hall 0 (Nat.zero_le _)
  rw [h.iterate_zero hc hfit] at hzero
  have hne : ∀ g ∈ segs, g.records ≠ [] := by
    intro g hg
    obtain ⟨r, rs, hrs, -⟩ := h.heads g hg
    simp [hrs]
  have hlt := length_log_lt_views h.sorted hne ha
  rw [Except.ok.inj hzero] at hlt
  simp at hlt

theorem WAL.LaidOut.apart_grow (h : wal.LaidOut codec segs) (call : WriteCall) :
    Apart (grow wal.files.mustRoll (wal.record call) segs) ↔
      Apart segs ∧ wal.reopens call = false := by
  cases segs with
  | nil => simp [grow, Apart, reopens, h.files, views]
  | cons g older =>
    have hlast : wal.files.files.getLast? = some ⟨g.start, (frames codec
        (inherited g.start (views older) ++ g.records)).length⟩ := by
      rw [h.files]
      simp [views]
    have hbound := h.bound g mem_cons_self
    have hsorted := (pairwise_cons.mp h.sorted).1
    cases hroll : wal.files.mustRoll with
    | false =>
      simp only [Files.mustRoll, hlast, decide_eq_false_iff_not] at hroll
      simp only [grow, reopens, hlast, hroll, false_and, decide_false, Bool.and_false, and_true,
        Apart, pairwise_cons, Bool.false_eq_true, if_false]
    | true =>
      simp only [Files.mustRoll, hlast, decide_eq_true_eq] at hroll
      have hnew : Apart (⟨(wal.record call).sequenceNumber, [wal.record call]⟩ :: g :: older) ↔
          Apart (g :: older) ∧ g.start < (wal.record call).sequenceNumber := by
        simp only [Apart, pairwise_cons (a := Segment.mk _ _)]
        refine ⟨fun h => ⟨h.2, h.1 g mem_cons_self⟩, fun h => ⟨fun g' hg' => ?_, h.1⟩⟩
        rcases mem_cons.mp hg' with rfl | hg'
        · exact h.2
        · exact (hsorted g' hg').trans_lt h.2
      simp only [grow, if_true, hnew, reopens, hlast, hroll, true_and]
      refine and_congr_right fun _ => ?_
      cases call with
      | sequenced t b =>
        simp only [record, isSequenced, Bool.not_true, Bool.false_and, iff_true]
        simp only [previous] at hbound
        have := h.next
        omega
      | unsequenced t b =>
        simp only [record, isSequenced, Bool.not_false, Bool.true_and, decide_eq_false_iff_not]
        omega

end Read

section History
variable {wal : WAL} {segs : List Segment} {written : List (WriteCall × RawRecord)}
  {calls : List WriteCall} {wal' : WAL} {call : WriteCall}

theorem WAL.writeAll_cons : wal.writeAll codec (call :: calls) = some (wal', written) ↔
      ∃ wal₁ rest, wal.write codec call = some wal₁ ∧
        wal₁.writeAll codec calls = some (wal', rest) ∧ (call, wal.record call) :: rest = written := by
  simp only [writeAll, bind, Option.bind_eq_some_iff, Option.some.injEq, Prod.mk.injEq, Prod.exists]
  refine exists_congr fun wal₁ => ⟨?_, ?_⟩
  · rintro ⟨hwrite, w, rest, hrest, rfl, rfl⟩
    exact ⟨rest, hwrite, hrest, rfl⟩
  · rintro ⟨rest, hwrite, hrest, rfl⟩
    exact ⟨hwrite, wal', rest, hrest, rfl, rfl⟩

theorem WAL.neverReopens_nil : wal.NeverReopens codec [] := by
  intro before call after hcalls
  simp at hcalls

theorem WAL.neverReopens_cons (hwrite : wal.write codec call = some wal') :
    wal.NeverReopens codec (call :: calls) ↔
      wal.reopens call = false ∧ wal'.NeverReopens codec calls := by
  refine ⟨fun h => ⟨h [] call calls rfl wal [] rfl, ?_⟩, fun ⟨hfirst, h⟩ => ?_⟩
  · intro before c after hcalls last written hlast
    exact h (call :: before) c after (by rw [hcalls]; rfl) last _
      (writeAll_cons.mpr ⟨wal', written, hwrite, hlast, rfl⟩)
  · intro before c after hcalls last written hlast
    cases before with
    | nil =>
      obtain ⟨rfl, -⟩ : call = c ∧ calls = after := by simpa using hcalls
      obtain ⟨rfl, -⟩ : wal = last ∧ [] = written := by simpa [writeAll] using hlast
      exact hfirst
    | cons c' before =>
      obtain ⟨rfl, htail⟩ := cons.inj hcalls
      obtain ⟨wal₁, rest, hwrite₁, hrest, -⟩ := writeAll_cons.mp hlast
      obtain rfl : wal' = wal₁ := Option.some.inj (hwrite.symm.trans hwrite₁)
      exact h before c after htail last rest hrest

def WAL.segments (codec : Codec) : WAL → List Segment → List WriteCall → List Segment
  | _, segs, [] => segs
  | wal, segs, call :: calls =>
    match wal.write codec call with
    | none => segs
    | some wal' => wal'.segments codec (grow wal.files.mustRoll (wal.record call) segs) calls

theorem WAL.LaidOut.writeAll (h : wal.LaidOut codec segs) (calls : List WriteCall) :
    ∃ wal' written, wal.writeAll codec calls = some (wal', written) ∧
      wal'.LaidOut codec (wal.segments codec segs calls) ∧
      logOf (wal.segments codec segs calls) = logOf segs ++ written.map (·.2) := by
  induction calls generalizing wal segs with
  | nil => exact ⟨wal, [], rfl, h, by simp [segments]⟩
  | cons call calls ih =>
    obtain ⟨wal₁, hwrite, h₁⟩ := h.write call
    obtain ⟨wal', written, hrun, h', hlog⟩ := ih h₁
    refine ⟨wal', (call, wal.record call) :: written, ?_, ?_, ?_⟩
    · exact writeAll_cons.mpr ⟨wal₁, written, hwrite, hrun, rfl⟩
    · simpa only [segments, hwrite] using h'
    · simp only [segments, hwrite, hlog, logOf_grow, map_cons, append_assoc, singleton_append]

theorem WAL.LaidOut.apart_segments (h : wal.LaidOut codec segs) (calls : List WriteCall) :
    Apart (wal.segments codec segs calls) ↔ Apart segs ∧ wal.NeverReopens codec calls := by
  induction calls generalizing wal segs with
  | nil => simp [segments, neverReopens_nil]
  | cons call calls ih =>
    obtain ⟨wal₁, hwrite, h₁⟩ := h.write call
    rw [segments]
    simp only [hwrite]
    rw [ih h₁, h.apart_grow call, neverReopens_cons hwrite, and_assoc]

theorem WAL.write_next (h : wal.write codec call = some wal') : wal'.nextSequenceNumber =
      if call.isSequenced then wal.nextSequenceNumber + 1 else wal.nextSequenceNumber := by
  simp only [write, bind, Option.bind] at h
  split at h
  · cases h
  · cases h
    rfl

theorem WAL.writeAll_numbers (h : wal.writeAll codec calls = some (wal', written)) :
    sequencedNumbers written =
      range' wal.nextSequenceNumber (sequencedNumbers written).length ∧
    wal'.nextSequenceNumber = wal.nextSequenceNumber + (sequencedNumbers written).length := by
  induction calls generalizing wal written with
  | nil =>
    obtain ⟨rfl, rfl⟩ : wal = wal' ∧ [] = written := by simpa [writeAll] using h
    simp [sequencedNumbers]
  | cons call calls ih =>
    obtain ⟨wal₁, rest, hwrite, hrest, rfl⟩ := writeAll_cons.mp h
    obtain ⟨hnum, hnext⟩ := ih hrest
    have hstep := write_next hwrite
    cases call with
    | sequenced t b =>
      simp only [isSequenced, if_true] at hstep
      have hcons : sequencedNumbers ((.sequenced t b, wal.record (.sequenced t b)) :: rest) =
          wal.nextSequenceNumber :: sequencedNumbers rest := by
        simp [sequencedNumbers, isSequenced, record]
      rw [hcons, length_cons, range'_succ, ← hstep, ← hnum]
      exact ⟨rfl, by omega⟩
    | unsequenced t b =>
      simp only [isSequenced, Bool.false_eq_true, if_false] at hstep
      have hcons : sequencedNumbers ((.unsequenced t b, wal.record (.unsequenced t b)) :: rest) =
          sequencedNumbers rest := by
        simp [sequencedNumbers, isSequenced]
      rw [hcons, ← hstep]
      exact ⟨hnum, hnext⟩

theorem WAL.writeAll_bytes (h : wal.writeAll codec calls = some (wal', written)) :
    written.map (·.1) = calls ∧ ∀ p ∈ written, p.2.bytes = p.1.bytes := by
  induction calls generalizing wal written with
  | nil =>
    obtain ⟨rfl, rfl⟩ : wal = wal' ∧ [] = written := by simpa [writeAll] using h
    simp
  | cons call calls ih =>
    obtain ⟨wal₁, rest, -, hrest, rfl⟩ := writeAll_cons.mp h
    obtain ⟨hcalls, hbytes⟩ := ih hrest
    refine ⟨by simp [hcalls], fun p hp => ?_⟩
    rcases mem_cons.mp hp with rfl | hp
    · cases call <;> rfl
    · exact hbytes p hp

/-- A history short enough for 64-bit numbers, of bodies short enough for a 64-bit length. -/
def CallsFit (codec : Codec) (calls : List WriteCall) : Prop :=
  calls.length < 2 ^ 64 ∧ ∀ call ∈ calls, (codec.encode call.bytes).length < 2 ^ 64

theorem WAL.LaidOut.fits (h : wal.LaidOut codec segs) (hcalls : CallsFit codec calls)
    (hrun : create.writeAll codec calls = some (wal, written))
    (hlog : logOf segs = written.map (·.2)) : Fits codec (logOf segs) := by
  obtain ⟨-, hnext⟩ := writeAll_numbers hrun
  obtain ⟨hwritten, hbytes⟩ := writeAll_bytes hrun
  have hcount : (sequencedNumbers written).length ≤ calls.length := by
    rw [sequencedNumbers, length_map, ← hwritten, length_map]
    exact length_filter_le _ _
  have hlast := h.next
  intro r hr
  refine ⟨?_, ?_⟩
  · have hle := (h.steps.le r hr).2
    have hfit := hcalls.1
    simp only [create] at hnext
    omega
  · rw [hlog] at hr
    obtain ⟨p, hp, rfl⟩ := mem_map.mp hr
    rw [hbytes p hp]
    exact hcalls.2 p.1 (by rw [← hwritten]; exact mem_map_of_mem hp)

theorem WAL.create_writeAll (codec : Codec) (calls : List WriteCall) :
    ∃ wal written, create.writeAll codec calls = some (wal, written) ∧
      wal.LaidOut codec (create.segments codec [] calls) ∧
      logOf (create.segments codec [] calls) = written.map (·.2) := by
  obtain ⟨wal, written, hrun, h, hlog⟩ := (create_laidOut codec).writeAll calls
  exact ⟨wal, written, hrun, h, by simpa [logOf] using hlog⟩

theorem WAL.create_apart (codec : Codec) (calls : List WriteCall) :
    Apart (create.segments codec [] calls) ↔ create.NeverReopens codec calls := by
  rw [(create_laidOut codec).apart_segments]
  exact and_iff_right Pairwise.nil

end History

/-- After any history of writes: iterating from any number handed out yields exactly the records
from that number on, and sequenced numbers are consecutive, just when no unsequenced write
opened the last file a second time. -/
theorem WAL.iterAnyFrom_exact_iff (hc : codec.Lawful) {calls : List WriteCall}
    (hcalls : CallsFit codec calls) :
    ∃ wal written, WAL.create.writeAll codec calls = some (wal, written) ∧
      (((∀ s ≤ wal.previous, wal.files.iterAnyFrom codec s =
          .ok ((written.map (·.2)).filter fun r => decide (s ≤ r.sequenceNumber))) ∧
        sequencedNumbers written = range' 1 (sequencedNumbers written).length) ↔
      WAL.create.NeverReopens codec calls) := by
  obtain ⟨wal, written, hrun, h, hlog⟩ := create_writeAll codec calls
  have hiff := h.iterate_iff hc (h.fits hcalls hrun hlog)
  rw [hlog, create_apart] at hiff
  exact ⟨wal, written, hrun, (and_iff_left (writeAll_numbers hrun).1).trans hiff⟩

def Codec.stored : Codec := ⟨fun b => b, fun p => some (p, p.length)⟩

theorem Codec.stored_lawful : stored.Lawful where
  decode_encode _ := rfl
  torn _ p d n _ h := by
    obtain ⟨-, rfl⟩ : p = d ∧ p.length = n := by simpa [stored] using h
    rfl

theorem WAL.iterAnyFrom_exact_small :
    CallsFit stored [.sequenced 0 [1], .unsequenced 1 [2]] ∧
      ∃ wal written, WAL.create.writeAll stored [.sequenced 0 [1], .unsequenced 1 [2]] =
          some (wal, written) ∧
        (((∀ s ≤ wal.previous, wal.files.iterAnyFrom stored s =
            .ok ((written.map (·.2)).filter fun r => decide (s ≤ r.sequenceNumber))) ∧
          sequencedNumbers written = range' 1 (sequencedNumbers written).length) ↔
        WAL.create.NeverReopens stored [.sequenced 0 [1], .unsequenced 1 [2]]) := by
  have hfit : CallsFit stored [.sequenced 0 [1], .unsequenced 1 [2]] := by
    simp [CallsFit, stored, bytes]
  exact ⟨hfit, iterAnyFrom_exact_iff stored_lawful hfit⟩

def fullBody : ByteString.Bytes := replicate maxWalFileSize 0

theorem length_fullBody : fullBody.length = maxWalFileSize := length_replicate

theorem Codec.stored_fullBody : (stored.encode fullBody).length < 2 ^ 64 := by
  rw [stored, length_fullBody, maxWalFileSize]
  norm_num

theorem WAL.create_write_full {body : ByteString.Bytes} (hbody : maxWalFileSize ≤ body.length) :
    ∃ wal, create.write stored (.sequenced 0 body) = some wal ∧ wal.nextSequenceNumber = 2 ∧
      ∃ last, wal.files.files.getLast? = some last ∧ last.start = 1 ∧
        maxWalFileSize ≤ last.len := by
  have hroll : create.files.mustRoll = true := rfl
  refine ⟨_, by rw [write, Files.writeRecord_roll hroll]; rfl, rfl, _, rfl, rfl, ?_⟩
  rw [length_append, RawRecord.length_frame, getLast_singleton]
  have hencode : (stored.encode (create.record (.sequenced 0 body)).bytes).length =
      body.length := rfl
  simp only [hencode]
  omega

def fullThenStatus : List WriteCall := [.sequenced 0 fullBody, .unsequenced 1 []]

theorem fullThenStatus_fits : CallsFit stored fullThenStatus := by
  refine ⟨by rw [fullThenStatus, length_cons, length_singleton]; norm_num, ?_⟩
  intro call hcall
  rcases mem_cons.mp hcall with rfl | hcall
  · exact stored_fullBody
  · obtain rfl := mem_singleton.mp hcall
    rw [bytes, stored, length_nil]
    norm_num

theorem fullThenStatus_reopens : ¬ create.NeverReopens stored fullThenStatus := by
  intro h
  obtain ⟨wal, hwrite, hnext, last, hlast, hstart, hfull⟩ :=
    create_write_full length_fullBody.ge
  have hkept := h [_] _ [] rfl wal _ (writeAll_cons.mpr ⟨wal, [], hwrite, rfl, rfl⟩)
  simp [reopens, hlast, hstart, hfull, previous, hnext, isSequenced] at hkept

/-- Once the full file is listed twice, its records are read twice. -/
theorem WAL.iterAnyFrom_repeats :
    ∃ wal written, WAL.create.writeAll stored fullThenStatus = some (wal, written) ∧
      ¬ ∀ s ≤ wal.previous, wal.files.iterAnyFrom stored s =
        .ok ((written.map (·.2)).filter fun r => decide (s ≤ r.sequenceNumber)) := by
  obtain ⟨wal, written, hrun, h, hlog⟩ := create_writeAll stored fullThenStatus
  have hiff := h.iterate_iff stored_lawful (h.fits fullThenStatus_fits hrun hlog)
  rw [hlog, create_apart] at hiff
  exact ⟨wal, written, hrun, fun hall => fullThenStatus_reopens (hiff.mp hall)⟩

end TypeDB.Durability
