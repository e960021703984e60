import TypeDB.Durability.WalTrim

/-! Loading a log after a crash that kept only the beginning of the last file. The next number
is found by reading from the last file's name on; if nothing with that number can be read any
more, numbering starts again at one. -/

namespace TypeDB.Durability
open ByteString List WAL Codec FileReader OrderedMap Except WriteCall

variable {codec : Codec}

/-- A crash leaves some prefix of the last file's bytes and every other file whole. A file that
was only just created has lost all of them. -/
def Directory.Crashes (d d' : Directory) : Prop :=
  (d.entries = [] ∧ d'.entries = []) ∨ ∃ before start content kept,
    d.entries = before ++ [(start, content)] ∧ kept <+: content ∧
      d'.entries = before ++ [(start, kept)]

/-- Some sequenced write, given the number `start`, found the last file full and so opened the
file of that name. -/
def WAL.OpensSequenced (codec : Codec) (wal : WAL) (calls : List WriteCall) (start : Nat) : Prop :=
  ∃ before call after wal' written, calls = before ++ call :: after ∧
    wal.writeAll codec before = some (wal', written) ∧ call.isSequenced = true ∧
    wal'.files.mustRoll = true ∧ wal'.nextSequenceNumber = start

/-- The crash image whose next number is found: the last file is one of the first, or its name
repeats the number of an earlier record, or its first record is still there. -/
def NextIsFound (codec : Codec) (calls : List WriteCall) (d : Directory) : Prop :=
  ∀ before start content, d.entries = before ++ [(start, content)] →
    start ≤ 1 ∨ ¬ WAL.create.OpensSequenced codec calls start ∨
      FileReader.survives codec ⟨⟨start, content.length⟩, content, 0⟩ = true

def dropNamed (start : Nat) : List Segment → List Segment
  | [] => []
  | g :: rest => if g.start = start then rest else g :: rest

def merge : List Segment → List Segment
  | [] => []
  | g :: older =>
    ⟨g.start, inherited g.start (views older) ++ g.records⟩ :: dropNamed g.start (merge older)

section Merge
variable {segs : List Segment}

theorem dropNamed_sublist (start : Nat) (segs : List Segment) :
    (dropNamed start segs).Sublist segs := by
  cases segs with
  | nil => exact .refl _
  | cons g rest =>
    rw [dropNamed]
    split_ifs
    · exact sublist_cons_self g rest
    · exact .refl _

theorem start_lt_of_mem_dropNamed {start : Nat} {g : Segment} (ha : Apart segs)
    (hle : ∀ g ∈ segs, g.start ≤ start) (h : g ∈ dropNamed start segs) : g.start < start := by
  cases segs with
  | nil => cases h
  | cons o rest =>
    obtain ⟨hrest, -⟩ := pairwise_cons.mp ha
    rw [dropNamed] at h
    split_ifs at h with heq
    · exact heq ▸ hrest g h
    · have ho : o.start < start := lt_of_le_of_ne (hle o mem_cons_self) heq
      rcases mem_cons.mp h with rfl | h
      · exact ho
      · exact (hrest g h).trans ho

theorem merge_start {g : Segment} (h : g ∈ merge segs) : ∃ g' ∈ segs, g'.start = g.start := by
  induction segs generalizing g with
  | nil => simp [merge] at h
  | cons o older ih =>
    rcases mem_cons.mp h with rfl | h
    · exact ⟨o, mem_cons_self, rfl⟩
    · obtain ⟨x, hx, hxg⟩ := ih ((dropNamed_sublist _ _).subset h)
      exact ⟨x, mem_cons_of_mem _ hx, hxg⟩

theorem logOf_merge (segs : List Segment) : logOf (merge segs) = logOf segs := by
  induction segs with
  | nil => rfl
  | cons g older ih =>
    rw [logOf_cons, ← ih]
    cases older with
    | nil => simp [merge, dropNamed, views, inherited, logOf]
    | cons o os =>
      simp only [merge, dropNamed, views, inherited, logOf_cons]
      split_ifs with heq
      · simp
      · simp [logOf_cons]

theorem apart_merge (h : segs.Pairwise fun g g' => g'.start ≤ g.start) : Apart (merge segs) := by
  induction segs with
  | nil => exact .nil
  | cons g older ih =>
    obtain ⟨hg, hs⟩ := pairwise_cons.mp h
    have hle : ∀ x ∈ merge older, x.start ≤ g.start := by
      intro x hx
      obtain ⟨o, ho, hox⟩ := merge_start hx
      exact hox ▸ hg o ho
    exact pairwise_cons.mpr ⟨fun x hx => start_lt_of_mem_dropNamed (ih hs) hle hx,
      (ih hs).sublist (dropNamed_sublist _ _)⟩

theorem heads_merge
    (h : ∀ g ∈ segs, ∃ r rs, g.records = r :: rs ∧ r.sequenceNumber = g.start) :
    ∀ g ∈ merge segs, ∃ r rs, g.records = r :: rs ∧ r.sequenceNumber = g.start := by
  induction segs with
  | nil => simp [merge]
  | cons g older ih =>
    have ih := ih fun g' hg' => h g' (mem_cons_of_mem _ hg')
    refine forall_mem_cons.mpr ⟨?_, fun x hx => ih x ((dropNamed_sublist _ _).subset hx)⟩
    cases older with
    | nil => simpa [inherited, views] using h g mem_cons_self
    | cons o os =>
      obtain ⟨r, rs, hrs, hr⟩ := ih _ mem_cons_self
      simp only [views, inherited] at hrs ⊢
      split_ifs with heq
      · exact ⟨r, rs ++ g.records, by rw [hrs]; rfl, hr.trans heq⟩
      · exact h g mem_cons_self

theorem find?_dropNamed {start a : Nat} (ha : start ≠ a) :
    ((dropNamed start segs).find? fun g => decide (g.start = a)) =
      segs.find? fun g => decide (g.start = a) := by
  cases segs with
  | nil => rfl
  | cons g rest =>
    simp only [dropNamed]
    split_ifs with heq
    · rw [find?_cons_of_neg (by simpa [heq] using ha)]
    · rfl

theorem find?_merge (segs : List Segment) (a : Nat) :
    ((views segs).find? fun v => decide (v.1 = a)).map (·.2) =
      ((merge segs).find? fun g => decide (g.start = a)).map (·.records) := by
  induction segs with
  | nil => rfl
  | cons g older ih =>
    simp only [views, merge]
    by_cases ha : g.start = a
    · rw [find?_cons_of_pos (by simpa using ha), find?_cons_of_pos (by simpa using ha)]
      rfl
    · rw [find?_cons_of_neg (by simpa using ha), find?_cons_of_neg (by simpa using ha),
        find?_dropNamed ha, ih]

end Merge

section Disk
variable {wal : WAL} {segs : List Segment}

def onDisk (codec : Codec) (gs : List Segment) : List (Nat × Bytes) :=
  gs.reverse.map fun g => (g.start, frames codec g.records)

theorem sorted_onDisk (ha : Apart segs) : (onDisk codec segs).Pairwise fun x y => x.1 < y.1 := by
  rw [onDisk, pairwise_map, pairwise_reverse]
  exact ha

theorem getList_onDisk (ha : Apart segs) (a : Nat) : getList a (onDisk codec segs) =
      (segs.find? fun g => decide (g.start = a)).map fun g => frames codec g.records := by
  cases hfind : segs.find? fun g => decide (g.start = a) with
  | none =>
    refine getList_eq_none fun p hp => ?_
    obtain ⟨g, hg, rfl⟩ := mem_map.mp hp
    simpa using find?_eq_none.mp hfind g (mem_reverse.mp hg)
  | some g =>
    obtain rfl : g.start = a := by simpa using find?_some hfind
    refine getList_of_mem (sorted_onDisk ha) ?_
    exact mem_map.mpr ⟨g, mem_reverse.mpr (mem_of_find?_eq_some hfind), rfl⟩

theorem WAL.LaidOut.entries (h : wal.LaidOut codec segs) :
    wal.files.directory.entries = onDisk codec (merge segs) := by
  have ha := apart_merge h.sorted
  have hext : wal.files.directory = ⟨onDisk codec _, sorted_onDisk ha⟩ := by
    refine ext_get? fun a => ?_
    rw [h.directory, get?, getList_onDisk ha]
    have := congrArg (Option.map (frames codec)) (find?_merge segs a)
    rwa [Option.map_map, Option.map_map] at this
  rw [hext]

end Disk

/-- The files of a reloaded log: whole ones, newest first, and a last one of which `kept` can
still be read. -/
structure Reloaded (codec : Codec) (fs : Files) (older : List Segment) (start : Nat)
    (content : Bytes) (kept : List RawRecord) : Prop where
  files : fs.files = older.reverse.map (Segment.file codec) ++ [⟨start, content.length⟩]
  readable : ∀ g ∈ older, (g.file codec).Readable codec fs.directory g.records
  last : fs.directory.get? start = some content
  walks : FileReader.Walks codec ⟨⟨start, content.length⟩, content, 0⟩ kept
  length_le : kept.length ≤ content.length
  below : ∀ g ∈ older, g.start < start
  ordered : Ordered (older.reverse.map fun g => (g.file codec, g.records))
  follows : start = lastNumber 0 (logOf older) ∨ start = lastNumber 0 (logOf older) + 1
  steps : Steps 0 (logOf older ++ kept)
  keptSteps : Steps start kept
  fits : Fits codec (logOf older)

section Reload
variable {fs : Files} {older : List Segment} {start : Nat} {content : Bytes}
  {kept : List RawRecord}

def entriesOf (codec : Codec) (older : List Segment) (start : Nat) (content : Bytes)
    (kept : List RawRecord) : List (File × List RawRecord) :=
  (older.reverse.map fun g => (g.file codec, g.records)) ++ [(⟨start, content.length⟩, kept)]

theorem flatten_entriesOf (codec : Codec) (start : Nat) (content : Bytes) :
    ((entriesOf codec older start content kept).map (·.2)).flatten = logOf older ++ kept := by
  simp [entriesOf, logOf, Function.comp_def]

theorem Reloaded.cases_entries {e : File × List RawRecord}
    (he : e ∈ entriesOf codec older start content kept) :
    (∃ g ∈ older, e = (g.file codec, g.records)) ∨ e = (⟨start, content.length⟩, kept) := by
  rcases mem_append.mp he with he | he
  · obtain ⟨g, hg, rfl⟩ := mem_map.mp he
    exact .inl ⟨g, mem_reverse.mp hg, rfl⟩
  · exact .inr (mem_singleton.mp he)

/-- The number `WAL::load` continues with. -/
def nextAfter (records : List RawRecord) : Nat :=
  ((records.getLast?).map (·.sequenceNumber + 1)).getD 1

theorem lastNumber_of_getLast? {n : Nat} {rs : List RawRecord} {r : RawRecord}
    (h : rs.getLast? = some r) : lastNumber n rs = r.sequenceNumber := by
  obtain ⟨init, rfl⟩ := getLast?_eq_some_iff.mp h
  exact lastNumber_append n init r

theorem nextAfter_filter {rs : List RawRecord} (hsteps : Steps 0 rs) {s : Nat}
    (hne : rs.filter (fun r => decide (s ≤ r.sequenceNumber)) ≠ []) :
    nextAfter (rs.filter fun r => decide (s ≤ r.sequenceNumber)) = lastNumber 0 rs + 1 := by
  rw [hsteps.filter_eq_dropWhile] at hne ⊢
  obtain ⟨low, hlow⟩ := dropWhile_suffix (l := rs) fun r => decide (r.sequenceNumber < s)
  have hlast : rs.getLast? = (rs.dropWhile fun r => decide (r.sequenceNumber < s)).getLast? := by
    nth_rewrite 1 [← hlow]
    exact getLast?_append_of_ne_nil _ hne
  have hr := getLast?_eq_some_getLast hne
  rw [nextAfter, hr, lastNumber_of_getLast? (hlast.trans hr)]
  rfl

def WAL.NextAboveAll (codec : Codec) (wal : WAL) : Prop :=
  ∀ s it, RecordIterator.new wal.files s = .ok it → ∀ fuel, ∃ rs,
    it.collect codec fuel = .ok rs ∧
      ∀ r ∈ rs, ∀ t b, r.sequenceNumber < (wal.record (.sequenced t b)).sequenceNumber

theorem lastNumber_eq (n : Nat) (rs : List RawRecord) :
    lastNumber n rs = n ∧ rs = [] ∨ ∃ r ∈ rs, lastNumber n rs = r.sequenceNumber := by
  rcases eq_nil_or_concat rs with rfl | ⟨init, r, rfl⟩
  · exact .inl ⟨rfl, rfl⟩
  · exact .inr ⟨r, by simp, by rw [concat_eq_append, lastNumber_append]⟩

section Whole
variable (h : Reloaded codec fs older start content kept)
include h

theorem Reloaded.ordered_entries :
    Ordered (entriesOf codec older start content kept) := by
  refine h.ordered.concat ?_ ?_ h.keptSteps
  · intro e he
    obtain ⟨g, hg, rfl⟩ := mem_map.mp he
    exact (h.below g (mem_reverse.mp hg)).le
  · intro r hr
    rw [map_map, ← Function.comp_def, map_reverse] at hr
    have hle := ((steps_append.mp h.steps).1.le r hr).2
    have hfollows := h.follows
    show r.sequenceNumber ≤ start
    omega

theorem Reloaded.files_entries :
    fs.files = (entriesOf codec older start content kept).map (·.1) := by
  rw [h.files, entriesOf, map_append, map_map]
  rfl

theorem Reloaded.fits_of_mem {g : Segment} (hg : g ∈ older) : Fits codec g.records := fun r hr =>
  h.fits r (mem_flatten_of_mem (mem_reverse.mpr (mem_map_of_mem hg)) hr)

theorem Reloaded.iterations_le :
    (logOf older ++ kept).length ≤ fs.iterations := by
  have hle := length_flatten_le codec (older.reverse.map (·.records))
  have hkept := h.length_le
  rw [map_map] at hle
  rw [Files.iterations, h.files, logOf, ← map_reverse]
  simp only [map_append, sum_append, map_singleton, sum_singleton, length_append, map_map]
  exact Nat.le_succ_of_le (Nat.add_le_add hle hkept)

variable (hc : codec.Lawful)
include hc

theorem Reloaded.yields :
    ∀ e ∈ entriesOf codec older start content kept, e.1.Yields codec fs.directory e.2 := by
  intro e he
  rcases Reloaded.cases_entries he with ⟨g, hg, rfl⟩ | rfl
  · exact (h.readable g hg).yields hc (h.fits_of_mem hg)
  · exact ⟨content, h.last, h.walks.yields⟩

theorem Reloaded.iterate_le {s : Nat} (hs : s ≤ start) : fs.iterAnyFrom codec s =
      .ok ((logOf older ++ kept).filter fun r => decide (s ≤ r.sequenceNumber)) := by
  rw [h.ordered_entries.iterate s h.files_entries (h.yields hc), flatten_entriesOf]
  · intro e he
    have hsteps := h.ordered_entries.steps e he
    rcases Reloaded.cases_entries he with ⟨g, hg, rfl⟩ | rfl
    · exact (h.readable g hg).skipsTo hc (h.fits_of_mem hg) hsteps s
    · refine ⟨content, _, h.last, by rw [skipTo, if_neg (not_lt.mpr hs)], ?_⟩
      rw [h.keptSteps.dropWhile_eq_self hs]
      exact h.walks.yields
  · rw [flatten_entriesOf]
    exact h.iterations_le

theorem Reloaded.iterate_mem {s : Nat} {it : RecordIterator} (hit : RecordIterator.new fs s = .ok it)
    (fuel : Nat) :
    ∃ rs, it.collect codec fuel = .ok rs ∧ rs ⊆ logOf older ++ kept := by
  rw [← flatten_entriesOf codec start content]
  refine h.ordered_entries.new_collect h.files_entries (h.yields hc) ?_ hit fuel
  intro e he content' rd hget hskip
  have hsteps := h.ordered_entries.steps e he
  rcases Reloaded.cases_entries he with ⟨g, hg, rfl⟩ | rfl
  · obtain ⟨c, rd', hget', hskip', hyields⟩ :=
      (h.readable g hg).skipsTo hc (h.fits_of_mem hg) hsteps s
    obtain rfl := Option.some.inj (hget.symm.trans hget')
    obtain rfl := ok.inj (hskip.symm.trans hskip')
    exact hyields
  · obtain rfl := Option.some.inj (hget.symm.trans h.last)
    by_cases hlt : start < s
    · refine (h.walks.skipTo hsteps hlt ?_ hskip).yields
      have := h.length_le
      omega
    · rw [skipTo, if_neg hlt] at hskip
      obtain rfl := ok.inj hskip
      rw [h.keptSteps.dropWhile_eq_self (not_lt.mp hlt)]
      exact h.walks.yields

theorem Reloaded.nextAboveAll_iff_forall (n : Nat) :
    NextAboveAll codec ⟨n, fs⟩ ↔ ∀ r ∈ logOf older ++ kept, r.sequenceNumber < n := by
  constructor
  · -- an iterator from zero returns all of them
    intro hall r hr
    have hzero := h.iterate_le hc (Nat.zero_le start)
    rw [Files.iterAnyFrom] at hzero
    cases hit : RecordIterator.new fs 0 with
    | error e => simp [hit, bind, Except.bind] at hzero
    | ok it =>
      simp only [hit, bind, bind] at hzero
      obtain ⟨rs, hrs, hlt⟩ := hall 0 it hit fs.iterations
      obtain rfl := ok.inj (hzero.symm.trans hrs)
      exact hlt r (by simpa using hr) 0 []
  · intro hall s it hit fuel
    obtain ⟨rs, hrs, hsub⟩ := h.iterate_mem hc hit fuel
    exact ⟨rs, hrs, fun r hr _ _ => hall r (hsub hr)⟩

/-- The next number is above every record just when something numbered like the last file is
still there, or nothing numbered was there before it. -/
theorem Reloaded.nextAboveAll_iff :
    NextAboveAll codec ⟨nextAfter ((logOf older ++ kept).filter
      fun r => decide (start ≤ r.sequenceNumber)), fs⟩ ↔
      start ≤ 1 ∨ start ≤ lastNumber 0 (logOf older) ∨ kept ≠ [] := by
  rw [h.nextAboveAll_iff_forall hc]
  by_cases hne : (logOf older ++ kept).filter (fun r => decide (start ≤ r.sequenceNumber)) = []
  · -- nothing from the last file's name on can be read, and the next number is one
    have hbelow : ∀ r ∈ logOf older ++ kept, r.sequenceNumber < start := by
      intro r hr
      simpa using filter_eq_nil_iff.mp hne r hr
    have hkept : kept = [] := by
      refine eq_nil_iff_forall_not_mem.mpr fun r hr => ?_
      have hlow := (h.keptSteps.le r hr).1
      have hhigh := hbelow r (mem_append_right _ hr)
      omega
    have hone : nextAfter [] = 1 := rfl
    have hfollows := h.follows
    rw [hne, hone]
    rcases lastNumber_eq 0 (logOf older) with ⟨hlast, hnil⟩ | ⟨r, hr, hlast⟩
    · exact iff_of_true (by simp [hnil, hkept]) (.inl (by omega))
    · have hr := mem_append_left kept hr
      have hstart := hbelow r hr
      constructor
      · intro hall
        have := hall r hr
        omega
      · rintro (hle | hle | hsome)
        · exact fun r' hr' => (hbelow r' hr').trans_le hle
        · omega
        · exact absurd hkept hsome
  · rw [nextAfter_filter h.steps hne]
    refine iff_of_true (fun r hr => Nat.lt_succ_of_le (h.steps.le r hr).2) ?_
    obtain ⟨r, hr⟩ := exists_mem_of_ne_nil _ hne
    obtain ⟨hr, hle⟩ := mem_filter.mp hr
    simp only [decide_eq_true_eq] at hle
    rcases mem_append.mp hr with hr | hr
    · exact .inr (.inl (hle.trans ((steps_append.mp h.steps).1.le r hr).2))
    · exact .inr (.inr (ne_nil_of_mem hr))

end Whole

theorem Reloaded.load_eq (hc : codec.Lawful) {d : Directory}
    (h : Reloaded codec (Files.open codec d) older start content kept) :
    load codec d = some ⟨nextAfter ((logOf older ++ kept).filter
      fun r => decide (start ≤ r.sequenceNumber)), Files.open codec d⟩ := by
  have hmax : ((Files.open codec d).files.map (·.start)).max?.getD 0 = start := by
    have : ((Files.open codec d).files.map (·.start)).max? = some start := by
      rw [max?_eq_some_iff, h.files]
      refine ⟨by simp, fun n hn => ?_⟩
      obtain ⟨f, hf, rfl⟩ := mem_map.mp hn
      rcases mem_append.mp hf with hf | hf
      · obtain ⟨g, hg, rfl⟩ := mem_map.mp hf
        exact (h.below g (mem_reverse.mp hg)).le
      · rw [mem_singleton.mp hf]
    rw [this]
    rfl
  simp only [load, hmax, h.iterate_le hc le_rfl]
  rfl

end Reload

theorem Files.open_spec {d : Directory} {before : List (Nat × Bytes)} {start : Nat}
    {content : Bytes} (hd : d.entries = before ++ [(start, content)])
    {cut : Option Nat} (hcut : trimTo codec (content.length + 1)
      ⟨⟨start, content.length⟩, content, 0⟩ 0 = cut)
    (hwithin : ∀ len ∈ cut, len ≤ content.length) {kept : Bytes}
    (hkept : cutAt ⟨⟨start, content.length⟩, content, 0⟩ cut = kept) :
    (Files.open codec d).files =
        before.map (fun e => (⟨e.1, e.2.length⟩ : File)) ++ [⟨start, kept.length⟩] ∧
      (Files.open codec d).directory.get? start = some kept ∧
      ∀ a ≠ start, (Files.open codec d).directory.get? a = d.get? a := by
  have hlast : d.entries.getLast? = some (start, content) := by rw [hd]; simp
  have hget : d.get? start = some content := mem_entries.mp (by rw [hd]; simp)
  have hfiles : d.entries.map (fun e => (⟨e.1, e.2.length⟩ : File)) =
      before.map (fun e => (⟨e.1, e.2.length⟩ : File)) ++ [⟨start, content.length⟩] := by
    rw [hd]
    simp
  cases cut with
  | none =>
    have hopen : Files.open codec d = ⟨d, some start, d.entries.map fun e => ⟨e.1, e.2.length⟩⟩ := by
      simp only [Files.open, hlast, hcut]
    rw [hopen, ← hkept]
    exact ⟨hfiles, hget, fun _ _ => rfl⟩
  | some len =>
    have hlen := hwithin len rfl
    have hopen : Files.open codec d = ⟨d.insert start (content.take len), some start,
        setLastLen len (d.entries.map fun e => ⟨e.1, e.2.length⟩)⟩ := by
      simp only [Files.open, hlast, hcut]
    rw [hopen, ← hkept]
    refine ⟨?_, by simp [cutAt], fun a ha => by simp [ha]⟩
    simp only [hfiles, setLastLen_append, cutAt, length_take, Nat.min_eq_left hlen]

theorem Steps.of_numbers {n : Nat} {rs kept : List RawRecord} (h : Steps n rs)
    (hnum : kept.map (·.sequenceNumber) <+: rs.map (·.sequenceNumber)) : Steps n kept := by
  induction kept generalizing n rs with
  | nil => trivial
  | cons k kept ih =>
    cases rs with
    | nil => simp at hnum
    | cons r rs =>
      obtain ⟨hk, hnum⟩ := cons_prefix_cons.mp hnum
      have hk : k.sequenceNumber = r.sequenceNumber := hk
      rw [Steps, hk]
      exact ⟨h.1, ih h.2 hnum⟩

section Crash
variable {wal : WAL} {segs : List Segment} {start : Nat} {d : Directory}

theorem WAL.LaidOut.reloaded (hc : codec.Lawful) (h : wal.LaidOut codec segs)
    (hfit : Fits codec (logOf segs)) {g : Segment} {older : List Segment}
    (hmerge : merge segs = g :: older) {content : Bytes}
    (hpre : content <+: frames codec g.records)
    (hd : d.entries = onDisk codec older ++ [(g.start, content)]) :
    ∃ bytes kept, Reloaded codec (Files.open codec d) older g.start bytes kept ∧
      (kept = [] ↔ survives codec ⟨⟨g.start, content.length⟩, content, 0⟩ = false) := by
  have hlog : logOf segs = logOf older ++ g.records := by
    rw [← logOf_merge, hmerge, logOf_cons]
  have hapart := apart_merge h.sorted
  have hheads := heads_merge h.heads
  rw [hmerge] at hapart hheads
  obtain ⟨hbelow, holder⟩ := pairwise_cons.mp hapart
  have hfitLog := hfit
  rw [hlog] at hfitLog
  have hsteps := h.steps
  rw [hlog] at hsteps
  obtain ⟨kept, hkept⟩ := trimmed_spec hc ⟨⟨g.start, content.length⟩, content, 0⟩
    (content.length + 1) (fun r hr => hfitLog r (mem_append_right _ hr)) rfl (Nat.zero_le _)
    (by simpa [rest] using hpre) (by simp [rest])
  obtain ⟨hfiles, hlast, hothers⟩ := Files.open_spec hd rfl hkept.within rfl
  obtain ⟨r₀, rs₀, hrs₀, hr₀⟩ := hheads g mem_cons_self
  have hold := ordered_segments codec (holder.imp fun h => h.le)
    (fun g' hg' => hheads g' (mem_cons_of_mem _ hg')) (steps_append.mp hsteps).1
  have hread : ∀ g' ∈ older, d.get? g'.start = some (frames codec g'.records) := by
    intro g' hg'
    refine mem_entries.mp ?_
    rw [hd]
    exact mem_append_left _ (mem_map.mpr ⟨g', mem_reverse.mpr hg', rfl⟩)
  refine ⟨_, kept, ⟨?_, ?_, hlast, hkept.walks, ?_, hbelow, hold, ?_, ?_, ?_,
    fun r hr => hfitLog r (mem_append_left _ hr)⟩, hkept.survives⟩
  · rw [hfiles, onDisk, map_map]
    rfl
  · intro g' hg'
    refine ⟨frames codec g'.records, ?_, prefix_refl _, by simp [Segment.file]⟩
    exact (hothers g'.start (hbelow g' hg').ne).trans (hread g' hg')
  · simpa using hkept.length_le
  · have := (steps_append.mp hsteps).2
    rw [hrs₀] at this
    exact hr₀ ▸ this.1
  · refine hsteps.of_numbers ?_
    rw [map_append, map_append, prefix_append_right_inj]
    exact hkept.numbers
  · refine Steps.of_numbers (show Steps _ g.records from ?_) hkept.numbers
    have := (steps_append.mp hsteps).2
    rw [hrs₀] at this ⊢
    exact hr₀ ▸ this.self

/-- Some segment of the name was started when no record had the number yet. -/
def Fresh (segs : List Segment) (start : Nat) : Prop :=
  ∃ newer g older, segs = newer ++ g :: older ∧ g.start = start ∧ lastNumber 0 (logOf older) < start

theorem not_fresh_nil (start : Nat) : ¬ Fresh [] start := by
  rintro ⟨newer, g, older, h, -⟩
  simp at h

theorem fresh_cons {g : Segment} {older : List Segment} : Fresh (g :: older) start ↔
      (g.start = start ∧ lastNumber 0 (logOf older) < start) ∨ Fresh older start := by
  constructor
  · rintro ⟨newer, g', older', h, hstart, hlt⟩
    cases newer with
    | nil =>
      obtain ⟨rfl, rfl⟩ := List.cons.inj h
      exact .inl ⟨hstart, hlt⟩
    | cons n newer =>
      obtain ⟨-, h⟩ := List.cons.inj h
      exact .inr ⟨newer, g', older', h, hstart, hlt⟩
  · rintro (⟨hstart, hlt⟩ | ⟨newer, g', older', rfl, hstart, hlt⟩)
    · exact ⟨[], g, older, rfl, hstart, hlt⟩
    · exact ⟨g :: newer, g', older', rfl, hstart, hlt⟩

theorem WAL.LaidOut.fresh_grow (h : wal.LaidOut codec segs) (call : WriteCall) :
    Fresh (grow wal.files.mustRoll (wal.record call) segs) start ↔ Fresh segs start ∨
      (call.isSequenced = true ∧ wal.files.mustRoll = true ∧ wal.nextSequenceNumber = start) := by
  have hnext := h.next
  have hnew : (wal.record call).sequenceNumber = start ∧ lastNumber 0 (logOf segs) < start ↔
      call.isSequenced = true ∧ wal.nextSequenceNumber = start := by
    cases call with
    | sequenced t b =>
      simp only [record, isSequenced, true_and]
      omega
    | unsequenced t b =>
      simp only [record, previous, isSequenced, Bool.false_eq_true, false_and, iff_false]
      omega
  cases segs with
  | nil =>
    simp only [grow, fresh_cons, not_fresh_nil, or_false, h.mustRoll_nil, true_and, false_or]
    exact hnew
  | cons g older =>
    cases hroll : wal.files.mustRoll with
    | true =>
      simp only [grow, if_true, fresh_cons (g := Segment.mk _ _), true_and]
      rw [hnew, or_comm]
    | false =>
      simp [grow, fresh_cons]

theorem WAL.opensSequenced_cons {wal' : WAL} {call : WriteCall} {calls : List WriteCall}
    (hwrite : wal.write codec call = some wal') :
    wal.OpensSequenced codec (call :: calls) start ↔
      (call.isSequenced = true ∧ wal.files.mustRoll = true ∧ wal.nextSequenceNumber = start) ∨
        wal'.OpensSequenced codec calls start := by
  constructor
  · rintro ⟨before, c, after, w, written, hcalls, hrun, hseq, hroll, hnext⟩
    cases before with
    | nil =>
      obtain ⟨rfl, -⟩ := List.cons.inj hcalls
      obtain ⟨rfl, -⟩ : wal = w ∧ [] = written := by simpa [writeAll] using hrun
      exact .inl ⟨hseq, hroll, hnext⟩
    | cons c' before =>
      obtain ⟨rfl, htail⟩ := List.cons.inj hcalls
      obtain ⟨wal₁, rest, hwrite₁, hrest, -⟩ := writeAll_cons.mp hrun
      obtain rfl : wal' = wal₁ := Option.some.inj (hwrite.symm.trans hwrite₁)
      exact .inr ⟨before, c, after, w, rest, htail, hrest, hseq, hroll, hnext⟩
  · rintro (⟨hseq, hroll, hnext⟩ | ⟨before, c, after, w, written, rfl, hrun, hseq, hroll, hnext⟩)
    · exact ⟨[], call, calls, wal, [], rfl, rfl, hseq, hroll, hnext⟩
    · exact ⟨call :: before, c, after, w, _, rfl,
        writeAll_cons.mpr ⟨wal', written, hwrite, hrun, rfl⟩, hseq, hroll, hnext⟩

theorem WAL.LaidOut.fresh_segments (h : wal.LaidOut codec segs) (calls : List WriteCall) :
    Fresh (wal.segments codec segs calls) start ↔
      Fresh segs start ∨ wal.OpensSequenced codec calls start := by
  induction calls generalizing wal segs with
  | nil =>
    have hnone : ¬ wal.OpensSequenced codec [] start := by
      rintro ⟨before, c, after, -, -, hcalls, -⟩
      simp at hcalls
    simp [segments, hnone]
  | cons call calls ih =>
    obtain ⟨wal₁, hwrite, h₁⟩ := h.write call
    rw [segments]
    simp only [hwrite]
    rw [ih h₁, h.fresh_grow call, opensSequenced_cons hwrite, or_assoc]

theorem fresh_merge (hs : segs.Pairwise fun g g' => g'.start ≤ g.start)
    (hheads : ∀ g ∈ segs, ∃ r rs, g.records = r :: rs ∧ r.sequenceNumber = g.start)
    (hsteps : Steps 0 (logOf segs)) {g : Segment} {older : List Segment}
    (hmerge : merge segs = g :: older) :
    Fresh segs g.start ↔ lastNumber 0 (logOf older) < g.start := by
  induction segs generalizing g older with
  | nil => simp [merge] at hmerge
  | cons s rest ih =>
    obtain ⟨hrest, hs⟩ := pairwise_cons.mp hs
    rw [logOf_cons] at hsteps
    have ih := @ih hs (fun g' hg' => hheads g' (mem_cons_of_mem _ hg'))
      (steps_append.mp hsteps).1
    obtain ⟨rfl, rfl⟩ := List.cons.inj hmerge
    rw [fresh_cons]
    cases rest with
    | nil => simp [merge, dropNamed, not_fresh_nil]
    | cons o os =>
      have ih := ih rfl
      have hlog := logOf_merge (o :: os)
      simp only [merge, dropNamed] at ih hlog ⊢
      split_ifs with heq
      · -- the same file: it holds its number already
        obtain ⟨r, rs, hrs, hr⟩ := hheads o (mem_cons_of_mem _ mem_cons_self)
        have hle := ((steps_append.mp hsteps).1.le r (by rw [logOf_cons, hrs]; simp)).2
        rw [heq] at ih hr ⊢
        rw [ih]
        exact or_iff_right fun h => by omega
      · have hlt : o.start < s.start :=
          lt_of_le_of_ne (hrest o mem_cons_self) heq
        have hnone : ¬ Fresh (o :: os) s.start := by
          rintro ⟨newer, g', older', hsplit, hstart, -⟩
          have hmem : g' ∈ o :: os := by rw [hsplit]; simp
          rcases mem_cons.mp hmem with rfl | hmem
          · omega
          · have := (pairwise_cons.mp hs).1 g' hmem
            omega
        rw [hlog]
        simp [hnone]

theorem WAL.load_nil (codec : Codec) (hd : d.entries = []) :
    ∃ wal, load codec d = some wal ∧ wal.NextAboveAll codec := by
  have hfiles : (Files.open codec d).files = [] := by simp [Files.open, hd]
  refine ⟨⟨1, Files.open codec d⟩, ?_, fun s it hit fuel => ⟨[], ?_, by simp⟩⟩
  · simp only [load, Files.iterAnyFrom_nil hfiles]
    rfl
  · simp only [RecordIterator.new, hfiles, drop_nil, ok.injEq] at hit
    rw [← hit]
    cases fuel <;> rfl

/-- Loading after a crash succeeds, and the next number is above every record that is left just
when it could be found. -/
theorem WAL.LaidOut.load_crashed (hc : codec.Lawful) (h : wal.LaidOut codec segs)
    (hfit : Fits codec (logOf segs)) {calls : List WriteCall}
    (hfresh : ∀ start, Fresh segs start ↔ create.OpensSequenced codec calls start)
    (hcrash : wal.files.directory.Crashes d) :
    ∃ wal', load codec d = some wal' ∧ (wal'.NextAboveAll codec ↔ NextIsFound codec calls d) := by
  have hentries := h.entries
  cases hmerge : merge segs with
  | nil =>
    rw [hmerge] at hentries
    have hd : d.entries = [] := by
      rcases hcrash with ⟨-, hd⟩ | ⟨before, start, content, kept, hold, -⟩
      · exact hd
      · simp [hentries, onDisk] at hold
    obtain ⟨wal', hload, hall⟩ := load_nil codec hd
    refine ⟨wal', hload, iff_of_true hall fun before start content hlast => ?_⟩
    simp [hd] at hlast
  | cons g older =>
    rw [hmerge, onDisk, reverse_cons, map_append, map_singleton] at hentries
    obtain ⟨content, hpre, hd⟩ : ∃ content, content <+: frames codec g.records ∧
        d.entries = onDisk codec older ++ [(g.start, content)] := by
      rcases hcrash with ⟨hnil, -⟩ | ⟨before, start, content, kept, hold, hkept, hd⟩
      · simp [hentries] at hnil
      · rw [hentries] at hold
        obtain ⟨rfl, hlast⟩ := append_inj' hold rfl
        obtain ⟨rfl, rfl⟩ : g.start = start ∧ frames codec g.records = content := by
          simpa using hlast
        exact ⟨kept, hkept, hd⟩
    obtain ⟨bytes, kept, hre, hsurvives⟩ := h.reloaded hc hfit hmerge hpre hd
    refine ⟨_, hre.load_eq hc, ?_⟩
    rw [hre.nextAboveAll_iff hc]
    have hopens := fresh_merge h.sorted h.heads h.steps hmerge
    rw [hfresh] at hopens
    have hfound : NextIsFound codec calls d ↔ g.start ≤ 1 ∨
        ¬ create.OpensSequenced codec calls g.start ∨
        survives codec ⟨⟨g.start, content.length⟩, content, 0⟩ = true := by
      refine ⟨fun hall => hall _ _ _ hd, fun hone before start content' hlast => ?_⟩
      rw [hd] at hlast
      obtain ⟨-, hlast⟩ := append_inj' hlast rfl
      obtain ⟨rfl, rfl⟩ : g.start = start ∧ content = content' := by simpa using hlast
      exact hone
    rw [hfound, hopens, not_lt, ← Bool.not_eq_false, ← hsurvives]

end Crash

/-- After any history of writes and any crash that keeps a prefix of the last file, the log can
be loaded, and the next number is above every record an iterator returns just when the last file
is one of the first, or was not opened by a sequenced write, or still has its first record. -/
theorem WAL.load_next_above_iff (hc : codec.Lawful) {calls : List WriteCall}
    (hcalls : CallsFit codec calls) :
    ∃ wal written, WAL.create.writeAll codec calls = some (wal, written) ∧
      ∀ d, wal.files.directory.Crashes d → ∃ wal', WAL.load codec d = some wal' ∧
        (wal'.NextAboveAll codec ↔ NextIsFound codec calls d) := by
  obtain ⟨wal, written, hrun, h, hlog⟩ := create_writeAll codec calls
  refine ⟨wal, written, hrun, fun d hcrash => ?_⟩
  refine h.load_crashed hc (h.fits hcalls hrun hlog) (fun start => ?_) hcrash
  rw [(create_laidOut codec).fresh_segments calls]
  exact or_iff_right (not_fresh_nil start)

theorem WAL.load_next_above_small :
    CallsFit stored [.sequenced 0 [1], .unsequenced 1 [2]] ∧
      ∃ wal written, WAL.create.writeAll stored [.sequenced 0 [1], .unsequenced 1 [2]] =
          some (wal, written) ∧
        ∀ d, wal.files.directory.Crashes d → ∃ wal', WAL.load stored d = some wal' ∧
          (wal'.NextAboveAll stored ↔
            NextIsFound stored [.sequenced 0 [1], .unsequenced 1 [2]] d) := by
  have hfit : CallsFit stored [.sequenced 0 [1], .unsequenced 1 [2]] := by
    simp [CallsFit, stored, bytes]
  exact ⟨hfit, load_next_above_iff stored_lawful hfit⟩

def fullThenNext : List WriteCall := [.sequenced 0 fullBody, .sequenced 0 [1]]

theorem fullThenNext_fits : CallsFit stored fullThenNext := by
  refine ⟨by rw [fullThenNext, length_cons, length_singleton]; norm_num, ?_⟩
  intro call hcall
  rcases mem_cons.mp hcall with rfl | hcall
  · exact stored_fullBody
  · obtain rfl := mem_singleton.mp hcall
    rw [bytes, stored, length_singleton]
    norm_num

theorem fullThenNext_opens : create.OpensSequenced stored fullThenNext 2 := by
  obtain ⟨wal, hwrite, hnext, last, hlast, -, hfull⟩ :=
    create_write_full length_fullBody.ge
  refine ⟨[.sequenced 0 fullBody], .sequenced 0 [1], [], wal, _, rfl,
    writeAll_cons.mpr ⟨wal, [], hwrite, rfl, rfl⟩, rfl, ?_, hnext⟩
  simpa [Files.mustRoll, hlast] using hfull

theorem fullThenNext_merge : ∃ r₁ r₂, merge (create.segments stored [] fullThenNext) =
    [⟨2, [r₂]⟩, ⟨1, [r₁]⟩] := by
  obtain ⟨wal, hwrite, hnext, last, hlast, -, hfull⟩ :=
    create_write_full length_fullBody.ge
  have hroll : wal.files.mustRoll = true := by simpa [Files.mustRoll, hlast] using hfull
  obtain ⟨wal₁, hwrite₁, h₁⟩ := (create_laidOut stored).write (.sequenced 0 fullBody)
  obtain rfl : wal = wal₁ := Option.some.inj (hwrite.symm.trans hwrite₁)
  obtain ⟨wal₂, hwrite₂, -⟩ := h₁.write (.sequenced 0 [1])
  have hsegs : create.segments stored [] fullThenNext =
      [⟨wal.nextSequenceNumber, [wal.record (.sequenced 0 [1])]⟩,
        ⟨1, [create.record (.sequenced 0 fullBody)]⟩] := by
    simp only [fullThenNext, segments, hwrite, hwrite₂, hroll]
    rfl
  rw [hsegs, hnext]
  exact ⟨_, _, by simp [merge, dropNamed, views, inherited]; exact ⟨rfl, rfl⟩⟩

/-- If the second file is empty after the crash, the number of the first record is used again. -/
theorem WAL.load_reuses_number :
    ∃ wal written d wal', WAL.create.writeAll stored fullThenNext = some (wal, written) ∧
      wal.files.directory.Crashes d ∧ WAL.load stored d = some wal' ∧
      ¬ wal'.NextAboveAll stored := by
  obtain ⟨wal, written, hrun, h, hlog⟩ := create_writeAll stored fullThenNext
  obtain ⟨r₁, r₂, hmerge⟩ := fullThenNext_merge
  have hentries := h.entries
  rw [hmerge] at hentries
  let d : Directory := ⟨[(1, frames stored [r₁]), (2, [])], by simp⟩
  have hcrash : wal.files.directory.Crashes d :=
    .inr ⟨[(1, frames stored [r₁])], 2, frames stored [r₂], [], hentries, nil_prefix, rfl⟩
  have hfresh : ∀ start, Fresh (create.segments stored [] fullThenNext) start ↔
      create.OpensSequenced stored fullThenNext start := fun start => by
    rw [(create_laidOut stored).fresh_segments fullThenNext]
    exact or_iff_right (not_fresh_nil start)
  obtain ⟨wal', hload, hiff⟩ := h.load_crashed stored_lawful
    (h.fits fullThenNext_fits hrun hlog) hfresh hcrash
  refine ⟨wal, written, d, wal', hrun, hcrash, hload, fun hall => ?_⟩
  rcases hiff.mp hall [(1, frames stored [r₁])] 2 [] rfl with hle | hopens | hsurvives
  · omega
  · exact hopens fullThenNext_opens
  · exact absurd hsurvives (by decide)

end TypeDB.Durability
