import TypeDB.Durability.Wal

/-! Reading back what was framed: a reader that stands before a sequence of whole frames yields
exactly their records, whatever follows the length it was opened with. -/

namespace TypeDB.Durability
open ByteString List FileReader RawRecord RecordHeader

variable {codec : Codec} {rs : List RawRecord} {rd : FileReader} {directory : Directory}
  {r : RawRecord}

def frames (codec : Codec) (rs : List RawRecord) : Bytes := rs.flatMap (RawRecord.frame codec)

@[simp] theorem frames_nil : frames codec [] = [] := rfl

@[simp] theorem frames_cons (r : RawRecord) (rs : List RawRecord) :
    frames codec (r :: rs) = r.frame codec ++ frames codec rs := rfl

@[simp] theorem frames_append (rs rs' : List RawRecord) :
    frames codec (rs ++ rs') = frames codec rs ++ frames codec rs' := flatMap_append ..

@[simp] theorem RecordHeader.length_write (h : RecordHeader) : h.write.length = headerLen := by
  simp [write, headerLen]

theorem RawRecord.length_frame (codec : Codec) (r : RawRecord) :
    (r.frame codec).length = headerLen + (codec.encode r.bytes).length := by
  simp [frame]

theorem length_le_frames (codec : Codec) (rs : List RawRecord) :
    rs.length ≤ (frames codec rs).length := by
  induction rs with
  | nil => simp
  | cons r rs ih =>
    simp only [frames_cons, length_append, length_cons, length_frame, headerLen]
    omega

def RawRecord.Fits (codec : Codec) (r : RawRecord) : Prop :=
  r.sequenceNumber < 2 ^ 64 ∧ (codec.encode r.bytes).length < 2 ^ 64

def Fits (codec : Codec) (rs : List RawRecord) : Prop := ∀ r ∈ rs, r.Fits codec

theorem Fits.cons (h : Fits codec (r :: rs)) : r.Fits codec ∧ Fits codec rs :=
  ⟨h r mem_cons_self, fun r' hr' => h r' (mem_cons_of_mem _ hr')⟩

/-- From its position up to the file's length the reader has the frames of `rs` before it. The
content may go on: another entry for the same path may have appended to the file. -/
def FileReader.Holds (codec : Codec) (rd : FileReader) (rs : List RawRecord) : Prop :=
  frames codec rs <+: rd.rest ∧ rd.position + (frames codec rs).length = rd.file.len

theorem FileReader.Holds.atEnd (h : rd.Holds codec []) : rd.atEnd = true := by
  have := h.2
  simp only [frames_nil, length_nil, Nat.add_zero] at this
  simp [FileReader.atEnd, this]

theorem FileReader.Holds.not_atEnd (h : rd.Holds codec (r :: rs)) : rd.atEnd = false := by
  have := h.2
  simp only [frames_cons, length_append, length_frame, headerLen] at this
  simp only [FileReader.atEnd, decide_eq_false_iff_not]
  omega

def FileReader.past (codec : Codec) (rd : FileReader) (r : RawRecord) : FileReader :=
  { rd with position := rd.position + (r.frame codec).length }

theorem FileReader.Holds.past (h : rd.Holds codec (r :: rs)) :
    (rd.past codec r).Holds codec rs := by
  obtain ⟨⟨post, hpost⟩, hlen⟩ := h
  refine ⟨⟨post, ?_⟩, ?_⟩
  · simp only [FileReader.rest, FileReader.past] at hpost ⊢
    rw [← drop_drop, ← hpost, frames_cons, append_assoc, drop_left]
  · simp only [frames_cons, length_append] at hlen
    simp only [FileReader.past]
    omega

section Header
variable {rd : FileReader} {r : RawRecord} {rs : List RawRecord}

theorem FileReader.readHeader_eq {h : RecordHeader} {post : Bytes} (hrest : rd.rest = h.write ++ post)
    (hseq : h.sequenceNumber < 2 ^ 64) (hlen : h.len < 2 ^ 64) : rd.readHeader = .ok h := by
  have hsplit : rd.rest =
      encodeBE 8 h.sequenceNumber ++ (encodeBE 8 h.len ++ ([h.recordType] ++ post)) := by
    rw [hrest, write]
    simp
  have htype : rd.rest[16]? = some h.recordType := by rw [hsplit]; simp [getElem?_append]
  have htake : rd.rest.take 8 = encodeBE 8 h.sequenceNumber := by
    rw [hsplit]
    exact take_left' (length_encodeBE 8 _)
  have hdrop : (rd.rest.drop 8).take 8 = encodeBE 8 h.len := by
    rw [hsplit, drop_left' (length_encodeBE 8 _)]
    exact take_left' (length_encodeBE 8 _)
  simp only [readHeader, htype, htake, hdrop]
  rw [decodeBE_encodeBE (by norm_num; exact hseq), decodeBE_encodeBE (by norm_num; exact hlen)]

theorem FileReader.peekSequenceNumber_eq {h : RecordHeader} {post : Bytes}
    (hend : rd.atEnd = false) (hrest : rd.rest = h.write ++ post)
    (hseq : h.sequenceNumber < 2 ^ 64) :
    rd.peekSequenceNumber = .ok (some h.sequenceNumber) := by
  have hsplit : rd.rest =
      encodeBE 8 h.sequenceNumber ++ (encodeBE 8 h.len ++ ([h.recordType] ++ post)) := by
    rw [hrest, write]
    simp
  have hlen : ¬ rd.rest.length < 8 := by rw [hsplit]; simp
  have htake : rd.rest.take 8 = encodeBE 8 h.sequenceNumber := by
    rw [hsplit]
    exact take_left' (length_encodeBE 8 _)
  simp only [peekSequenceNumber, hend, if_neg hlen, htake]
  rw [decodeBE_encodeBE (by norm_num; exact hseq)]
  rfl

def RawRecord.header (codec : Codec) (r : RawRecord) : RecordHeader :=
  ⟨r.sequenceNumber, (codec.encode r.bytes).length, r.recordType⟩

def FileReader.Starts (codec : Codec) (rd : FileReader) (r : RawRecord) : Prop :=
  rd.atEnd = false ∧ r.frame codec <+: rd.rest

theorem FileReader.Starts.rest_eq (h : rd.Starts codec r) :
    ∃ post, rd.rest = (r.header codec).write ++ (codec.encode r.bytes ++ post) := by
  obtain ⟨post, hpost⟩ := h.2
  exact ⟨post, by rw [← hpost, frame, append_assoc]; rfl⟩

section
variable (h : rd.Starts codec r) (hr : r.Fits codec)
include h hr

theorem FileReader.Starts.peekSequenceNumber :
    rd.peekSequenceNumber = .ok (some r.sequenceNumber) := by
  obtain ⟨post, hrest⟩ := h.rest_eq
  exact peekSequenceNumber_eq h.1 hrest hr.1

theorem FileReader.Starts.readHeader :
    rd.readHeader = .ok (r.header codec) := by
  obtain ⟨post, hrest⟩ := h.rest_eq
  exact readHeader_eq hrest hr.1 hr.2

theorem FileReader.Starts.skipOneRecord :
    rd.skipOneRecord = .ok (rd.past codec r) := by
  simp only [FileReader.skipOneRecord, h.1, h.readHeader hr, FileReader.past,
    length_frame, ← Nat.add_assoc]
  rfl

end

theorem FileReader.Starts.readOneRecord (hc : codec.Lawful) (h : rd.Starts codec r)
    (hr : r.Fits codec) : rd.readOneRecord codec = .ok (some (r, rd.past codec r)) := by
  obtain ⟨post, hrest⟩ := h.rest_eq
  have hbody : (rd.rest.drop headerLen).take (codec.encode r.bytes).length =
      codec.encode r.bytes := by
    rw [hrest, drop_left' (length_write _), take_left]
  simp only [FileReader.readOneRecord, h.1, h.readHeader hr, bind, Except.bind, header,
    hbody, hc.decode_encode, FileReader.past, length_frame, ← Nat.add_assoc]
  rfl

theorem FileReader.Holds.starts (h : rd.Holds codec (r :: rs)) : rd.Starts codec r :=
  ⟨h.not_atEnd, (prefix_append _ _).trans h.1⟩

theorem FileReader.Holds.readOneRecord_nil (h : rd.Holds codec []) :
    rd.readOneRecord codec = .ok none := by
  simp [readOneRecord, h.atEnd]

end Header

def File.Readable (codec : Codec) (directory : Directory) (f : File) (rs : List RawRecord) : Prop :=
  ∃ content, directory.get? f.start = some content ∧
    FileReader.Holds codec ⟨f, content, 0⟩ rs

def FileReader.Yields (codec : Codec) : FileReader → List RawRecord → Prop
  | rd, [] => rd.readOneRecord codec = .ok none
  | rd, r :: rs => ∃ rd', rd.readOneRecord codec = .ok (some (r, rd')) ∧ rd'.Yields codec rs

def File.Yields (codec : Codec) (directory : Directory) (f : File) (rs : List RawRecord) : Prop :=
  ∃ content, directory.get? f.start = some content ∧ FileReader.Yields codec ⟨f, content, 0⟩ rs

theorem FileReader.Holds.yields (hc : codec.Lawful) (h : rd.Holds codec rs) (hfit : Fits codec rs) :
    rd.Yields codec rs := by
  induction rs generalizing rd with
  | nil => exact h.readOneRecord_nil
  | cons r rs ih => exact ⟨_, h.starts.readOneRecord hc hfit.cons.1, ih h.past hfit.cons.2⟩

theorem File.Readable.yields (hc : codec.Lawful) {f : File} (h : f.Readable codec directory rs)
    (hfit : Fits codec rs) : f.Yields codec directory rs := by
  obtain ⟨content, hget, hold⟩ := h
  exact ⟨content, hget, hold.yields hc hfit⟩

theorem FileReader.new_eq {f : File} {content : Bytes}
    (hget : directory.get? f.start = some content) :
    new directory f = .ok ⟨f, content, 0⟩ := by
  simp [new, hget]

theorem collect_eq {files : List File} {vs : List (List RawRecord)} (h : rd.Yields codec rs)
    (hv : List.Forall₂ (File.Yields codec directory) files vs) (fuel : Nat) :
    RecordIterator.collect codec fuel ⟨directory, some rd, files⟩ =
      .ok ((rs ++ vs.flatten).take fuel) := by
  induction fuel generalizing rd rs files vs with
  | zero => rfl
  | succ fuel ihfuel =>
    -- an exhausted file hands over to the next one, so the files are the inner induction
    induction hv generalizing rd rs with
    | nil =>
      cases rs with
      | nil =>
        simp only [Yields] at h
        simp only [RecordIterator.collect, RecordIterator.next, nextFrom, h, bind, Except.bind]
        rfl
      | cons r rs =>
        obtain ⟨rd', hread, h⟩ := h
        have ih := ihfuel h List.Forall₂.nil
        simp only [RecordIterator.collect, RecordIterator.next, nextFrom, hread, bind, Except.bind,
          ih]
        rfl
    | @cons f v files vs hf hrest ih =>
      cases rs with
      | nil =>
        obtain ⟨content, hget, hold⟩ := hf
        have ih := ih hold
        simp only [Yields] at h
        simp only [RecordIterator.collect, RecordIterator.next] at ih
        simp only [RecordIterator.collect, RecordIterator.next, nextFrom, h, bind, Except.bind,
          new_eq hget, nil_append, flatten_cons] at ih ⊢
        exact ih
      | cons r rs =>
        obtain ⟨rd', hread, h⟩ := h
        have ih := ihfuel h (List.Forall₂.cons hf hrest)
        simp only [RecordIterator.collect, RecordIterator.next, nextFrom, hread, bind, Except.bind,
          ih]
        rfl

def Steps : Nat → List RawRecord → Prop
  | _, [] => True
  | n, r :: rs => (r.sequenceNumber = n ∨ r.sequenceNumber = n + 1) ∧ Steps r.sequenceNumber rs

/-- Numbers without gaps do not jump over `start`, so the skipping loop stops at the first
record that is not below it. -/
theorem skipTo_eq {start : Nat} {fuel current : Nat} (h : rd.Holds codec rs)
    (hfit : Fits codec rs) (hsteps : Steps current rs) (hlt : current < start)
    (hfuel : rs.length < fuel) :
    ∃ rd', skipTo start fuel current rd = .ok rd' ∧
      rd'.Holds codec (rs.dropWhile fun r => decide (r.sequenceNumber < start)) := by
  induction rs generalizing fuel current rd with
  | nil =>
    obtain ⟨fuel, rfl⟩ := Nat.exists_eq_succ_of_ne_zero (by omega : fuel ≠ 0)
    refine ⟨rd, ?_, h⟩
    simp only [skipTo, if_pos hlt, peekSequenceNumber, h.atEnd]
    rfl
  | cons r rs ih =>
    obtain ⟨fuel, rfl⟩ := Nat.exists_eq_succ_of_ne_zero (by omega : fuel ≠ 0)
    obtain ⟨hr, hfit⟩ := Fits.cons hfit
    obtain ⟨hstep, hsteps⟩ := hsteps
    by_cases heq : r.sequenceNumber = start
    · refine ⟨rd, ?_, ?_⟩
      · simp only [skipTo, if_pos hlt, h.starts.peekSequenceNumber hr, bind, Except.bind, if_pos heq]
      · simpa [dropWhile_cons, heq] using h
    · have hbelow : r.sequenceNumber < start := by rcases hstep with hstep | hstep <;> omega
      obtain ⟨rd', hskip, hold⟩ := ih h.past hfit hsteps hbelow (by simp at hfuel; omega)
      refine ⟨rd', ?_, by simpa [dropWhile_cons, hbelow] using hold⟩
      simp only [skipTo, if_pos hlt, h.starts.peekSequenceNumber hr, bind, Except.bind, if_neg heq,
        h.starts.skipOneRecord hr, hskip]

end TypeDB.Durability
