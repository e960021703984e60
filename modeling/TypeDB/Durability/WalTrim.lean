import TypeDB.Durability.WalIteration

/-! Trimming the tail of a file that a crash cut short. What is kept reads back as the first
records that were written; only the very last of them may be a torn one that the decoder
accepted, with its number intact and its content shortened. -/

namespace TypeDB.Durability
open ByteString List FileReader RawRecord RecordHeader

variable {codec : Codec}

/-- Reading and skipping both go through these records. Skipping over a torn record at the very
end leaves the file, and the next look at it is an error. -/
def FileReader.Walks (codec : Codec) : FileReader → List RawRecord → Prop
  | rd, [] => rd.atEnd = true
  | rd, r :: rs => rd.peekSequenceNumber = .ok (some r.sequenceNumber) ∧
    ∃ rd', rd.readOneRecord codec = .ok (some (r, rd')) ∧ rd'.Walks codec rs ∧
      (rd.skipOneRecord = .ok rd' ∨
        rs = [] ∧ ∃ gone, rd.skipOneRecord = .ok gone ∧ gone.peekSequenceNumber = .error .io)

theorem FileReader.Walks.yields {rd : FileReader} {rs : List RawRecord} (h : rd.Walks codec rs) :
    rd.Yields codec rs := by
  induction rs generalizing rd with
  | nil =>
    simp only [Walks] at h
    simp [Yields, readOneRecord, h]
  | cons r rs ih =>
    obtain ⟨-, rd', hread, hrest, -⟩ := h
    exact ⟨rd', hread, ih hrest⟩

theorem FileReader.Walks.skipTo {start fuel current : Nat} {rd rd' : FileReader}
    {rs : List RawRecord} (h : rd.Walks codec rs) (hsteps : Steps current rs)
    (hlt : current < start) (hfuel : rs.length < fuel)
    (hskip : skipTo start fuel current rd = .ok rd') :
    rd'.Walks codec (rs.dropWhile fun r => decide (r.sequenceNumber < start)) := by
  induction rs generalizing fuel current rd with
  | nil =>
    obtain ⟨fuel, rfl⟩ := Nat.exists_eq_succ_of_ne_zero (by omega : fuel ≠ 0)
    simp only [Walks] at h
    simp only [Durability.skipTo, if_pos hlt, peekSequenceNumber, h, if_true, bind,
      Except.bind, Except.ok.injEq] at hskip
    exact hskip ▸ h
  | cons r rs ih =>
    obtain ⟨fuel, rfl⟩ := Nat.exists_eq_succ_of_ne_zero (by omega : fuel ≠ 0)
    obtain ⟨hpeek, rd₁, hread, hrest, hnext⟩ := h
    obtain ⟨hstep, hsteps⟩ := hsteps
    simp only [Durability.skipTo, if_pos hlt, hpeek, bind, Except.bind] at hskip
    by_cases heq : r.sequenceNumber = start
    · simp only [if_pos heq, Except.ok.injEq] at hskip
      subst hskip
      rw [dropWhile_cons_of_neg (by simp [heq])]
      exact ⟨hpeek, rd₁, hread, hrest, hnext⟩
    · have hbelow : r.sequenceNumber < start := by rcases hstep with hstep | hstep <;> omega
      simp only [if_neg heq] at hskip
      rw [dropWhile_cons_of_pos (by simpa using hbelow)]
      rcases hnext with hnext | ⟨rfl, gone, hgone, herr⟩
      · rw [hnext] at hskip
        exact ih hrest hsteps hbelow (by simp at hfuel; omega) hskip
      · rw [hgone] at hskip
        obtain ⟨fuel, rfl⟩ := Nat.exists_eq_succ_of_ne_zero (by simp at hfuel; omega : fuel ≠ 0)
        simp only [Durability.skipTo, if_pos hbelow, herr, bind, Except.bind] at hskip
        cases hskip

def FileReader.survives (codec : Codec) (rd : FileReader) : Bool :=
  match rd.readOneRecord codec with
  | .ok (some (r, _)) => !r.bytes.isEmpty
  | _ => false

/-- What `trim_corrupted_tail` leaves of a file, given where it cuts. -/
def FileReader.cutAt (rd : FileReader) : Option Nat → Bytes
  | none => rd.content
  | some len => rd.content.take len

def FileReader.over (rd : FileReader) (content : Bytes) : FileReader :=
  ⟨⟨rd.file.start, content.length⟩, content, rd.position⟩

section Torn
variable {rd : FileReader} {r : RawRecord}

theorem FileReader.readOneRecord_cut (hr : r.Fits codec) (hend : rd.atEnd = false)
    (hpre : rd.rest <+: r.frame codec) (hlt : rd.rest.length < (r.frame codec).length) :
    rd.readOneRecord codec = .error .io ∨
      ∃ body, rd.rest = (r.header codec).write ++ body ∧ body <+: codec.encode r.bytes ∧
        body.length < (codec.encode r.bytes).length ∧
        rd.readOneRecord codec = match codec.decode body with
          | none => .error .decompression
          | some (d, n) => .ok (some (⟨r.sequenceNumber, r.recordType, d⟩,
              { rd with position := rd.position + headerLen + n })) := by
  by_cases hshort : rd.rest.length < headerLen
  · left
    have hnone : rd.rest[16]? = none := by
      rw [headerLen] at hshort
      simp only [List.getElem?_eq_none_iff]
      omega
    simp [readOneRecord, hend, readHeader, hnone, bind, Except.bind]
  · right
    have hprefix : (r.header codec).write <+: rd.rest := by
      refine prefix_of_prefix_length_le (prefix_append _ _) hpre ?_
      rw [length_write]
      omega
    obtain ⟨body, hbody⟩ := hprefix
    have hbodyPre : body <+: codec.encode r.bytes := by
      rw [← hbody, frame] at hpre
      exact (prefix_append_right_inj _).mp hpre
    have htake : (rd.rest.drop headerLen).take (codec.encode r.bytes).length = body := by
      rw [← hbody, drop_left' (length_write _), take_of_length_le hbodyPre.length_le]
    refine ⟨body, hbody.symm, hbodyPre, ?_, ?_⟩
    · rw [← hbody, length_append, length_write, length_frame] at hlt
      omega
    · simp only [readOneRecord, hend, readHeader_eq hbody.symm hr.1 hr.2,
        bind, Except.bind, header, htake]
      rfl

theorem FileReader.readOneRecord_torn (hc : codec.Lawful) (hr : r.Fits codec)
    (hend : rd.atEnd = false) (hpre : rd.rest <+: r.frame codec)
    (hlt : rd.rest.length < (r.frame codec).length)
    (hlen : rd.position + rd.rest.length = rd.file.len) :
    (∃ e, rd.readOneRecord codec = .error e) ∨ ∃ r' gone, r'.sequenceNumber = r.sequenceNumber ∧
        rd.readOneRecord codec = .ok (some (r', { rd with position := rd.file.len })) ∧
        rd.peekSequenceNumber = .ok (some r.sequenceNumber) ∧ rd.skipOneRecord = .ok gone ∧
        gone.peekSequenceNumber = .error .io := by
  rcases readOneRecord_cut hr hend hpre hlt with
    herr | ⟨body, hbody, hbodyPre, -, hread⟩
  · exact .inl ⟨.io, herr⟩
  have hbodyLen : rd.rest.length = headerLen + body.length := by
    rw [hbody, length_append, length_write]
  cases hdec : codec.decode body with
  | none => exact .inl ⟨.decompression, by rw [hread, hdec]⟩
  | some p =>
    obtain ⟨d, n⟩ := p
    right
    obtain rfl := hc.torn r.bytes body d n hbodyPre hdec
    refine ⟨⟨r.sequenceNumber, r.recordType, d⟩, rd.past codec r, rfl, ?_,
      peekSequenceNumber_eq hend hbody hr.1, ?_, ?_⟩
    · rw [hread, hdec, ← hlen, hbodyLen, ← Nat.add_assoc]
    · simp only [skipOneRecord, hend, readHeader_eq hbody hr.1 hr.2, bind,
        Except.bind, past, length_frame, header, ← Nat.add_assoc]
      rfl
    · have hpast : rd.content.length ≤ rd.position + (r.frame codec).length := by
        have hpos : 0 < rd.rest.length := by rw [hbodyLen, headerLen]; omega
        simp only [rest, length_drop] at hpos hlt
        omega
      have hnot : ¬ rd.position + (r.frame codec).length = rd.file.len := by omega
      simp [peekSequenceNumber, atEnd, past, hnot, rest, drop_eq_nil_of_le hpast]

end Torn

theorem prefix_frame_cases {b : Bytes} {r : RawRecord} {rs : List RawRecord}
    (h : b <+: frames codec (r :: rs)) :
    b = [] ∨ r.frame codec <+: b ∨
      b ≠ [] ∧ b <+: r.frame codec ∧ b.length < (r.frame codec).length := by
  have hframe : r.frame codec <+: frames codec (r :: rs) := prefix_append _ _
  by_cases hnil : b = []
  · exact .inl hnil
  · rcases Nat.lt_or_ge b.length (r.frame codec).length with hlt | hle
    · exact .inr (.inr ⟨hnil, prefix_of_prefix_length_le h hframe hlt.le, hlt⟩)
    · exact .inr (.inl (prefix_of_prefix_length_le hframe h hle))

section Trim
variable {rd : FileReader} {rs : List RawRecord} {r : RawRecord}

theorem FileReader.over_atEnd_self {content : Bytes} (h : rd.position = content.length) :
    (rd.over content).atEnd = true := by
  simp [FileReader.over, FileReader.atEnd, h]

theorem FileReader.over_self (h : rd.file.len = rd.content.length) : rd.over rd.content = rd := by
  obtain ⟨⟨start, len⟩, content, position⟩ := rd
  simp only at h
  rw [FileReader.over, h]

theorem FileReader.over_starts {content : Bytes} (hpos : rd.position ≤ rd.content.length)
    (hframe : r.frame codec <+: rd.rest)
    (hkept : rd.content.take (rd.position + (r.frame codec).length) <+: content) :
    (rd.over content).Starts codec r := by
  have htake : rd.content.take (rd.position + (r.frame codec).length) =
      rd.content.take rd.position ++ r.frame codec := by
    rw [take_add]
    exact congrArg _ (prefix_iff_eq_take.mp hframe).symm
  obtain ⟨post, hpost⟩ := hkept
  have hposLen : (rd.content.take rd.position).length = rd.position := by
    rw [length_take]
    omega
  have hrest : (rd.over content).rest = r.frame codec ++ post := by
    simp only [FileReader.rest, FileReader.over]
    rw [← hpost, htake, append_assoc, drop_left' hposLen]
  refine ⟨?_, by rw [hrest]; exact prefix_append _ _⟩
  have hlen := congrArg List.length hpost
  rw [htake, length_append, length_append, hposLen, length_frame, headerLen] at hlen
  have hne : rd.position ≠ content.length := by omega
  exact decide_eq_false hne

/-- `cut` is where trimming cuts the reader's file, and `kept` is what can then be read of the
records `rs` whose frames the file began with. -/
structure TrimmedTo (codec : Codec) (rd : FileReader) (rs : List RawRecord) (cut : Option Nat)
    (kept : List RawRecord) : Prop where
  walks : (rd.over (rd.cutAt cut)).Walks codec kept
  numbers : kept.map (·.sequenceNumber) <+: rs.map (·.sequenceNumber)
  survives : kept = [] ↔ rd.survives codec = false
  before : rd.content.take rd.position <+: rd.cutAt cut
  within : ∀ len ∈ cut, len ≤ rd.content.length
  length_le : rd.position + kept.length ≤ (rd.cutAt cut).length

section
variable (hpos : rd.position ≤ rd.content.length)
include hpos

theorem trimmed_done {fuel : Nat} (hlen : rd.file.len = rd.content.length) (hend : rd.atEnd = true) :
    TrimmedTo codec rd rs (trimTo codec (fuel + 1) rd rd.position) [] := by
  have hread : rd.readOneRecord codec = .ok none := by simp [readOneRecord, hend]
  have hto : trimTo codec (fuel + 1) rd rd.position = none := by simp [trimTo, hread]
  rw [hto]
  refine ⟨?_, nil_prefix, by simp [survives, hread], take_prefix _ _, by simp, hpos⟩
  rw [cutAt, over_self hlen]
  exact hend

theorem trimmed_cut
    (hsurv : rd.survives codec = false) : TrimmedTo codec rd rs (some rd.position) [] := by
  refine ⟨?_, nil_prefix, by simp [hsurv], prefix_refl _, by simpa using hpos, ?_⟩
  · exact over_atEnd_self (by rw [cutAt, length_take]; omega)
  · rw [cutAt, length_take, length_nil]
    omega

theorem trimmed_step (hc : codec.Lawful) {fuel : Nat} {kept : List RawRecord} (hr : r.Fits codec)
    (hstart : rd.Starts codec r)
    (hne : r.bytes.isEmpty = false)
    (h : TrimmedTo codec (rd.past codec r) rs
      (trimTo codec fuel (rd.past codec r) (rd.past codec r).position) kept) :
    TrimmedTo codec rd (r :: rs) (trimTo codec (fuel + 1) rd rd.position) (r :: kept) := by
  have hread := hstart.readOneRecord hc hr
  have hto : trimTo codec (fuel + 1) rd rd.position =
      trimTo codec fuel (rd.past codec r) (rd.past codec r).position := by
    simp only [trimTo, hread, hne, Bool.false_eq_true, if_false]
  rw [hto]
  have hover := over_starts hpos hstart.2 h.before
  refine ⟨⟨hover.peekSequenceNumber hr, _, hover.readOneRecord hc hr, h.walks,
    .inl (hover.skipOneRecord hr)⟩, ?_, by simp [survives, hread, hne], ?_, h.within, ?_⟩
  · simpa using h.numbers
  · refine List.IsPrefix.trans ?_ h.before
    exact take_prefix_take_left (by simp [past])
  · have hle := h.length_le
    have hframe := length_frame codec r
    simp only [past, headerLen] at hle hframe
    rw [length_cons]
    exact le_trans (by omega) hle

theorem trimmed_torn (hc : codec.Lawful) {fuel : Nat} (hr : r.Fits codec)
    (hlen : rd.file.len = rd.content.length)
    (hend : rd.atEnd = false) (hpart : rd.rest <+: r.frame codec)
    (hlt : rd.rest.length < (r.frame codec).length) :
    ∃ kept, TrimmedTo codec rd (r :: rs) (trimTo codec (fuel + 2) rd rd.position) kept := by
  have hrestLen : rd.position + rd.rest.length = rd.file.len := by
    simp only [rest, length_drop]
    omega
  have hcut : trimTo codec (fuel + 2) rd rd.position = some rd.position →
      rd.survives codec = false →
      ∃ kept, TrimmedTo codec rd (r :: rs) (trimTo codec (fuel + 2) rd rd.position) kept := by
    intro hto hsurv
    rw [hto]
    exact ⟨[], trimmed_cut hpos hsurv⟩
  rcases readOneRecord_torn hc hr hend hpart hlt hrestLen with
    ⟨e, hread⟩ | ⟨r', gone, hseq, hread, hpeek, hskip, hgone⟩
  · exact hcut (by simp [trimTo, hread]) (by simp [survives, hread])
  · cases hempty : r'.bytes.isEmpty with
    | true => exact hcut (by simp [trimTo, hread, hempty]) (by simp [survives, hread, hempty])
    | false =>
      -- the torn record is accepted, and the file ends with it
      have hlast : readOneRecord codec { rd with position := rd.file.len } =
          .ok none := by
        simp [readOneRecord, atEnd]
      have hto : trimTo codec (fuel + 2) rd rd.position = none := by
        simp [trimTo, hread, hempty, hlast]
      rw [hto]
      refine ⟨[r'], ?_, by simp [hseq], by simp [survives, hread, hempty],
        take_prefix _ _, by simp, ?_⟩
      · rw [cutAt, over_self hlen]
        exact ⟨hseq ▸ hpeek, _, hread, by simp [Walks, atEnd],
          .inr ⟨rfl, gone, hskip, hgone⟩⟩
      · simp only [atEnd, decide_eq_false_iff_not] at hend
        rw [cutAt, length_singleton]
        omega

end

theorem trimmed_spec (hc : codec.Lawful) (rd : FileReader) (fuel : Nat) (hfit : Fits codec rs)
    (hlen : rd.file.len = rd.content.length) (hpos : rd.position ≤ rd.content.length)
    (hpre : rd.rest <+: frames codec rs) (hfuel : rd.rest.length < fuel) :
    ∃ kept, TrimmedTo codec rd rs (trimTo codec fuel rd rd.position) kept := by
  induction rs generalizing rd fuel with
  | nil =>
    obtain ⟨fuel, rfl⟩ := Nat.exists_eq_succ_of_ne_zero (by omega : fuel ≠ 0)
    refine ⟨[], trimmed_done hpos hlen ?_⟩
    have hnil : rd.content.length ≤ rd.position := by simpa [rest] using hpre
    simp only [atEnd, decide_eq_true_eq]
    omega
  | cons r rs ih =>
    obtain ⟨fuel, rfl⟩ := Nat.exists_eq_succ_of_ne_zero (by omega : fuel ≠ 0)
    obtain ⟨hr, hfit⟩ := hfit.cons
    by_cases hend : rd.atEnd = true
    · exact ⟨[], trimmed_done hpos hlen hend⟩
    have hend : rd.atEnd = false := by simpa using hend
    rcases prefix_frame_cases hpre with hnil | hwhole | ⟨hne, hpart, hlt⟩
    · simp only [rest, drop_eq_nil_iff] at hnil
      simp only [atEnd, decide_eq_false_iff_not] at hend
      omega
    · have hstart : rd.Starts codec r := ⟨hend, hwhole⟩
      cases hempty : r.bytes.isEmpty with
      | true =>
        have hread := hstart.readOneRecord hc hr
        have hto : trimTo codec (fuel + 1) rd rd.position = some rd.position := by
          simp [trimTo, hread, hempty]
        rw [hto]
        exact ⟨[], trimmed_cut hpos (by simp [survives, hread, hempty])⟩
      | false =>
        have hframe := hwhole.length_le
        have hrest : (rd.past codec r).rest <+: frames codec rs := by
          obtain ⟨post, hpost⟩ := hwhole
          rw [← hpost, frames_cons, prefix_append_right_inj] at hpre
          have : (rd.past codec r).rest = post := by
            simp only [rest, past] at hpost ⊢
            rw [← drop_drop, ← hpost, drop_left]
          rwa [this]
        have hpast : (rd.past codec r).position ≤ (rd.past codec r).content.length := by
          simp only [past, rest, length_drop] at hframe ⊢
          omega
        obtain ⟨kept, hkept⟩ := ih (rd.past codec r) fuel hfit hlen hpast hrest
          (by
            have hpast := length_frame codec r
            simp only [past, rest, length_drop, headerLen] at *
            omega)
        exact ⟨r :: kept, trimmed_step hpos hc hr hstart hempty hkept⟩
    · have hne := length_pos_of_ne_nil hne
      obtain ⟨fuel, rfl⟩ := Nat.exists_eq_succ_of_ne_zero (by omega : fuel ≠ 0)
      exact trimmed_torn hpos hc hr hlen hend hpart hlt

end Trim

end TypeDB.Durability
