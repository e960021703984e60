import TypeDB.Durability.WalTrim

/-! `File::trim_corrupted_tail` with a decoder that refuses a frame that was cut short. What is
left of a file are its whole records up to the first one without content, which the loop takes for
an interrupted write as well. -/

namespace TypeDB.Durability
open ByteString List FileReader Codec

variable {codec : Codec} {rd : FileReader} {r : RawRecord} {rs : List RawRecord} {tail : Bytes}

/-- The decoder reads a frame to its last byte and fails on a part of it. -/
structure Codec.Strict (codec : Codec) : Prop where
  decode_encode : ∀ b, codec.decode (codec.encode b) = some (b, (codec.encode b).length)
  truncated : ∀ b p, p <+: codec.encode b → p.length < (codec.encode b).length →
    codec.decode p = none

theorem Codec.Strict.lawful (hc : codec.Strict) : codec.Lawful where
  decode_encode := hc.decode_encode
  torn b p d n hp hdec := by
    rcases hp.length_le.lt_or_eq with hlt | heq
    · rw [hc.truncated b p hp hlt] at hdec
      cases hdec
    · obtain rfl := hp.eq_of_length heq
      rw [hc.decode_encode] at hdec
      cases hdec
      rfl

/-- `File::trim_corrupted_tail`: the entry and the content of its file afterwards. -/
def File.trimCorruptedTail (codec : Codec) (f : File) (content : Bytes) : File × Bytes :=
  match trimTo codec (content.length + 1) ⟨f, content, 0⟩ 0 with
  | none => (f, content)
  | some len => ({ f with len := len }, content.take len)

def trimmed (rs : List RawRecord) : List RawRecord := rs.takeWhile fun r => !r.bytes.isEmpty

theorem FileReader.readOneRecord_short (hc : codec.Strict) (hr : r.Fits codec)
    (hend : rd.atEnd = false) (hpre : rd.rest <+: r.frame codec)
    (hlt : rd.rest.length < (r.frame codec).length) :
    ∃ e, rd.readOneRecord codec = .error e := by
  rcases readOneRecord_cut hr hend hpre hlt with herr | ⟨body, -, hbody, hshort, hread⟩
  · exact ⟨.io, herr⟩
  · exact ⟨.decompression, by rw [hread, hc.truncated r.bytes body hbody hshort]⟩

theorem trimTo_eq (hc : codec.Strict) {fuel : Nat} (hfit : Fits codec rs) (hr : r.Fits codec)
    (hpre : tail <+: r.frame codec) (hlt : tail.length < (r.frame codec).length)
    (hrest : rd.rest = frames codec rs ++ tail)
    (hlen : rd.position + rd.rest.length = rd.file.len) (hfuel : rs.length < fuel) :
    trimTo codec fuel rd rd.position =
      if trimmed rs = rs ∧ tail = [] then none
      else some (rd.position + (frames codec (trimmed rs)).length) := by
  induction rs generalizing rd fuel with
  | nil =>
    obtain ⟨fuel, rfl⟩ := Nat.exists_eq_succ_of_ne_zero (by omega : fuel ≠ 0)
    rw [frames_nil, nil_append] at hrest
    by_cases htail : tail = []
    · have hend : rd.atEnd = true := by simpa [hrest, htail, atEnd] using hlen
      simp [trimTo, readOneRecord, hend, htail, trimmed]
    · have hend : rd.atEnd = false := by
        have hpos := length_pos_of_ne_nil htail
        rw [hrest] at hlen
        simp only [atEnd, decide_eq_false_iff_not]
        omega
      obtain ⟨e, hread⟩ := readOneRecord_short hc hr hend (hrest ▸ hpre) (hrest ▸ hlt)
      simp [trimTo, hread, htail, trimmed]
  | cons r' rs ih =>
    obtain ⟨fuel, rfl⟩ := Nat.exists_eq_succ_of_ne_zero (by omega : fuel ≠ 0)
    obtain ⟨hr', hfit⟩ := hfit.cons
    have hframe := RawRecord.length_frame codec r'
    have hstart : rd.Starts codec r' := by
      refine ⟨?_, by rw [hrest, frames_cons, append_assoc]; exact prefix_append _ _⟩
      rw [hrest, frames_cons, append_assoc, length_append, hframe, headerLen] at hlen
      simp only [atEnd, decide_eq_false_iff_not]
      omega
    have hread := hstart.readOneRecord hc.lawful hr'
    cases hempty : r'.bytes.isEmpty with
    | true => simp [trimTo, hread, hempty, trimmed]
    | false =>
      have hpast : (rd.past codec r').rest = frames codec rs ++ tail := by
        simp only [rest, past] at hrest ⊢
        rw [← drop_drop, hrest, frames_cons, append_assoc, drop_left]
      have hnext : trimTo codec fuel (rd.past codec r') (rd.past codec r').position = _ :=
        ih hfit hpast (by
          rw [hrest, frames_cons, append_assoc, length_append] at hlen
          rw [hpast]
          simp only [past]
          omega) (by simpa using hfuel)
      have hkept : trimmed (r' :: rs) = r' :: trimmed rs := by simp [trimmed, hempty]
      have hto : trimTo codec (fuel + 1) rd rd.position =
          trimTo codec fuel (rd.past codec r') (rd.past codec r').position := by
        simp only [trimTo, hread, hempty, Bool.false_eq_true, if_false]
      rw [hto, hnext, hkept]
      simp only [List.cons.injEq, true_and, frames_cons, length_append, past, Nat.add_assoc]

/-- Trimming a file of whole records and a record cut short, anywhere in its header or body or
before its first byte, leaves the bytes of the whole records up to the first without content. -/
theorem File.trimCorruptedTail_frames (hc : codec.Strict) (hfit : Fits codec rs)
    (hr : r.Fits codec) (hpre : tail <+: r.frame codec) (hne : tail ≠ r.frame codec)
    (start : Nat) :
    File.trimCorruptedTail codec ⟨start, (frames codec rs ++ tail).length⟩
        (frames codec rs ++ tail) =
      (⟨start, (frames codec (trimmed rs)).length⟩, frames codec (trimmed rs)) := by
  have hlt : tail.length < (r.frame codec).length :=
    hpre.length_le.lt_of_ne fun heq => hne (hpre.eq_of_length heq)
  have hcut : trimTo codec ((frames codec rs ++ tail).length + 1)
      ⟨⟨start, (frames codec rs ++ tail).length⟩, frames codec rs ++ tail, 0⟩ 0 = _ :=
    trimTo_eq hc hfit hr hpre hlt rfl
    (by simp [rest])
    (by
      have := length_le_frames codec rs
      rw [length_append]
      omega)
  rw [File.trimCorruptedTail, hcut]
  split_ifs with hall
  · simp only [hall.1, hall.2, append_nil]
  · have hpart : frames codec (trimmed rs) <+: frames codec rs ++ tail := by
      obtain ⟨post, hpost⟩ := takeWhile_prefix (l := rs) fun r => !r.bytes.isEmpty
      conv_rhs => rw [← hpost, frames_append, append_assoc]
      exact prefix_append _ _
    simp only [Nat.zero_add, ← prefix_iff_eq_take.mp hpart]

def markedEncode : Bytes → Bytes
  | [] => [0]
  | b :: bs => 1 :: b :: markedEncode bs

def markedDecode : Bytes → Option (Bytes × Nat)
  | m :: b :: bs =>
    if m = 0 then some ([], 1) else (markedDecode bs).map fun (d, n) => (b :: d, n + 2)
  | [m] => if m = 0 then some ([], 1) else none
  | [] => none

def Codec.marked : Codec := ⟨markedEncode, markedDecode⟩

theorem Codec.marked_strict : marked.Strict where
  decode_encode b := by
    induction b with
    | nil => rfl
    | cons b bs ih =>
      simp only [marked] at ih
      simp [marked, markedEncode, markedDecode, ih]
  truncated b p hp hlt := by
    simp only [marked] at *
    induction b generalizing p with
    | nil =>
      obtain rfl : p = [] := eq_nil_of_length_eq_zero (Nat.lt_one_iff.mp hlt)
      rfl
    | cons b bs ih =>
      rw [markedEncode] at hp hlt
      rcases p with _ | ⟨m, _ | ⟨b', p⟩⟩
      · rfl
      · obtain ⟨rfl, -⟩ := cons_prefix_cons.mp hp
        rfl
      · obtain ⟨hm, hrest⟩ := cons_prefix_cons.mp hp
        obtain ⟨-, hrest⟩ := cons_prefix_cons.mp hrest
        simp only [length_cons] at hlt
        simp [markedDecode, hm, ih p hrest (by omega)]

/-- Two records and the first eighteen bytes of a third: the third is gone. -/
theorem trimCorruptedTail_two :
    File.trimCorruptedTail marked
        ⟨1, (frames marked [⟨1, 0, [7]⟩, ⟨2, 0, [8]⟩] ++
          (RawRecord.frame marked ⟨3, 0, [9]⟩).take 18).length⟩
        (frames marked [⟨1, 0, [7]⟩, ⟨2, 0, [8]⟩] ++
          (RawRecord.frame marked ⟨3, 0, [9]⟩).take 18) =
      (⟨1, (frames marked (trimmed [⟨1, 0, [7]⟩, ⟨2, 0, [8]⟩])).length⟩,
        frames marked (trimmed [⟨1, 0, [7]⟩, ⟨2, 0, [8]⟩])) :=
  File.trimCorruptedTail_frames marked_strict
    (by simp [Fits, RawRecord.Fits, marked, markedEncode])
    (by simp [RawRecord.Fits, marked, markedEncode])
    (List.take_prefix _ _) (by decide) 1

/-- A whole record without content is removed, and so is the one after it. -/
theorem trimCorruptedTail_removes_whole :
    File.trimCorruptedTail marked
        ⟨1, (frames marked [⟨1, 0, []⟩, ⟨2, 0, [8]⟩]).length⟩
        (frames marked [⟨1, 0, []⟩, ⟨2, 0, [8]⟩]) = (⟨1, 0⟩, []) := by decide

end TypeDB.Durability
