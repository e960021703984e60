import TypeDB.Foundations.OrderedMap
import TypeDB.Foundations.Reading

/-! Binary snapshots of memory keyspaces. A snapshot is a header and a section for each keyspace,
a section is a name and a blob, and a blob is a sequence of entries; all lengths are of fixed width.
Import replaces the contents of one keyspace after the other while it reads. -/

namespace TypeDB.Storage.Keyspaces
open ByteString List OrderedMap

abbrev Data := OrderedMap Bytes Bytes

def entryBytes (e : Bytes × Bytes) : Bytes :=
  encodeLE 4 e.1.length ++ encodeLE 4 e.2.length ++ (e.1 ++ e.2)

def exportData (data : Data) : Bytes := data.entries.flatMap entryBytes

def estimatedSize (data : Data) : Nat :=
  (data.entries.map fun e => 8 + e.1.length + e.2.length).sum

/-- What is found wrong with the bytes: the first two are `ImportDataMalformed`, the others
`SnapshotMalformed`. -/
inductive Malformed
  | endOfLengths
  | endOfEntry (need left : Nat)
  | header
  | magic
  | version (found : Byte)
  | endOfSnapshot
  | endOfKeyspace
  | name
  | endOfBlob (need : Nat)
  deriving DecidableEq

def Malformed.message : Malformed → String
  | endOfLengths => "unexpected end of data while reading lengths"
  | endOfEntry need left => s!"unexpected end of data: need {need} bytes, have {left}"
  | header => "snapshot too short for header"
  | magic => "invalid snapshot magic bytes"
  | version found => s!"unsupported snapshot version: {found} (expected 2)"
  | endOfSnapshot => "unexpected end of snapshot"
  | endOfKeyspace => "unexpected end of snapshot while reading keyspace"
  | name => "invalid keyspace name encoding"
  | endOfBlob need => s!"unexpected end of snapshot: need {need} bytes for data"

def readPayload (keyLen valueLen : Nat) (bytes : Bytes) :
    Except Malformed ((Bytes × Bytes) × Bytes) :=
  match readExact (keyLen + valueLen) bytes with
  | none => .error (.endOfEntry (keyLen + valueLen) bytes.length)
  | some (payload, rest) => .ok ((payload.take keyLen, payload.drop keyLen), rest)

/-- One round of the loop of `import_data`: an entry and the bytes after it. -/
def readEntry (bytes : Bytes) : Except Malformed ((Bytes × Bytes) × Bytes) :=
  match readExact 8 bytes with
  | none => .error .endOfLengths
  | some (lengths, rest) =>
    readPayload (decodeLE (lengths.take 4)) (decodeLE (lengths.drop 4)) rest

/-- The loop of `import_data`. A round reads eight bytes at least, so that their number bounds the
rounds. -/
def importEntries : Nat → Bytes → Data → Except Malformed Data
  | 0, _, data => .ok data
  | fuel + 1, bytes, data =>
    if bytes.isEmpty then .ok data
    else match readEntry bytes with
      | .error e => .error e
      | .ok (e, rest) => importEntries fuel rest (data.insert e.1 e.2)

def importData (bytes : Bytes) : Except Malformed Data := importEntries bytes.length bytes .empty

def keyspaceMaximumCount : Nat := 10

/-- The keyspaces of a storage. Their number and their ids are validated when it is opened; that
the names are short is not. `utf8` is the check of `str::from_utf8`. -/
structure KeyspaceSet (utf8 : Bytes → Bool) where
  keyspaces : List (Byte × Bytes)
  count_le : keyspaces.length ≤ keyspaceMaximumCount
  ids_nodup : (keyspaces.map Prod.fst).Nodup
  id_lt : ∀ k ∈ keyspaces, k.1.val < keyspaceMaximumCount
  name_lt : ∀ k ∈ keyspaces, k.2.length < 256
  name_utf8 : ∀ k ∈ keyspaces, utf8 k.2

abbrev Contents := Byte → Data

def magic : Bytes := [84, 68, 66, 83, 78, 80]

def version : Byte := 2

def lowByte (n : Nat) : Byte := ⟨n % 256, Nat.mod_lt n (by decide)⟩

def sectionBytes (contents : Contents) (k : Byte × Bytes) : Bytes :=
  let data := exportData (contents k.1)
  [k.1, lowByte k.2.length] ++ (k.2 ++ encodeLE 4 data.length ++ data)

variable {utf8 : Bytes → Bool}

def exportSnapshotWithWatermark (set : KeyspaceSet utf8) (contents : Contents) (watermark : Nat) :
    Bytes :=
  magic ++ [version] ++ encodeLE 8 watermark ++ [lowByte set.keyspaces.length] ++
    set.keyspaces.flatMap (sectionBytes contents)

inductive Failure
  | malformed (e : Malformed)
  /-- The index is read out of its bounds, or a number overflows. -/
  | panicked
  deriving DecidableEq

def readSection (utf8 : Bytes → Bool) (bytes : Bytes) : Except Malformed ((Byte × Bytes) × Bytes) :=
  match readExact 2 bytes with
  | none => .error .endOfSnapshot
  | some (head, rest) =>
    let nameLen := (head.getD 1 0).val
    match readExact (nameLen + 4) rest with
    | none => .error .endOfKeyspace
    | some (name, rest) =>
      if !utf8 (name.take nameLen) then .error .name
      else
        let dataLen := decodeLE (name.drop nameLen)
        match readExact dataLen rest with
        | none => .error (.endOfBlob dataLen)
        | some (data, rest) => .ok ((head.getD 0 0, data), rest)

/-- The loop of `import_snapshot_with_watermark`. -/
def importSections (set : KeyspaceSet utf8) :
    Nat → Bytes → Contents → Except Failure Unit × Contents
  | 0, _, contents => (.ok (), contents)
  | count + 1, bytes, contents =>
    match readSection utf8 bytes with
    | .error e => (.error (.malformed e), contents)
    | .ok ((id, data), rest) =>
      if keyspaceMaximumCount ≤ id.val then (.error .panicked, contents)
      else if id ∈ set.keyspaces.map Prod.fst then
        match importData data with
        | .error e => (.error (.malformed e), contents)
        | .ok data => importSections set count rest (Function.update contents id data)
      else importSections set count rest contents

def readHeader (bytes : Bytes) : Except Malformed (Nat × Nat × Bytes) :=
  match readExact 16 bytes with
  | none => .error .header
  | some (header, rest) =>
    if header.take 6 ≠ magic then .error .magic
    else if header.getD 6 0 ≠ version then .error (.version (header.getD 6 0))
    else .ok (decodeLE ((header.drop 7).take 8), (header.getD 15 0).val, rest)

def importSnapshotWithWatermark (set : KeyspaceSet utf8) (bytes : Bytes) (contents : Contents) :
    Except Failure Nat × Contents :=
  match readHeader bytes with
  | .error e => (.error (.malformed e), contents)
  | .ok (watermark, count, rest) =>
    match importSections set count rest contents with
    | (.error e, contents) => (.error e, contents)
    | (.ok (), contents) => (.ok watermark, contents)

/-- A storage with memory keyspaces: what snapshots are opened at and what commits go on from. -/
structure MemoryStorage where
  contents : Contents
  watermark : Nat
  nextSequenceNumber : Nat

def MemoryStorage.exportSnapshot (set : KeyspaceSet utf8) (st : MemoryStorage) : Bytes :=
  exportSnapshotWithWatermark set st.contents st.watermark

def MemoryStorage.importSnapshot (set : KeyspaceSet utf8) (st : MemoryStorage) (bytes : Bytes) :
    Except Failure Nat × MemoryStorage :=
  match importSnapshotWithWatermark set bytes st.contents with
  | (.error e, contents) => (.error e, { st with contents := contents })
  | (.ok watermark, contents) =>
    -- `watermark.next()`
    if 2 ^ 64 ≤ watermark + 1 then (.error .panicked, { st with contents := contents })
    else (.ok watermark, ⟨contents, watermark, watermark + 1⟩)

section Entries
variable {data data' : Data} {e : Bytes × Bytes} {bytes rest : Bytes}

theorem length_entryBytes (e : Bytes × Bytes) :
    (entryBytes e).length = 8 + e.1.length + e.2.length := by
  simp [entryBytes]
  omega

theorem length_exportData (data : Data) : (exportData data).length = estimatedSize data := by
  simp only [exportData, estimatedSize, length_flatMap, length_entryBytes]

def EntryFits (e : Bytes × Bytes) : Prop := e.1.length < 2 ^ 32 ∧ e.2.length < 2 ^ 32

theorem readEntry_append {lengths : Bytes} {keyLen valueLen : Nat} (hlen : lengths.length = 8)
    (hkey : decodeLE (lengths.take 4) = keyLen) (hvalue : decodeLE (lengths.drop 4) = valueLen)
    (he : e.1.length = keyLen ∧ e.2.length = valueLen) (rest : Bytes) :
    readEntry (lengths ++ (e.1 ++ e.2 ++ rest)) = .ok (e, rest) := by
  obtain ⟨rfl, rfl⟩ := he
  simp only [readEntry, readExact_append hlen, hkey, hvalue, readPayload,
    readExact_append (length_append ..), take_left, drop_left]

theorem readEntry_entryBytes (h : EntryFits e) (rest : Bytes) :
    readEntry (entryBytes e ++ rest) = .ok (e, rest) := by
  rw [entryBytes, append_assoc]
  refine readEntry_append (by simp) ?_ ?_ ⟨rfl, rfl⟩ rest
  · rw [take_left' (length_encodeLE 4 _), decodeLE_encodeLE_four h.1]
  · rw [drop_left' (length_encodeLE 4 _), decodeLE_encodeLE_four h.2]

theorem importEntries_flatMap {l : List (Bytes × Bytes)} (h : ∀ e ∈ l, EntryFits e) {fuel : Nat}
    (hfuel : l.length ≤ fuel) (data : Data) :
    importEntries fuel (l.flatMap entryBytes) data = .ok (data.insertAll l) := by
  induction l generalizing fuel data with
  | nil => cases fuel <;> rfl
  | cons e l ih =>
    obtain ⟨fuel, rfl⟩ := Nat.exists_eq_succ_of_ne_zero
      (Nat.ne_of_gt ((Nat.succ_pos _).trans_le hfuel))
    obtain ⟨he, hl⟩ := forall_mem_cons.mp h
    have hne : (entryBytes e ++ l.flatMap entryBytes).isEmpty = false := by
      have := length_entryBytes e
      rw [isEmpty_eq_false_iff]
      exact ne_nil_of_length_pos (by rw [length_append]; omega)
    rw [flatMap_cons, importEntries, hne, readEntry_entryBytes he]
    exact ih hl (Nat.succ_le_succ_iff.mp hfuel) (data.insert e.1 e.2)

theorem insertAll_entries (data : Data) : insertAll .empty data.entries = data := by
  refine ext_entries (eq_of_mem_iff (sorted _) data.sorted fun p => ?_)
  rw [mem_insertAll (data.sorted.imp fun h => ne_of_lt h) (by simp [empty])]
  simp [empty]

theorem importData_exportData (h : ∀ e ∈ data.entries, EntryFits e) :
    importData (exportData data) = .ok data := by
  have hlen : data.entries.length ≤ (exportData data).length := by
    rw [length_exportData, estimatedSize]
    refine length_le_sum_of_one_le _ (fun n hn => ?_) |>.trans_eq' (by simp)
    obtain ⟨e, -, rfl⟩ := mem_map.mp hn
    omega
  have himport := importEntries_flatMap h hlen .empty
  rwa [insertAll_entries] at himport

theorem length_of_readEntry (h : readEntry bytes = .ok (e, rest)) :
    bytes.length = 8 + e.1.length + e.2.length + rest.length := by
  rw [readEntry] at h
  split at h
  · cases h
  rename_i lengths rest₈ hlengths
  rw [readPayload] at h
  split at h
  · cases h
  rename_i payload rest' hpayload
  cases h
  obtain ⟨hlengths, rfl⟩ := readExact_eq_some hlengths
  obtain ⟨hlen, rfl⟩ := readExact_eq_some hpayload
  simp only [length_append, hlen, length_take, length_drop]
  omega

theorem estimatedSize_insert_le (data : Data) (k v : Bytes) :
    estimatedSize (data.insert k v) ≤ estimatedSize data + (8 + k.length + v.length) := by
  simp only [estimatedSize, OrderedMap.insert]
  induction data.entries with
  | nil => simp [OrderedMap.insertList]
  | cons p l ih =>
    simp only [OrderedMap.insertList]
    split_ifs <;> simp only [map_cons, sum_cons] <;> omega

theorem estimatedSize_importEntries {fuel : Nat} (h : importEntries fuel bytes data = .ok data') :
    estimatedSize data' ≤ estimatedSize data + bytes.length := by
  induction fuel generalizing bytes data with
  | zero =>
    cases h
    omega
  | succ fuel ih =>
    rw [importEntries] at h
    split_ifs at h with hempty
    · cases h
      omega
    · split at h
      · cases h
      · rename_i e rest hread
        have hle := ih h
        have hinsert := estimatedSize_insert_le data e.1 e.2
        have hlen := length_of_readEntry hread
        omega

theorem estimatedSize_importData (h : importData bytes = .ok data) :
    estimatedSize data ≤ bytes.length :=
  (estimatedSize_importEntries h).trans_eq (Nat.zero_add _)

end Entries

section Sections
variable {set : KeyspaceSet utf8} {contents : Contents} {bytes rest data : Bytes} {id : Byte}

theorem readSection_sectionBytes {k : Byte × Bytes} (hk : k ∈ set.keyspaces)
    (hsize : estimatedSize (contents k.1) < 2 ^ 32) (rest : Bytes) :
    readSection utf8 (sectionBytes contents k ++ rest) =
      .ok ((k.1, exportData (contents k.1)), rest) := by
  have hname : (lowByte k.2.length).val = k.2.length := Nat.mod_eq_of_lt (set.name_lt k hk)
  have hdata := decodeLE_encodeLE_four ((length_exportData (contents k.1)).trans_lt hsize)
  simp only [readSection, sectionBytes, append_assoc]
  rw [readExact_append (show [k.1, lowByte k.2.length].length = 2 from rfl)]
  simp only [getD_cons_succ, getD_cons_zero, hname]
  rw [← append_assoc, readExact_append (by simp)]
  simp only [take_left, drop_left, set.name_utf8 k hk, Bool.not_true, Bool.false_eq_true,
    if_false, hdata]
  rw [readExact_append rfl]

theorem length_of_readSection (h : readSection utf8 bytes = .ok ((id, data), rest)) :
    data.length < 2 ^ 32 := by
  simp only [readSection] at h
  split at h
  · cases h
  rename_i head rest₂ hhead
  split at h
  · cases h
  rename_i name rest₃ hname
  split_ifs at h
  split at h
  · cases h
  rename_i data' rest₄ hdata
  cases h
  have hlen : (name.drop (head.getD 1 0).val).length = 4 := by
    rw [length_drop, (readExact_eq_some hname).1]
    omega
  have hlt := decodeLE_lt (name.drop (head.getD 1 0).val)
  rw [hlen, ← (readExact_eq_some hdata).1] at hlt
  exact hlt.trans_eq (by norm_num)

def sections (set : KeyspaceSet utf8) : Nat → Bytes → List (Byte × Data) × Except Failure Unit
  | 0, _ => ([], .ok ())
  | count + 1, bytes =>
    match readSection utf8 bytes with
    | .error e => ([], .error (.malformed e))
    | .ok ((id, data), rest) =>
      if keyspaceMaximumCount ≤ id.val then ([], .error .panicked)
      else if id ∈ set.keyspaces.map Prod.fst then
        match importData data with
        | .error e => ([], .error (.malformed e))
        | .ok data => ((id, data) :: (sections set count rest).1, (sections set count rest).2)
      else sections set count rest

def restore (contents : Contents) (imported : List (Byte × Data)) : Contents :=
  imported.foldl (fun contents p => Function.update contents p.1 p.2) contents

theorem importSections_eq (count : Nat) (bytes : Bytes) (contents : Contents) :
    importSections set count bytes contents =
      ((sections set count bytes).2, restore contents (sections set count bytes).1) := by
  induction count generalizing bytes contents with
  | zero => rfl
  | succ count ih =>
    rw [importSections, sections]
    split
    · rfl
    · split_ifs
      · rfl
      · split
        · rfl
        · exact ih _ _
      · exact ih _ _

theorem sections_small (count : Nat) (bytes : Bytes) :
    ∀ p ∈ (sections set count bytes).1, estimatedSize p.2 < 2 ^ 32 := by
  induction count generalizing bytes with
  | zero => simp [sections]
  | succ count ih =>
    rw [sections]
    split
    · simp
    · rename_i id data rest hread
      split_ifs
      · simp
      · split
        · simp
        · rename_i imported himport
          refine forall_mem_cons.mpr ⟨?_, ih rest⟩
          exact (estimatedSize_importData himport).trans_lt (length_of_readSection hread)
      · exact ih rest

theorem restore_apply (imported : List (Byte × Data)) (contents : Contents) (id : Byte) :
    restore contents imported id =
      ((imported.reverse.find? fun p => p.1 = id).map Prod.snd).getD (contents id) := by
  induction imported generalizing contents with
  | nil => rfl
  | cons p imported ih =>
    rw [restore, foldl_cons, ← restore, ih, reverse_cons, find?_append]
    cases imported.reverse.find? fun p => decide (p.1 = id) with
    | some q => rfl
    | none =>
      by_cases hid : p.1 = id
      · subst hid
        simp
      · simp [hid, Function.update_of_ne (Ne.symm hid)]

theorem sections_export (l : List (Byte × Bytes)) (hl : ∀ k ∈ l, k ∈ set.keyspaces)
    (hfit : ∀ k ∈ l, ∀ e ∈ (contents k.1).entries, EntryFits e)
    (hsize : ∀ k ∈ l, estimatedSize (contents k.1) < 2 ^ 32) :
    sections set l.length (l.flatMap (sectionBytes contents)) =
      (l.map fun k => (k.1, contents k.1), .ok ()) := by
  induction l with
  | nil => rfl
  | cons k l ih =>
    obtain ⟨hk, hl⟩ := forall_mem_cons.mp hl
    obtain ⟨hfit, hfits⟩ := forall_mem_cons.mp hfit
    obtain ⟨hsize, hsizes⟩ := forall_mem_cons.mp hsize
    have hlt : ¬ keyspaceMaximumCount ≤ k.1.val := not_le.mpr (set.id_lt k hk)
    simp only [flatMap_cons, length_cons, sections, readSection_sectionBytes hk hsize,
      if_neg hlt, if_pos (mem_map_of_mem hk), importData_exportData hfit,
      ih hl hfits hsizes, map_cons]

theorem restore_map {l : List (Byte × Bytes)} {k : Byte × Bytes} (hk : k ∈ l)
    (target : Contents) :
    restore target (l.map fun k => (k.1, contents k.1)) k.1 = contents k.1 := by
  rw [restore_apply]
  cases hfind : (l.map fun k => (k.1, contents k.1)).reverse.find? fun p => decide (p.1 = k.1) with
  | none =>
    rw [find?_eq_none] at hfind
    have hmem : (k.1, contents k.1) ∈ (l.map fun k => (k.1, contents k.1)).reverse :=
      mem_reverse.mpr (mem_map_of_mem hk)
    exact absurd (hfind _ hmem) (by simp)
  | some p =>
    have hid : p.1 = k.1 := by simpa using find?_some hfind
    obtain ⟨k', -, rfl⟩ := mem_map.mp (mem_reverse.mp (mem_of_find?_eq_some hfind))
    simp only at hid
    simp [hid]

theorem restore_small {imported : List (Byte × Data)} {bound : Nat}
    (h : ∀ p ∈ imported, estimatedSize p.2 < bound)
    (hcontents : ∀ id, estimatedSize (contents id) < bound) (id : Byte) :
    estimatedSize (restore contents imported id) < bound := by
  rw [restore_apply]
  cases hfind : imported.reverse.find? fun p => decide (p.1 = id) with
  | none => exact hcontents id
  | some p => exact h p (mem_reverse.mp (mem_of_find?_eq_some hfind))

end Sections

section Snapshot
variable {set : KeyspaceSet utf8} {bytes : Bytes} {contents : Contents} {watermark : Nat}

def snapshotSections (set : KeyspaceSet utf8) (bytes : Bytes) :
    List (Byte × Data) × Except Failure Nat :=
  match readHeader bytes with
  | .error e => ([], .error (.malformed e))
  | .ok (watermark, count, rest) =>
    ((sections set count rest).1, (sections set count rest).2.map fun _ => watermark)

theorem importSnapshotWithWatermark_eq (set : KeyspaceSet utf8) (bytes : Bytes)
    (contents : Contents) :
    importSnapshotWithWatermark set bytes contents =
      ((snapshotSections set bytes).2, restore contents (snapshotSections set bytes).1) := by
  rw [importSnapshotWithWatermark, snapshotSections]
  cases readHeader bytes with
  | error e => rfl
  | ok header =>
    obtain ⟨watermark, count, rest⟩ := header
    simp only [importSections_eq]
    cases (sections set count rest).2 <;> rfl

theorem readHeader_append {header : Bytes} {count : Byte} (hlen : header.length = 16)
    (hmagic : header.take 6 = magic) (hversion : header.getD 6 0 = version)
    (hwatermark : decodeLE ((header.drop 7).take 8) = watermark)
    (hcount : header.getD 15 0 = count) (rest : Bytes) :
    readHeader (header ++ rest) = .ok (watermark, count.val, rest) := by
  simp only [readHeader, readExact_append hlen, hmagic, hversion, ne_eq, not_true_eq_false,
    if_false, hwatermark, hcount]

theorem readHeader_export (hw : watermark < 2 ^ 64) :
    readHeader (exportSnapshotWithWatermark set contents watermark) =
      .ok (watermark, set.keyspaces.length, set.keyspaces.flatMap (sectionBytes contents)) := by
  have hcount : set.keyspaces.length = (lowByte set.keyspaces.length).val :=
    (Nat.mod_eq_of_lt (set.count_le.trans_lt (by decide))).symm
  rw [exportSnapshotWithWatermark]
  conv_rhs => rw [hcount]
  refine readHeader_append (by simp [magic]) (by simp [magic]) (by simp [magic]) ?_ ?_ _
  · have hdrop : (magic ++ [version] ++ encodeLE 8 watermark ++
        [lowByte set.keyspaces.length]).drop 7 =
        encodeLE 8 watermark ++ [lowByte set.keyspaces.length] := by simp [magic]
    rw [hdrop, take_left' (length_encodeLE 8 _), decodeLE_encodeLE (hw.trans_eq (by norm_num))]
  · simp [magic, getD_eq_getElem?_getD]

theorem snapshotSections_export (hw : watermark < 2 ^ 64)
    (hfit : ∀ k ∈ set.keyspaces, ∀ e ∈ (contents k.1).entries, EntryFits e)
    (hsize : ∀ k ∈ set.keyspaces, estimatedSize (contents k.1) < 2 ^ 32) :
    snapshotSections set (exportSnapshotWithWatermark set contents watermark) =
      (set.keyspaces.map fun k => (k.1, contents k.1), .ok watermark) := by
  rw [snapshotSections, readHeader_export hw]
  simp only [sections_export set.keyspaces (fun _ hk => hk) hfit hsize]
  rfl

theorem snapshotSections_small (set : KeyspaceSet utf8) (bytes : Bytes) :
    ∀ p ∈ (snapshotSections set bytes).1, estimatedSize p.2 < 2 ^ 32 := by
  rw [snapshotSections]
  split
  · simp
  · exact sections_small _ _

/-- Importing what was exported gives the watermark and the contents back, whatever the storage
that imports it held. -/
def MemoryStorage.RoundTrips (set : KeyspaceSet utf8) (st : MemoryStorage) : Prop :=
  ∀ target : MemoryStorage, ∃ after,
    target.importSnapshot set (st.exportSnapshot set) = (.ok st.watermark, after) ∧
      after.watermark = st.watermark ∧ ∀ k ∈ set.keyspaces, after.contents k.1 = st.contents k.1

variable {st : MemoryStorage}

theorem MemoryStorage.contents_of_importSnapshot {after : MemoryStorage}
    (h : st.importSnapshot set bytes = (.ok watermark, after)) :
    watermark + 1 < 2 ^ 64 ∧
      after.contents = restore st.contents (snapshotSections set bytes).1 := by
  rw [importSnapshot, importSnapshotWithWatermark_eq] at h
  split at h
  · cases h
  · rename_i watermark' contents' hsections
    split_ifs at h with hover
    · cases congrArg Prod.fst h
    obtain ⟨hok, rfl⟩ := Prod.mk.inj h
    obtain rfl := Except.ok.inj hok
    exact ⟨not_le.mp hover, (congrArg Prod.snd hsections).symm⟩

theorem MemoryStorage.watermark_of_importSnapshot {after : MemoryStorage}
    (h : st.importSnapshot set bytes = (.ok watermark, after)) : after.watermark = watermark := by
  rw [importSnapshot] at h
  split at h
  · cases h
  · split_ifs at h
    · cases h
    · cases h
      rfl

theorem MemoryStorage.RoundTrips.size_lt (h : st.RoundTrips set) {k : Byte × Bytes}
    (hk : k ∈ set.keyspaces) : estimatedSize (st.contents k.1) < 2 ^ 32 := by
  obtain ⟨after, himport, -, hafter⟩ := h ⟨fun _ => .empty, 0, 0⟩
  rw [← hafter k hk, (contents_of_importSnapshot himport).2]
  exact restore_small (snapshotSections_small set _) (fun _ => Nat.pos_of_ne_zero (by norm_num)) k.1

/-- A snapshot round trips exactly if the blob of each keyspace is shorter than 2³² bytes and the
watermark has a successor. -/
theorem MemoryStorage.roundTrips_iff (set : KeyspaceSet utf8) (st : MemoryStorage)
    (hfit : ∀ k ∈ set.keyspaces, ∀ e ∈ (st.contents k.1).entries, EntryFits e)
    (hw : st.watermark < 2 ^ 64) :
    st.RoundTrips set ↔
      (∀ k ∈ set.keyspaces, estimatedSize (st.contents k.1) < 2 ^ 32) ∧
        st.watermark + 1 < 2 ^ 64 := by
  constructor
  · intro h
    obtain ⟨after, himport, -⟩ := h ⟨fun _ => .empty, 0, 0⟩
    exact ⟨fun k hk => h.size_lt hk, (contents_of_importSnapshot himport).1⟩
  · rintro ⟨hsize, hnext⟩ target
    refine ⟨⟨restore target.contents (set.keyspaces.map fun k => (k.1, st.contents k.1)),
      st.watermark, st.watermark + 1⟩, ?_, rfl, fun k hk => restore_map hk target.contents⟩
    rw [importSnapshot, exportSnapshot, importSnapshotWithWatermark_eq,
      snapshotSections_export hw hfit hsize]
    exact if_neg (not_le.mpr hnext)

/-- Import does not panic, and where it fails the keyspaces are what they were. -/
def ImportsAtomically (set : KeyspaceSet utf8) (bytes : Bytes) (contents : Contents) : Prop :=
  (importSnapshotWithWatermark set bytes contents).1 ≠ .error .panicked ∧
    ∀ e, (importSnapshotWithWatermark set bytes contents).1 = .error (.malformed e) →
      (importSnapshotWithWatermark set bytes contents).2 = contents

/-- The sections one after the other up to one that cannot be read, and whether there is none. -/
def readSections (utf8 : Bytes → Bool) : Nat → Bytes → List (Byte × Bytes) × Bool
  | 0, _ => ([], true)
  | count + 1, bytes =>
    match readSection utf8 bytes with
    | .error _ => ([], false)
    | .ok (p, rest) => (p :: (readSections utf8 count rest).1, (readSections utf8 count rest).2)

/-- A section that import goes past: of no keyspace, or with entries that can be read. -/
def passes (set : KeyspaceSet utf8) (p : Byte × Bytes) : Bool :=
  !decide (p.1 ∈ set.keyspaces.map Prod.fst) || (importData p.2).isOk

def reachedSections (set : KeyspaceSet utf8) (bytes : Bytes) : List (Byte × Bytes) :=
  match readHeader bytes with
  | .error _ => []
  | .ok (_, count, rest) => (readSections utf8 count rest).1.takeWhile (passes set)

def wellFormed (set : KeyspaceSet utf8) (bytes : Bytes) : Bool :=
  match readHeader bytes with
  | .error _ => false
  | .ok (_, count, rest) =>
    (readSections utf8 count rest).2 && (readSections utf8 count rest).1.all (passes set)

def imported (set : KeyspaceSet utf8) (p : Byte × Bytes) : Option (Byte × Data) :=
  if p.1 ∈ set.keyspaces.map Prod.fst then (importData p.2).toOption.map (p.1, ·) else none

theorem not_mem_of_le {id : Byte} (h : keyspaceMaximumCount ≤ id.val) :
    id ∉ set.keyspaces.map Prod.fst := by
  intro hmem
  obtain ⟨k, hk, rfl⟩ := mem_map.mp hmem
  exact absurd (set.id_lt k hk) (not_lt.mpr h)

/-- What `sections` stands for: a panic where an id out of range is reached, and otherwise the
reached sections and whether the reading failed. -/
structure SectionsOf (set : KeyspaceSet utf8) (read : List (Byte × Bytes)) (whole : Bool)
    (found : List (Byte × Data)) (result : Except Failure Unit) : Prop where
  panics : (∃ p ∈ read.takeWhile (passes set), keyspaceMaximumCount ≤ p.1.val) →
    result = .error .panicked
  found_eq : (∀ p ∈ read.takeWhile (passes set), p.1.val < keyspaceMaximumCount) →
    found = (read.takeWhile (passes set)).filterMap (imported set)
  result_eq : (∀ p ∈ read.takeWhile (passes set), p.1.val < keyspaceMaximumCount) →
    if whole && read.all (passes set) then result = .ok ()
    else ∃ e, result = .error (.malformed e)

section SectionsOf
variable {read : List (Byte × Bytes)} {whole : Bool} {found : List (Byte × Data)}
  {result : Except Failure Unit} {p : Byte × Bytes}

theorem SectionsOf.cons (h : SectionsOf set read whole found result)
    (hpass : passes set p = true) (hid : p.1.val < keyspaceMaximumCount) :
    SectionsOf set (p :: read) whole ((imported set p).toList ++ found) result := by
  have htake : takeWhile (passes set) (p :: read) = p :: takeWhile (passes set) read :=
    takeWhile_cons_of_pos hpass
  refine ⟨fun hout => h.panics ?_, fun hin => ?_, fun hin => ?_⟩ <;> rw [htake] at *
  · obtain ⟨q, hq, hle⟩ := hout
    rcases mem_cons.mp hq with rfl | hq
    · exact absurd hid (not_lt.mpr hle)
    · exact ⟨q, hq, hle⟩
  · rw [h.found_eq (forall_mem_cons.mp hin).2, filterMap_cons]
    cases imported set p <;> rfl
  · rw [all_cons, hpass, Bool.true_and]
    exact h.result_eq (forall_mem_cons.mp hin).2

theorem SectionsOf.stop (hpass : passes set p = false) (e : Malformed) :
    SectionsOf set (p :: read) whole [] (.error (.malformed e)) := by
  have htake : takeWhile (passes set) (p :: read) = [] := takeWhile_cons_of_neg (by simp [hpass])
  refine ⟨fun hout => ?_, fun _ => by rw [htake]; rfl, fun _ => ?_⟩
  · rw [htake] at hout
    obtain ⟨q, hq, -⟩ := hout
    cases hq
  · rw [all_cons, hpass, Bool.false_and, Bool.and_false]
    exact ⟨e, rfl⟩

/-- The id indexes nothing. -/
theorem SectionsOf.panicked (hid : keyspaceMaximumCount ≤ p.1.val) :
    SectionsOf set (p :: read) whole found (.error .panicked) := by
  have hpass : passes set p = true := by simp [passes, not_mem_of_le hid]
  have hout : ¬ ∀ q ∈ takeWhile (passes set) (p :: read), q.1.val < keyspaceMaximumCount := by
    rw [takeWhile_cons_of_pos hpass]
    exact fun h => absurd (h p mem_cons_self) (not_lt.mpr hid)
  exact ⟨fun _ => rfl, fun h => absurd h hout, fun h => absurd h hout⟩

end SectionsOf

theorem sectionsOf_sections (set : KeyspaceSet utf8) (count : Nat) (bytes : Bytes) :
    SectionsOf set (readSections utf8 count bytes).1 (readSections utf8 count bytes).2
      (sections set count bytes).1 (sections set count bytes).2 := by
  induction count generalizing bytes with
  | zero => exact ⟨by simp [readSections], fun _ => rfl, fun _ => rfl⟩
  | succ count ih =>
    rw [readSections, sections]
    cases readSection utf8 bytes with
    | error e => exact ⟨by simp, fun _ => rfl, fun _ => ⟨e, rfl⟩⟩
    | ok r =>
      obtain ⟨⟨id, data⟩, rest⟩ := r
      dsimp only
      split_ifs with hid hmem
      · exact .panicked hid
      · cases himport : importData data with
        | error e => exact .stop (by simp [passes, hmem, himport, Except.isOk, Except.toBool]) e
        | ok entries =>
          have h := (ih rest).cons (p := (id, data))
            (by simp [passes, himport, Except.isOk, Except.toBool]) (not_le.mp hid)
          rwa [imported, if_pos hmem, himport] at h
      · have h := (ih rest).cons (p := (id, data)) (by simp [passes, hmem]) (not_le.mp hid)
        rwa [imported, if_neg hmem] at h

theorem restore_eq_iff {found : List (Byte × Data)} : restore contents found = contents ↔
    ∀ id data, (found.reverse.find? fun p => p.1 = id) = some (id, data) → data = contents id := by
  refine ⟨fun h id data hfind => ?_, fun h => funext fun id => ?_⟩
  · have hid := congrFun h id
    rwa [restore_apply, hfind] at hid
  · rw [restore_apply]
    cases hfind : found.reverse.find? fun p => decide (p.1 = id) with
    | none => rfl
    | some p =>
      obtain rfl : p.1 = id := by simpa using find?_some hfind
      exact h p.1 p.2 hfind

theorem exists_of_passes {id : Byte} {blob : Bytes} (hid : id ∈ set.keyspaces.map Prod.fst)
    (h : passes set (id, blob) = true) : ∃ data, importData blob = .ok data := by
  cases himport : importData blob with
  | ok data => exact ⟨data, rfl⟩
  | error e => simp [passes, hid, himport, Except.isOk, Except.toBool] at h

/-- The import of a keyspace that is found first is that of the first section for it. -/
theorem find?_imported {read : List (Byte × Bytes)} (hread : ∀ p ∈ read, passes set p = true)
    {id : Byte} {data : Data} :
    ((read.filterMap (imported set)).find? fun p => p.1 = id) = some (id, data) ↔
      id ∈ set.keyspaces.map Prod.fst ∧ ∃ blob,
        (read.find? fun p => p.1 = id) = some (id, blob) ∧ importData blob = .ok data := by
  induction read with
  | nil => simp
  | cons p read ih =>
    obtain ⟨hp, hread⟩ := forall_mem_cons.mp hread
    have ih := ih hread
    obtain ⟨id', blob⟩ := p
    by_cases hmem : id' ∈ set.keyspaces.map Prod.fst
    · obtain ⟨entries, himport⟩ := exists_of_passes hmem hp
      have himported : imported set (id', blob) = some (id', entries) := by
        rw [imported, if_pos hmem, himport]
        rfl
      rw [filterMap_cons_some himported]
      by_cases hid : id' = id
      · subst hid
        simp [hmem, himport]
      · rw [find?_cons_of_neg (by simpa using hid), find?_cons_of_neg (by simpa using hid), ih]
    · rw [filterMap_cons_none (by rw [imported, if_neg hmem]), ih]
      refine and_congr_right fun hid => ?_
      rw [find?_cons_of_neg (by
        have : id' ≠ id := fun h => hmem (h ▸ hid)
        simpa using this)]

end Snapshot

def twoKeyspaces : KeyspaceSet fun _ => true where
  keyspaces := [(0, [97]), (3, [98])]
  count_le := by decide
  ids_nodup := by decide
  id_lt := by decide
  name_lt := by decide
  name_utf8 := by decide

def oneEntry : Data := ⟨[([1], [2, 3])], by decide⟩

theorem roundTrips_oneEntry :
    MemoryStorage.RoundTrips twoKeyspaces ⟨fun _ => oneEntry, 5, 6⟩ :=
  (MemoryStorage.roundTrips_iff twoKeyspaces ⟨fun _ => oneEntry, 5, 6⟩
    (by simp [oneEntry, EntryFits]) (by norm_num)).mpr
      ⟨by simp [oneEntry, estimatedSize], by norm_num⟩

def twoValues (n : Nat) : Data :=
  ⟨[([0], List.replicate n 0), ([1], List.replicate n 0)], by simp; decide⟩

theorem entryFits_twoValues {n : Nat} (h : n < 2 ^ 32) :
    ∀ e ∈ (twoValues n).entries, EntryFits e := by
  intro e he
  rcases mem_pair.mp he with rfl | rfl <;> exact ⟨by simp, by simpa using h⟩

theorem estimatedSize_twoValues (n : Nat) : estimatedSize (twoValues n) = 2 * (9 + n) := by
  simp [twoValues, estimatedSize]
  omega

theorem largeData_not_roundTrips :
    (∀ e ∈ (twoValues (2 ^ 31)).entries, EntryFits e) ∧
      ¬ MemoryStorage.RoundTrips twoKeyspaces ⟨fun _ => twoValues (2 ^ 31), 5, 6⟩ := by
  refine ⟨entryFits_twoValues (by norm_num), fun h => ?_⟩
  have hsize := h.size_lt (k := (0, [97])) mem_cons_self
  rw [estimatedSize_twoValues] at hsize
  norm_num at hsize

def header (count : Byte) : Bytes := magic ++ [version] ++ encodeLE 8 0 ++ [count]

def emptySection (id : Byte) : Bytes := [id, 0, 0, 0, 0, 0]

end TypeDB.Storage.Keyspaces
