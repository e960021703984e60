import TypeDB.Foundations.Bytes
import TypeDB.Foundations.OrderedMap

/-! The write-ahead log of `durability/wal.rs`: records framed by a header in files named after
the sequence number of their first record. A directory maps such a number to the bytes of the
file; names are zero-padded to 25 digits, so the order of paths is the order of numbers. -/

namespace TypeDB.Durability
open ByteString

abbrev DurabilityRecordType := Byte

def maxWalFileSize : Nat := 16 * 1024 * 1024

structure RawRecord where
  sequenceNumber : Nat
  recordType : DurabilityRecordType
  bytes : Bytes
  deriving DecidableEq

/-- The lz4 frame encoder and decoder. `decode` is given the bytes the reader may take; it
answers with the content and the number of bytes it read. -/
structure Codec where
  encode : Bytes → Bytes
  decode : Bytes → Option (Bytes × Nat)

/-- What the log relies on: a frame decodes to what was encoded and is read to its last byte,
and a decoder that accepts the beginning of a frame has read all of what it was given. -/
structure Codec.Lawful (codec : Codec) : Prop where
  decode_encode : ∀ b, codec.decode (codec.encode b) = some (b, (codec.encode b).length)
  torn : ∀ b p d n, p <+: codec.encode b → codec.decode p = some (d, n) → n = p.length

inductive DurabilityServiceError
  | io
  | decompression
  deriving DecidableEq

structure RecordHeader where
  sequenceNumber : Nat
  len : Nat
  recordType : DurabilityRecordType

def RecordHeader.write (h : RecordHeader) : Bytes :=
  encodeBE 8 h.sequenceNumber ++ encodeBE 8 h.len ++ [h.recordType]

structure File where
  start : Nat
  len : Nat
  deriving DecidableEq

abbrev Directory := OrderedMap Nat Bytes

structure Files where
  directory : Directory
  writer : Option Nat
  files : List File

def File.openAt (directory : Directory) (start : Nat) : File :=
  ⟨start, ((directory.get? start).map List.length).getD 0⟩

/-- `File::writer` opens for appending and creates a missing file. -/
def File.createIn (directory : Directory) (f : File) : Directory :=
  match directory.get? f.start with
  | some _ => directory
  | none => directory.insert f.start []

def Files.openNewFileAt (fs : Files) (start : Nat) : Files :=
  let file := File.openAt fs.directory start
  { directory := file.createIn fs.directory, writer := some start, files := fs.files ++ [file] }

def RawRecord.frame (codec : Codec) (r : RawRecord) : Bytes :=
  let compressed := codec.encode r.bytes
  RecordHeader.write ⟨r.sequenceNumber, compressed.length, r.recordType⟩ ++ compressed

def Files.mustRoll (fs : Files) : Bool :=
  match fs.files.getLast? with
  | none => true
  | some last => decide (maxWalFileSize ≤ last.len)

def setLastLen (len : Nat) : List File → List File
  | [] => []
  | [f] => [{ f with len := len }]
  | f :: fs => f :: setLastLen len fs

/-- `Files::write_record`; `none` where the missing writer is unwrapped. -/
def Files.writeRecord (codec : Codec) (fs : Files) (r : RawRecord) : Option Files := do
  let fs := if fs.mustRoll then fs.openNewFileAt r.sequenceNumber else fs
  let path ← fs.writer
  let content := (fs.directory.get? path).getD [] ++ r.frame codec
  some { fs with
    directory := fs.directory.insert path content
    files := setLastLen content.length fs.files }

structure WAL where
  nextSequenceNumber : Nat
  files : Files

def WAL.current (wal : WAL) : Nat := wal.nextSequenceNumber
def WAL.previous (wal : WAL) : Nat := wal.nextSequenceNumber - 1

/-- A call of `sequenced_write` or `unsequenced_write`. -/
inductive WriteCall
  | sequenced (recordType : DurabilityRecordType) (bytes : Bytes)
  | unsequenced (recordType : DurabilityRecordType) (bytes : Bytes)
  deriving DecidableEq

def WAL.record (wal : WAL) : WriteCall → RawRecord
  | .sequenced t b => ⟨wal.nextSequenceNumber, t, b⟩
  | .unsequenced t b => ⟨wal.previous, t, b⟩

def WriteCall.isSequenced : WriteCall → Bool
  | .sequenced .. => true
  | .unsequenced .. => false

def WAL.write (codec : Codec) (wal : WAL) (call : WriteCall) : Option WAL := do
  let files ← wal.files.writeRecord codec (wal.record call)
  some ⟨if call.isSequenced then wal.nextSequenceNumber + 1 else wal.nextSequenceNumber, files⟩

structure FileReader where
  file : File
  content : Bytes
  position : Nat

def FileReader.new (directory : Directory) (f : File) : Except DurabilityServiceError FileReader :=
  match directory.get? f.start with
  | some content => .ok ⟨f, content, 0⟩
  | none => .error .io

def FileReader.atEnd (r : FileReader) : Bool := decide (r.position = r.file.len)

def FileReader.rest (r : FileReader) : Bytes := r.content.drop r.position

def FileReader.peekSequenceNumber (r : FileReader) :
    Except DurabilityServiceError (Option Nat) :=
  if r.atEnd then .ok none
  else if r.rest.length < 8 then .error .io
  else .ok (some (decodeBE (r.rest.take 8)))

def FileReader.readHeader (r : FileReader) : Except DurabilityServiceError RecordHeader :=
  match r.rest[16]? with
  | none => .error .io
  | some t => .ok ⟨decodeBE (r.rest.take 8), decodeBE ((r.rest.drop 8).take 8), t⟩

def headerLen : Nat := 17

def FileReader.skipOneRecord (r : FileReader) : Except DurabilityServiceError FileReader :=
  if r.atEnd then .ok r
  else do
    let h ← r.readHeader
    .ok { r with position := r.position + headerLen + h.len }

def FileReader.readOneRecord (codec : Codec) (r : FileReader) :
    Except DurabilityServiceError (Option (RawRecord × FileReader)) :=
  if r.atEnd then .ok none
  else do
    let h ← r.readHeader
    match codec.decode ((r.rest.drop headerLen).take h.len) with
    | none => .error .decompression
    | some (bytes, n) =>
      .ok (some (⟨h.sequenceNumber, h.recordType, bytes⟩,
        { r with position := r.position + headerLen + n }))

structure RecordIterator where
  directory : Directory
  reader : Option FileReader
  rest : List File

/-- The index of the last of the leading files that start below `start`, or the first file. -/
def startIndex (files : List File) (start : Nat) : Nat :=
  (files.takeWhile fun f => decide (f.start < start)).length - 1

/-- The loop of `RecordIterator::new` that skips to the first record numbered `start`. Every
round moves the reader on, so the file's length bounds the number of rounds. -/
def skipTo (start : Nat) :
    Nat → Nat → FileReader → Except DurabilityServiceError FileReader
  | 0, _, r => .ok r
  | fuel + 1, currentStart, r =>
    if currentStart < start then do
      match ← r.peekSequenceNumber with
      | none => .ok r
      | some n => if n = start then .ok r else skipTo start fuel n (← r.skipOneRecord)
    else .ok r

def RecordIterator.new (fs : Files) (start : Nat) :
    Except DurabilityServiceError RecordIterator :=
  match fs.files.drop (startIndex fs.files start) with
  | [] => .ok ⟨fs.directory, none, []⟩
  | f :: rest => do
    let reader ← FileReader.new fs.directory f
    let reader ← skipTo start (reader.content.length + 1) f.start reader
    .ok ⟨fs.directory, some reader, rest⟩

/-- `Iterator::next`: at the end of a file the next one is opened. -/
def nextFrom (codec : Codec) (directory : Directory) :
    List File → FileReader → Except DurabilityServiceError (Option (RawRecord × RecordIterator))
  | [], r => do
    match ← r.readOneRecord codec with
    | some (record, r') => .ok (some (record, ⟨directory, some r', []⟩))
    | none => .ok none
  | f :: rest, r => do
    match ← r.readOneRecord codec with
    | some (record, r') => .ok (some (record, ⟨directory, some r', f :: rest⟩))
    | none => nextFrom codec directory rest (← FileReader.new directory f)

def RecordIterator.next (codec : Codec) (it : RecordIterator) :
    Except DurabilityServiceError (Option (RawRecord × RecordIterator)) :=
  match it.reader with
  | none => .ok none
  | some r => nextFrom codec it.directory it.rest r

def RecordIterator.collect (codec : Codec) :
    Nat → RecordIterator → Except DurabilityServiceError (List RawRecord)
  | 0, _ => .ok []
  | fuel + 1, it => do
    match ← it.next codec with
    | none => .ok []
    | some (record, it) => .ok (record :: (← collect codec fuel it))

/-- An iteration reads every file at most once, a record at a time. -/
def Files.iterations (fs : Files) : Nat := (fs.files.map (·.len)).sum + 1

def Files.iterAnyFrom (codec : Codec) (fs : Files) (start : Nat) :
    Except DurabilityServiceError (List RawRecord) := do
  (← RecordIterator.new fs start).collect codec fs.iterations

/-- The loop of `File::trim_corrupted_tail`: the length to cut the file to, if any. -/
def trimTo (codec : Codec) : Nat → FileReader → Nat → Option Nat
  | 0, _, _ => none
  | fuel + 1, r, last =>
    match r.readOneRecord codec with
    | .ok none => none
    | .ok (some (record, r')) =>
      if record.bytes.isEmpty then some last else trimTo codec fuel r' r'.position
    | .error _ => some last

/-- `Files::init_files_writer`: the files of the directory in order, the last one trimmed. -/
def Files.open (codec : Codec) (directory : Directory) : Files :=
  let files := directory.entries.map fun e => ⟨e.1, e.2.length⟩
  match directory.entries.getLast? with
  | none => ⟨directory, none, files⟩
  | some (start, content) =>
    match trimTo codec (content.length + 1) ⟨⟨start, content.length⟩, content, 0⟩ 0 with
    | none => ⟨directory, some start, files⟩
    | some len => ⟨directory.insert start (content.take len), some start, setLastLen len files⟩

/-- `WAL::load`; `none` where an error is returned or unwrapped. -/
def WAL.load (codec : Codec) (directory : Directory) : Option WAL :=
  let files := Files.open codec directory
  let start := (files.files.map (·.start)).max?.getD 0
  match files.iterAnyFrom codec start with
  | .error _ => none
  | .ok records => some ⟨((records.getLast?).map (·.sequenceNumber + 1)).getD 1, files⟩

def WAL.create : WAL := ⟨1, ⟨OrderedMap.empty, none, []⟩⟩

end TypeDB.Durability
