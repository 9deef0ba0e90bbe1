import ZenFSPlus.Db.LogWriter

/-!
`log::Reader` of `db/log_reader.cc`. `file` is what `file_` has still to return, and reading it succeeds;
what the reporter is told is kept in `reports`. `ReadRecord` need not return on a recycled log, so its loop
takes fuel.
-/

namespace ZenFSPlus.Db.Log

open Util

inductive WALRecoveryMode
  | tolerateCorruptedTailRecords | absoluteConsistency | pointInTimeRecovery | skipAnyCorruptedRecords
  deriving DecidableEq, Repr

/-- What `ReadPhysicalRecord` returns: a record type, one of the special values that follow the last record
type, or another value of the type byte. -/
inductive PhysicalType
  | record (t : RecordType)
  | eof | badRecord | badHeader | oldRecord | badRecordLen | badRecordChecksum
  | unknown (code : ℕ)
  deriving DecidableEq, Repr

def PhysicalType.ofChar (c : UInt8) : PhysicalType :=
  match c.toNat with
  | 0 => .record .zeroType
  | 1 => .record .fullType
  | 2 => .record .firstType
  | 3 => .record .middleType
  | 4 => .record .lastType
  | 5 => .record .recyclableFullType
  | 6 => .record .recyclableFirstType
  | 7 => .record .recyclableMiddleType
  | 8 => .record .recyclableLastType
  | 9 => .eof
  | 10 => .badRecord
  | 11 => .badHeader
  | 12 => .oldRecord
  | 13 => .badRecordLen
  | 14 => .badRecordChecksum
  | n => .unknown (if n < 128 then n else n + (2 ^ 32 - 256))

def PhysicalType.isRecyclable : PhysicalType → Bool
  | .record t => t.isRecyclable
  | _ => false

structure Reader where
  file : Bytes
  checksum : Bool
  logNumber : ℕ
  buffer : Bytes := []
  eof : Bool := false
  eofOffset : ℕ := 0
  lastRecordOffset : ℕ := 0
  endOfBufferOffset : ℕ := 0
  recycled : Bool := false
  reports : List (ℕ × String) := []

structure Physical where
  type : PhysicalType
  fragment : Bytes := []
  dropSize : ℕ := 0

namespace Reader

def reportCorruption (r : Reader) (bytes : ℕ) (reason : String) : Reader :=
  { r with reports := r.reports ++ [(bytes, reason)] }

/-- `none` is the result `true`; otherwise `*error` and `*drop_size`. -/
def readMore (r : Reader) : Reader × Option Physical :=
  if !r.eof then
    let buffer := r.file.take kBlockSize
    let r := { r with
      file := r.file.drop kBlockSize
      buffer
      endOfBufferOffset := r.endOfBufferOffset + buffer.length }
    (if buffer.length < kBlockSize then { r with eof := true, eofOffset := buffer.length } else r, none)
  else if r.buffer ≠ [] then
    ({ r with buffer := [] }, some { type := .badHeader, dropSize := r.buffer.length })
  else (r, some { type := .eof })

def takeFragment (r : Reader) (headerSize : ℕ) (type : PhysicalType) (length : ℕ) : Reader × Physical :=
  if headerSize + length > r.buffer.length then
    ({ r with buffer := [] }, { type := .badRecordLen, dropSize := r.buffer.length })
  else if type = .record .zeroType ∧ length = 0 then ({ r with buffer := [] }, { type := .badRecord })
  else if r.checksum ∧ Crc32c.value ((r.buffer.drop 6).take (length + headerSize - 6)) ≠
      Crc32c.unmask (.ofNat 32 (decodeFixed32 r.buffer)) then
    ({ r with buffer := [] }, { type := .badRecordChecksum, dropSize := r.buffer.length })
  else
    ({ r with buffer := r.buffer.drop (headerSize + length) },
      { type, fragment := (r.buffer.drop headerSize).take length })

def markRecycled (r : Reader) : Reader :=
  if r.endOfBufferOffset - r.buffer.length = 0 then { r with recycled := true } else r

def unread (r : Reader) : ℕ := r.file.length + if r.eof then 0 else 1

theorem readMore_of_not_eof {r : Reader} (h : r.eof = false) : r.readMore = ({ r with
      file := r.file.drop kBlockSize
      buffer := r.file.take kBlockSize
      endOfBufferOffset := r.endOfBufferOffset + (r.file.take kBlockSize).length
      eof := (r.file.take kBlockSize).length < kBlockSize
      eofOffset := if (r.file.take kBlockSize).length < kBlockSize then (r.file.take kBlockSize).length
        else r.eofOffset }, none) := by
  unfold readMore
  simp only [h, Bool.not_false, if_true]
  split
  · rename_i hlt
    simp only [hlt, decide_true]
  · rename_i hge
    simp only [hge, decide_false]

theorem readMore_of_eof {r : Reader} (h : r.eof = true) : r.readMore = ({ r with buffer := [] },
      some { type := if r.buffer = [] then .eof else .badHeader, dropSize := r.buffer.length }) := by
  obtain ⟨file, checksum, logNumber, buffer, eof⟩ := r
  subst h
  cases buffer <;> rfl

theorem unread_readMore {r r' : Reader} (h : r.readMore = (r', none)) : r'.unread < r.unread := by
  cases he : r.eof with
  | true =>
    rw [readMore_of_eof he] at h
    cases (Prod.mk.inj h).2
  | false =>
    rw [readMore_of_not_eof he] at h
    rw [← (Prod.mk.inj h).1]
    simp only [unread, he, List.length_drop, List.length_take, decide_eq_true_eq, Bool.false_eq_true,
      if_false, kBlockSize]
    split <;> omega

theorem markRecycled_eq (r : Reader) : ∃ recycled, r.markRecycled = { r with recycled } := by
  unfold markRecycled
  split
  · exact ⟨true, rfl⟩
  · exact ⟨r.recycled, rfl⟩

theorem unread_markRecycled (r : Reader) : r.markRecycled.unread = r.unread := by
  obtain ⟨recycled, h⟩ := r.markRecycled_eq
  rw [h]
  rfl

def readPhysicalRecord (r : Reader) : Reader × Physical :=
  if r.buffer.length < kHeaderSize then
    match _h : r.readMore with
    | (r, some error) => (r, error)
    | (r, none) => readPhysicalRecord r
  else
    let type := PhysicalType.ofChar (r.buffer.getD 6 0)
    let length := decodeFixed16 (r.buffer.drop 4)
    if type.isRecyclable then
      let r := r.markRecycled
      if r.buffer.length < kRecyclableHeaderSize then
        match _h : r.readMore with
        | (r, some error) => (r, error)
        | (r, none) => readPhysicalRecord r
      else if decodeFixed32 (r.buffer.drop 7) ≠ r.logNumber then (r, { type := .oldRecord })
      else r.takeFragment kRecyclableHeaderSize type length
    else r.takeFragment kHeaderSize type length
termination_by r.unread
decreasing_by
  · exact unread_readMore ‹_›
  · exact Nat.lt_of_lt_of_eq (unread_readMore ‹_›) (unread_markRecycled _)

structure Locals where
  inFragmentedRecord : Bool := false
  scratch : Bytes := []
  prospectiveRecordOffset : ℕ := 0

end Reader

inductive Round
  | next (r : Reader) (l : Reader.Locals)
  | done (r : Reader) (record : Option Bytes)

namespace Reader

def reportIf (c : Bool) (r : Reader) (bytes : ℕ) (reason : String) : Reader :=
  if c then r.reportCorruption bytes reason else r

def strict (mode : WALRecoveryMode) : Bool :=
  mode = .absoluteConsistency || mode = .pointInTimeRecovery

def endOfLog (mode : WALRecoveryMode) (r : Reader) (l : Locals) : Round :=
  .done (reportIf (l.inFragmentedRecord && strict mode) r l.scratch.length "error reading trailing data") none

def skipRecord (r : Reader) (l : Locals) : Round :=
  .next (reportIf l.inFragmentedRecord r l.scratch.length "error in middle of record")
    { l with inFragmentedRecord := false, scratch := if l.inFragmentedRecord then [] else l.scratch }

def readRecordRound (mode : WALRecoveryMode) (r : Reader) (l : Locals) : Round :=
  let physicalRecordOffset := r.endOfBufferOffset - r.buffer.length
  let (r, p) := r.readPhysicalRecord
  match p.type with
  | .record .fullType | .record .recyclableFullType =>
    let r := reportIf (l.inFragmentedRecord && !l.scratch.isEmpty) r l.scratch.length
      "partial record without end(1)"
    .done { r with lastRecordOffset := physicalRecordOffset } (some p.fragment)
  | .record .firstType | .record .recyclableFirstType =>
    let r := reportIf (l.inFragmentedRecord && !l.scratch.isEmpty) r l.scratch.length
      "partial record without end(2)"
    .next r { inFragmentedRecord := true, scratch := p.fragment, prospectiveRecordOffset := physicalRecordOffset }
  | .record .middleType | .record .recyclableMiddleType =>
    if !l.inFragmentedRecord then
      .next (r.reportCorruption p.fragment.length "missing start of fragmented record(1)") l
    else .next r { l with scratch := l.scratch ++ p.fragment }
  | .record .lastType | .record .recyclableLastType =>
    if !l.inFragmentedRecord then
      .next (r.reportCorruption p.fragment.length "missing start of fragmented record(2)") l
    else .done { r with lastRecordOffset := l.prospectiveRecordOffset } (some (l.scratch ++ p.fragment))
  | .badHeader => endOfLog mode (reportIf (strict mode) r p.dropSize "truncated header") l
  | .eof => endOfLog mode r l
  | .oldRecord => if mode ≠ .skipAnyCorruptedRecords then endOfLog mode r l else skipRecord r l
  | .badRecord => skipRecord r l
  | .badRecordLen =>
    if r.eof then .done (reportIf (strict mode) r p.dropSize "truncated record body") none
    else if r.recycled ∧ mode = .tolerateCorruptedTailRecords then .done r none
    else skipRecord (r.reportCorruption p.dropSize "bad record length") l
  | .badRecordChecksum =>
    if r.recycled ∧ mode = .tolerateCorruptedTailRecords then .done r none
    else skipRecord (r.reportCorruption p.dropSize "checksum mismatch") l
  | .record .zeroType =>
    .next (r.reportCorruption (p.fragment.length + if l.inFragmentedRecord then l.scratch.length else 0)
      "unknown record type 0") { l with inFragmentedRecord := false, scratch := [] }
  | .unknown code =>
    .next (r.reportCorruption (p.fragment.length + if l.inFragmentedRecord then l.scratch.length else 0)
      ("unknown record type " ++ toString code)) { l with inFragmentedRecord := false, scratch := [] }

def readRecordLoop (mode : WALRecoveryMode) : ℕ → Reader → Locals → Option (Reader × Option Bytes)
  | 0, _, _ => none
  | fuel + 1, r, l =>
    match readRecordRound mode r l with
    | .next r l => readRecordLoop mode fuel r l
    | .done r record => some (r, record)

def readRecord (mode : WALRecoveryMode) (fuel : ℕ) (r : Reader) : Option (Reader × Option Bytes) :=
  readRecordLoop mode fuel r {}

def readAll (mode : WALRecoveryMode) : ℕ → Reader → Option (Reader × List Bytes)
  | 0, _ => none
  | fuel + 1, r =>
    match r.readRecord mode fuel with
    | none => none
    | some (r, none) => some (r, [])
    | some (r, some record) => (readAll mode fuel r).map fun (r, records) => (r, record :: records)

end Reader

end ZenFSPlus.Db.Log
