import ZenFSPlus.Lib.Decoder
import ZenFSPlus.Util.Coding

/-!
The format of version edits in the manifest: `VersionEdit::EncodeTo` and `DecodeFrom`, with the blob file
edits and the WAL edits.
-/

namespace ZenFSPlus.Manifest

open Lib Util List

inductive Status
  | corruption (context message : String)
  /-- More rounds of a loop than bytes of input, which does not happen. -/
  | overrun
  deriving DecidableEq

abbrev Decode := Decoder UInt8 Status

def putVarint32 (v : UInt32) : Bytes := encodeVarint32 v.toNat

def putVarint64 (v : UInt64) : Bytes := encodeVarint64 v.toNat

def getUInt32 (e : Status) : Decode UInt32 := do
  let v ← .ofOption e getVarint32
  pure (.ofNat v)

def getUInt64 (e : Status) : Decode UInt64 := do
  let v ← .ofOption e getVarint64
  pure (.ofNat v)

def getSlice (e : Status) : Decode Bytes := .ofOption e getLengthPrefixedSlice

inductive Tag
  | kComparator | kLogNumber | kNextFileNumber | kLastSequence | kCompactPointer | kDeletedFile | kNewFile
  | kPrevLogNumber | kMinLogNumberToKeep | kNewFile2 | kNewFile3 | kNewFile4 | kColumnFamily | kColumnFamilyAdd
  | kColumnFamilyDrop | kMaxColumnFamily | kInAtomicGroup | kBlobFileAddition | kBlobFileGarbage | kDbId
  | kBlobFileAdditionDeprecated | kBlobFileGarbageDeprecated | kWalAddition | kWalDeletion | kFullHistoryTsLow
  | kWalAddition2 | kWalDeletion2
  deriving DecidableEq

def Tag.value : Tag → UInt32
  | kComparator => 1
  | kLogNumber => 2
  | kNextFileNumber => 3
  | kLastSequence => 4
  | kCompactPointer => 5
  | kDeletedFile => 6
  | kNewFile => 7
  | kPrevLogNumber => 9
  | kMinLogNumberToKeep => 10
  | kNewFile2 => 100
  | kNewFile3 => 102
  | kNewFile4 => 103
  | kColumnFamily => 200
  | kColumnFamilyAdd => 201
  | kColumnFamilyDrop => 202
  | kMaxColumnFamily => 203
  | kInAtomicGroup => 300
  | kBlobFileAddition => 400
  | kBlobFileGarbage => 401
  | kDbId => 8193
  | kBlobFileAdditionDeprecated => 8194
  | kBlobFileGarbageDeprecated => 8195
  | kWalAddition => 8196
  | kWalDeletion => 8197
  | kFullHistoryTsLow => 8198
  | kWalAddition2 => 8199
  | kWalDeletion2 => 8200

def Tag.all : List Tag :=
  [kComparator, kLogNumber, kNextFileNumber, kLastSequence, kCompactPointer, kDeletedFile, kNewFile, kPrevLogNumber,
    kMinLogNumberToKeep, kNewFile2, kNewFile3, kNewFile4, kColumnFamily, kColumnFamilyAdd, kColumnFamilyDrop,
    kMaxColumnFamily, kInAtomicGroup, kBlobFileAddition, kBlobFileGarbage, kDbId, kBlobFileAdditionDeprecated,
    kBlobFileGarbageDeprecated, kWalAddition, kWalDeletion, kFullHistoryTsLow, kWalAddition2, kWalDeletion2]

def Tag.ofValue (v : UInt32) : Option Tag := Tag.all.find? fun t => t.value = v

def kTagSafeIgnoreMask : UInt32 := 8192

def putTag (t : Tag) : Bytes := putVarint32 t.value

inductive NewFileCustomTag
  | kTerminate | kNeedCompaction | kMinLogNumberToKeepHack | kOldestBlobFileNumber | kOldestAncesterTime
  | kFileCreationTime | kFileChecksum | kFileChecksumFuncName | kTemperature | kMinTimestamp | kMaxTimestamp | kPathId
  deriving DecidableEq

def NewFileCustomTag.value : NewFileCustomTag → UInt32
  | kTerminate => 1
  | kNeedCompaction => 2
  | kMinLogNumberToKeepHack => 3
  | kOldestBlobFileNumber => 4
  | kOldestAncesterTime => 5
  | kFileCreationTime => 6
  | kFileChecksum => 7
  | kFileChecksumFuncName => 8
  | kTemperature => 9
  | kMinTimestamp => 10
  | kMaxTimestamp => 11
  | kPathId => 65

def NewFileCustomTag.all : List NewFileCustomTag :=
  [kTerminate, kNeedCompaction, kMinLogNumberToKeepHack, kOldestBlobFileNumber, kOldestAncesterTime, kFileCreationTime,
    kFileChecksum, kFileChecksumFuncName, kTemperature, kMinTimestamp, kMaxTimestamp, kPathId]

def NewFileCustomTag.ofValue (v : UInt32) : Option NewFileCustomTag := NewFileCustomTag.all.find? fun t => t.value = v

def kCustomTagNonSafeIgnoreMask : UInt32 := 64

structure BlobFileAddition where
  blobFileNumber : UInt64
  totalBlobCount : UInt64
  totalBlobBytes : UInt64
  checksumMethod : Bytes
  checksumValue : Bytes
  deriving DecidableEq

structure BlobFileGarbage where
  blobFileNumber : UInt64
  garbageBlobCount : UInt64
  garbageBlobBytes : UInt64
  deriving DecidableEq

def kEndMarker : UInt32 := 0

def kForwardIncompatibleMask : UInt32 := 64

def skipCustomField (className : String) (_ : Unit) : Decode (Unit ⊕ Unit) := do
  let customFieldTag ← getUInt32 (.corruption className "Error decoding custom field tag")
  if customFieldTag = kEndMarker then pure (.inr ())
  else if customFieldTag &&& kForwardIncompatibleMask ≠ 0 then
    .fail (.corruption className "Forward incompatible custom field encountered")
  else do
    let _ ← getSlice (.corruption className "Error decoding custom field value")
    pure (.inl ())

def BlobFileAddition.encodeTo (a : BlobFileAddition) : Bytes :=
  putVarint64 a.blobFileNumber ++ putVarint64 a.totalBlobCount ++ putVarint64 a.totalBlobBytes ++
    putLengthPrefixedSlice a.checksumMethod ++ putLengthPrefixedSlice a.checksumValue ++ putVarint32 kEndMarker

def BlobFileAddition.decodeFrom : Decode BlobFileAddition := do
  let className := "BlobFileAddition"
  let blobFileNumber ← getUInt64 (.corruption className "Error decoding blob file number")
  let totalBlobCount ← getUInt64 (.corruption className "Error decoding total blob count")
  let totalBlobBytes ← getUInt64 (.corruption className "Error decoding total blob bytes")
  let checksumMethod ← getSlice (.corruption className "Error decoding checksum method")
  let checksumValue ← getSlice (.corruption className "Error decoding checksum value")
  let _ ← .loop (skipCustomField className) .overrun ()
  pure { blobFileNumber, totalBlobCount, totalBlobBytes, checksumMethod, checksumValue }

def BlobFileGarbage.encodeTo (g : BlobFileGarbage) : Bytes :=
  putVarint64 g.blobFileNumber ++ putVarint64 g.garbageBlobCount ++ putVarint64 g.garbageBlobBytes ++ putVarint32 kEndMarker

def BlobFileGarbage.decodeFrom : Decode BlobFileGarbage := do
  let className := "BlobFileGarbage"
  let blobFileNumber ← getUInt64 (.corruption className "Error decoding blob file number")
  let garbageBlobCount ← getUInt64 (.corruption className "Error decoding garbage blob count")
  let garbageBlobBytes ← getUInt64 (.corruption className "Error decoding garbage blob bytes")
  let _ ← .loop (skipCustomField className) .overrun ()
  pure { blobFileNumber, garbageBlobCount, garbageBlobBytes }

def kUnknownWalSize : UInt64 := 18446744073709551615

structure WalAddition where
  number : UInt64 := 0
  syncedSizeBytes : UInt64 := kUnknownWalSize
  deriving DecidableEq

inductive WalAdditionTag
  | kTerminate | kSyncedSize
  deriving DecidableEq

def WalAdditionTag.value : WalAdditionTag → UInt32
  | kTerminate => 1
  | kSyncedSize => 2

def WalAddition.encodeTo (w : WalAddition) : Bytes :=
  putVarint64 w.number ++
    (if w.syncedSizeBytes ≠ kUnknownWalSize then putVarint32 WalAdditionTag.kSyncedSize.value ++ putVarint64 w.syncedSizeBytes
      else []) ++ putVarint32 WalAdditionTag.kTerminate.value

def WalAddition.decodeTag (w : WalAddition) : Decode (WalAddition ⊕ WalAddition) := do
  let tagValue ← getUInt32 (.corruption "WalAddition" "Error decoding tag")
  if tagValue = WalAdditionTag.kSyncedSize.value then do
    let size ← getUInt64 (.corruption "WalAddition" "Error decoding WAL file size")
    pure (.inl { w with syncedSizeBytes := size })
  else if tagValue = WalAdditionTag.kTerminate.value then pure (.inr w)
  else .fail (.corruption "WalAddition" s!"Unknown tag {tagValue}")

def WalAddition.decodeFrom : Decode WalAddition := do
  let number ← getUInt64 (.corruption "WalAddition" "Error decoding WAL log number")
  .loop WalAddition.decodeTag .overrun { number }

def kEmptyWalDeletion : UInt64 := 0

def decodeWalDeletion : Decode UInt64 := getUInt64 (.corruption "WalDeletion" "Error decoding WAL log number")

def kFileNumberMask : UInt64 := 0x3FFFFFFFFFFFFFFF

structure FileDescriptor where
  packedNumberAndPathId : UInt64
  fileSize : UInt64
  smallestSeqno : UInt64
  largestSeqno : UInt64
  deriving DecidableEq

def packFileNumberAndPathId (number pathId : UInt64) : UInt64 := number ||| pathId * (kFileNumberMask + 1)

def FileDescriptor.make (number : UInt64) (pathId : UInt32) (fileSize smallestSeqno largestSeqno : UInt64) : FileDescriptor :=
  ⟨packFileNumberAndPathId number pathId.toUInt64, fileSize, smallestSeqno, largestSeqno⟩

def kMaxSequenceNumber : UInt64 := 0xFFFFFFFFFFFFFF

def FileDescriptor.getNumber (fd : FileDescriptor) : UInt64 := fd.packedNumberAndPathId &&& kFileNumberMask

def FileDescriptor.getPathId (fd : FileDescriptor) : UInt32 := (fd.packedNumberAndPathId / (kFileNumberMask + 1)).toUInt32

def isExtendedValueType (t : ℕ) : Bool := t ≤ 2 || t == 7 || t == 0x11 || t == 0x14 || t == 0xF

def validInternalKey (rep : Bytes) : Bool :=
  decide (8 ≤ rep.length) && isExtendedValueType (decodeFixed (rep.drop (rep.length - 8)) &&& 0xff)

def Temperature : Type := { t : UInt8 // t ≤ 0x0C }
  deriving DecidableEq

def Temperature.kUnknown : Temperature := ⟨0, by decide⟩

def kUnknownFileChecksumFuncName : Bytes := [0x55, 0x6E, 0x6B, 0x6E, 0x6F, 0x77, 0x6E]

structure FileMetaData where
  fd : FileDescriptor := .make 0 0 0 kMaxSequenceNumber 0
  smallest : Bytes := []
  largest : Bytes := []
  markedForCompaction : Bool := false
  temperature : Temperature := .kUnknown
  oldestBlobFileNumber : UInt64 := 0
  oldestAncesterTime : UInt64 := 0
  fileCreationTime : UInt64 := 0
  fileChecksum : Bytes := []
  fileChecksumFuncName : Bytes := kUnknownFileChecksumFuncName
  minTimestamp : Bytes := []
  maxTimestamp : Bytes := []
  deriving DecidableEq

def fileBefore (x y : Int32 × UInt64) : Prop := x.1.toInt < y.1.toInt ∨ x.1.toInt = y.1.toInt ∧ x.2.toNat < y.2.toNat

instance (x y : Int32 × UInt64) : Decidable (fileBefore x y) := inferInstanceAs (Decidable (_ ∨ _))

def insertFile (x : Int32 × UInt64) : List (Int32 × UInt64) → List (Int32 × UInt64)
  | [] => [x]
  | y :: ys => if fileBefore x y then x :: y :: ys else if fileBefore y x then y :: insertFile x ys else y :: ys

theorem mem_insertFile {x z : Int32 × UInt64} {ys : List (Int32 × UInt64)} (h : z ∈ insertFile x ys) : z = x ∨ z ∈ ys := by
  induction ys with
  | nil => exact .inl (mem_singleton.mp h)
  | cons y ys ih =>
    rw [insertFile] at h
    split at h
    · exact mem_cons.mp h
    split at h
    · rcases mem_cons.mp h with rfl | h
      · exact .inr mem_cons_self
      · exact (ih h).imp_right (mem_cons_of_mem y)
    · exact .inr h

theorem fileBefore_trans {x y z : Int32 × UInt64} (h : fileBefore x y) (h' : fileBefore y z) : fileBefore x z := by
  unfold fileBefore at *
  omega

theorem pairwise_insertFile {x : Int32 × UInt64} {ys : List (Int32 × UInt64)} (h : ys.Pairwise fileBefore) :
    (insertFile x ys).Pairwise fileBefore := by
  induction ys with
  | nil => exact pairwise_singleton _ _
  | cons y ys ih =>
    obtain ⟨hy, hys⟩ := pairwise_cons.mp h
    rw [insertFile]
    split
    · rename_i hx
      refine pairwise_cons.mpr ⟨?_, h⟩
      intro z hz
      rcases mem_cons.mp hz with rfl | hz
      · exact hx
      · exact fileBefore_trans hx (hy z hz)
    · split
      · rename_i hx
        refine pairwise_cons.mpr ⟨?_, ih hys⟩
        intro z hz
        rcases mem_insertFile hz with rfl | hz
        · exact hx
        · exact hy z hz
      · exact h

structure DeletedFiles where
  toList : List (Int32 × UInt64) := []
  sorted : toList.Pairwise fileBefore := by exact Pairwise.nil
  deriving DecidableEq

instance : Inhabited DeletedFiles := ⟨{}⟩

def DeletedFiles.insert (s : DeletedFiles) (x : Int32 × UInt64) : DeletedFiles :=
  ⟨insertFile x s.toList, pairwise_insertFile s.sorted⟩

structure VersionEdit where
  dbId : Option Bytes := none
  comparator : Option Bytes := none
  logNumber : Option UInt64 := none
  prevLogNumber : Option UInt64 := none
  nextFileNumber : Option UInt64 := none
  maxColumnFamily : Option UInt32 := none
  minLogNumberToKeep : Option UInt64 := none
  lastSequence : Option UInt64 := none
  deletedFiles : DeletedFiles := {}
  newFiles : List (Int32 × FileMetaData) := []
  blobFileAdditions : List BlobFileAddition := []
  blobFileGarbages : List BlobFileGarbage := []
  walAdditions : List WalAddition := []
  walDeletion : UInt64 := kEmptyWalDeletion
  columnFamily : UInt32 := 0
  /-- `is_column_family_add_` and the name. -/
  columnFamilyAdd : Option Bytes := none
  isColumnFamilyDrop : Bool := false
  /-- `is_in_atomic_group_` and the number. -/
  remainingEntries : Option UInt32 := none
  fullHistoryTsLow : Bytes := []
  deriving DecidableEq

def putCustomField (t : NewFileCustomTag) (field : Bytes) : Bytes := putVarint32 t.value ++ putLengthPrefixedSlice field

def encodeCustomFields (minLogNumberToKeep : Option UInt64) (f : FileMetaData) : Bytes :=
  putCustomField .kOldestAncesterTime (putVarint64 f.oldestAncesterTime) ++
    putCustomField .kFileCreationTime (putVarint64 f.fileCreationTime) ++
    putCustomField .kFileChecksum f.fileChecksum ++
    putCustomField .kFileChecksumFuncName f.fileChecksumFuncName ++
    (if f.maxTimestamp ≠ [] then putCustomField .kMinTimestamp f.minTimestamp ++ putCustomField .kMaxTimestamp f.maxTimestamp
      else []) ++
    (if f.fd.getPathId ≠ 0 then putCustomField .kPathId [f.fd.getPathId.toUInt8] else []) ++
    (if f.temperature ≠ .kUnknown then putCustomField .kTemperature [f.temperature.val] else []) ++
    (if f.markedForCompaction then putCustomField .kNeedCompaction [1] else []) ++
    (match minLogNumberToKeep with
      | some v => putCustomField .kMinLogNumberToKeepHack (encodeFixed64 v.toNat)
      | none => []) ++
    (if f.oldestBlobFileNumber ≠ 0 then putCustomField .kOldestBlobFileNumber (putVarint64 f.oldestBlobFileNumber) else []) ++
    putVarint32 NewFileCustomTag.kTerminate.value

def encodeNewFile (minLogNumberToKeep : Option UInt64) (new : Int32 × FileMetaData) : Option Bytes :=
  let f := new.2
  if !validInternalKey f.smallest || !validInternalKey f.largest then none
  else if f.maxTimestamp ≠ [] ∧ f.minTimestamp.length ≠ f.maxTimestamp.length then none
  else some (putTag .kNewFile4 ++ putVarint32 new.1.toUInt32 ++ putVarint64 f.fd.getNumber ++ putVarint64 f.fd.fileSize ++
    putLengthPrefixedSlice f.smallest ++ putLengthPrefixedSlice f.largest ++ putVarint64 f.fd.smallestSeqno ++
    putVarint64 f.fd.largestSeqno ++ encodeCustomFields minLogNumberToKeep f)

def encodeNewFiles (minLogNumberToKeep : Option UInt64) : List (Int32 × FileMetaData) → Option Bytes
  | [] => some []
  | new :: newFiles => do
    let bytes ← encodeNewFile minLogNumberToKeep new
    let rest ← encodeNewFiles none newFiles
    some (bytes ++ rest)

def putOption {α : Type} (o : Option α) (put : α → Bytes) : Bytes := o.elim [] put

/-- `VersionEdit::EncodeTo`, where `none` is the return value `false`. -/
def VersionEdit.encodeTo (edit : VersionEdit) : Option Bytes := do
  let newFiles ← encodeNewFiles edit.minLogNumberToKeep edit.newFiles
  some (putOption edit.dbId (fun s => putTag .kDbId ++ putLengthPrefixedSlice s) ++
    putOption edit.comparator (fun s => putTag .kComparator ++ putLengthPrefixedSlice s) ++
    putOption edit.logNumber (fun v => putTag .kLogNumber ++ putVarint64 v) ++
    putOption edit.prevLogNumber (fun v => putTag .kPrevLogNumber ++ putVarint64 v) ++
    putOption edit.nextFileNumber (fun v => putTag .kNextFileNumber ++ putVarint64 v) ++
    putOption edit.maxColumnFamily (fun v => putTag .kMaxColumnFamily ++ putVarint32 v) ++
    putOption edit.lastSequence (fun v => putTag .kLastSequence ++ putVarint64 v) ++
    edit.deletedFiles.toList.flatMap (fun d => putTag .kDeletedFile ++ putVarint32 d.1.toUInt32 ++ putVarint64 d.2) ++
    newFiles ++
    edit.blobFileAdditions.flatMap (fun a => putTag .kBlobFileAddition ++ a.encodeTo) ++
    edit.blobFileGarbages.flatMap (fun g => putTag .kBlobFileGarbage ++ g.encodeTo) ++
    edit.walAdditions.flatMap (fun w => putTag .kWalAddition2 ++ putLengthPrefixedSlice w.encodeTo) ++
    (if edit.walDeletion ≠ kEmptyWalDeletion then
      putTag .kWalDeletion2 ++ putLengthPrefixedSlice (putVarint64 edit.walDeletion) else []) ++
    (if edit.columnFamily ≠ 0 then putTag .kColumnFamily ++ putVarint32 edit.columnFamily else []) ++
    putOption edit.columnFamilyAdd (fun s => putTag .kColumnFamilyAdd ++ putLengthPrefixedSlice s) ++
    (if edit.isColumnFamilyDrop then putTag .kColumnFamilyDrop else []) ++
    putOption edit.remainingEntries (fun v => putTag .kInAtomicGroup ++ putVarint32 v) ++
    (if edit.fullHistoryTsLow ≠ [] then putTag .kFullHistoryTsLow ++ putLengthPrefixedSlice edit.fullHistoryTsLow else []))

def corrupt (message : String) : Status := .corruption "VersionEdit" message

def getInternalKey (e : Status) : Decode Bytes := do
  let rep ← getSlice e
  if validInternalKey rep then pure rep else .fail e

def getLevel (e : Status) : Decode Int32 := do
  let v ← getUInt32 e
  pure ⟨v⟩

structure CustomFields where
  f : FileMetaData
  pathId : UInt32 := 0
  minLogNumberToKeep : Option UInt64

def ofField {α : Type} (message : String) (read : Bytes → Option (ℕ × Bytes)) (field : Bytes) (set : ℕ → α) :
    Except String α :=
  match read field with
  | some (v, _) => .ok (set v)
  | none => .error message

def CustomFields.set (s : CustomFields) (field : Bytes) : NewFileCustomTag → Except String CustomFields
  | .kPathId =>
    match field with
    | [p] => if 3 < p then .error "path_id wrong vaue" else .ok { s with pathId := p.toUInt32 }
    | _ => .error "path_id field wrong size"
  | .kOldestAncesterTime =>
    ofField "invalid oldest ancester time" getVarint64 field fun v => { s with f.oldestAncesterTime := .ofNat v }
  | .kFileCreationTime =>
    ofField "invalid file creation time" getVarint64 field fun v => { s with f.fileCreationTime := .ofNat v }
  | .kFileChecksum => .ok { s with f.fileChecksum := field }
  | .kFileChecksumFuncName => .ok { s with f.fileChecksumFuncName := field }
  | .kNeedCompaction =>
    match field with
    | [p] => .ok { s with f.markedForCompaction := p == 1 }
    | _ => .error "need_compaction field wrong size"
  | .kMinLogNumberToKeepHack =>
    ofField "deleted log number malformatted" getFixed64 field fun v => { s with minLogNumberToKeep := some (.ofNat v) }
  | .kOldestBlobFileNumber =>
    ofField "invalid oldest blob file number" getVarint64 field fun v => { s with f.oldestBlobFileNumber := .ofNat v }
  | .kTemperature =>
    match field with
    | [p] => if h : p ≤ 0x0C then .ok { s with f.temperature := ⟨p, h⟩ } else .ok s
    | _ => .error "temperature field wrong size"
  | .kMinTimestamp => .ok { s with f.minTimestamp := field }
  | .kMaxTimestamp => .ok { s with f.maxTimestamp := field }
  | .kTerminate => .ok s

def decodeCustomField (s : CustomFields) : Decode (CustomFields ⊕ CustomFields) := do
  let customTag ← getUInt32 (corrupt "new-file4 custom field")
  if customTag = NewFileCustomTag.kTerminate.value then
    if s.f.minTimestamp.length ≠ s.f.maxTimestamp.length then
      .fail (corrupt "new-file4 custom field timestamp size mismatch error")
    else pure (.inr s)
  else do
    let field ← getSlice (corrupt "new-file4 custom field length prefixed slice error")
    match NewFileCustomTag.ofValue customTag with
    | some t =>
      match s.set field t with
      | .ok s => pure (.inl s)
      | .error message => .fail (corrupt message)
    | none =>
      if customTag &&& kCustomTagNonSafeIgnoreMask ≠ 0 then .fail (corrupt "new-file4 custom field not supported")
      else pure (.inl s)

def VersionEdit.addFile (edit : VersionEdit) (level : Int32) (f : FileMetaData) : VersionEdit :=
  { edit with newFiles := edit.newFiles ++ [(level, f)] }

def decodeNewFile4From (edit : VersionEdit) : Decode VersionEdit := do
  let e := corrupt "new-file4 entry"
  let level ← getLevel e
  let number ← getUInt64 e
  let fileSize ← getUInt64 e
  let smallest ← getInternalKey e
  let largest ← getInternalKey e
  let smallestSeqno ← getUInt64 e
  let largestSeqno ← getUInt64 e
  let s ← .loop decodeCustomField .overrun ⟨{ smallest, largest }, 0, edit.minLogNumberToKeep⟩
  pure (VersionEdit.addFile { edit with minLogNumberToKeep := s.minLogNumberToKeep } level
    { s.f with fd := .make number s.pathId fileSize smallestSeqno largestSeqno })

def within {α : Type} (m : Decode α) (bytes : Bytes) : Decode α := fun input =>
  match m.run bytes with
  | .ok (a, _) => .ok (a, input)
  | .error e => .error e

def decodeTag (edit : VersionEdit) : Tag → Decode VersionEdit
  | .kDbId => do
    let str ← getSlice (corrupt "db id")
    pure { edit with dbId := some str }
  | .kComparator => do
    let str ← getSlice (corrupt "comparator name")
    pure { edit with comparator := some str }
  | .kLogNumber => do
    let v ← getUInt64 (corrupt "log number")
    pure { edit with logNumber := some v }
  | .kPrevLogNumber => do
    let v ← getUInt64 (corrupt "previous log number")
    pure { edit with prevLogNumber := some v }
  | .kNextFileNumber => do
    let v ← getUInt64 (corrupt "next file number")
    pure { edit with nextFileNumber := some v }
  | .kMaxColumnFamily => do
    let v ← getUInt32 (corrupt "max column family")
    pure { edit with maxColumnFamily := some v }
  | .kMinLogNumberToKeep => do
    let v ← getUInt64 (corrupt "min log number to kee")
    pure { edit with minLogNumberToKeep := some v }
  | .kLastSequence => do
    let v ← getUInt64 (corrupt "last sequence number")
    pure { edit with lastSequence := some v }
  | .kCompactPointer => do
    let _ ← getLevel (corrupt "compaction pointer")
    let _ ← getInternalKey (corrupt "compaction pointer")
    pure edit
  | .kDeletedFile => do
    let level ← getLevel (corrupt "deleted file")
    let number ← getUInt64 (corrupt "deleted file")
    pure { edit with deletedFiles := edit.deletedFiles.insert (level, number) }
  | .kNewFile => do
    let e := corrupt "new-file entry"
    let level ← getLevel e
    let number ← getUInt64 e
    let fileSize ← getUInt64 e
    let smallest ← getInternalKey e
    let largest ← getInternalKey e
    pure (edit.addFile level { smallest, largest, fd := .make number 0 fileSize kMaxSequenceNumber 0 })
  | .kNewFile2 => do
    let e := corrupt "new-file2 entry"
    let level ← getLevel e
    let number ← getUInt64 e
    let fileSize ← getUInt64 e
    let smallest ← getInternalKey e
    let largest ← getInternalKey e
    let smallestSeqno ← getUInt64 e
    let largestSeqno ← getUInt64 e
    pure (edit.addFile level { smallest, largest, fd := .make number 0 fileSize smallestSeqno largestSeqno })
  | .kNewFile3 => do
    let e := corrupt "new-file3 entry"
    let level ← getLevel e
    let number ← getUInt64 e
    let pathId ← getUInt32 e
    let fileSize ← getUInt64 e
    let smallest ← getInternalKey e
    let largest ← getInternalKey e
    let smallestSeqno ← getUInt64 e
    let largestSeqno ← getUInt64 e
    pure (edit.addFile level { smallest, largest, fd := .make number pathId fileSize smallestSeqno largestSeqno })
  | .kNewFile4 => decodeNewFile4From edit
  | .kBlobFileAddition | .kBlobFileAdditionDeprecated => do
    let a ← BlobFileAddition.decodeFrom
    pure { edit with blobFileAdditions := edit.blobFileAdditions ++ [a] }
  | .kBlobFileGarbage | .kBlobFileGarbageDeprecated => do
    let g ← BlobFileGarbage.decodeFrom
    pure { edit with blobFileGarbages := edit.blobFileGarbages ++ [g] }
  | .kWalAddition => do
    let w ← WalAddition.decodeFrom
    pure { edit with walAdditions := edit.walAdditions ++ [w] }
  | .kWalAddition2 => do
    let encoded ← getSlice (corrupt "WalAddition not prefixed by length")
    let w ← within WalAddition.decodeFrom encoded
    pure { edit with walAdditions := edit.walAdditions ++ [w] }
  | .kWalDeletion => do
    let number ← decodeWalDeletion
    pure { edit with walDeletion := number }
  | .kWalDeletion2 => do
    let encoded ← getSlice (corrupt "WalDeletion not prefixed by length")
    let number ← within decodeWalDeletion encoded
    pure { edit with walDeletion := number }
  | .kColumnFamily => do
    let v ← getUInt32 (corrupt "set column family id")
    pure { edit with columnFamily := v }
  | .kColumnFamilyAdd => do
    let str ← getSlice (corrupt "column family add")
    pure { edit with columnFamilyAdd := some str }
  | .kColumnFamilyDrop => pure { edit with isColumnFamilyDrop := true }
  | .kInAtomicGroup => do
    let v ← getUInt32 (corrupt "remaining entries")
    pure { edit with remainingEntries := some v }
  | .kFullHistoryTsLow => do
    let str ← getSlice (corrupt "full_history_ts_low")
    if str = [] then .fail (corrupt "full_history_ts_low: empty") else pure { edit with fullHistoryTsLow := str }

def skipTag (tag : UInt32) (edit : VersionEdit) : Decode VersionEdit :=
  if tag &&& kTagSafeIgnoreMask ≠ 0 then do
    let fieldLen ← getUInt32 (corrupt "safely ignoreable tag length error")
    .ofOption (corrupt "safely ignoreable tag length error") fun input =>
      if input.length < fieldLen.toNat then none else some (edit, input.drop fieldLen.toNat)
  else .fail (corrupt "unknown tag")

def decodeRecord (edit : VersionEdit) : Decode (VersionEdit ⊕ VersionEdit) := fun input =>
  match getVarint32 input with
  | none => if input = [] then .ok (.inr edit, input) else .error (corrupt "invalid tag")
  | some (tag, input) =>
    let next : Decode VersionEdit := match Tag.ofValue (.ofNat tag) with
      | some t => decodeTag edit t
      | none => skipTag (.ofNat tag) edit
    match next.run input with
    | .ok (edit, input) => .ok (.inl edit, input)
    | .error e => .error e

def VersionEdit.decodeFrom (src : Bytes) : Except Status VersionEdit :=
  match (Decoder.loop decodeRecord Status.overrun {}).run src with
  | .ok (edit, _) => .ok edit
  | .error e => .error e

end ZenFSPlus.Manifest
