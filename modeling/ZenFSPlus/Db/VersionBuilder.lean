import Mathlib.Data.Finset.Insert
import Mathlib.Data.Finset.Erase
import Mathlib.Data.List.Sort
import ZenFSPlus.Db.DbFormat

/-!
`VersionBuilder`: the changes that a sequence of version edits makes to a base version,
kept as differences, and the version that comes of them.
-/

namespace ZenFSPlus.Db

open Function

structure FileMetaData (κ μ : Type) where
  number : ℕ
  smallest : InternalKey κ
  largest : InternalKey κ
  smallestSeqno : ℕ
  largestSeqno : ℕ
  oldestBlobFileNumber : ℕ
  other : μ
  deriving DecidableEq

def kInvalidBlobFileNumber : ℕ := 0

structure SharedBlobFileMetaData where
  blobFileNumber : ℕ
  totalBlobCount : UInt64
  totalBlobBytes : UInt64
  deriving DecidableEq

structure BlobFileMetaData where
  shared : SharedBlobFileMetaData
  linkedSsts : Finset ℕ
  garbageBlobCount : UInt64
  garbageBlobBytes : UInt64
  deriving DecidableEq

def BlobFileMetaData.number (m : BlobFileMetaData) : ℕ := m.shared.blobFileNumber

structure VersionStorageInfo (κ μ : Type) where
  files : List (List (FileMetaData κ μ))
  blobFiles : List BlobFileMetaData
  deriving DecidableEq

namespace VersionStorageInfo

variable {κ μ : Type} (v : VersionStorageInfo κ μ)

def numLevels : ℕ := v.files.length

def levelFiles (level : ℕ) : List (FileMetaData κ μ) := v.files.getD level []

def fileLevel (fileNumber : ℕ) : Option ℕ := v.files.findIdx? fun fs => fs.any fun f => f.number = fileNumber

def fileMetaDataByNumber (fileNumber : ℕ) : Option (FileMetaData κ μ) :=
  v.files.flatten.find? fun f => f.number = fileNumber

end VersionStorageInfo

structure VersionEdit (κ μ : Type) where
  blobFileAdditions : List SharedBlobFileMetaData := []
  /-- Blob file, count and bytes. -/
  blobFileGarbages : List (ℕ × UInt64 × UInt64) := []
  deletedFiles : List (ℕ × ℕ) := []
  newFiles : List (ℕ × FileMetaData κ μ) := []

structure LevelState (κ μ : Type) where
  deletedFiles : Finset ℕ := ∅
  addedFiles : List (FileMetaData κ μ) := []

structure BlobFileMetaDataDelta where
  additionalGarbageCount : UInt64 := 0
  additionalGarbageBytes : UInt64 := 0
  newlyLinkedSsts : Finset ℕ := ∅
  newlyUnlinkedSsts : Finset ℕ := ∅
  deriving DecidableEq

structure MutableBlobFileMetaData where
  shared : SharedBlobFileMetaData
  delta : BlobFileMetaDataDelta := {}
  linkedSsts : Finset ℕ := ∅
  garbageBlobCount : UInt64 := 0
  garbageBlobBytes : UInt64 := 0

inductive BuilderError
  | assertion
  | inconsistent
  | corruption (message : String)
  deriving DecidableEq

namespace BlobFileMetaDataDelta

def isEmpty (d : BlobFileMetaDataDelta) : Bool :=
  d.additionalGarbageCount == 0 && d.additionalGarbageBytes == 0 && decide (d.newlyLinkedSsts = ∅) &&
    decide (d.newlyUnlinkedSsts = ∅)

def addGarbage (count bytes : UInt64) (d : BlobFileMetaDataDelta) : BlobFileMetaDataDelta :=
  { d with
    additionalGarbageCount := d.additionalGarbageCount + count
    additionalGarbageBytes := d.additionalGarbageBytes + bytes }

def linkSst (sst : ℕ) (d : BlobFileMetaDataDelta) : Except BuilderError BlobFileMetaDataDelta :=
  if sst ∈ d.newlyLinkedSsts then .error .assertion
  else if sst ∈ d.newlyUnlinkedSsts then .ok { d with newlyUnlinkedSsts := d.newlyUnlinkedSsts.erase sst }
  else .ok { d with newlyLinkedSsts := insert sst d.newlyLinkedSsts }

def unlinkSst (sst : ℕ) (d : BlobFileMetaDataDelta) : Except BuilderError BlobFileMetaDataDelta :=
  if sst ∈ d.newlyUnlinkedSsts then .error .assertion
  else if sst ∈ d.newlyLinkedSsts then .ok { d with newlyLinkedSsts := d.newlyLinkedSsts.erase sst }
  else .ok { d with newlyUnlinkedSsts := insert sst d.newlyUnlinkedSsts }

end BlobFileMetaDataDelta

namespace MutableBlobFileMetaData

def number (m : MutableBlobFileMetaData) : ℕ := m.shared.blobFileNumber

def ofMeta (m : BlobFileMetaData) : MutableBlobFileMetaData where
  shared := m.shared
  linkedSsts := m.linkedSsts
  garbageBlobCount := m.garbageBlobCount
  garbageBlobBytes := m.garbageBlobBytes

def toMeta (m : MutableBlobFileMetaData) : BlobFileMetaData :=
  ⟨m.shared, m.linkedSsts, m.garbageBlobCount, m.garbageBlobBytes⟩

def hasDelta (m : MutableBlobFileMetaData) : Bool := !m.delta.isEmpty

def addGarbage (count bytes : UInt64) (m : MutableBlobFileMetaData) : Except BuilderError MutableBlobFileMetaData :=
  if m.shared.totalBlobCount < m.garbageBlobCount + count ∨ m.shared.totalBlobBytes < m.garbageBlobBytes + bytes then
    .error (.corruption s!"Garbage overflow for blob file #{m.number}")
  else .ok { m with
    delta := m.delta.addGarbage count bytes
    garbageBlobCount := m.garbageBlobCount + count
    garbageBlobBytes := m.garbageBlobBytes + bytes }

def linkSst (sst : ℕ) (m : MutableBlobFileMetaData) : Except BuilderError MutableBlobFileMetaData := do
  let delta ← m.delta.linkSst sst
  if sst ∈ m.linkedSsts then .error .assertion
  else .ok { m with delta, linkedSsts := insert sst m.linkedSsts }

def unlinkSst (sst : ℕ) (m : MutableBlobFileMetaData) : Except BuilderError MutableBlobFileMetaData := do
  let delta ← m.delta.unlinkSst sst
  if sst ∈ m.linkedSsts then .ok { m with delta, linkedSsts := m.linkedSsts.erase sst }
  else .error .assertion

end MutableBlobFileMetaData

section

variable {κ μ : Type} [LinearOrder κ]

def newestFirstBySeqNo (lhs rhs : FileMetaData κ μ) : Bool :=
  if lhs.largestSeqno ≠ rhs.largestSeqno then rhs.largestSeqno < lhs.largestSeqno
  else if lhs.smallestSeqno ≠ rhs.smallestSeqno then rhs.smallestSeqno < lhs.smallestSeqno
  else rhs.number < lhs.number

def bySmallestKey (lhs rhs : FileMetaData κ μ) : Bool :=
  if lhs.smallest ≠ rhs.smallest then lhs.smallest < rhs.smallest else lhs.number < rhs.number

def levelCmp (level : ℕ) : FileMetaData κ μ → FileMetaData κ μ → Bool :=
  if level = 0 then newestFirstBySeqNo else bySmallestKey

def checkLevelZero (lhs rhs : FileMetaData κ μ) : Bool :=
  newestFirstBySeqNo lhs rhs &&
    if rhs.smallestSeqno = rhs.largestSeqno then decide (rhs.smallestSeqno < lhs.largestSeqno ∨ rhs.smallestSeqno = 0)
    else decide (rhs.smallestSeqno < lhs.smallestSeqno)

def checkLevelNonzero (lhs rhs : FileMetaData κ μ) : Bool :=
  bySmallestKey lhs rhs && decide (lhs.largest < rhs.smallest)

def expectedLinkedSsts (v : VersionStorageInfo κ μ) (blobFileNumber : ℕ) : Finset ℕ :=
  if blobFileNumber = kInvalidBlobFileNumber then ∅
  else ((v.files.flatten.filter fun f => f.oldestBlobFileNumber = blobFileNumber).map FileMetaData.number).toFinset

def checkConsistencyDetails (v : VersionStorageInfo κ μ) : Bool :=
  decide (List.IsChain (fun lhs rhs => checkLevelZero lhs rhs = true) (v.levelFiles 0)) &&
    (v.files.drop 1).all (fun fs => decide (List.IsChain (fun lhs rhs => checkLevelNonzero lhs rhs = true) fs)) &&
    v.blobFiles.all fun m =>
      decide (m.garbageBlobCount < m.shared.totalBlobCount) && decide (m.linkedSsts = expectedLinkedSsts v m.number)

def checkConsistency (checks : Bool) (v : VersionStorageInfo κ μ) : Bool := !checks || checkConsistencyDetails v

end

structure VersionBuilder (κ μ : Type) where
  base : VersionStorageInfo κ μ
  levels : ℕ → LevelState κ μ := fun _ => {}
  invalidLevelSizes : ℕ → ℕ := fun _ => 0
  /-- `table_file_levels_`: a level, or that the file is in none. -/
  tableFileLevels : ℕ → Option (Option ℕ) := fun _ => none
  /-- By number. -/
  mutableBlobFileMetas : List MutableBlobFileMetaData := []

namespace VersionBuilder

variable {κ μ : Type}

def numLevels (b : VersionBuilder κ μ) : ℕ := b.base.numLevels

def isBlobFileInVersion (blobFileNumber : ℕ) (b : VersionBuilder κ μ) : Bool :=
  (b.mutableBlobFileMetas.any fun m => m.number = blobFileNumber) || b.base.blobFiles.any fun m => m.number = blobFileNumber

def emplace (m : MutableBlobFileMetaData) (b : VersionBuilder κ μ) : VersionBuilder κ μ :=
  { b with mutableBlobFileMetas := b.mutableBlobFileMetas.orderedInsert (fun x y => x.number ≤ y.number) m }

def getOrCreate (blobFileNumber : ℕ) (b : VersionBuilder κ μ) : Option (MutableBlobFileMetaData × VersionBuilder κ μ) :=
  match b.mutableBlobFileMetas.find? fun m => m.number = blobFileNumber with
  | some m => some (m, b)
  | none =>
    match b.base.blobFiles.find? fun m => m.number = blobFileNumber with
    | some m => some (.ofMeta m, b.emplace (.ofMeta m))
    | none => none

def store (m : MutableBlobFileMetaData) (b : VersionBuilder κ μ) : VersionBuilder κ μ :=
  { b with mutableBlobFileMetas := b.mutableBlobFileMetas.map fun x => if x.number = m.number then m else x }

def applyBlobFileAddition (b : VersionBuilder κ μ) (addition : SharedBlobFileMetaData) :
    Except BuilderError (VersionBuilder κ μ) :=
  if b.isBlobFileInVersion addition.blobFileNumber then
    .error (.corruption s!"Blob file #{addition.blobFileNumber} already added")
  else .ok (b.emplace { shared := addition })

def applyBlobFileGarbage (b : VersionBuilder κ μ) (garbage : ℕ × UInt64 × UInt64) :
    Except BuilderError (VersionBuilder κ μ) :=
  match b.getOrCreate garbage.1 with
  | none => .error (.corruption s!"Blob file #{garbage.1} not found")
  | some (m, b) => do
    let m ← m.addGarbage garbage.2.1 garbage.2.2
    .ok (b.store m)

def currentLevel (b : VersionBuilder κ μ) (fileNumber : ℕ) : Option ℕ :=
  (b.tableFileLevels fileNumber).getD (b.base.fileLevel fileNumber)

def findAdded (b : VersionBuilder κ μ) (level fileNumber : ℕ) : Option (FileMetaData κ μ) :=
  (b.levels level).addedFiles.find? fun f => f.number = fileNumber

def oldestBlobFileNumber (b : VersionBuilder κ μ) (level fileNumber : ℕ) : Except BuilderError ℕ :=
  match (b.findAdded level fileNumber).or (b.base.fileMetaDataByNumber fileNumber) with
  | some f => .ok f.oldestBlobFileNumber
  | none => .error .assertion

def setLevel (level : ℕ) (state : LevelState κ μ) (b : VersionBuilder κ μ) : VersionBuilder κ μ :=
  { b with levels := update b.levels level state }

def setTableFileLevel (fileNumber : ℕ) (level : Option ℕ) (b : VersionBuilder κ μ) : VersionBuilder κ μ :=
  { b with tableFileLevels := update b.tableFileLevels fileNumber (some level) }

def relink (change : MutableBlobFileMetaData → Except BuilderError MutableBlobFileMetaData) (blobFileNumber : ℕ)
    (b : VersionBuilder κ μ) : Except BuilderError (VersionBuilder κ μ) :=
  if blobFileNumber = kInvalidBlobFileNumber then .ok b
  else
    match b.getOrCreate blobFileNumber with
    | none => .ok b
    | some (m, b) => do
      let m ← change m
      .ok (b.store m)

def applyFileDeletion (b : VersionBuilder κ μ) (deleted : ℕ × ℕ) : Except BuilderError (VersionBuilder κ μ) :=
  let level := deleted.1
  let fileNumber := deleted.2
  if b.currentLevel fileNumber ≠ some level then
    let place := match b.currentLevel fileNumber with
      | none => "not in the LSM tree"
      | some current => s!"on level {current}"
    .error (.corruption s!"Cannot delete table file #{fileNumber} from level {level} since it is {place}")
  else if b.numLevels ≤ level then
    if b.invalidLevelSizes level = 0 then .error .assertion
    else .ok (setTableFileLevel fileNumber none { b with
      invalidLevelSizes := update b.invalidLevelSizes level (b.invalidLevelSizes level - 1) })
  else do
    let blobFileNumber ← b.oldestBlobFileNumber level fileNumber
    let b ← b.relink (·.unlinkSst fileNumber) blobFileNumber
    let state := b.levels level
    if fileNumber ∈ state.deletedFiles then .error .assertion
    else .ok (setTableFileLevel fileNumber none (b.setLevel level
      ⟨insert fileNumber state.deletedFiles, state.addedFiles.filter fun f => f.number ≠ fileNumber⟩))

def applyFileAddition (b : VersionBuilder κ μ) (new : ℕ × FileMetaData κ μ) : Except BuilderError (VersionBuilder κ μ) :=
  let level := new.1
  let fileNumber := new.2.number
  match b.currentLevel fileNumber with
  | some current =>
    .error (.corruption
      s!"Cannot add table file #{fileNumber} to level {level} since it is already in the LSM tree on level {current}")
  | none =>
    if b.numLevels ≤ level then
      .ok (setTableFileLevel fileNumber (some level) { b with
        invalidLevelSizes := update b.invalidLevelSizes level (b.invalidLevelSizes level + 1) })
    else if (b.findAdded level fileNumber).isSome then .error .assertion
    else do
      let state := b.levels level
      let b := b.setLevel level ⟨state.deletedFiles.erase fileNumber, state.addedFiles ++ [new.2]⟩
      let b ← b.relink (·.linkSst fileNumber) new.2.oldestBlobFileNumber
      .ok (setTableFileLevel fileNumber (some level) b)

variable [LinearOrder κ]

def apply (checks : Bool) (b : VersionBuilder κ μ) (edit : VersionEdit κ μ) : Except BuilderError (VersionBuilder κ μ) :=
  if checkConsistency checks b.base then do
    let b ← edit.blobFileAdditions.foldlM applyBlobFileAddition b
    let b ← edit.blobFileGarbages.foldlM applyBlobFileGarbage b
    let b ← edit.deletedFiles.foldlM applyFileDeletion b
    edit.newFiles.foldlM applyFileAddition b
  else .error .inconsistent

def keepsFile (b : VersionBuilder κ μ) (level : ℕ) (f : FileMetaData κ μ × Bool) : Bool :=
  if f.1.number ∈ (b.levels level).deletedFiles then false
  else !((b.findAdded level f.1.number).isSome && !f.2)

def saveLevel (b : VersionBuilder κ μ) (level : ℕ) : List (FileMetaData κ μ) :=
  let cmp := levelCmp level
  let addedFiles := (b.levels level).addedFiles.insertionSort fun x y => cmp y x = false
  let merged := List.merge ((b.base.levelFiles level).map (·, false)) (addedFiles.map (·, true)) fun x y => !cmp y.1 x.1
  (merged.filter (b.keepsFile level)).map Prod.fst

end VersionBuilder

inductive BlobFileMerge
  | base (old : BlobFileMetaData)
  | changed (m : MutableBlobFileMetaData)
  | both (old : BlobFileMetaData) (m : MutableBlobFileMetaData)

namespace BlobFileMerge

def number : BlobFileMerge → ℕ
  | base m => m.number
  | changed m => m.number
  | both m _ => m.number

def linkedSsts : BlobFileMerge → Finset ℕ
  | base m => m.linkedSsts
  | changed m => m.linkedSsts
  | both _ m => m.linkedSsts

def toMeta : BlobFileMerge → Except BuilderError BlobFileMetaData
  | base m => .ok m
  | changed m => .ok m.toMeta
  | both old m =>
    if old.shared ≠ m.shared then .error .assertion
    else if m.hasDelta then .ok m.toMeta
    else if old = m.toMeta then .ok old
    else .error .assertion

end BlobFileMerge

/-- `MergeBlobFileMetas`, without the bound. -/
def mergeBlobFileMetas : List BlobFileMetaData → List MutableBlobFileMetaData → List BlobFileMerge
  | [], ms => ms.map .changed
  | bs, [] => bs.map .base
  | b :: bs, m :: ms =>
    if b.number < m.number then .base b :: mergeBlobFileMetas bs (m :: ms)
    else if m.number < b.number then .changed m :: mergeBlobFileMetas (b :: bs) ms
    else .both b m :: mergeBlobFileMetas bs ms
termination_by bs ms => bs.length + ms.length

namespace VersionBuilder

variable {κ μ : Type} (b : VersionBuilder κ μ)

def mergedBlobFiles (firstBlobFile : ℕ) : List BlobFileMerge :=
  mergeBlobFileMetas (b.base.blobFiles.dropWhile fun m => m.number < firstBlobFile)
    (b.mutableBlobFileMetas.dropWhile fun m => m.number < firstBlobFile)

def minOldestBlobFileNumber : ℕ :=
  match (b.mergedBlobFiles kInvalidBlobFileNumber).find? fun e => e.linkedSsts.Nonempty with
  | some e => e.number
  | none => kInvalidBlobFileNumber

def neededBlobFile (m : BlobFileMetaData) : Bool :=
  !(decide (m.linkedSsts = ∅) && decide (m.shared.totalBlobCount ≤ m.garbageBlobCount))

def saveBlobFiles : Except BuilderError (List BlobFileMetaData) := do
  let metas ← (b.mergedBlobFiles b.minOldestBlobFileNumber).mapM BlobFileMerge.toMeta
  .ok (metas.filter neededBlobFile)

variable [LinearOrder κ]

def save : Except BuilderError (VersionStorageInfo κ μ) := do
  let files := (List.range b.numLevels).map b.saveLevel
  if (files.flatten.map FileMetaData.number).Nodup then
    let blobFiles ← b.saveBlobFiles
    if (blobFiles.map BlobFileMetaData.number).Nodup then .ok ⟨files, blobFiles⟩ else .error .assertion
  else .error .assertion

def saveTo (checks : Bool) : Except BuilderError (VersionStorageInfo κ μ × Bool) :=
  if checkConsistency checks b.base then do
    let v ← b.save
    .ok (v, checkConsistency checks v)
  else .error .inconsistent

def applyAll (checks : Bool) (edits : List (VersionEdit κ μ)) : Except BuilderError (VersionBuilder κ μ) :=
  edits.foldlM (apply checks) b

end VersionBuilder

def applyEach {κ μ : Type} [LinearOrder κ] (checks : Bool) (v : VersionStorageInfo κ μ) (edit : VersionEdit κ μ) :
    Except BuilderError (VersionStorageInfo κ μ) := do
  let b ← VersionBuilder.apply checks { base := v } edit
  let (v, ok) ← b.saveTo checks
  if ok then .ok v else .error .inconsistent

end ZenFSPlus.Db
