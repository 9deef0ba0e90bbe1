import ZenFSPlus.Table.PartitionedFilterBlock
import ZenFSPlus.Util.Comparator

/-!
The hash index: the builder's prefix records, the prefix index made of them, and the search over a bucket's block ids.
Block ids and sizes are natural numbers.
-/

namespace ZenFSPlus.Table

open ZenFSPlus.Db ZenFSPlus.Util

abbrev ByteKey := InternalKey (List Byte)

structure HashIndexOptions where
  prefixLen : ℕ
  indexShortening : IndexShorteningMode
  formatVersion : ℕ
  hash : List Byte → ℕ

variable (h : HashIndexOptions)

def HashIndexOptions.primary : TableOptions (List Byte) where
  comparator := bytewiseComparator
  prefixExtractor := fixedPrefixTransform h.prefixLen
  wholeKeyFiltering := true
  indexShortening := h.indexShortening
  formatVersion := h.formatVersion
  keysPerPartition := 0

def HashIndexOptions.prefixOf (key : ByteKey) : List Byte := key.userKey.take h.prefixLen

/-- The varints of the meta block are kept as triples: the size of the prefix, the first entry and
the number of blocks. -/
structure HashIndexBuilder where
  seps : List ByteKey := []
  seperatorIsKeyPlusSeq : Bool
  prefixBlock : List Byte := []
  prefixMetaBlock : List (ℕ × ℕ × ℕ) := []
  pendingBlockNum : ℕ := 0
  pendingEntryIndex : ℕ := 0
  pendingEntryPrefix : List Byte := []
  currentRestartIndex : ℕ := 0

namespace HashIndexBuilder

variable (x : HashIndexBuilder)

def flushPendingPrefix : HashIndexBuilder :=
  { x with
    prefixBlock := x.prefixBlock ++ x.pendingEntryPrefix
    prefixMetaBlock := x.prefixMetaBlock ++
      [(x.pendingEntryPrefix.length, x.pendingEntryIndex, x.pendingBlockNum)] }

def onKeyAdded (key : ByteKey) : HashIndexBuilder :=
  if x.pendingBlockNum = 0 ∨ x.pendingEntryPrefix ≠ h.prefixOf key then
    { (if x.pendingBlockNum ≠ 0 then x.flushPendingPrefix else x) with
      pendingEntryPrefix := h.prefixOf key
      pendingBlockNum := 1
      pendingEntryIndex := x.currentRestartIndex }
  else if x.pendingEntryIndex + x.pendingBlockNum - 1 ≠ x.currentRestartIndex then
    { x with pendingBlockNum := x.pendingBlockNum + 1 }
  else x

def addIndexEntry (lastKeyInCurrentBlock : ByteKey) (firstKeyInNextBlock : Option ByteKey) :
    HashIndexBuilder :=
  let (sep, flag) := shortenedAddIndexEntry h.primary x.seperatorIsKeyPlusSeq lastKeyInCurrentBlock
    firstKeyInNextBlock
  { x with
    currentRestartIndex := x.currentRestartIndex + 1
    seps := x.seps ++ [sep]
    seperatorIsKeyPlusSeq := flag }

def addBlock (block : List ByteKey) (next : Option ByteKey) : HashIndexBuilder :=
  match block.getLast? with
  | some last => (block.foldl (onKeyAdded h) x).addIndexEntry h last next
  | none => x

def addBlocks (x : HashIndexBuilder) : List (List ByteKey) → HashIndexBuilder
  | [] => x
  | block :: blocks => addBlocks (x.addBlock h block (blocks.head?.bind List.head?)) blocks

def finish : HashIndexBuilder := if x.pendingBlockNum ≠ 0 then x.flushPendingPrefix else x

end HashIndexBuilder

def buildHashIndex (blocks : List (List ByteKey)) : HashIndexBuilder :=
  (HashIndexBuilder.addBlocks h { seperatorIsKeyPlusSeq := decide (h.formatVersion ≤ 2) } blocks).finish

structure PrefixRecord where
  pfx : List Byte
  startBlock : ℕ
  numBlocks : ℕ

/-- The loop of `BlockPrefixIndex::Create`; `none` is a corrupted meta block. -/
def readPrefixRecords (prefixes : List Byte) (pos : ℕ) : List (ℕ × ℕ × ℕ) → Option (List PrefixRecord)
  | [] => if pos ≠ prefixes.length then none else some []
  | (prefixSize, entryIndex, numBlocks) :: rest =>
    if prefixes.length < pos + prefixSize then none
    else
      (readPrefixRecords prefixes (pos + prefixSize) rest).map
        (⟨(prefixes.drop pos).take prefixSize, entryIndex, numBlocks⟩ :: ·)

structure BlockSpan where
  startBlock : ℕ
  endBlock : ℕ
  numBlocks : ℕ

structure BucketList where
  spans : List BlockSpan := []
  numBlocks : ℕ := 0

def BucketList.add (b : BucketList) (current : BlockSpan) : BucketList :=
  match b.spans with
  | prev :: rest =>
    let distance := current.startBlock - prev.endBlock
    if distance ≤ 1 then
      { spans := ⟨prev.startBlock, current.endBlock, current.endBlock - prev.startBlock + 1⟩ :: rest
        numBlocks := b.numBlocks + (current.numBlocks + distance - 1) }
    else ⟨current :: prev :: rest, b.numBlocks + current.numBlocks⟩
  | [] => ⟨[current], b.numBlocks + current.numBlocks⟩

def BucketList.blockIds (b : BucketList) : List ℕ :=
  (b.spans.flatMap fun s => (List.range s.numBlocks).map (s.endBlock - ·)).reverse

inductive Bucket
  | none
  | block (id : ℕ)
  | array (ids : List ℕ)

def BucketList.bucket (b : BucketList) : Bucket :=
  if b.numBlocks = 0 then .none
  else if b.numBlocks = 1 then
    match b.spans with
    | s :: _ => .block s.startBlock
    | [] => .none
  else .array b.blockIds

structure BlockPrefixIndex where
  numBuckets : ℕ
  buckets : ℕ → Bucket

def PrefixRecord.span (r : PrefixRecord) : BlockSpan :=
  ⟨r.startBlock, r.startBlock + r.numBlocks - 1, r.numBlocks⟩

def addToBuckets (numBuckets : ℕ) (buckets : ℕ → BucketList) (r : PrefixRecord) : ℕ → BucketList :=
  Function.update buckets (h.hash r.pfx % numBuckets) ((buckets (h.hash r.pfx % numBuckets)).add r.span)

def BlockPrefixIndex.finish (prefixes : List PrefixRecord) : BlockPrefixIndex :=
  let numBuckets := prefixes.length + 1
  let buckets := prefixes.foldl (addToBuckets h numBuckets) fun _ => {}
  ⟨numBuckets, fun i => (buckets i).bucket⟩

def BlockPrefixIndex.create (prefixes : List Byte) (prefixMeta : List (ℕ × ℕ × ℕ)) : Option BlockPrefixIndex :=
  (readPrefixRecords prefixes 0 prefixMeta).map (BlockPrefixIndex.finish h)

def BlockPrefixIndex.getBlocks (index : BlockPrefixIndex) (key : ByteKey) : List ℕ :=
  match index.buckets (h.hash (h.prefixOf key) % index.numBuckets) with
  | .none => []
  | .block id => [id]
  | .array ids => ids

structure IndexBlock where
  seps : List ByteKey
  keyIncludesSeq : Bool

namespace IndexBlock

variable (block : IndexBlock)

def compareBlockKey (blockIndex : ℕ) (target : ByteKey) : Ordering :=
  match block.seps[blockIndex]? with
  | some sep => if block.keyIncludesSeq then cmp sep target else cmp sep.userKey target.userKey
  | none => .gt

/-- The loop of `BinaryBlockIndexSeek`; it ends with `left = right`, or `left > right` if every
entry is before the target. -/
def binarySearch (before : ℕ → Bool) (left right : ℕ) : ℕ × ℕ :=
  if left ≤ right then
    if before ((right + left) / 2) then binarySearch before ((right + left) / 2 + 1) right
    else if left = right then (left, right)
    else binarySearch before left ((right + left) / 2)
  else (left, right)
termination_by right + 1 - left

inductive SeekResult
  | found (index : ℕ)
  | prefixNotFound
  | pastEnd
  deriving DecidableEq

def binaryBlockIndexSeek (target : ByteKey) (blockIds : List ℕ) : SeekResult :=
  let id (i : ℕ) := blockIds.getD i 0
  let (left, right) := binarySearch (fun i => block.compareBlockKey (id i) target == .lt) 0
    (blockIds.length - 1)
  if left = right then
    if 0 < id left ∧ (left = 0 ∨ id (left - 1) ≠ id left - 1) ∧
        block.compareBlockKey (id left - 1) target = .gt then .prefixNotFound
    else .found (id left)
  else if id right + 1 < block.seps.length then
    if block.compareBlockKey (id right + 1) target ≠ .lt then .found (id right + 1) else .prefixNotFound
  else .pastEnd

def prefixSeek (index : BlockPrefixIndex) (target : ByteKey) : SeekResult :=
  let blockIds := index.getBlocks h target
  if blockIds = [] then .prefixNotFound else block.binaryBlockIndexSeek target blockIds

end IndexBlock

end ZenFSPlus.Table
