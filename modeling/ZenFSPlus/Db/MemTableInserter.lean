import ZenFSPlus.Db.WriteBatch

/-!
The handlers that count sub-batches: `SubBatchCounter`, and `MemTableInserter` with `seq_per_batch`, with the memtable's
`TryAgain` in a write and `DuplicateDetector` in recovery. Keys are compared bytewise, `inplace_update_support` is off
and `max_successive_merges` is 0.
-/

namespace ZenFSPlus.Db

open Util

structure SubBatchCounter where
  keys : List (ℕ × Bytes) := []
  batches : ℕ := 1

namespace SubBatchCounter

def addKey (c : SubBatchCounter) (cf : ℕ) (key : Bytes) : SubBatchCounter :=
  if (cf, key) ∈ c.keys then ⟨[(cf, key)], c.batches + 1⟩ else { c with keys := (cf, key) :: c.keys }

def call : Call → SubBatchCounter → Status × SubBatchCounter
  | .putCF cf key _, c | .mergeCF cf key _, c => (.ok, c.addKey cf key)
  | .deleteCF cf key, c | .singleDeleteCF cf key, c => (.ok, c.addKey cf key)
  | .deleteRangeCF .., c => (.invalidArgument "DeleteRangeCF not implemented", c)
  | .putBlobIndexCF .., c => (.invalidArgument "PutBlobIndexCF not implemented", c)
  | .logData _, c => (.ok, c)
  | .markBeginPrepare _, c => (.ok, c)
  | .markEndPrepare _, c | .markCommit _, c | .markRollback _, c => (.ok, c)
  | .markNoop _, c => (.ok, c)

def handler : Handler SubBatchCounter where
  continue_ _ := true
  call := call
  writeAfterCommit _ := false
  writeBeforePrepare _ := false

end SubBatchCounter

structure DuplicateDetector where
  batchSeq : ℕ := 0
  keys : List (ℕ × Bytes) := []

def DuplicateDetector.isDuplicateKeySeq (d : DuplicateDetector) (cf : ℕ) (key : Bytes) (seq : ℕ) :
    Bool × DuplicateDetector :=
  let keys := if d.batchSeq ≠ seq then [] else d.keys
  if (cf, key) ∈ keys then (true, ⟨seq, [(cf, key)]⟩) else (false, ⟨seq, (cf, key) :: keys⟩)

structure MemTableEntry where
  columnFamily : ℕ
  seq : ℕ
  type : ValueType
  key : Bytes
  value : Bytes
deriving DecidableEq, Repr

/-- The entry is in the way of a new one: `CompareKeySeq` does not see the type, but range deletions have a
table of their own. -/
def MemTableEntry.clashes (e : MemTableEntry) (cf seq : ℕ) (type : ValueType) (key : Bytes) : Bool :=
  e.columnFamily = cf ∧ e.seq = seq ∧ e.key = key ∧ (e.type = .rangeDeletion ↔ type = .rangeDeletion)

def memTableAdd (mems : List MemTableEntry) (cf seq : ℕ) (type : ValueType) (key value : Bytes) :
    Status × List MemTableEntry :=
  if mems.any fun e => e.clashes cf seq type key then (.tryAgain, mems)
  else (.ok, ⟨cf, seq, type, key, value⟩ :: mems)

structure RecoveredTransaction where
  logNumber : ℕ
  name : Bytes
  batch : WriteBatch
  seq : ℕ
  batchCnt : ℕ
  unprepared : Bool

/-- What the inserter is constructed with. A column family has the number of the log its data is flushed up
to; `recoveringLogNumber` is 0 in a write. -/
structure InserterOptions where
  columnFamilies : ℕ → Option ℕ
  mergeOperator : ℕ → Bool
  deleteRangeSupported : ℕ → Bool
  ignoreMissingColumnFamilies : Bool
  recoveringLogNumber : ℕ
  allow2pc : Bool
  batchPerTxn : Bool

structure MemTableInserter where
  sequence : ℕ
  mems : List MemTableEntry
  rebuildingTrx : Option WriteBatch := none
  rebuildingTrxSeq : ℕ := 0
  unpreparedBatch : Bool := false
  duplicateDetector : DuplicateDetector := {}
  recovered : List RecoveredTransaction := []

namespace MemTableInserter

variable (options : InserterOptions)

def maybeAdvanceSeq (batchBoundary : Bool) (m : MemTableInserter) : MemTableInserter :=
  if batchBoundary then { m with sequence := m.sequence + 1 } else m

/-- `none` when the column family is to be inserted into. -/
def seekToColumnFamily (cf : ℕ) : Option Status :=
  match options.columnFamilies cf with
  | none =>
    if options.ignoreMissingColumnFamilies then some .ok
    else some (.invalidArgument "Invalid column family specified in write batch")
  | some logNumber =>
    if options.recoveringLogNumber ≠ 0 ∧ options.recoveringLogNumber < logNumber then some .ok else none

/-- A key that is not inserted: in recovery it still goes into the transaction, and the detector stands for
the memtable. The exception of the detector for a dropped column family is a status here. -/
def skipKey (cf : ℕ) (key : Bytes) (rebuild : WriteBatch → Status × WriteBatch) (s : Status)
    (m : MemTableInserter) : Status × MemTableInserter :=
  if s ≠ .ok then (s, m)
  else
    match m.rebuildingTrx with
    | none => (.ok, m.maybeAdvanceSeq false)
    | some trx =>
      match rebuild trx with
      | (.ok, trx) =>
        if options.columnFamilies cf = none then
          (.corruption "Recovering an entry from a dropped column family. WAL must must have been flushed before dropping the column family", m)
        else
          let (isDuplicate, duplicateDetector) := m.duplicateDetector.isDuplicateKeySeq cf key m.sequence
          (.ok, { m with rebuildingTrx := some trx, duplicateDetector }.maybeAdvanceSeq isDuplicate)
      | (s, trx) => (s, { m with rebuildingTrx := some trx })

def addToMemTable (cf : ℕ) (type : ValueType) (key value : Bytes) (m : MemTableInserter) :
    Status × MemTableInserter :=
  match memTableAdd m.mems cf m.sequence type key value with
  | (.tryAgain, mems) => (.tryAgain, { m with mems }.maybeAdvanceSeq true)
  | (.ok, mems) => (.ok, { m with mems }.maybeAdvanceSeq false)
  | (s, mems) => (s, { m with mems })

def rebuild (rebuild : WriteBatch → Status × WriteBatch) (m : MemTableInserter) :
    Status × MemTableInserter :=
  match m.rebuildingTrx with
  | none => (.ok, m)
  | some trx =>
    let (s, trx) := rebuild trx
    (s, { m with rebuildingTrx := some trx })

def insertKey (cf : ℕ) (type : ValueType) (key value : Bytes) (add : WriteBatch → Status × WriteBatch)
    (m : MemTableInserter) : Status × MemTableInserter :=
  match seekToColumnFamily options cf with
  | some s => skipKey options cf key add s m
  | none =>
    match addToMemTable cf type key value m with
    | (.ok, m) => rebuild add m
    | result => result

def mergeCF (cf : ℕ) (key value : Bytes) (m : MemTableInserter) : Status × MemTableInserter :=
  match seekToColumnFamily options cf with
  | some s => skipKey options cf key (fun trx => trx.merge cf key value) s m
  | none =>
    if !options.mergeOperator cf then
      (.invalidArgument "Merge requires `ColumnFamilyOptions::merge_operator != nullptr`", m)
    else
      match addToMemTable cf .merge key value m with
      | (.ok, m) => rebuild (fun trx => trx.merge cf key value) m
      | result => result

def deleteRangeCF (cf : ℕ) (beginKey endKey : Bytes) (m : MemTableInserter) : Status × MemTableInserter :=
  match seekToColumnFamily options cf with
  | some s => skipKey options cf beginKey (fun trx => trx.deleteRange cf beginKey endKey) s m
  | none =>
    if !options.deleteRangeSupported cf then (.notSupported "DeleteRange not supported for table type", m)
    else if endKey < beginKey then (.invalidArgument "end key comes before start key", m)
    else if beginKey = endKey then (.ok, m)
    else
      match addToMemTable cf .rangeDeletion beginKey endKey m with
      | (.tryAgain, m) => (.tryAgain, m)
      -- unlike the others it rebuilds after any other status
      | (_, m) => rebuild (fun trx => trx.deleteRange cf beginKey endKey) m

def markBeginPrepare (unprepare : Bool) (m : MemTableInserter) : Status × MemTableInserter :=
  if options.recoveringLogNumber ≠ 0 then
    if !options.allow2pc then
      (.notSupported "WAL contains prepared transactions. Open with TransactionDB::Open().", m)
    else
      (.ok, { m with rebuildingTrx := some .new, rebuildingTrxSeq := m.sequence, unpreparedBatch := unprepare })
  else (.ok, m)

def markEndPrepare (name : Bytes) (m : MemTableInserter) : Status × MemTableInserter :=
  match m.rebuildingTrx with
  | some trx =>
    let batchCnt := m.sequence - m.rebuildingTrxSeq + 1
    let trx := ⟨options.recoveringLogNumber, name, trx, m.rebuildingTrxSeq, batchCnt, m.unpreparedBatch⟩
    (.ok, { m with recovered := m.recovered ++ [trx], unpreparedBatch := false, rebuildingTrx := none
          }.maybeAdvanceSeq true)
  | none => (.ok, m.maybeAdvanceSeq true)

def markNoop (emptyBatch : Bool) (m : MemTableInserter) : Status × MemTableInserter :=
  (.ok, m.maybeAdvanceSeq (!emptyBatch))

/-- `MarkCommit` and `MarkRollback`: the values are in the memtable already, a recovered transaction is
forgotten. -/
def markEnd (name : Bytes) (m : MemTableInserter) : Status × MemTableInserter :=
  let recovered := if options.recoveringLogNumber ≠ 0
    then m.recovered.filter fun trx => trx.name ≠ name else m.recovered
  (.ok, { m with recovered }.maybeAdvanceSeq true)

def call : Call → MemTableInserter → Status × MemTableInserter
  | .putCF cf key value, m => insertKey options cf .value key value (fun trx => trx.put cf key value) m
  | .deleteCF cf key, m => insertKey options cf .deletion key [] (fun trx => trx.delete cf key) m
  | .singleDeleteCF cf key, m =>
    insertKey options cf .singleDeletion key [] (fun trx => trx.singleDelete cf key) m
  | .deleteRangeCF cf beginKey endKey, m => deleteRangeCF options cf beginKey endKey m
  | .mergeCF cf key value, m => mergeCF options cf key value m
  | .putBlobIndexCF cf key value, m => insertKey options cf .blobIndex key value (fun trx => trx.put cf key value) m
  | .logData _, m => (.ok, m)
  | .markBeginPrepare unprepared, m => markBeginPrepare options unprepared m
  | .markEndPrepare name, m => markEndPrepare options name m
  | .markCommit name, m => markEnd options name m
  | .markRollback name, m => markEnd options name m
  | .markNoop emptyBatch, m => markNoop emptyBatch m

def handler : Handler MemTableInserter where
  continue_ _ := true
  call := call options
  writeAfterCommit _ := false
  writeBeforePrepare _ := !options.batchPerTxn

end MemTableInserter

end ZenFSPlus.Db
