import Mathlib.Data.Finset.Basic
import ZenFSPlus.Transactions.AtomicSnapshots
import ZenFSPlus.Transactions.PreparedHeap

/-!
`WritePreparedTxnDB` of `utilities/transactions/write_prepared_txn_db.{h,cc}` with what it reads of the DB below: the
last published sequence number and the list of snapshots. Each function is one atomic operation.
-/

namespace ZenFSPlus.Transactions

structure TransactionDBOptions where
  wpCommitCacheBits : ℕ
  wpSnapshotCacheBits : ℕ

namespace TransactionDBOptions

variable (o : TransactionDBOptions)

def commitCacheSize : ℕ := 2 ^ o.wpCommitCacheBits

def snapshotCacheSize : ℕ := 2 ^ o.wpSnapshotCacheBits

def format : CommitEntry64bFormat := ⟨o.wpCommitCacheBits⟩

def incStepForMaxEvicted : ℕ := max (o.commitCacheSize / 100) 1

end TransactionDBOptions

structure SnapshotImpl where
  number : ℕ
  minUncommitted : ℕ
  deriving DecidableEq

def getAllLoop (maxSeq : ℕ) (ret : List ℕ) : List SnapshotImpl → List ℕ
  | [] => ret
  | s :: rest =>
    if maxSeq < s.number then ret
    else getAllLoop maxSeq (if ret.getLast? = some s.number then ret else ret ++ [s.number]) rest

def getAll (maxSeq : ℕ) (snapshots : List SnapshotImpl) : List ℕ := getAllLoop maxSeq [] snapshots

structure WritePreparedTxnDB where
  commitCache : ℕ → CommitEntry64b := fun _ => {}
  maxEvictedSeq : ℕ := 0
  futureMaxEvictedSeq : ℕ := 0
  preparedTxns : PreparedHeap := {}
  delayedPrepared : Finset ℕ := ∅
  delayedPreparedCommits : ℕ → Option ℕ := fun _ => none
  delayedPreparedEmpty : Bool := true
  table : SnapshotTable := {}
  oldCommitMap : OldCommitMap := {}
  lastPublishedSequence : ℕ := 0
  /-- Oldest first. -/
  snapshots : List SnapshotImpl := []

namespace WritePreparedTxnDB

variable (o : TransactionDBOptions) (db : WritePreparedTxnDB)

def checkPreparedLoop (newMax : ℕ) : ℕ → WritePreparedTxnDB → WritePreparedTxnDB
  | 0, db => db
  | rounds + 1, db =>
    if !db.preparedTxns.empty && decide (db.preparedTxns.top ≤ newMax) then
      checkPreparedLoop newMax rounds { db with
        delayedPrepared := insert db.preparedTxns.top db.delayedPrepared
        delayedPreparedEmpty := false
        preparedTxns := db.preparedTxns.pop }
    else db

def checkPreparedAgainstMax (newMax : ℕ) : WritePreparedTxnDB :=
  let preparedTop := db.preparedTxns.top
  let empty := preparedTop == kMaxSequenceNumber
  if !empty && decide (preparedTop ≤ newMax) then checkPreparedLoop newMax db.preparedTxns.heap.length db
  else db

def addPrepared (seq : ℕ) : WritePreparedTxnDB :=
  let db := { db with preparedTxns := db.preparedTxns.push seq }
  if seq ≤ db.futureMaxEvictedSeq then db.checkPreparedAgainstMax db.futureMaxEvictedSeq else db

def raise (cell prevMax newMax : ℕ) : ℕ := if prevMax < newMax then max cell newMax else cell

def touchAll (m : OldCommitMap) (snapshots : List ℕ) : OldCommitMap :=
  if snapshots.isEmpty then m else { snapshots.foldl OldCommitMap.touch m with empty := false }

def fetchSnapshots (newMax : ℕ) : WritePreparedTxnDB :=
  if db.table.snapshotsVersion < newMax then
    let snapshots := getAll newMax db.snapshots
    let r := updateSnapshots o.snapshotCacheSize db.maxEvictedSeq db.table db.oldCommitMap snapshots newMax
    { db with table := r.1, oldCommitMap := touchAll r.2 snapshots }
  else db

def advanceMaxEvictedSeq (prevMax newMax : ℕ) : WritePreparedTxnDB :=
  let db := { db with futureMaxEvictedSeq := raise db.futureMaxEvictedSeq prevMax newMax }
  let db := (db.checkPreparedAgainstMax newMax).fetchSnapshots o newMax
  { db with maxEvictedSeq := raise db.maxEvictedSeq prevMax newMax }

def getCommitEntry (indexedSeq : ℕ) : Option CommitEntry := (db.commitCache indexedSeq).parse o.format indexedSeq

def exchangeCommitEntry (indexedSeq : ℕ) (expected : CommitEntry64b) (newEntry : CommitEntry) :
    Except String (WritePreparedTxnDB × Bool) :=
  match CommitEntry64b.ofEntry o.format newEntry with
  | .error e => .error e
  | .ok new =>
    if db.commitCache indexedSeq = expected then
      .ok ({ db with commitCache := Function.update db.commitCache indexedSeq new }, true)
    else .ok (db, false)

def newMaxEvictedSeq (evicted : CommitEntry) : ℕ :=
  if evicted.commitSeq < db.lastPublishedSequence then
    min (evicted.commitSeq + o.incStepForMaxEvicted) (db.lastPublishedSequence - 1)
  else evicted.commitSeq

def advanceBehind (evicted : CommitEntry) : WritePreparedTxnDB :=
  let prevMax := db.maxEvictedSeq
  if prevMax < evicted.commitSeq then db.advanceMaxEvictedSeq o prevMax (db.newMaxEvictedSeq o evicted) else db

def keepDelayedCommit (evicted : CommitEntry) : WritePreparedTxnDB :=
  if !db.delayedPreparedEmpty && decide (evicted.prepSeq ∈ db.delayedPrepared) then
    { db with
      delayedPreparedCommits := Function.update db.delayedPreparedCommits evicted.prepSeq (some evicted.commitSeq) }
  else db

def evict (evicted : CommitEntry) : WritePreparedTxnDB :=
  let db := (db.advanceBehind o evicted).keepDelayedCommit evicted
  { db with oldCommitMap := checkAgainstSnapshots o.snapshotCacheSize db.table evicted db.oldCommitMap }

def evictIndexed (indexedSeq : ℕ) : WritePreparedTxnDB :=
  match db.getCommitEntry o indexedSeq with
  | some evicted => db.evict o evicted
  | none => db

def addCommittedLoop (prepareSeq commitSeq : ℕ) : ℕ → WritePreparedTxnDB → WritePreparedTxnDB × Except String Unit
  | left, db =>
    let indexedSeq := prepareSeq % o.commitCacheSize
    let evicted64b := db.commitCache indexedSeq
    let db := db.evictIndexed o indexedSeq
    match db.exchangeCommitEntry o indexedSeq evicted64b ⟨prepareSeq, commitSeq⟩ with
    | .error e => (db, .error e)
    | .ok (db, true) => (db, .ok ())
    | .ok (db, false) =>
      match left with
      | 0 => (db, .error "Infinite loop in AddCommitted!")
      | left + 1 => addCommittedLoop prepareSeq commitSeq left db

def addCommitted (prepareSeq commitSeq : ℕ) : WritePreparedTxnDB × Except String Unit :=
  addCommittedLoop o prepareSeq commitSeq 101 db

def removeOne (seq : ℕ) : WritePreparedTxnDB :=
  let db := { db with preparedTxns := db.preparedTxns.erase seq }
  let wasEmpty := decide (db.delayedPrepared = ∅)
  if wasEmpty then db
  else
    let delayedPrepared := db.delayedPrepared.erase seq
    let isEmpty := decide (delayedPrepared = ∅)
    { db with
      delayedPrepared
      delayedPreparedCommits := Function.update db.delayedPreparedCommits seq none
      delayedPreparedEmpty := if wasEmpty ≠ isEmpty then isEmpty else db.delayedPreparedEmpty }

def removePrepared (prepareSeq batchCnt : ℕ) : WritePreparedTxnDB :=
  (List.range batchCnt).foldl (fun db i => db.removeOne (prepareSeq + i)) db

/-- `GetSnapshotInternal` with the `min_uncommitted` it records; `none` where it has to wait for the published
sequence number to pass `future_max_evicted_seq_`. -/
def getSnapshot (minUncommitted : ℕ) : Option WritePreparedTxnDB :=
  let snapSeq := db.lastPublishedSequence
  if snapSeq ≠ 0 ∧ snapSeq ≤ db.futureMaxEvictedSeq then none
  else some { db with snapshots := db.snapshots ++ [⟨snapSeq, minUncommitted⟩] }

def releaseSnapshot (snapshot : SnapshotImpl) : WritePreparedTxnDB :=
  { db with snapshots := db.snapshots.erase snapshot }

/-- `std::binary_search`: the first element that is not less, compared again. -/
def binarySearch (vec : List ℕ) (seq : ℕ) : Bool :=
  match vec.dropWhile (· < seq) with
  | [] => false
  | x :: _ => !decide (seq < x)

def searchOldCommitMap (prepSeq snapshotSeq : ℕ) : Bool × Bool :=
  if db.oldCommitMap.empty then (true, true)
  else
    match db.oldCommitMap.find snapshotSeq with
    | none => (true, true)
    | some vec => (!binarySearch vec prepSeq, false)

/-- `IsInSnapshot` with `snap_released`. The loads of `max_evicted_seq_` of an atomic operation agree, so that its loop
is left in the first round. -/
def isInSnapshot (prepSeq snapshotSeq minUncommitted : ℕ) : Bool × Bool :=
  if prepSeq = 0 then (true, false)
  else if snapshotSeq < prepSeq then (false, false)
  else if prepSeq < minUncommitted then (true, false)
  else
    let wasEmpty := db.delayedPreparedEmpty
    let cached := (db.getCommitEntry o (prepSeq % o.commitCacheSize)).filter (·.prepSeq = prepSeq)
    match cached with
    | some entry => (decide (entry.commitSeq ≤ snapshotSeq), false)
    | none =>
      if db.maxEvictedSeq < prepSeq then (false, false)
      else if !wasEmpty && decide (prepSeq ∈ db.delayedPrepared) then
        match db.delayedPreparedCommits prepSeq with
        | none => (false, false)
        | some commitSeq => (decide (commitSeq ≤ snapshotSeq), false)
      else if db.maxEvictedSeq < snapshotSeq then (true, false)
      else db.searchOldCommitMap prepSeq snapshotSeq

end WritePreparedTxnDB

end ZenFSPlus.Transactions
