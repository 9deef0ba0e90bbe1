import Mathlib.Algebra.GroupWithZero.Nat
import ZenFSPlus.Db.MemTableInserter

/-!
A write group: the leader's loop gives every writer its sequence number, and `MergeBatch` makes one batch of the log.
-/

namespace ZenFSPlus.Db

open Util

structure GroupWriter where
  batch : WriteBatch
  batchCnt : ℕ
  disableMemtable : Bool := false
  callbackFailed : Bool := false

namespace WriteGroup

def shouldWriteToMemtable (w : GroupWriter) : Bool := !w.callbackFailed && !w.disableMemtable

def advance (seqPerBatch : Bool) (next : ℕ) (w : GroupWriter) : ℕ :=
  if seqPerBatch then next + w.batchCnt
  else if shouldWriteToMemtable w then next + w.batch.count
  else next

/-- The loop of `WriteImpl`: the sequence number of every writer, none for a failed callback. -/
def leaderLoop (seqPerBatch : Bool) : ℕ → List GroupWriter → List (Option ℕ)
  | _, [] => []
  | next, w :: group =>
    if w.callbackFailed then none :: leaderLoop seqPerBatch next group
    else some next :: leaderLoop seqPerBatch (advance seqPerBatch next w) group

def flatten (group : List GroupWriter) : WriteBatch :=
  (group.filter fun w => !w.callbackFailed).foldl (fun merged w => merged.appendBatch w.batch true) .new

def mergeBatch : List GroupWriter → WriteBatch
  | [leader] =>
    if !leader.callbackFailed ∧ leader.batch.walTermPoint = ⟨0, 0⟩ then leader.batch else flatten [leader]
  | group => flatten group

def walLength (w : GroupWriter) : ℕ :=
  if w.callbackFailed then 0
  else if w.batch.walTermPoint = ⟨0, 0⟩ then w.batch.rep.length - kHeader
  else w.batch.walTermPoint.size - kHeader

end WriteGroup

structure WalWriter extends GroupWriter where
  logUsed : ℕ := 0

namespace WriteGroup

/-- `merged_batch == write_group.leader->batch`. -/
def mergedIsLeaders : List WalWriter → Bool
  | [leader] => !leader.callbackFailed && decide (leader.batch.walTermPoint = ⟨0, 0⟩)
  | _ => false

/-- `WriteToWAL` for a group: the record of the log, and the writers with `log_used`. -/
def writeToWal (logfileNumber : ℕ) (group : List WalWriter) : WriteBatch × List WalWriter :=
  let writeWithWal := group.countP fun w => !w.callbackFailed
  (mergeBatch (group.map WalWriter.toGroupWriter),
    if mergedIsLeaders group then group.modifyHead fun w => { w with logUsed := logfileNumber }
    else if 1 < writeWithWal then group.map fun w => { w with logUsed := logfileNumber }
    else group)

end WriteGroup

def iterateUntil {σ : Type} (h : Handler σ) (stop : ℕ) : ℕ → Bytes → IterateState σ → Option (IterateState σ)
  | 0, input, st => if input.length = stop then some st else none
  | fuel + 1, input, st =>
    if input.length = stop then some st
    else if !h.continue_ st.handler then none
    else
      match readRecordFromWriteBatch input with
      | .error _ => none
      | .ok (r, input) =>
        match attempt h st r with
        | (.ok, true, st) => iterateUntil h stop fuel input st
        | _ => none

def WriteGroup.recoveredSequence (options : InserterOptions) (merged : WriteBatch) (behind : List GroupWriter)
    (m : MemTableInserter) : Option ℕ :=
  (iterateUntil (MemTableInserter.handler options) (behind.map WriteGroup.walLength).sum merged.rep.length
    (merged.rep.drop kHeader) ⟨m, true, 0⟩).map fun st => st.handler.sequence

end ZenFSPlus.Db
