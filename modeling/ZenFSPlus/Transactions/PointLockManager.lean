import Mathlib.Tactic.Common

/-!
Deadlock detection: the maps of the transactions that wait, and the search for a cycle before a transaction begins
to wait.
-/

namespace ZenFSPlus.Transactions

open Function

abbrev TransactionID := ℕ

structure TrackedTrxInfo where
  neighbors : List TransactionID
  cfId : ℕ
  exclusive : Bool
  waitingKey : String

structure DeadlockInfo where
  txnId : TransactionID
  cfId : ℕ
  exclusive : Bool
  waitingKey : String

structure DeadlockPath where
  path : List DeadlockInfo
  limitExceeded : Bool
  deadlockTime : ℕ

structure PessimisticTransaction where
  id : TransactionID
  deadlockDetectDepth : ℕ

structure Queued where
  value : TransactionID
  parent : Option ℕ

structure PointLockManager where
  waitTxnMap : TransactionID → Option TrackedTrxInfo := fun _ => none
  revWaitTxnMap : TransactionID → Option ℕ := fun _ => none
  dlockBuffer : List DeadlockPath := []

inductive Search where
  | noDeadlock
  | deadlock (queue : List Queued) (head : ℕ)
  | limitExceeded

namespace PointLockManager

def incrementRev (rev : TransactionID → Option ℕ) (waitId : TransactionID) : TransactionID → Option ℕ :=
  match rev waitId with
  | some n => update rev waitId (some (n + 1))
  | none => update rev waitId (some 1)

def decrementRev (rev : TransactionID → Option ℕ) (waitId : TransactionID) : Option (TransactionID → Option ℕ) :=
  match rev waitId with
  | some n => some (update rev waitId (if n - 1 = 0 then none else some (n - 1)))
  | none => none

def decrementWaitersImpl (m : PointLockManager) (id : TransactionID) (waitIds : List TransactionID) :
    Option PointLockManager :=
  if (m.waitTxnMap id).isSome then
    (waitIds.foldlM decrementRev m.revWaitTxnMap).map fun rev =>
      { m with waitTxnMap := update m.waitTxnMap id none, revWaitTxnMap := rev }
  else none

def searchLoop (waitTxnMap : TransactionID → Option TrackedTrxInfo) (id : TransactionID) (depth : ℕ) :
    ℕ → ℕ → List Queued → Option (List TransactionID) → Option ℕ → Search
  | 0, _, _, _, _ => .limitExceeded
  | fuel + 1, head, queue, nextIds, parent =>
    let queue := queue ++ ((nextIds.getD []).take (depth - queue.length)).map (⟨·, parent⟩)
    match queue[head]? with
    | none => .noDeadlock
    | some next =>
      if next.value = id then .deadlock queue head
      else
        match waitTxnMap next.value with
        | none => searchLoop waitTxnMap id depth fuel (head + 1) queue none parent
        | some info => searchLoop waitTxnMap id depth fuel (head + 1) queue (some info.neighbors) (some head)

def parentPath (waitTxnMap : TransactionID → Option TrackedTrxInfo) (queue : List Queued) :
    ℕ → Option ℕ → Option (List DeadlockInfo)
  | _, none => some []
  | 0, some _ => none
  | fuel + 1, some head => do
    let q ← queue[head]?
    let info ← waitTxnMap q.value
    let rest ← parentPath waitTxnMap queue fuel q.parent
    some (⟨q.value, info.cfId, info.exclusive, info.waitingKey⟩ :: rest)

def incrementWaiters (m : PointLockManager) (txn : PessimisticTransaction) (info : TrackedTrxInfo)
    (deadlockTime : ℕ) : Option (Bool × PointLockManager) :=
  if (m.waitTxnMap txn.id).isSome then none
  else
    let waiting := { m with
      waitTxnMap := update m.waitTxnMap txn.id (some info)
      revWaitTxnMap := info.neighbors.foldl incrementRev m.revWaitTxnMap }
    -- no deadlock if nobody is waiting on self
    if (waiting.revWaitTxnMap txn.id).isNone then some (false, waiting)
    else
      let depth := txn.deadlockDetectDepth
      match searchLoop waiting.waitTxnMap txn.id depth depth 0 [] (some info.neighbors) none with
      | .noDeadlock => some (false, waiting)
      | .deadlock queue head => do
        let path ← parentPath waiting.waitTxnMap queue (head + 1) (some head)
        let dlockBuffer := waiting.dlockBuffer ++ [⟨path.reverse, false, deadlockTime⟩]
        let m' ← { waiting with dlockBuffer := dlockBuffer }.decrementWaitersImpl txn.id info.neighbors
        some (true, m')
      | .limitExceeded => do
        let dlockBuffer := waiting.dlockBuffer ++ [⟨[], true, deadlockTime⟩]
        let m' ← { waiting with dlockBuffer := dlockBuffer }.decrementWaitersImpl txn.id info.neighbors
        some (true, m')

end PointLockManager

inductive WaitersCall where
  | incrementWaiters (txn : PessimisticTransaction) (info : TrackedTrxInfo) (deadlockTime : ℕ)
  | decrementWaiters (id : TransactionID) (waitIds : List TransactionID)

structure Waiters where
  manager : PointLockManager := {}
  waiting : List (TransactionID × List TransactionID) := []

def Waiters.step (s : Waiters) : WaitersCall → Option Waiters
  | .incrementWaiters txn info deadlockTime =>
    if txn.id ∈ s.waiting.map Prod.fst then none
    else
      (s.manager.incrementWaiters txn info deadlockTime).map fun (deadlock, manager) =>
        ⟨manager, if deadlock then s.waiting else (txn.id, info.neighbors) :: s.waiting⟩
  | .decrementWaiters id waitIds =>
    if (id, waitIds) ∈ s.waiting then
      (s.manager.decrementWaitersImpl id waitIds).map fun manager => ⟨manager, s.waiting.erase (id, waitIds)⟩
    else none

end ZenFSPlus.Transactions
