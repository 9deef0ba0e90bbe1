import ZenFSPlus.Db.SubBatchCount

/-!
`WriteBatchWithIndex`: the skip list is the list of its entries in order, and an iterator on it is a
position; the position behind the last entry is not valid.
-/

namespace ZenFSPlus.Db

open Lib (u32)
open Util

structure UserComparators where
  lt : ℕ → Bytes → Bytes → Bool
  irrefl : ∀ cf k, lt cf k k = false
  trans : ∀ cf a b c, lt cf a b = true → lt cf b c = true → lt cf a c = true
  total : ∀ cf a b, lt cf a b = true ∨ a = b ∨ lt cf b a = true

structure WriteBatchIndexEntry where
  offset : ℕ
  columnFamily : ℕ
  key : Bytes
deriving DecidableEq, Repr

namespace WriteBatchIndexEntry

def cfKey (e : WriteBatchIndexEntry) : ℕ × Bytes := (e.columnFamily, e.key)

def lt (c : UserComparators) (e e' : WriteBatchIndexEntry) : Bool :=
  e.columnFamily < e'.columnFamily || (e.columnFamily == e'.columnFamily &&
    (c.lt e.columnFamily e.key e'.key || (e.key == e'.key && e.offset < e'.offset)))

def precedes (c : UserComparators) (e : WriteBatchIndexEntry) (cf : ℕ) (key : Bytes) : Bool :=
  e.columnFamily < cf || (e.columnFamily == cf && c.lt cf e.key key)

end WriteBatchIndexEntry

namespace Index

open WriteBatchIndexEntry

variable (c : UserComparators) (index : List WriteBatchIndexEntry) (cf : ℕ) (key : Bytes)

def insert (e : WriteBatchIndexEntry) : List WriteBatchIndexEntry → List WriteBatchIndexEntry
  | [] => [e]
  | e' :: index => if e.lt c e' then e :: e' :: index else e' :: insert e index

def seek : ℕ := index.findIdx fun e => !e.precedes c cf key

def seekMinInCf : ℕ := index.findIdx fun e => !(e.columnFamily < cf)

def valid (p : ℕ) : Bool := (index[p]?).any fun e => e.columnFamily == cf

def matchesKey (p : ℕ) : Bool := (index[p]?).any fun e => e.columnFamily == cf && e.key == key

def nextKey (p : ℕ) : ℕ :=
  p + 1 + ((index.drop (p + 1)).takeWhile fun e => e.columnFamily == cf && e.key == key).length

def seekToLast : Option ℕ :=
  let p := seekMinInCf index (u32 (cf + 1))
  if p = 0 then none else some (p - 1)

def lastOfKey (p : ℕ) : Option ℕ :=
  let q := nextKey index cf key p
  if valid index cf q then some (q - 1) else seekToLast index cf

end Index

inductive WriteType where
  | putRecord | mergeRecord | deleteRecord | singleDeleteRecord
deriving DecidableEq, Repr

structure Rep where
  writeBatch : WriteBatch
  savePoints : List SavePoint
  index : List WriteBatchIndexEntry
  overwriteKey : Bool
  lastEntryOffset : ℕ
  lastSubBatchOffset : ℕ
  subBatchCnt : ℕ

namespace WriteBatch

def clear (b : WriteBatch) : WriteBatch :=
  ⟨List.replicate kHeader 0, ⟨0, 0⟩, b.maxBytes, new.header_le⟩

def rollbackTo (b : WriteBatch) (s : SavePoint) : WriteBatch :=
  if s.size = b.rep.length then b
  else if h : kHeader ≤ s.size ∧ s.size ≤ b.rep.length then
    WriteBatch.setCount ⟨b.rep.take s.size, b.walTermPoint, b.maxBytes, by
      rw [List.length_take]
      omega⟩ s.count
  else b.clear

end WriteBatch

namespace Rep

def new (overwriteKey : Bool) : Rep := ⟨.new, [], [], overwriteKey, 0, 0, 1⟩

variable (c : UserComparators) (r : Rep)

def setLastEntryOffset : Rep := { r with lastEntryOffset := r.writeBatch.rep.length }

def countSubBatch (e : WriteBatchIndexEntry) : Rep :=
  if r.lastSubBatchOffset ≤ e.offset then
    { r with
      lastSubBatchOffset := r.lastEntryOffset
      subBatchCnt := r.subBatchCnt + 1 }
  else r

/-- Whether the key was found and updated; `none` is the access to an entry that is not there. -/
def updateExistingEntryWithCfId (cf : ℕ) (key : Bytes) (type : WriteType) : Option (Bool × Rep) :=
  if !r.overwriteKey then some (false, r)
  else
    let p := Index.seek c r.index cf key
    if !Index.valid r.index cf p then some (false, r)
    else if !Index.matchesKey r.index cf key p then some (false, r)
    else do
      let last ← Index.lastOfKey r.index cf key p
      let e ← r.index[last]?
      let r := r.countSubBatch e
      if type = .mergeRecord then return (false, r)
      else return (true, { r with index := r.index.set last { e with offset := r.lastEntryOffset } })

def recordKey : Record → Option Bytes
  | .value _ k _ | .deletion _ k | .singleDeletion _ k | .rangeDeletion _ k _ | .merge _ k _ => some k
  | _ => none

def addNewEntry (cf : ℕ) : Option Rep :=
  match readRecordFromWriteBatch (r.writeBatch.rep.drop r.lastEntryOffset) with
  | .error _ => none
  | .ok (record, _) => do
    let key ← recordKey record
    return { r with index := Index.insert c ⟨r.lastEntryOffset, cf, key⟩ r.index }

def addOrUpdateIndex (cf : ℕ) (key : Bytes) (type : WriteType) : Option Rep := do
  let (updated, r) ← r.updateExistingEntryWithCfId c cf key type
  if updated then return r else r.addNewEntry c cf

def clearIndex : Rep :=
  { r with
    index := []
    lastEntryOffset := 0
    lastSubBatchOffset := 0
    subBatchCnt := 1 }

def clear : Rep := clearIndex { r with writeBatch := r.writeBatch.clear, savePoints := [] }

def indexed : Record → Except String (Option (ℕ × Bytes × WriteType))
  | .value cf k _ => .ok (some (cf, k, .putRecord))
  | .deletion cf k => .ok (some (cf, k, .deleteRecord))
  | .singleDeletion cf k => .ok (some (cf, k, .singleDeleteRecord))
  | .merge cf k _ => .ok (some (cf, k, .mergeRecord))
  | .rangeDeletion .. | .blobIndex .. => .error "unknown WriteBatch tag in ReBuildIndex"
  | _ => .ok none

def reBuildLoop (input : Bytes) (found : ℕ) (r : Rep) : Option (Except String ℕ × Rep) :=
  if input = [] then some (.ok found, r)
  else
    let r := { r with lastEntryOffset := r.writeBatch.rep.length - input.length }
    match _h : readRecordFromWriteBatch input with
    | .error e => some (.error e, r)
    | .ok (record, rest) =>
      match indexed record with
      | .error e => some (.error e, r)
      | .ok none => reBuildLoop rest found r
      | .ok (some (cf, key, type)) => do
        let r ← r.addOrUpdateIndex c cf key type
        reBuildLoop rest (u32 (found + 1)) r
termination_by input.length
decreasing_by all_goals exact readRecordFromWriteBatch_length _h

def reBuildIndex : Option (Except String Unit × Rep) :=
  let r := r.clearIndex
  if r.writeBatch.count = 0 then some (.ok (), r)
  else do
    match ← reBuildLoop c (r.writeBatch.rep.drop kHeader) 0 r with
    | (.error e, r) => return (.error e, r)
    | (.ok found, r) =>
      if found ≠ r.writeBatch.count then return (.error "WriteBatch has wrong count", r)
      else return (.ok (), r)

def typeOf : Op → Option WriteType
  | .put .. => some .putRecord
  | .delete .. => some .deleteRecord
  | .singleDelete .. => some .singleDeleteRecord
  | .merge .. => some .mergeRecord
  | .deleteRange .. | .putLogData _ => none

/-- `Put`, `Delete`, `SingleDelete` and `Merge`; a rejected operation leaves the index alone.
`DeleteRange` is not supported and log data is not indexed. -/
def write (op : Op) : Option Rep :=
  match typeOf op with
  | none =>
    match op with
    | .putLogData blob => some { r with writeBatch := (r.writeBatch.putLogData blob).2 }
    | _ => some r
  | some type =>
    let r := r.setLastEntryOffset
    let (s, b) := op.apply r.writeBatch
    let r := { r with writeBatch := b }
    if s = .ok then r.addOrUpdateIndex c op.columnFamily op.key type else some r

def setSavePoint : Rep :=
  { r with savePoints := ⟨r.writeBatch.rep.length, r.writeBatch.count⟩ :: r.savePoints }

def popSavePoint : Rep := { r with savePoints := r.savePoints.tail }

def rollbackToSavePoint : Option (Except String Unit × Rep) :=
  match r.savePoints with
  | [] => some (.error "NotFound", r)
  | s :: savePoints =>
    reBuildIndex c { r with
      writeBatch := r.writeBatch.rollbackTo s
      savePoints := savePoints
      subBatchCnt := 1
      lastSubBatchOffset := 0 }

inductive Call where
  | write (op : Op)
  | setSavePoint
  | popSavePoint
  | rollbackToSavePoint
  | clear
deriving DecidableEq, Repr

def step : Call → Option Rep
  | .write op => r.write c op
  | .setSavePoint => some r.setSavePoint
  | .popSavePoint => some r.popSavePoint
  | .rollbackToSavePoint => (r.rollbackToSavePoint c).map Prod.snd
  | .clear => some r.clear

end Rep

end ZenFSPlus.Db
