import ZenFSPlus.Lib.Run
import ZenFSPlus.Util.Coding

/-!
`WriteBatch`: a header of a sequence number and a count, and the records behind it; and `WriteBatchInternal::Iterate`,
which replays the records to a handler.
-/

namespace ZenFSPlus.Db

open List
open Lib (u32)
open Util

inductive Status where
  | ok
  | tryAgain
  | memoryLimit
  | invalidArgument (msg : String)
  | notSupported (msg : String)
  | corruption (msg : String)
deriving DecidableEq, Repr

inductive ValueType where
  | deletion
  | value
  | merge
  | logData
  | columnFamilyDeletion
  | columnFamilyValue
  | columnFamilyMerge
  | singleDeletion
  | columnFamilySingleDeletion
  | beginPrepareXID
  | endPrepareXID
  | commitXID
  | rollbackXID
  | noop
  | columnFamilyRangeDeletion
  | rangeDeletion
  | columnFamilyBlobIndex
  | blobIndex
  | beginPersistedPrepareXID
  | beginUnprepareXID
deriving DecidableEq, Repr

namespace ValueType

def code : ValueType → UInt8
  | deletion => 0x0
  | value => 0x1
  | merge => 0x2
  | logData => 0x3
  | columnFamilyDeletion => 0x4
  | columnFamilyValue => 0x5
  | columnFamilyMerge => 0x6
  | singleDeletion => 0x7
  | columnFamilySingleDeletion => 0x8
  | beginPrepareXID => 0x9
  | endPrepareXID => 0xA
  | commitXID => 0xB
  | rollbackXID => 0xC
  | noop => 0xD
  | columnFamilyRangeDeletion => 0xE
  | rangeDeletion => 0xF
  | columnFamilyBlobIndex => 0x10
  | blobIndex => 0x11
  | beginPersistedPrepareXID => 0x12
  | beginUnprepareXID => 0x13

def ofCode (c : UInt8) : Option ValueType :=
  [deletion, value, merge, logData, columnFamilyDeletion, columnFamilyValue, columnFamilyMerge,
    singleDeletion, columnFamilySingleDeletion, beginPrepareXID, endPrepareXID, commitXID, rollbackXID,
    noop, columnFamilyRangeDeletion, rangeDeletion, columnFamilyBlobIndex, blobIndex,
    beginPersistedPrepareXID, beginUnprepareXID].find? fun t => t.code = c

end ValueType

inductive Record where
  | value (columnFamily : ℕ) (key value : Bytes)
  | deletion (columnFamily : ℕ) (key : Bytes)
  | singleDeletion (columnFamily : ℕ) (key : Bytes)
  | rangeDeletion (columnFamily : ℕ) (beginKey endKey : Bytes)
  | merge (columnFamily : ℕ) (key value : Bytes)
  | blobIndex (columnFamily : ℕ) (key value : Bytes)
  | logData (blob : Bytes)
  | beginPrepareXID
  | beginPersistedPrepareXID
  | beginUnprepareXID
  | endPrepareXID (xid : Bytes)
  | commitXID (xid : Bytes)
  | rollbackXID (xid : Bytes)
  | noop
deriving DecidableEq, Repr

namespace Record

def encodeTag (columnFamily : ℕ) (tag columnFamilyTag : ValueType) : Bytes :=
  if columnFamily = 0 then [tag.code] else columnFamilyTag.code :: encodeVarint32 columnFamily

def encode : Record → Bytes
  | value cf k v => encodeTag cf .value .columnFamilyValue ++
      (putLengthPrefixedSlice k ++ putLengthPrefixedSlice v)
  | deletion cf k => encodeTag cf .deletion .columnFamilyDeletion ++ putLengthPrefixedSlice k
  | singleDeletion cf k =>
      encodeTag cf .singleDeletion .columnFamilySingleDeletion ++ putLengthPrefixedSlice k
  | rangeDeletion cf b e => encodeTag cf .rangeDeletion .columnFamilyRangeDeletion ++
      (putLengthPrefixedSlice b ++ putLengthPrefixedSlice e)
  | merge cf k v => encodeTag cf .merge .columnFamilyMerge ++
      (putLengthPrefixedSlice k ++ putLengthPrefixedSlice v)
  | blobIndex cf k v => encodeTag cf .blobIndex .columnFamilyBlobIndex ++
      (putLengthPrefixedSlice k ++ putLengthPrefixedSlice v)
  | logData blob => ValueType.logData.code :: putLengthPrefixedSlice blob
  | beginPrepareXID => [ValueType.beginPrepareXID.code]
  | beginPersistedPrepareXID => [ValueType.beginPersistedPrepareXID.code]
  | beginUnprepareXID => [ValueType.beginUnprepareXID.code]
  | endPrepareXID xid => ValueType.endPrepareXID.code :: putLengthPrefixedSlice xid
  | commitXID xid => ValueType.commitXID.code :: putLengthPrefixedSlice xid
  | rollbackXID xid => ValueType.rollbackXID.code :: putLengthPrefixedSlice xid
  | noop => [ValueType.noop.code]

def counted : Record → Bool
  | value .. | deletion .. | singleDeletion .. | rangeDeletion .. | merge .. | blobIndex .. => true
  | _ => false

end Record

section

def readColumnFamily (msg : String) (read : ℕ → Bytes → Except String (Record × Bytes)) (input : Bytes) :
    Except String (Record × Bytes) :=
  match getVarint32 input with
  | none => .error msg
  | some (cf, input) => read cf input

def readSlice (msg : String) (input : Bytes) : Except String (Bytes × Bytes) :=
  match getLengthPrefixedSlice input with
  | none => .error msg
  | some r => .ok r

def readKey (msg : String) (make : Bytes → Record) (input : Bytes) : Except String (Record × Bytes) := do
  let (key, input) ← readSlice msg input
  return (make key, input)

def readKeyValue (msg : String) (make : Bytes → Bytes → Record) (input : Bytes) :
    Except String (Record × Bytes) := do
  let (key, input) ← readSlice msg input
  let (value, input) ← readSlice msg input
  return (make key value, input)

def readRecordFromWriteBatch : Bytes → Except String (Record × Bytes)
  | [] => .error "unknown WriteBatch tag"
  | tag :: input =>
    match ValueType.ofCode tag with
    | some .columnFamilyValue =>
      readColumnFamily "bad WriteBatch Put" (fun cf => readKeyValue "bad WriteBatch Put" (.value cf)) input
    | some .value => readKeyValue "bad WriteBatch Put" (.value 0) input
    | some .columnFamilyDeletion =>
      readColumnFamily "bad WriteBatch Delete" (fun cf => readKey "bad WriteBatch Delete" (.deletion cf)) input
    | some .columnFamilySingleDeletion =>
      readColumnFamily "bad WriteBatch Delete" (fun cf => readKey "bad WriteBatch Delete" (.singleDeletion cf)) input
    | some .deletion => readKey "bad WriteBatch Delete" (.deletion 0) input
    | some .singleDeletion => readKey "bad WriteBatch Delete" (.singleDeletion 0) input
    | some .columnFamilyRangeDeletion =>
      readColumnFamily "bad WriteBatch DeleteRange" (fun cf => readKeyValue "bad WriteBatch DeleteRange" (.rangeDeletion cf)) input
    | some .rangeDeletion => readKeyValue "bad WriteBatch DeleteRange" (.rangeDeletion 0) input
    | some .columnFamilyMerge =>
      readColumnFamily "bad WriteBatch Merge" (fun cf => readKeyValue "bad WriteBatch Merge" (.merge cf)) input
    | some .merge => readKeyValue "bad WriteBatch Merge" (.merge 0) input
    | some .columnFamilyBlobIndex =>
      readColumnFamily "bad WriteBatch BlobIndex" (fun cf => readKeyValue "bad WriteBatch BlobIndex" (.blobIndex cf)) input
    | some .blobIndex => readKeyValue "bad WriteBatch BlobIndex" (.blobIndex 0) input
    | some .logData => readKey "bad WriteBatch Blob" .logData input
    | some .noop => .ok (.noop, input)
    | some .beginPrepareXID => .ok (.beginPrepareXID, input)
    | some .beginPersistedPrepareXID => .ok (.beginPersistedPrepareXID, input)
    | some .beginUnprepareXID => .ok (.beginUnprepareXID, input)
    | some .endPrepareXID => readKey "bad EndPrepare XID" .endPrepareXID input
    | some .commitXID => readKey "bad Commit XID" .commitXID input
    | some .rollbackXID => readKey "bad Rollback XID" .rollbackXID input
    | none => .error "unknown WriteBatch tag"

variable {msg : String} {input rest : Bytes} {r : Record}

theorem readSlice_length {value : Bytes} (h : readSlice msg input = .ok (value, rest)) :
    rest.length ≤ input.length := by
  unfold readSlice at h
  split at h
  · cases h
  · cases h
    exact getLengthPrefixedSlice_length ‹_›

theorem readColumnFamily_length {read : ℕ → Bytes → Except String (Record × Bytes)}
    (hr : ∀ cf input', read cf input' = .ok (r, rest) → rest.length ≤ input'.length)
    (h : readColumnFamily msg read input = .ok (r, rest)) : rest.length ≤ input.length := by
  unfold readColumnFamily at h
  split at h
  · cases h
  · exact Nat.le_trans (hr _ _ h) (getVarint32_length ‹_›)

theorem readKey_length {make : Bytes → Record} (h : readKey msg make input = .ok (r, rest)) :
    rest.length ≤ input.length := by
  obtain ⟨⟨key, input'⟩, hk, h⟩ := Lib.bind_eq_ok.mp h
  cases h
  exact readSlice_length hk

theorem readKeyValue_length {make : Bytes → Bytes → Record}
    (h : readKeyValue msg make input = .ok (r, rest)) : rest.length ≤ input.length := by
  obtain ⟨⟨key, input'⟩, hk, h⟩ := Lib.bind_eq_ok.mp h
  obtain ⟨⟨value, input''⟩, hv, h⟩ := Lib.bind_eq_ok.mp h
  cases h
  exact Nat.le_trans (readSlice_length hv) (readSlice_length hk)

theorem readRecordFromWriteBatch_length (h : readRecordFromWriteBatch input = .ok (r, rest)) :
    rest.length < input.length := by
  cases input with
  | nil => cases h
  | cons tag input =>
    apply Nat.lt_succ_of_le
    rw [readRecordFromWriteBatch] at h
    split at h
    all_goals first
      | exact readKey_length h
      | exact readKeyValue_length h
      | exact readColumnFamily_length (fun _ _ => readKey_length) h
      | exact readColumnFamily_length (fun _ _ => readKeyValue_length) h
      | cases h
    all_goals exact Nat.le_refl _

end

/-- The calls of `WriteBatch::Handler` that stand for records. -/
inductive Call where
  | putCF (columnFamily : ℕ) (key value : Bytes)
  | deleteCF (columnFamily : ℕ) (key : Bytes)
  | singleDeleteCF (columnFamily : ℕ) (key : Bytes)
  | deleteRangeCF (columnFamily : ℕ) (beginKey endKey : Bytes)
  | mergeCF (columnFamily : ℕ) (key value : Bytes)
  | putBlobIndexCF (columnFamily : ℕ) (key value : Bytes)
  | logData (blob : Bytes)
  | markBeginPrepare (unprepared : Bool)
  | markEndPrepare (xid : Bytes)
  | markCommit (xid : Bytes)
  | markRollback (xid : Bytes)
  | markNoop (emptyBatch : Bool)
deriving DecidableEq, Repr

structure Handler (σ : Type) where
  continue_ : σ → Bool
  call : Call → σ → Status × σ
  writeAfterCommit : σ → Bool
  writeBeforePrepare : σ → Bool

structure IterateState (σ : Type) where
  handler : σ
  emptyBatch : Bool
  found : ℕ

section

variable {σ : Type} (h : Handler σ)

def dispatchKey (c : Call) (emptyAfter : Bool) (st : IterateState σ) : Status × IterateState σ :=
  let (s, handler) := h.call c st.handler
  if s = .ok then (s, ⟨handler, emptyAfter, u32 (st.found + 1)⟩) else (s, { st with handler })

def dispatchMark (c : Call) (emptyAfter : Bool) (st : IterateState σ) : Status × IterateState σ :=
  let (s, handler) := h.call c st.handler
  (s, { st with handler, emptyBatch := emptyAfter })

def dispatch (st : IterateState σ) : Record → Status × IterateState σ
  | .value cf k v => dispatchKey h (.putCF cf k v) false st
  | .deletion cf k => dispatchKey h (.deleteCF cf k) false st
  | .singleDeletion cf k => dispatchKey h (.singleDeleteCF cf k) false st
  | .rangeDeletion cf b e => dispatchKey h (.deleteRangeCF cf b e) false st
  | .merge cf k v => dispatchKey h (.mergeCF cf k v) false st
  -- a blob index leaves `empty_batch` as it was
  | .blobIndex cf k v => dispatchKey h (.putBlobIndexCF cf k v) st.emptyBatch st
  | .logData blob => (.ok, { st with handler := (h.call (.logData blob) st.handler).2, emptyBatch := false })
  | .beginPrepareXID =>
    let (s, st) := dispatchMark h (.markBeginPrepare false) false st
    let s := if !h.writeAfterCommit st.handler then
      .notSupported "WriteCommitted txn tag when write_after_commit_ is disabled (in WritePrepared/WriteUnprepared mode). If it is not due to corruption, the WAL must be emptied before changing the WritePolicy."
      else s
    let s := if h.writeBeforePrepare st.handler then
      .notSupported "WriteCommitted txn tag when write_before_prepare_ is enabled (in WriteUnprepared mode). If it is not due to corruption, the WAL must be emptied before changing the WritePolicy."
      else s
    (s, st)
  | .beginPersistedPrepareXID =>
    let (s, st) := dispatchMark h (.markBeginPrepare false) false st
    let s := if h.writeAfterCommit st.handler then
      .notSupported "WritePrepared/WriteUnprepared txn tag when write_after_commit_ is enabled (in default WriteCommitted mode). If it is not due to corruption, the WAL must be emptied before changing the WritePolicy."
      else s
    (s, st)
  | .beginUnprepareXID =>
    let (s, st) := dispatchMark h (.markBeginPrepare true) false st
    let s := if h.writeAfterCommit st.handler then
      .notSupported "WriteUnprepared txn tag when write_after_commit_ is enabled (in default WriteCommitted mode). If it is not due to corruption, the WAL must be emptied before changing the WritePolicy."
      else s
    let s := if !h.writeBeforePrepare st.handler then
      .notSupported "WriteUnprepared txn tag when write_before_prepare_ is disabled (in WriteCommitted/WritePrepared mode). If it is not due to corruption, the WAL must be emptied before changing the WritePolicy."
      else s
    (s, st)
  | .endPrepareXID xid => dispatchMark h (.markEndPrepare xid) true st
  | .commitXID xid => dispatchMark h (.markCommit xid) true st
  | .rollbackXID xid => dispatchMark h (.markRollback xid) true st
  | .noop => dispatchMark h (.markNoop st.emptyBatch) true st

def attempt (st : IterateState σ) (r : Record) : Status × Bool × IterateState σ :=
  let (s, st) := dispatch h st r
  if s = .tryAgain then
    if !h.continue_ st.handler then (s, false, st)
    else
      let (s, st) := dispatch h st r
      if s = .tryAgain then
        if !h.continue_ st.handler then (s, false, st)
        else (.corruption "two consecutive TryAgain in WriteBatch handler; this is either a software bug or data corruption.", true, st)
      else (s, true, st)
  else (s, true, st)

def iterateLoop (input : Bytes) (st : IterateState σ) : Status × Bool × IterateState σ :=
  if input = [] then (.ok, true, st)
  else if !h.continue_ st.handler then (.ok, false, st)
  else
    match _h : readRecordFromWriteBatch input with
    | .error msg => (.corruption msg, true, st)
    | .ok (r, rest) =>
      match attempt h st r with
      | (.ok, true, st) => iterateLoop rest st
      | result => result
termination_by input.length
decreasing_by exact readRecordFromWriteBatch_length ‹_›

end

def kHeader : ℕ := 12

structure SavePoint where
  size : ℕ
  count : ℕ
deriving DecidableEq, Repr

/-- The content flags, the save points of the user and the protection information are left out; `max_bytes_`
0 is no limit. -/
structure WriteBatch where
  rep : Bytes
  walTermPoint : SavePoint := ⟨0, 0⟩
  maxBytes : ℕ := 0
  header_le : kHeader ≤ rep.length

namespace WriteBatch

def new : WriteBatch := ⟨replicate kHeader 0, ⟨0, 0⟩, 0, by decide⟩

def count (b : WriteBatch) : ℕ := decodeFixed32 (b.rep.drop 8)

def setCount (b : WriteBatch) (n : ℕ) : WriteBatch where
  rep := b.rep.take 8 ++ encodeFixed32 n ++ b.rep.drop 12
  walTermPoint := b.walTermPoint
  maxBytes := b.maxBytes
  header_le := by
    have hlen : (encodeFixed32 n).length = 4 := length_encodeFixed 4 n
    have hle := b.header_le
    unfold kHeader at *
    simp only [length_append, length_take, length_drop]
    omega

def append (b : WriteBatch) (bs : Bytes) : WriteBatch where
  rep := b.rep ++ bs
  walTermPoint := b.walTermPoint
  maxBytes := b.maxBytes
  header_le := by
    rw [length_append]
    exact Nat.le_add_right_of_le b.header_le

def commit (save b : WriteBatch) : Status × WriteBatch :=
  if b.maxBytes ≠ 0 ∧ b.maxBytes < b.rep.length then (.memoryLimit, save) else (.ok, b)

/-- `WriteBatchInternal::Put`, `Delete`, `SingleDelete`, `DeleteRange`, `Merge` and `PutBlobIndex` behind
their checks. -/
def addRecord (b : WriteBatch) (r : Record) : Status × WriteBatch :=
  commit b ((b.setCount (u32 (b.count + 1))).append r.encode)

def checkSize (key value : Bytes) : Option Status :=
  if 4294967295 < key.length then some (.invalidArgument "key is too large")
  else if 4294967295 < value.length then some (.invalidArgument "value is too large")
  else none

def put (b : WriteBatch) (cf : ℕ) (key value : Bytes) : Status × WriteBatch :=
  match checkSize key value with
  | some s => (s, b)
  | none => b.addRecord (.value cf key value)

def delete (b : WriteBatch) (cf : ℕ) (key : Bytes) : Status × WriteBatch := b.addRecord (.deletion cf key)

def singleDelete (b : WriteBatch) (cf : ℕ) (key : Bytes) : Status × WriteBatch :=
  b.addRecord (.singleDeletion cf key)

def deleteRange (b : WriteBatch) (cf : ℕ) (beginKey endKey : Bytes) : Status × WriteBatch :=
  b.addRecord (.rangeDeletion cf beginKey endKey)

def merge (b : WriteBatch) (cf : ℕ) (key value : Bytes) : Status × WriteBatch :=
  match checkSize key value with
  | some s => (s, b)
  | none => b.addRecord (.merge cf key value)

def putLogData (b : WriteBatch) (blob : Bytes) : Status × WriteBatch :=
  commit b (b.append (Record.logData blob).encode)

def insertNoop (b : WriteBatch) : WriteBatch := b.append Record.noop.encode

def markEndPrepare (b : WriteBatch) (xid : Bytes) (writeAfterCommit unpreparedBatch : Bool) : WriteBatch :=
  let begin : Record := if writeAfterCommit then .beginPrepareXID
    else if unpreparedBatch then .beginUnprepareXID else .beginPersistedPrepareXID
  append ⟨b.rep.take kHeader ++ begin.encode ++ b.rep.drop (kHeader + 1), b.walTermPoint, b.maxBytes, by
    have hle := b.header_le
    simp only [length_append, length_take]
    omega⟩ (Record.endPrepareXID xid).encode

def appendBatch (dst src : WriteBatch) (walOnly : Bool) : WriteBatch :=
  let (srcLen, srcCount) := if walOnly ∧ src.walTermPoint ≠ ⟨0, 0⟩
    then (src.walTermPoint.size - kHeader, src.walTermPoint.count)
    else (src.rep.length - kHeader, src.count)
  (dst.setCount (u32 (dst.count + srcCount))).append ((src.rep.drop kHeader).take srcLen)

def iterateRange {σ : Type} (b : WriteBatch) (h : Handler σ) (handler : σ) (first last : ℕ) : Status × σ :=
  if b.rep.length < first ∨ b.rep.length < last ∨ last < first then
    (.corruption "Invalid start/end bounds for Iterate", handler)
  else
    let wholeBatch : Bool := first = kHeader ∧ last = b.rep.length
    let (s, handlerContinue, st) := iterateLoop h ((b.rep.take last).drop first) ⟨handler, true, 0⟩
    if s ≠ .ok then (s, st.handler)
    else if handlerContinue ∧ wholeBatch ∧ st.found ≠ b.count then
      (.corruption "WriteBatch has wrong count", st.handler)
    else (.ok, st.handler)

def iterate {σ : Type} (b : WriteBatch) (h : Handler σ) (handler : σ) : Status × σ :=
  b.iterateRange h handler kHeader b.rep.length

end WriteBatch

end ZenFSPlus.Db
