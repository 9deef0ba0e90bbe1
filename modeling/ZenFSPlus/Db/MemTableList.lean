import ZenFSPlus.Lib.Run

/-!
Flushing of the immutable memtables of a column family, `db/memtable_list.cc` as `db/flush_job.cc` calls it, without
mempurge.
-/

namespace ZenFSPlus.Db.Flush

structure MemTable where
  id : ℕ
  flushInProgress : Bool := false
  flushCompleted : Bool := false
  fileNumber : ℕ := 0
  /-- The files that `edit_` adds to level 0. -/
  edit : List ℕ := []
  deriving DecidableEq

structure FlushJob where
  mems : List ℕ
  fileNumber : ℕ
  deriving DecidableEq

/-- Where the thread with `commit_in_progress_` is: in `LogAndApply` with the edits of some memtables,
or on its way back with the status. -/
inductive Commit where
  | idle
  | logAndApply (batchCount : ℕ) (editList : List ℕ)
  | returned (ok : Bool)
  deriving DecidableEq

/-- How `LogAndApply` ends: the edits are applied; writing the manifest failed; the column family was dropped, and the
edits with it; or it returned before the manifest was reached. -/
inductive Outcome where
  | applied
  | failed
  | dropped
  | notLogged
  deriving DecidableEq

structure State where
  memlist : List MemTable := []
  nextId : ℕ := 0
  nextFileNumber : ℕ := 1
  /-- The jobs that write their file. -/
  jobs : List FlushJob := []
  /-- The jobs that wrote it. -/
  written : List FlushJob := []
  commit : Commit := .idle
  /-- The files of the edits that `LogAndApply` applied. -/
  applied : List ℕ := []
  /-- The memtables that left the list, in the order in which they did. -/
  removed : List ℕ := []
  deriving DecidableEq

def setMems (mems : List ℕ) (f : MemTable → MemTable) (memlist : List MemTable) : List MemTable :=
  memlist.map fun m => if m.id ∈ mems then f m else m

namespace State

variable (s : State)

def add : State := { s with memlist := s.memlist ++ [{ id := s.nextId }], nextId := s.nextId + 1 }

def picked (maxMemtableId : ℕ) : List ℕ :=
  ((s.memlist.takeWhile fun m => m.id ≤ maxMemtableId).filter fun m => !m.flushInProgress).map MemTable.id

/-- `FlushJob::PickMemTable`: a job without memtables does nothing more. -/
def pickMemtablesToFlush (maxMemtableId : ℕ) : State :=
  let mems := s.picked maxMemtableId
  let memlist := setMems mems (fun m => { m with flushInProgress := true }) s.memlist
  if mems = [] then { s with memlist := memlist }
  else
    { s with
      memlist := memlist
      jobs := ⟨mems, s.nextFileNumber⟩ :: s.jobs
      nextFileNumber := s.nextFileNumber + 1 }

def rollbackMemtableFlush (job : FlushJob) : State :=
  { s with
    memlist := setMems job.mems (fun m => { m with flushInProgress := false, flushCompleted := false, edit := [] })
      s.memlist
    jobs := s.jobs.erase job }

def editLoop (batchFileNumber : Option ℕ) : List MemTable → List ℕ
  | [] => []
  | m :: memlist =>
    if batchFileNumber = some m.fileNumber then editLoop batchFileNumber memlist
    else m.id :: editLoop (some m.fileNumber) memlist

def commitLoop : State :=
  let batch := s.memlist.takeWhile MemTable.flushCompleted
  if batch = [] then { s with commit := .idle }
  else { s with commit := .logAndApply batch.length (editLoop none batch) }

def tryInstallMemtableFlushResults (job : FlushJob) : State :=
  let memlist := setMems (job.mems.take 1) (fun m => { m with edit := m.edit ++ [job.fileNumber] }) s.memlist
  let memlist := setMems job.mems (fun m => { m with flushCompleted := true, fileNumber := job.fileNumber }) memlist
  let done := { s with memlist := memlist, jobs := s.jobs.erase job, written := job :: s.written }
  -- if some other thread is already committing, then return
  if s.commit = .idle then done.commitLoop else done

def restoreFlags (m : MemTable) : MemTable :=
  { m with flushCompleted := false, flushInProgress := false, edit := [], fileNumber := 0 }

def removeMemTablesOrRestoreFlags (ok dropped : Bool) (batchCount : ℕ) : State :=
  if ok && !dropped then
    { s with
      memlist := s.memlist.drop batchCount
      removed := s.removed ++ (s.memlist.take batchCount).map MemTable.id }
  else { s with memlist := (s.memlist.take batchCount).map restoreFlags ++ s.memlist.drop batchCount }

def logAndApply (outcome : Outcome) (batchCount : ℕ) (editList : List ℕ) : State :=
  match outcome with
  | .applied =>
    let files := (s.memlist.filter fun m => m.id ∈ editList).flatMap MemTable.edit
    { { s with applied := s.applied ++ files }.removeMemTablesOrRestoreFlags true false batchCount with
      commit := .returned true }
  | .failed => { s.removeMemTablesOrRestoreFlags false false batchCount with commit := .returned false }
  | .dropped => { s.removeMemTablesOrRestoreFlags true true batchCount with commit := .returned true }
  | .notLogged => { s with commit := .returned false }

end State

inductive Action where
  | add
  | pickMemtablesToFlush (maxMemtableId : ℕ)
  | rollbackMemtableFlush (job : FlushJob)
  | tryInstallMemtableFlushResults (job : FlushJob)
  | logAndApply (outcome : Outcome)
  | resume

def step (s : State) : Action → Option State
  | .add => some s.add
  | .pickMemtablesToFlush maxMemtableId => some (s.pickMemtablesToFlush maxMemtableId)
  | .rollbackMemtableFlush job => if job ∈ s.jobs then some (s.rollbackMemtableFlush job) else none
  | .tryInstallMemtableFlushResults job =>
    if job ∈ s.jobs then some (s.tryInstallMemtableFlushResults job) else none
  | .logAndApply outcome =>
    match s.commit with
    | .logAndApply batchCount editList => some (s.logAndApply outcome batchCount editList)
    | _ => none
  | .resume =>
    match s.commit with
    | .returned true => some s.commitLoop
    | .returned false => some { s with commit := .idle }
    | _ => none

end ZenFSPlus.Db.Flush
