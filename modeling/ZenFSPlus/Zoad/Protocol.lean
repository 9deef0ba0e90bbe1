import ZenFSPlus.Zoad.Userdata
import ZenFSPlus.Lib.Run

/-!
One open partition: application threads in `z_flush`, `z_load`, `z_sync`, `z_del` and `z_closelp`
(`zoad.cpp`), its worker (`IO_request.cpp`) and the objects they share. A push, an empty test with
pop and a read of the status are one step each, and an interleaving is the list of the steps.
-/

namespace ZenFSPlus.Zoad

open Lib Function

inductive Rw
  | write (buf : Slice UInt8)
  | delete

structure IORequest where
  rw : Rw
  data : ℕ
  id : ℕ

structure LoadArgs where
  name : String
  buf : Mem UInt8
  offset : Option ℕ
  size : ℕ

inductive Op
  | zFlush (name : String) (buf : Slice UInt8)
  | zLoad (args : LoadArgs)
  | zSync (name : String)
  | zDel (name : String)
  | zCloselp

inductive Pc
  | idle
  | enter (op : Op)
  | locked (op : Op)
  | checked (op : Op) (ret : ℤ)
  | push (name : String) (rw : Rw) (data : ℕ) (ret : ℤ)
  | pushed (name : String) (req : IORequest) (ret : ℤ)
  | unlock (ret : ℤ)
  | loadUnlock (args : LoadArgs) (data : ℕ) (ret : ℤ)
  | loadSize (args : LoadArgs) (data : ℕ) (ret : ℤ)
  | loadLock (args : LoadArgs) (data : ℕ) (ret : ℤ)
  | loadRead (args : LoadArgs) (data : ℕ) (ret : ℤ)
  | syncUnlock (name : String) (ret : ℤ)
  | syncGet (name : String) (ret : ℤ)
  | syncLock (name : String) (data : ℕ) (ret : ℤ)
  | syncWait (name : String) (data : ℕ) (ret : ℤ)
  | syncClear (name : String) (data : ℕ) (ret : ℤ)

inductive WorkerPc
  | test (drain : Bool)
  | run (req : IORequest) (drain : Bool)
  | busy (req : IORequest) (drain : Bool)
  | free (req : IORequest) (drain : Bool)
  | status
  | ended

inductive Halt
  | exit (fault : Fault)
  | alreadyClosed
  | useAfterFree
  | endIterator
  deriving DecidableEq

structure Ack where
  name : String
  req : IORequest

/-- A `z_sync` that has returned: the acknowledged requests when it was called, and the executed
ones when it returned. -/
structure Synced where
  name : String
  ret : ℤ
  before : List Ack
  executed : List IORequest

structure Loaded where
  args : LoadArgs
  ret : ℤ
  before : List Ack
  buf : Mem UInt8

namespace Protocol

structure State where
  partition : ℕ
  sys : System
  data : ℕ → Userdata
  freed : ℕ → Bool
  nextData : ℕ
  userdataMap : String → Option ℕ
  closed : Bool
  globalLock : Option ℕ
  partitionLock : Option ℕ
  ioQueue : List IORequest
  writeLock : ℕ → Bool
  remainWriteReq : ℕ → ℕ
  threads : ℕ → Pc
  worker : WorkerPc
  halted : Option Halt
  enqueued : List IORequest
  executed : List IORequest
  acked : List Ack
  called : ℕ → List Ack
  synced : List Synced
  loaded : List Loaded

inductive Action
  | call (t : ℕ) (op : Op)
  | thread (t : ℕ)
  /-- A step of the worker; `past` is what `thread_write` reads behind the sorted vector. -/
  | worker (past : ℕ → ℕ → ℕ)

namespace State

def goto (s : State) (t : ℕ) (pc : Pc) : State :=
  { s with threads := update s.threads t pc }

def halt (s : State) (h : Halt) : State := { s with halted := some h }

def deref (s : State) (data : ℕ) (next : Option State) : Option State :=
  if s.freed data then some (s.halt .useAfterFree) else next

def newUserdata (s : State) (name : String) : State :=
  { s with
    data := update s.data s.nextData
      (Userdata.new s.partition (s.data s.nextData).nextSegmentId)
    nextData := s.nextData + 1
    userdataMap := update s.userdataMap name (some s.nextData)
    writeLock := update s.writeLock s.nextData false
    remainWriteReq := update s.remainWriteReq s.nextData 0 }

def setWriteLock (s : State) (data : ℕ) (value : Bool) : State :=
  { s with writeLock := update s.writeLock data value }

def setRemainWriteReq (s : State) (data value : ℕ) : State :=
  { s with remainWriteReq := update s.remainWriteReq data value }

def pushRequest (s : State) (req : IORequest) : State :=
  { s with ioQueue := s.ioQueue ++ [req], enqueued := s.enqueued ++ [req] }

def loadReturn (s : State) (t : ℕ) (args : LoadArgs) (ret : ℤ) (buf : Mem UInt8) : State :=
  { s.goto t .idle with loaded := s.loaded ++ [⟨args, ret, s.called t, buf⟩] }

def read (s : State) (data : ℕ) (args : LoadArgs) : Except Fault (Mem UInt8 × System) :=
  match args.offset with
  | some offset => (s.data data).readRange s.sys args.buf offset args.size
  | none => do
    let buf ← (s.data data).readAll s.sys args.buf args.size
    .ok (buf, s.sys)

def threadStep (s : State) (t : ℕ) : Option State :=
  match s.threads t with
  | .idle => none
  | .enter op =>
    if s.partitionLock = none then some { s.goto t (.locked op) with partitionLock := some t } else none
  | .locked .zCloselp =>
    if s.closed then some (s.halt .alreadyClosed)
    else some { s.goto t (.unlock s.partition) with closed := true }
  | .locked op => some (s.goto t (.checked op (if s.closed then -1 else 0)))
  | .checked (.zFlush name buf) ret =>
    match s.userdataMap name with
    | some data => some (s.goto t (.push name (.write buf) data ret))
    | none => some ((s.newUserdata name).goto t (.push name (.write buf) s.nextData ret))
  | .checked (.zLoad args) ret =>
    match s.userdataMap args.name with
    | some data => some (s.goto t (.loadUnlock args data ret))
    | none => some (s.goto t (.unlock (-1)))
  | .checked (.zSync name) ret =>
    if (s.userdataMap name).isSome then some (s.goto t (.syncUnlock name ret))
    else some (s.goto t (.unlock (-1)))
  | .checked (.zDel name) ret =>
    match s.userdataMap name with
    | some data =>
      some { s.goto t (.push name .delete data ret) with
        userdataMap := update s.userdataMap name none }
    | none => some (s.goto t (.unlock (-1)))
  | .checked .zCloselp _ => none
  | .push name rw data ret =>
    some ((s.pushRequest ⟨rw, data, s.enqueued.length⟩).goto t
      (.pushed name ⟨rw, data, s.enqueued.length⟩ ret))
  | .pushed name req ret =>
    some { s.goto t .idle with
      partitionLock := none
      acked := if ret = 0 then s.acked ++ [⟨name, req⟩] else s.acked }
  | .unlock _ =>
    some { s.goto t .idle with
      partitionLock := none
      globalLock := if s.globalLock = some t then none else s.globalLock }
  | .loadUnlock args data ret =>
    some { s.goto t (.loadSize args data ret) with partitionLock := none }
  | .loadSize args data ret =>
    match args.offset with
    | some offset =>
      s.deref data (if (s.data data).size < offset / blockSize
        then some (s.loadReturn t args ret args.buf)
        else some (s.goto t (.loadLock args data ret)))
    | none => some (s.goto t (.loadLock args data ret))
  | .loadLock args data ret =>
    s.deref data (if s.writeLock data then none
      else some ((s.setWriteLock data true).goto t (.loadRead args data ret)))
  | .loadRead args data ret =>
    s.deref data (match s.read data args with
      | .error fault => some (s.halt (.exit fault))
      | .ok (buf, sys) =>
        some { (s.setWriteLock data false).loadReturn t args ret buf with sys := sys })
  | .syncUnlock name ret => some { s.goto t (.syncGet name ret) with partitionLock := none }
  | .syncGet name ret =>
    match s.userdataMap name with
    | some data => some (s.goto t (.syncLock name data ret))
    | none => some (s.halt .endIterator)
  | .syncLock name data ret =>
    s.deref data (if s.writeLock data then none
      else some ((s.setWriteLock data true).goto t (.syncWait name data ret)))
  | .syncWait name data ret =>
    s.deref data (if s.remainWriteReq data = 0 then some (s.goto t (.syncClear name data ret)) else none)
  | .syncClear name data ret =>
    s.deref data (some { (s.setWriteLock data false).goto t .idle with
      synced := s.synced ++ [⟨name, ret, s.called t, s.executed⟩] })

def afterRequest (drain : Bool) : WorkerPc := if drain then .test true else .status

def finish (s : State) (req : IORequest) (drain : Bool) : State :=
  { s with executed := s.executed ++ [req], worker := afterRequest drain }

def workerStep (s : State) (past : ℕ → ℕ → ℕ) : Option State :=
  match s.worker with
  | .test drain =>
    match s.ioQueue with
    | [] => some { s with worker := if drain then .ended else .status }
    | req :: rest => some { s with ioQueue := rest, worker := .run req drain }
  | .run req drain =>
    s.deref req.data (if s.writeLock req.data then none
      else some { (s.setWriteLock req.data true).setRemainWriteReq req.data
        (u32 (s.remainWriteReq req.data + 1)) with worker := .busy req drain })
  | .busy req drain =>
    let s' := (s.setRemainWriteReq req.data (sub32 (s.remainWriteReq req.data) 1)).setWriteLock
      req.data false
    s.deref req.data (match req.rw with
      | .write buf =>
        match (s.data req.data).append s.sys past buf with
        | .error fault => some (s.halt (.exit fault))
        | .ok (sys, u) =>
          some { s'.finish req drain with sys := sys, data := update s.data req.data u }
      | .delete => some { s' with worker := .free req drain })
  | .free req drain =>
    s.deref req.data (some { s.finish req drain with freed := update s.freed req.data true })
  | .status => some { s with worker := .test s.closed }
  | .ended => none

/-- A call starts in the outer function, which finds the partition under the lock of all
partitions; `z_closelp` keeps that lock until it returns. -/
def call (s : State) (t : ℕ) (op : Op) : Option State :=
  match s.threads t with
  | .idle =>
    if s.globalLock = none then
      some { s.goto t (.enter op) with
        globalLock := match op with
          | .zCloselp => some t
          | _ => none
        called := update s.called t s.acked }
    else none
  | _ => none

def step (s : State) (a : Action) : Option State :=
  match s.halted with
  | some _ => none
  | none =>
    match a with
    | .call t op => s.call t op
    | .thread t => s.threadStep t
    | .worker past => s.workerStep past

structure Opened (s : State) : Prop where
  halted : s.halted = none
  closed : s.closed = false
  globalLock : s.globalLock = none
  partitionLock : s.partitionLock = none
  ioQueue : s.ioQueue = []
  writeLock : ∀ data, s.writeLock data = false
  remainWriteReq : ∀ data, s.remainWriteReq data = 0
  threads : ∀ t, s.threads t = .idle
  worker : s.worker = .test false
  freed : ∀ data, s.freed data = false
  map_lt : ∀ name data, s.userdataMap name = some data → data < s.nextData
  map_inj : ∀ name name' data, s.userdataMap name = some data → s.userdataMap name' = some data →
    name = name'
  enqueued : s.enqueued = []
  executed : s.executed = []
  acked : s.acked = []
  called : ∀ t, s.called t = []
  synced : s.synced = []
  loaded : s.loaded = []

def fresh (sys : System) (p : ℕ) : State where
  partition := p
  sys := sys
  data := fun _ => Userdata.new p 0
  freed := fun _ => false
  nextData := 0
  userdataMap := fun _ => none
  closed := false
  globalLock := none
  partitionLock := none
  ioQueue := []
  writeLock := fun _ => false
  remainWriteReq := fun _ => 0
  threads := fun _ => .idle
  worker := .test false
  halted := none
  enqueued := []
  executed := []
  acked := []
  called := fun _ => []
  synced := []
  loaded := []

theorem opened_fresh (sys : System) (p : ℕ) : (fresh sys p).Opened := by
  constructor <;> simp [fresh]

end State

end Protocol

end ZenFSPlus.Zoad
