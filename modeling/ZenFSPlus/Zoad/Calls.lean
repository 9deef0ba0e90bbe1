import ZenFSPlus.Zoad.Protocol

/-!
The calls of `zoad.cpp` as one caller sees them: the search for the user and the partition, and
what the inner function does to the partition. Locks and the worker are left to `Protocol`.
-/

namespace ZenFSPlus.Zoad

open Lib Function

inductive LpStatus
  | open | closed
  deriving DecidableEq

/-- The fields of `class Partition` that the calls use; a `Userdata` is named by a number. -/
structure LogicalPartition where
  id : ℕ
  status : LpStatus
  userdataMap : String → Option ℕ
  ioQueue : List (Rw × ℕ)

structure Clients where
  sys : System
  data : ℕ → Userdata
  nextData : ℕ
  userToPartitionMap : ℕ → Option (List LogicalPartition)

namespace Clients

variable (s : Clients) (uid lpId : ℕ) (name : String)

def findPartition : Option LogicalPartition :=
  (s.userToPartitionMap uid).bind fun partitions => partitions.find? fun p => p.id == lpId

def setPartition (p : LogicalPartition) : Clients :=
  { s with
    userToPartitionMap := update s.userToPartitionMap uid
      ((s.userToPartitionMap uid).map fun partitions =>
        partitions.set (partitions.findIdx fun q => q.id == lpId) p) }

/-- A call goes on with the inner function for the first partition of the user with this id. -/
def call (f : LogicalPartition → ℤ × Clients) : ℤ × Clients :=
  match s.findPartition uid lpId with
  | none => (-1, s)
  | some p => f p

def statusRet (p : LogicalPartition) : ℤ := if p.status = .open then 0 else -1

def zFlush (buf : Slice UInt8) : ℤ × Clients :=
  s.call uid lpId fun p =>
    match p.userdataMap name with
    | some data =>
      (statusRet p, s.setPartition uid lpId { p with ioQueue := p.ioQueue ++ [(.write buf, data)] })
    | none =>
      (statusRet p, { s with
        data := update s.data s.nextData (Userdata.new p.id (s.data s.nextData).nextSegmentId)
        nextData := s.nextData + 1 }.setPartition uid lpId { p with
          userdataMap := update p.userdataMap name (some s.nextData)
          ioQueue := p.ioQueue ++ [(Rw.write buf, s.nextData)] })

def zDel : ℤ × Clients :=
  s.call uid lpId fun p =>
    match p.userdataMap name with
    | some data =>
      (statusRet p, s.setPartition uid lpId { p with
        userdataMap := update p.userdataMap name none
        ioQueue := p.ioQueue ++ [(.delete, data)] })
    | none => (-1, s)

def zSync : ℤ × Clients :=
  s.call uid lpId fun p => (if (p.userdataMap name).isSome then statusRet p else -1, s)

/-- `z_load` with an offset and without. What `Userdata::Read` returns is not looked at. -/
def zLoad (args : LoadArgs) : Except Fault (ℤ × Mem UInt8) :=
  match s.findPartition uid lpId with
  | none => .ok (-1, args.buf)
  | some p =>
    match p.userdataMap args.name, args.offset with
    | none, _ => .ok (-1, args.buf)
    | some data, some offset =>
      ((s.data data).read s.sys args.buf offset args.size).map fun r => (statusRet p, r.2.1)
    | some data, none =>
      ((s.data data).readAll s.sys args.buf args.size).map fun buf => (statusRet p, buf)

variable {s uid lpId name}

theorem call_failed {f : LogicalPartition → ℤ × Clients}
    (h : ∀ p, s.findPartition uid lpId = some p → (f p).1 < 0 → (f p).2 = s)
    (hr : (s.call uid lpId f).1 < 0) : (s.call uid lpId f).2 = s := by
  unfold call at hr ⊢
  cases hp : s.findPartition uid lpId with
  | none => rfl
  | some p =>
    simp only [hp] at hr ⊢
    exact h p hp hr

theorem statusRet_of_open {p : LogicalPartition} (h : p.status = .open) : ¬ statusRet p < 0 := by
  simp [statusRet, h]

def oneLp (status : LpStatus) : Clients where
  sys := System.init (Zns.formatted 4 1 1)
  data := fun _ => Userdata.new 0 0
  nextData := 0
  userToPartitionMap := fun uid => if uid = 1 then some [⟨1, status, fun _ => none, []⟩] else none

end Clients

end ZenFSPlus.Zoad
