import ZenFSPlus.Zoad.Controller
import ZenFSPlus.Lib.Dealing

/-!
The global state of ZoAD: isolated zone groups (`IZG.cpp`), partitions
(`Partition.cpp`) and their creation (`zoad.cpp`).
-/

namespace ZenFSPlus.Zoad

open Lib Function

structure Izg where
  zoneQueue : List ℕ

def Izg.getNextZone (izg : Izg) : ℤ × Izg :=
  match izg.zoneQueue with
  | [] => (-1, izg)
  | zone :: rest => (i32 zone, ⟨rest⟩)

def maxPartition : ℕ := 0

def qosPartition : ℕ := 1

structure Partition where
  name : String
  izgCnt : ℕ
  mkFlag : ℕ
  zoneVector : List ℕ
  readBuf : Mem UInt8

structure System where
  zns : Zns
  inactiveIzgQueue : List Izg
  totalIzgCnt : ℕ
  availableIzgCnt : ℕ
  nextPartitionId : ℕ
  partitions : ℕ → Partition
  userToPartitionMap : ℕ → Option (List ℕ)

def Zns.formatted (zsze zones maxOpenRes : ℕ) : Zns :=
  ⟨zsze, zones, maxOpenRes, 0, fun zone => ⟨zone * zsze, zone * zsze⟩, fun _ => 0⟩

def System.init (z : Zns) : System :=
  ⟨z, [], 0, 0, 1, fun _ => ⟨"", 0, 0, [], fun _ => 0⟩, fun _ => none⟩

def distance : ℕ := 32

namespace System

/-- `Identify_IZG` without the `format` at its end, which reloads descriptors that the
groups do not use. The bound of the loop is compared as an `unsigned int`. -/
def identifyIzg (s : System) : System :=
  let totalZone := (s.zns.znsGetTotalZone % 4294967296).toNat
  { s with
    inactiveIzgQueue := s.inactiveIzgQueue ++
      (List.range distance).map fun i => ⟨i :: lane distance totalZone (i + distance)⟩
    totalIzgCnt := distance
    availableIzgCnt := distance }

def allocIzg (s : System) (flags iolevel : ℕ) : ℤ × System :=
  if flags = maxPartition then (i32 s.availableIzgCnt, s)
  else if flags = qosPartition then
    let num := i32 iolevel
    if num < 0 ∨ (s.availableIzgCnt : ℤ) < num then (-1, s)
    else (num, { s with availableIzgCnt := s.availableIzgCnt - num.toNat })
  else (-1, s)

def mklp (s : System) (readBuf : Mem UInt8) (lpName : String) (flags iolevel : ℕ) :
    Option ℕ × System :=
  let (izgCnt, s) := s.allocIzg flags iolevel
  if izgCnt < 0 then (none, s)
  else (some s.nextPartitionId, { s with
    nextPartitionId := u32 (s.nextPartitionId + 1)
    partitions := update s.partitions s.nextPartitionId
      ⟨lpName, izgCnt.toNat, flags, [], readBuf⟩ })

def zMklp (s : System) (readBuf : Mem UInt8) (uid : ℕ) (lpName : String) (flags iolevel : ℕ) :
    ℤ × System :=
  match s.userToPartitionMap uid with
  | none =>
    match s.mklp readBuf lpName flags iolevel with
    | (none, s) => (-1, s)
    | (some p, s) => (i32 p, { s with
        userToPartitionMap := update s.userToPartitionMap uid (some [p]) })
  | some ps =>
    if ps.any fun p => (s.partitions p).name == lpName then (-1, s)
    else match s.mklp readBuf lpName flags iolevel with
      | (none, s) => (-1, s)
      | (some p, s) => (i32 p, { s with
          userToPartitionMap := update s.userToPartitionMap uid (some (ps ++ [p])) })

def single (zsze zones iolevel : ℕ) : System :=
  ((init (Zns.formatted zsze zones 64)).identifyIzg.zMklp (fun _ => 0) 0 "lp" qosPartition iolevel).2

/-- `Partition::alloc_zone` of partition `p`: the zone added to its `zone_vector` when the
call returns 0. -/
def allocZone (s : System) (p : ℕ) : Option ℕ × System :=
  match s.inactiveIzgQueue with
  | [] => (none, s)
  | izg :: rest =>
    let (nextZone, izg) := izg.getNextZone
    if nextZone < 0 then (none, { s with inactiveIzgQueue := izg :: rest })
    else (some nextZone.toNat, { s with
      inactiveIzgQueue := rest ++ [izg]
      partitions := update s.partitions p { s.partitions p with
        zoneVector := (s.partitions p).zoneVector ++ [nextZone.toNat] } })

def allocZones (s : System) : List ℕ → List (Option ℕ) × System
  | [] => ([], s)
  | p :: ps =>
    let r := s.allocZone p
    let rs := r.2.allocZones ps
    (r.1 :: rs.1, rs.2)

end System

end ZenFSPlus.Zoad
