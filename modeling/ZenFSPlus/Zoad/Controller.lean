import ZenFSPlus.Lib.Memory
import ZenFSPlus.Lib.Word

/-!
`util/zoad/controller.h` and `controller.c`: the zone descriptors the host keeps
and the requests it sends to the device. A request that reaches the device is
taken to succeed.
-/

namespace ZenFSPlus.Zoad

open Lib

def blockSize : ℕ := 512

def ioBlocks : ℕ := 384

def ioSize : ℕ := 196608

theorem ioSize_eq : ioSize = ioBlocks * blockSize := rfl

theorem ioSize_pos : 0 < ioSize := by decide

structure ZoneDescriptor where
  startLba : ℕ
  wp : ℕ

inductive ZoneAction
  | close | finish | open | reset | offline
  deriving DecidableEq

structure Zns where
  zsze : ℕ
  maxZoneCnt : ℕ
  maxOpenRes : ℕ
  openedZoneNum : ℕ
  zoneDescList : ℕ → ZoneDescriptor
  disk : Mem UInt8

namespace Zns

def znsGetTotalZone (z : Zns) : ℤ := i32 z.maxZoneCnt

def znsGetZoneSize (z : Zns) : ℕ := u32 z.zsze

def znsGetStartLba (z : Zns) (zone : ℕ) : ℕ := u32 (z.zoneDescList zone).startLba

def znsGetWp (z : Zns) (zone : ℕ) : ℕ := u32 (z.zoneDescList zone).wp

def znsFullZone (z : Zns) (zone : ℕ) : Bool :=
  decide ((z.zoneDescList zone).startLba + z.zsze ≤ (z.zoneDescList zone).wp)

def znsSetZone (z : Zns) (zone : ℕ) (value : ZoneAction) : Zns :=
  if value = .open ∧ z.maxOpenRes ≤ u32 (z.openedZoneNum + 1) then z
  else match value with
    | .open => { z with openedZoneNum := u32 (z.openedZoneNum + 1) }
    | .close => { z with openedZoneNum := sub32 z.openedZoneNum 1 }
    | .reset => { z with
        zoneDescList := Function.update z.zoneDescList zone
          { z.zoneDescList zone with wp := (z.zoneDescList zone).startLba } }
    | _ => z

def nblocks (dataSize : ℕ) : ℕ :=
  (if dataSize % blockSize = 0 then sub32 (dataSize / blockSize) 1 else dataSize / blockSize)
    % 65536

def znsWrite (z : Zns) (buf : Mem UInt8) (off dataSize zone : ℕ) : Zns :=
  let wp := (z.zoneDescList zone).wp
  { z with
    zoneDescList := Function.update z.zoneDescList zone
      { z.zoneDescList zone with wp := wp + (nblocks dataSize + 1) }
    disk := z.disk.copy (wp * blockSize) buf off ((nblocks dataSize + 1) * blockSize) }

def znsRead (z : Zns) (buf : Mem UInt8) (off dataSize lba : ℕ) : Mem UInt8 :=
  buf.copy off z.disk (lba * blockSize) ((nblocks dataSize + 1) * blockSize)

theorem nblocks_ioSize : nblocks ioSize + 1 = ioBlocks := by decide

theorem znsWrite_ioSize (z : Zns) (buf : Mem UInt8) (off zone : ℕ) : z.znsWrite buf off ioSize zone = { z with
      zoneDescList := Function.update z.zoneDescList zone
        { z.zoneDescList zone with wp := (z.zoneDescList zone).wp + ioBlocks }
      disk := z.disk.copy ((z.zoneDescList zone).wp * blockSize) buf off ioSize } := by
  rw [znsWrite, nblocks_ioSize, ← ioSize_eq]

theorem znsSetZone_frame (z : Zns) (zone : ℕ) (value : ZoneAction) (h : value ≠ .reset) :
    ∃ c, z.znsSetZone zone value = { z with openedZoneNum := c } := by
  unfold znsSetZone
  split
  · exact ⟨z.openedZoneNum, rfl⟩
  cases value with
  | reset => exact absurd rfl h
  | «open» | close => exact ⟨_, rfl⟩
  | finish | offline => exact ⟨z.openedZoneNum, rfl⟩

end Zns

end ZenFSPlus.Zoad
