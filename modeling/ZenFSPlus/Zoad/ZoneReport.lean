import ZenFSPlus.Zoad.ZoneWrite

/-!
`zns_get_info` and `zns_get_zone_desc` with `init` set (`controller.c`): the host asks the
device for its zones, page by page, and keeps the descriptors.
-/

namespace ZenFSPlus.Zoad

open Lib

def reportNum : ℕ := 1024

structure Device where
  nsze : ℕ
  zsze : ℕ
  mor : ℕ
  desc : ℕ → ZoneDescriptor

namespace Device

variable (d : Device)

def zones : ℕ := d.nsze / d.zsze

def report (slba count : ℕ) : List ZoneDescriptor :=
  (List.range (min count (d.zones - slba / d.zsze))).map fun i => d.desc (slba / d.zsze + i)

/-- `heap` is what `malloc` returns for `zone_desc_list`. -/
def znsGetInfo (heap : ℕ → ZoneDescriptor) (disk : Mem UInt8) : Zns :=
  ⟨d.zsze, u32 d.zones, d.mor, 0, heap, disk⟩

end Device

namespace Zns

/-- The loop over one report; `zone_desc_list` has `size` entries. -/
def storeReport (size index : ℕ) : ℕ → List ZoneDescriptor → Zns → Except Fault Zns
  | _, [], z => .ok z
  | i, desc :: rest, z =>
    if u32 (index + i) < size then
      storeReport size index (i + 1) rest
        { z with zoneDescList := Function.update z.zoneDescList (u32 (index + i)) desc }
    else .error .outOfBounds

def reportLoop (d : Device) (size : ℕ) : ℕ → ℕ → ℕ → Zns → Except Fault Zns
  | 0, _, _, _ => .error .outOfFuel
  | fuel + 1, index, realMaxZoneCnt, z =>
    if index < z.maxZoneCnt then do
      -- every page is asked for from block 0 on
      let page := d.report 0 reportNum
      let z ← storeReport size index 0 page z
      reportLoop d size fuel (u32 (index + page.length)) (u32 (realMaxZoneCnt + page.length)) z
    else .ok { z with maxZoneCnt := realMaxZoneCnt }

def znsGetZoneDescInit (d : Device) (z : Zns) : Except Fault Zns :=
  reportLoop d z.maxZoneCnt (z.maxZoneCnt + 1) 0 0 z

theorem storeReport_eq {size i : ℕ} (hs : size ≤ 4294967296) (page : List ZoneDescriptor) (z : Zns)
    (hp : i + page.length ≤ size) :
    storeReport size 0 i page z = .ok { z with
      zoneDescList := fun k => if k < i then z.zoneDescList k else (page[k - i]?).getD (z.zoneDescList k) } := by
  induction page generalizing i z with
  | nil => simp [storeReport]
  | cons desc rest ih =>
    rw [List.length_cons] at hp
    have hw : u32 (0 + i) = i := by
      rw [Nat.zero_add]
      exact u32_of_lt (by omega)
    rw [storeReport, hw, if_pos (by omega), ih _ (by omega)]
    congr 2
    funext k
    rcases Nat.lt_trichotomy k i with hk | rfl | hk
    · simp [hk, Nat.lt_succ_of_lt hk, Nat.ne_of_lt hk]
    · simp
    obtain ⟨j, rfl⟩ := Nat.exists_eq_add_of_lt hk
    have hj : i + j + 1 - i = j + 1 := by omega
    have hj' : i + j + 1 - (i + 1) = j := by omega
    simp [Nat.not_lt_of_lt hk, hj, hj', Nat.ne_of_gt hk, show ¬ i + j + 1 < i + 1 by omega]

def unitZones (n : ℕ) : Device := ⟨n, 1, 8, fun z => ⟨z, z⟩⟩

end Zns

end ZenFSPlus.Zoad
