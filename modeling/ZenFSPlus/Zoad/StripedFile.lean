import ZenFSPlus.Zoad.StripeWrite
import ZenFSPlus.Zoad.Userdata
import ZenFSPlus.Zoad.ZoneAllocation
import Mathlib.Algebra.Order.BigOperators.Group.List

namespace ZenFSPlus.Zoad

open Lib List Function

/-- `bound` zones of `units` units each, one after the other, with all block addresses
below 2^32. -/
structure Zns.Regular (z : Zns) (bound units : ℕ) : Prop where
  units_pos : 0 < units
  zsze : z.zsze = units * ioBlocks
  lba : bound * z.zsze ≤ 4294967296
  start : ∀ zone < bound, (z.zoneDescList zone).startLba = zone * z.zsze
  wp_ge : ∀ zone < bound, (z.zoneDescList zone).startLba ≤ (z.zoneDescList zone).wp
  wp_le : ∀ zone < bound, (z.zoneDescList zone).wp ≤ (z.zoneDescList zone).startLba + z.zsze

namespace Zns.Regular

variable {z : Zns} {bound units zone zone' : ℕ}

section

variable (h : z.Regular bound units)

include h

theorem capacity_lt : bound * z.zsze < 4294967296 := by
  refine Nat.lt_of_le_of_ne h.lba fun he => ?_
  -- 3 divides the left side
  rw [h.zsze, ← mul_assoc, show ioBlocks = 384 from rfl] at he
  omega

theorem stop_le (hz : zone < bound) : (z.zoneDescList zone).startLba + z.zsze ≤ bound * z.zsze := by
  rw [h.start zone hz, ← Nat.succ_mul]
  exact Nat.mul_le_mul_right _ hz

theorem wp_lt (hz : zone < bound) : (z.zoneDescList zone).wp < 4294967296 := by
  have h1 := h.wp_le zone hz
  have h2 := h.stop_le hz
  have h3 := h.capacity_lt
  omega

theorem zsze_lt (hb : 0 < bound) : z.zsze < 4294967296 := lt_of_le_of_lt (Nat.le_mul_of_pos_left _ hb) h.capacity_lt

theorem getFreeSize (hz : zone < bound) : z.getFreeSize zone =
    z.zsze - ((z.zoneDescList zone).wp - (z.zoneDescList zone).startLba) := by
  have hwp := h.wp_lt hz
  have hge := h.wp_ge zone hz
  have hle := h.wp_le zone hz
  rw [Zns.getFreeSize, Zns.znsGetZoneSize, Zns.znsGetWp, Zns.znsGetStartLba, u32_of_lt hwp,
    u32_of_lt (h.zsze_lt (by omega)), u32_of_lt (by omega), sub32_of_le hge, sub32_of_le (by omega)]

theorem bound_le : bound ≤ 2147483648 := by
  have h1 := h.lba
  have h2 : 384 ≤ z.zsze := by
    rw [h.zsze]
    exact Nat.le_mul_of_pos_left _ h.units_pos
  have h3 := Nat.mul_le_mul_left bound h2
  omega

theorem apart (hz : zone < bound) (hz' : zone' < bound) (hne : zone ≠ zone') :
    (z.zoneDescList zone).startLba + z.zsze ≤ (z.zoneDescList zone').startLba ∨
      (z.zoneDescList zone').startLba + z.zsze ≤ (z.zoneDescList zone).startLba := by
  rw [h.start zone hz, h.start zone' hz', ← Nat.succ_mul, ← Nat.succ_mul]
  rcases Nat.lt_or_gt_of_ne hne with hlt | hlt
  · exact .inl (Nat.mul_le_mul_right _ hlt)
  · exact .inr (Nat.mul_le_mul_right _ hlt)

end

end Zns.Regular

structure Zns.Extends (bound : ℕ) (z z' : Zns) : Prop where
  zsze : z'.zsze = z.zsze
  start : ∀ zone, (z'.zoneDescList zone).startLba = (z.zoneDescList zone).startLba
  wp : ∀ zone, (z.zoneDescList zone).wp ≤ (z'.zoneDescList zone).wp
  disk : ∀ zone < bound, ∀ a, (z.zoneDescList zone).startLba * blockSize ≤ a →
    a < (z.zoneDescList zone).wp * blockSize → z'.disk a = z.disk a

structure Layout where
  rows : ℕ
  zone : ℕ → ℕ
  start : ℕ → ℕ

structure Layout.Holds (L : Layout) (z : Zns) (bound n : ℕ) (seg : Segment) (b : Slice UInt8) :
    Prop where
  rows_pos : 0 < L.rows
  size_buf : b.size = L.rows * n * ioSize
  size_lt : b.size < 4294967296
  size : seg.size = L.rows * n * ioBlocks
  intervals : seg.intervals = (range n).map fun j =>
    ⟨L.zone j, seg.id, L.start j, L.start j + L.rows * ioBlocks⟩
  zone_lt : ∀ j < n, L.zone j < bound
  start_ge : ∀ j < n, (z.zoneDescList (L.zone j)).startLba ≤ L.start j
  stop_le : ∀ j < n, L.start j + L.rows * ioBlocks ≤ (z.zoneDescList (L.zone j)).wp
  data : ∀ r < L.rows, ∀ j < n, z.disk.load ((L.start j + r * ioBlocks) * blockSize) ioSize =
    b.data.load ((r * n + j) * ioSize) ioSize

structure Layout.Spans (L : Layout) (z z' : Zns) (n : ℕ) : Prop where
  inj : ∀ i < n, ∀ j < n, L.zone i = L.zone j → i = j
  start : ∀ j < n, L.start j = (z.zoneDescList (L.zone j)).wp
  stop : ∀ j < n, L.start j + L.rows * ioBlocks = (z'.zoneDescList (L.zone j)).wp

theorem Layout.Holds.extends {L : Layout} {z z' : Zns} {bound n : ℕ} {seg : Segment}
    {b : Slice UInt8} (h : L.Holds z bound n seg b) (hz : z.Extends bound z') :
    L.Holds z' bound n seg b where
  __ := h
  start_ge j hj := hz.start (L.zone j) ▸ h.start_ge j hj
  stop_le j hj := le_trans (h.stop_le j hj) (hz.wp (L.zone j))
  data := by
    intro r hr j hj
    rw [← h.data r hr j hj, Mem.load_eq_iff]
    intro i hi
    have hge := h.start_ge j hj
    have hle := h.stop_le j hj
    have hrw := Nat.mul_le_mul_right ioBlocks hr
    rw [Nat.succ_mul] at hrw
    rw [ioSize_eq] at hi
    refine hz.disk (L.zone j) (h.zone_lt j hj) _ ?_ ?_
    · calc (z.zoneDescList (L.zone j)).startLba * blockSize
          ≤ (L.start j + r * ioBlocks) * blockSize := Nat.mul_le_mul_right _ (by omega)
        _ ≤ (L.start j + r * ioBlocks) * blockSize + i := Nat.le_add_right _ _
    · calc (L.start j + r * ioBlocks) * blockSize + i
          < (L.start j + r * ioBlocks) * blockSize + ioBlocks * blockSize := by omega
        _ = (L.start j + r * ioBlocks + ioBlocks) * blockSize := (add_mul _ _ _).symm
        _ ≤ (z.zoneDescList (L.zone j)).wp * blockSize := Nat.mul_le_mul_right _ (by omega)

namespace System

variable {s : System} {p n bound units k m : ℕ}

structure Allocated (s : System) (p bound k m : ℕ) (s' : System) : Prop where
  dealt : Dealt s' bound (k + m)
  zns : s'.zns = s.zns
  partitions : s'.partitions = update s.partitions p { s.partitions p with
    zoneVector := (s.partitions p).zoneVector ++ range' k m }

theorem allocTimes_of_le (h : Dealt s bound k) (hb : bound ≤ 2147483648) (hm : k + m ≤ bound) :
    ∃ s', s.allocTimes p m = .ok s' ∧ s.Allocated p bound k m s' := by
  induction m generalizing s k with
  | zero => exact ⟨s, rfl, h, rfl, by simp⟩
  | succ m ih =>
    have ha := allocZone_of_lt h (show k < bound by omega) hb p
    obtain ⟨ho, hd⟩ := allocZone_dealt h hb p
    rw [if_pos (show k < bound by omega)] at hd
    obtain ⟨s', hr, hs'⟩ := ih hd (by omega)
    refine ⟨s', ?_, ?_⟩
    · rw [allocTimes, ha]
      rw [ha] at hr
      exact hr
    · rw [ha] at hs'
      refine ⟨?_, hs'.zns, ?_⟩
      · rw [add_comm m 1, ← add_assoc]
        exact hs'.dealt
      · rw [hs'.partitions]
        simp [range'_succ]

theorem allocTimes_of_lt (h : Dealt s bound k) (hb : bound ≤ 2147483648) (hk : k ≤ bound)
    (hm : bound < k + m) : s.allocTimes p m = .error .allocZoneFail := by
  induction m generalizing s k with
  | zero => omega
  | succ m ih =>
    by_cases hlt : k < bound
    · have ha := allocZone_of_lt h hlt hb p
      have hd := (allocZone_dealt h hb p).2
      rw [if_pos hlt] at hd
      have hr := ih hd hlt (by omega)
      rw [ha] at hr
      rw [allocTimes, ha]
      exact hr
    · rw [allocTimes, allocZone_of_le h (not_lt.mp hlt)]

def current (s : System) (p n : ℕ) : List ℕ :=
  (s.partitions p).zoneVector.drop (s.zoneSize p - n)

structure LevelAt (s : System) (p n level : ℕ) : Prop where
  le : n ≤ s.zoneSize p
  wp : ∀ zone ∈ s.current p n,
    (s.zns.zoneDescList zone).wp = (s.zns.zoneDescList zone).startLba + level * ioBlocks

/-- A partition of `n` groups on a regular device of which `k` zones have been handed out;
the rest is empty. -/
structure Ready (s : System) (p n bound units k : ℕ) : Prop where
  n_pos : 0 < n
  izgCnt : (s.partitions p).izgCnt = n
  regular : s.zns.Regular bound units
  dealt : Dealt s bound k
  le : k ≤ bound
  fresh : ∀ zone < bound, k ≤ zone →
    (s.zns.zoneDescList zone).wp = (s.zns.zoneDescList zone).startLba
  zones_lt : ∀ zone ∈ (s.partitions p).zoneVector, zone < k
  nodup : (s.partitions p).zoneVector.Nodup

def filled (s : System) (p : ℕ) : ℕ :=
  ((s.partitions p).zoneVector.map fun zone =>
    (s.zns.zoneDescList zone).wp - (s.zns.zoneDescList zone).startLba).sum

theorem length_current (h : n ≤ s.zoneSize p) : (s.current p n).length = n := by
  rw [current, length_drop]
  unfold zoneSize at h ⊢
  omega

variable {zone level : ℕ} {past : ℕ → ℕ → ℕ}

theorem mem_of_mem_current (h : zone ∈ s.current p n) : zone ∈ (s.partitions p).zoneVector := mem_of_mem_drop h

theorem take_reverse_zones : (s.partitions p).zoneVector.reverse.take n = (s.current p n).reverse := by
  rw [current, zoneSize, take_reverse]

theorem ready_of_formatted {zsze zones mor : ℕ} (hn : 0 < n) (hu : 0 < units)
    (hzs : zsze = units * ioBlocks) (hlb : zones * zsze ≤ 4294967296)
    (hi : (s.partitions p).izgCnt = n) (hz : s.zns = Zns.formatted zsze zones mor)
    (hd : Dealt s zones 0)
    (hv : (s.partitions p).zoneVector = []) : s.Ready p n zones units 0 where
  n_pos := hn
  izgCnt := hi
  regular := by
    rw [hz]
    exact ⟨hu, hzs, hlb, fun _ _ => rfl, fun _ _ => le_rfl, fun _ _ => Nat.le_add_right _ _⟩
  dealt := hd
  le := Nat.zero_le _
  fresh := by
    intro zone _ _
    rw [hz]
    rfl
  zones_lt := by simp [hv]
  nodup := by simp [hv]

section

variable (h : s.Ready p n bound units k)

include h

theorem Ready.level_le (hl : s.LevelAt p n level) : level ≤ units := by
  have hln := length_current hl.le
  obtain ⟨zone, hz⟩ := exists_mem_of_length_pos (show 0 < (s.current p n).length by
    have := h.n_pos; omega)
  have hlt := lt_of_lt_of_le (h.zones_lt zone (mem_of_mem_current hz)) h.le
  have hwp := hl.wp zone hz
  have hle := h.regular.wp_le zone hlt
  rw [hwp, h.regular.zsze] at hle
  exact Nat.le_of_mul_le_mul_right (Nat.le_of_add_le_add_left hle) (by decide)

theorem Ready.znsFullZone {level zone : ℕ} (hl : s.LevelAt p n level)
    (hz : zone ∈ s.current p n) : s.zns.znsFullZone zone = decide (level = units) := by
  have hle := h.level_le hl
  rw [Zns.znsFullZone, hl.wp zone hz, h.regular.zsze, decide_eq_decide, Nat.add_le_add_iff_left,
    Nat.mul_le_mul_right_iff (by decide)]
  omega

theorem Ready.allocated {s' : System} (ha : s.Allocated p bound k n s') (hle : k + n ≤ bound) :
    s'.Ready p n bound units (k + n) ∧ s'.LevelAt p n 0 := by
  have hzn : (s'.partitions p).zoneVector = (s.partitions p).zoneVector ++ range' k n := by
    rw [ha.partitions, update_self]
  have hc : s'.current p n = range' k n := by
    simp [current, zoneSize, hzn]
  refine ⟨⟨h.n_pos, ?_, ?_, ha.dealt, hle, ?_, ?_, ?_⟩, ⟨?_, ?_⟩⟩
  · rw [ha.partitions, update_self]
    exact h.izgCnt
  · rw [ha.zns]
    exact h.regular
  · intro zone hz hk
    rw [ha.zns]
    exact h.fresh zone hz (by omega)
  · intro zone hz
    rw [hzn, mem_append, mem_range'_1] at hz
    rcases hz with hz | hz
    · have := h.zones_lt zone hz
      omega
    · exact hz.2
  · rw [hzn, nodup_append]
    refine ⟨h.nodup, nodup_range', ?_⟩
    intro a ha b hb he
    have h1 := h.zones_lt a ha
    have h2 := (mem_range'_1.mp hb).1
    omega
  · simp [zoneSize, hzn]
  · intro zone hz
    rw [hc, mem_range'_1] at hz
    rw [ha.zns, h.fresh zone (by omega) hz.1]
    simp

theorem Ready.prepareZones_nil (hz : (s.partitions p).zoneVector = []) : s.prepareZones p = s.allocTimes p n := by
  simp only [prepareZones, zoneSize, hz, length_nil, if_true, h.izgCnt]

theorem Ready.prepareZones_level (hl : s.LevelAt p n level) :
    s.prepareZones p = s.allocTimes p (if level = units then n else 0) := by
  have hn := h.n_pos
  have hle := hl.le
  have hc : ((s.current p n).reverse.countP fun zone => s.zns.znsFullZone zone) = if level = units then n else 0 := by
    have ha : ∀ zone ∈ (s.current p n).reverse, s.zns.znsFullZone zone = decide (level = units) :=
      fun zone hz => h.znsFullZone hl (mem_reverse.mp hz)
    split
    · rename_i he
      rw [countP_eq_length.mpr fun zone hz => by simp [ha zone hz, he], length_reverse, length_current hl.le]
    · rename_i he
      exact countP_eq_zero.mpr fun zone hz => by simp [ha zone hz, he]
  simp only [prepareZones, h.izgCnt, take_reverse_zones, hc]
  rw [if_neg (by omega), if_neg (by omega)]

end

theorem lastZones_of_room {z : Zns} {tg i : ℕ} {zones : List ℕ}
    (h : ∀ zone ∈ zones.take (tg - i), z.znsFullZone zone = false)
    (hln : tg - i ≤ zones.length) : lastZones z tg i zones = .ok (zones.take (tg - i)) := by
  induction zones generalizing i with
  | nil =>
    rw [length_nil] at hln
    rw [lastZones, if_neg (by omega), take_nil]
  | cons zone rest ih =>
    by_cases hi : i < tg
    · obtain ⟨d, hd⟩ : ∃ d, tg - i = d + 1 := ⟨tg - i - 1, by omega⟩
      have hd' : tg - (i + 1) = d := by omega
      rw [hd] at h hln
      rw [hd, take_succ_cons, lastZones, if_pos hi, h zone (by simp),
        if_neg Bool.false_ne_true, ih (by rw [hd']; exact fun x hx => h x (by simp [hx]))
        (by rw [hd']; simpa using hln), hd']
      rfl
    · rw [lastZones, if_neg hi, show tg - i = 0 by omega, take_zero]

theorem Ready.lastZones (h : s.Ready p n bound units k) (hl : s.LevelAt p n level) (hlt : level < units) :
    System.lastZones s.zns n 0 (s.partitions p).zoneVector.reverse = .ok (s.current p n).reverse := by
  rw [lastZones_of_room, Nat.sub_zero, take_reverse_zones]
  · intro zone hz
    rw [Nat.sub_zero, take_reverse_zones, mem_reverse] at hz
    rw [h.znsFullZone hl hz]
    exact decide_eq_false (ne_of_lt hlt)
  · rw [Nat.sub_zero, length_reverse]
    exact hl.le

theorem Ready.current_lt (h : s.Ready p n bound units k) (hz : zone ∈ s.current p n) :
    zone < bound := lt_of_lt_of_le (h.zones_lt zone (mem_of_mem_current hz)) h.le

theorem Ready.getFreeSize (h : s.Ready p n bound units k) {level zone : ℕ} (hl : s.LevelAt p n level)
    (hz : zone ∈ s.current p n) : s.zns.getFreeSize zone = (units - level) * ioBlocks := by
  rw [h.regular.getFreeSize (h.current_lt hz), hl.wp zone hz, Nat.add_sub_cancel_left, h.regular.zsze, Nat.sub_mul]

theorem foldl_i32 (m d : ℕ) (x : ℤ) :
    (replicate m d).foldl (fun t (size : ℕ) => i32 (t - size)) (i32 x) = i32 (x - m * d) := by
  induction m generalizing x with
  | zero => simp
  | succ m ih =>
    have hs : i32 (i32 x - d) = i32 (x - d) := by
      unfold i32
      split_ifs <;> omega
    rw [replicate_succ, foldl_cons, hs, ih]
    congr 1
    push_cast
    ring

section

variable (h : s.Ready p n bound units k)

include h

theorem Ready.zoneSize_le : s.zoneSize p ≤ k := by
  have hs : (s.partitions p).zoneVector ⊆ range k := fun zone hz => mem_range.mpr (h.zones_lt zone hz)
  simpa [zoneSize] using (subperm_of_subset h.nodup hs).length_le

theorem Ready.filled_le : s.filled p ≤ bound * s.zns.zsze := by
  have hs : s.filled p ≤ s.zoneSize p * s.zns.zsze := by
    have := sum_le_card_nsmul ((s.partitions p).zoneVector.map fun zone =>
      (s.zns.zoneDescList zone).wp - (s.zns.zoneDescList zone).startLba) s.zns.zsze
      (by
        intro x hx
        obtain ⟨zone, hz, rfl⟩ := mem_map.mp hx
        have := h.regular.wp_le zone (lt_of_lt_of_le (h.zones_lt zone hz) h.le)
        omega)
    simpa [filled, zoneSize] using this
  exact le_trans hs (Nat.mul_le_mul_right _ (le_trans h.zoneSize_le h.le))

theorem Ready.filled_allocated {s' : System} (ha : s.Allocated p bound k n s') (hle : k + n ≤ bound) :
    s'.filled p = s.filled p := by
  have hzr : ((range' k n).map fun zone =>
      (s.zns.zoneDescList zone).wp - (s.zns.zoneDescList zone).startLba).sum = 0 := by
    refine sum_eq_zero fun x hx => ?_
    obtain ⟨zone, hz, rfl⟩ := mem_map.mp hx
    have hz' := mem_range'_1.mp hz
    rw [h.fresh zone (by omega) hz'.1, Nat.sub_self]
  rw [filled, ha.partitions, update_self, ha.zns, map_append, sum_append, hzr]
  rfl

theorem Ready.current_nodup : (s.current p n).Nodup := h.nodup.sublist (drop_sublist _ _)

end

theorem getD_mem_current {j : ℕ} (h : n ≤ s.zoneSize p) (hj : j < n) : (s.current p n).getD j 0 ∈ s.current p n := by
  rw [getD_eq_getElem _ _ (by rwa [length_current h])]
  exact getElem_mem _

def Ready.job (h : s.Ready p n bound units k) {level rows : ℕ} (hl : s.LevelAt p n level)
    (hroom : level + rows ≤ units) (hrows : 0 < rows) (segmentId : ℕ) (buf : Slice UInt8)
    (hsize : buf.size = rows * n * ioSize) (hlt : buf.size < 4294967296) : StripeJob where
  n := n
  rows := rows
  zns := s.zns
  zone j := (s.current p n).getD j 0
  segmentId := segmentId
  buf := buf
  n_pos := h.n_pos
  rows_pos := hrows
  size_buf := hsize
  size_lt := hlt
  zone_inj := by
    intro i hi j hj he
    have hlen := length_current hl.le
    rw [getD_eq_getElem _ _ (by rwa [hlen]), getD_eq_getElem _ _ (by rwa [hlen]),
      h.current_nodup.getElem_inj_iff] at he
    exact he
  wp_lt := by
    intro j hj
    have hz := getD_mem_current hl.le hj
    have hstop := h.regular.stop_le (h.current_lt hz)
    have hcap := h.regular.capacity_lt
    have hlevel := Nat.mul_le_mul_right ioBlocks hroom
    rw [← h.regular.zsze, add_mul] at hlevel
    rw [hl.wp _ hz]
    omega
  apart := by
    intro i hi j hj hij
    have hi' := getD_mem_current hl.le hi
    have hj' := getD_mem_current hl.le hj
    have hlevel := Nat.mul_le_mul_right ioBlocks hroom
    rw [← h.regular.zsze, add_mul] at hlevel
    have hne : (s.current p n).getD i 0 ≠ (s.current p n).getD j 0 := by
      have hlen := length_current hl.le
      rw [getD_eq_getElem _ _ (by rwa [hlen]), getD_eq_getElem _ _ (by rwa [hlen]), Ne,
        h.current_nodup.getElem_inj_iff]
      exact hij
    have hapart := h.regular.apart (h.current_lt hi') (h.current_lt hj') hne
    rw [hl.wp _ hi', hl.wp _ hj']
    omega

theorem Ready.targetSize_pos (h : s.Ready p n bound units k) {level rows : ℕ}
    (hn : n ≤ s.zoneSize p) (hrm : level + rows ≤ units)
    (hp : 0 < i32 (((rows * n * ioBlocks : ℕ) : ℤ) - n * ((units - level) * ioBlocks : ℕ))) :
    bound < k + n := by
  by_contra hle
  have hk := h.zoneSize_le
  have hcp : 2 * n * s.zns.zsze ≤ 4294967296 := le_trans (Nat.mul_le_mul_right _ (by omega)) h.regular.lba
  have hf : n * ((units - level) * ioBlocks) ≤ n * s.zns.zsze := by
    rw [h.regular.zsze]
    exact Nat.mul_le_mul_left _ (Nat.mul_le_mul_right _ (Nat.sub_le _ _))
  have hrs : rows * n * ioBlocks ≤ n * ((units - level) * ioBlocks) := by
    rw [mul_comm rows n, mul_assoc]
    exact Nat.mul_le_mul_left _ (Nat.mul_le_mul_right _ (by omega))
  rw [mul_assoc] at hcp
  have hc : ((n : ℤ) * ((units - level) * ioBlocks : ℕ)) = (n * ((units - level) * ioBlocks) : ℕ) := by
    push_cast
    rfl
  rw [hc, i32_of_range (by omega) (by omega)] at hp
  omega

theorem Ready.writeZones (h : s.Ready p n bound units k) {level rows : ℕ} (hl : s.LevelAt p n level)
    (hrm : level + rows ≤ units) (hrs : 0 < rows) (sid : ℕ) (buf : Slice UInt8)
    (hsz : buf.size = rows * n * ioSize) (hlt : buf.size < 4294967296)
    (hps : ∀ i cnt, past i cnt ≠ cnt) :
    (s.writeZones p sid past buf (rows * n * ioBlocks) = .error .allocZoneFail ∧ bound < k + n) ∨
      ∃ w, s.writeZones p sid past buf (rows * n * ioBlocks) = .ok (w.intervals, { s with zns := w.zns }) ∧
        (h.job hl hrm hrs sid buf hsz hlt).At (fun _ => rows) w := by
  set J := h.job hl hrm hrs sid buf hsz hlt
  have hls := h.lastZones hl (show level < units by omega)
  have hf : (s.current p n).reverse.map s.zns.getFreeSize = replicate n ((units - level) * ioBlocks) := by
    rw [eq_replicate_iff]
    refine ⟨by simp [length_current hl.le], ?_⟩
    intro size hs
    obtain ⟨zone, hz, rfl⟩ := mem_map.mp hs
    exact h.getFreeSize hl (mem_reverse.mp hz)
  have hi : (s.current p n).reverse.reverse.map (fun zone =>
      (⟨zone, sid, s.zns.znsGetWp zone, s.zns.znsGetWp zone⟩ : Interval)) =
      J.intervals fun _ => 0 := by
    rw [reverse_reverse, map_eq_map_range _ 0, length_current hl.le]
    refine map_congr_left fun j hj => ?_
    have hz := getD_mem_current hl.le (mem_range.mp hj)
    have hne : ¬ 0 = J.rows := ne_of_lt hrs
    beta_reduce
    rw [Zns.znsGetWp, u32_of_lt (h.regular.wp_lt (h.current_lt hz)), if_neg hne]
    rfl
  rw [System.writeZones]
  simp only [h.izgCnt]
  rw [bind_of_ok hls]
  simp only [hf, foldl_i32, reverse_replicate]
  by_cases hp : 0 < i32 (((rows * n * ioBlocks : ℕ) : ℤ) - n * ((units - level) * ioBlocks : ℕ))
  · refine .inl ⟨?_, h.targetSize_pos hl.le hrm hp⟩
    have hfl := allocTimes_of_lt (p := p) h.dealt h.regular.bound_le h.le (h.targetSize_pos hl.le hrm hp)
    rw [growZones, if_pos hp, hfl]
    rfl
  · right
    obtain ⟨w, hw, hat⟩ : ∃ w, izgWrite buf past n n (rows * n * ioBlocks)
        ⟨s.zns, J.intervals fun _ => 0, replicate n ((units - level) * ioBlocks)⟩ = .ok w ∧ J.At (fun _ => rows) w :=
      StripeJob.izgWrite_at J hps _ length_replicate
    refine ⟨w, ?_, hat⟩
    rw [growZones, if_neg hp, bind_of_ok rfl]
    simp only
    rw [bind_of_ok hls, hi, bind_of_ok hw]

section

variable {rows sid : ℕ} {buf : Slice UInt8} {h : s.Ready p n bound units k}
  {hl : s.LevelAt p n level} {hrm : level + rows ≤ units} {hrs : 0 < rows}
  {hsz : buf.size = rows * n * ioSize} {hlt : buf.size < 4294967296} {w : WriteState}
  (hat : (h.job hl hrm hrs sid buf hsz hlt).At (fun _ => rows) w)

include hat

theorem desc_current (hz : zone ∈ s.current p n) : w.zns.zoneDescList zone = { s.zns.zoneDescList zone with
      wp := (s.zns.zoneDescList zone).startLba + (level + rows) * ioBlocks } := by
  obtain ⟨j, hj, rfl⟩ := getElem_of_mem hz
  rw [length_current hl.le] at hj
  have hd := hat.desc j hj
  have hzn : (h.job hl hrm hrs sid buf hsz hlt).zone j = (s.current p n)[j] := getD_eq_getElem _ _ _
  rw [hzn] at hd
  rw [hd, StripeJob.wp, hzn]
  change (⟨(s.zns.zoneDescList _).startLba, (s.zns.zoneDescList _).wp + rows * ioBlocks⟩ : ZoneDescriptor) = _
  rw [hl.wp _ (getElem_mem _), add_mul, add_assoc]

theorem desc_not_current (hz : zone ∉ s.current p n) : w.zns.zoneDescList zone = s.zns.zoneDescList zone := by
  refine hat.desc_other zone fun j hj he => hz ?_
  rw [← he]
  exact getD_mem_current hl.le hj

theorem written_extends : s.zns.Extends bound w.zns := by
  have hwp (zone : ℕ) (hz : zone ∈ s.current p n) := hl.wp zone hz
  refine ⟨hat.geometry.zsze, fun zone => ?_, fun zone => ?_, fun zone hzn a h1 h2 => ?_⟩
  · by_cases hz : zone ∈ s.current p n
    · rw [desc_current hat hz]
    · rw [desc_not_current hat hz]
  · by_cases hz : zone ∈ s.current p n
    · rw [desc_current hat hz, hwp zone hz, add_mul]
      simp only
      omega
    · rw [desc_not_current hat hz]
  · refine hat.moved.kept a ?_
    rintro c ⟨j, hj, r, hr, rfl⟩
    have hr' : r < rows := hr
    have hj' := getD_mem_current hl.le hj
    have hrw : (level + (r + 1)) * ioBlocks ≤ s.zns.zsze := by
      rw [h.regular.zsze]
      exact Nat.mul_le_mul_right _ (by omega)
    have hc : ((h.job hl hrm hrs sid buf hsz hlt).cell r j).1 =
        ((s.zns.zoneDescList ((s.current p n).getD j 0)).startLba + (level + r) * ioBlocks) * blockSize := by
      rw [StripeJob.cell, add_mul level, ← add_assoc, ← hwp _ hj']
      rfl
    have hle := h.regular.wp_le zone hzn
    rw [hc, ioSize_eq, ← add_mul]
    by_cases hz : zone = (s.current p n).getD j 0
    · rw [← hz]
      rw [← hz] at hj'
      refine .inl (lt_of_lt_of_le h2 (Nat.mul_le_mul_right _ ?_))
      rw [hwp zone hj', add_mul]
      omega
    · rcases h.regular.apart hzn (h.current_lt hj') hz with hap | hap
      · exact .inl (lt_of_lt_of_le h2 (Nat.mul_le_mul_right _ (by omega)))
      · refine .inr (le_trans (Nat.mul_le_mul_right _ ?_) h1)
        rw [← add_assoc, Nat.succ_mul] at hrw
        omega

theorem written_regular : w.zns.Regular bound units := by
  have he := written_extends hat
  have hzs := he.zsze
  refine ⟨h.regular.units_pos, by rw [hzs, h.regular.zsze], by rw [hzs]; exact h.regular.lba, ?_, ?_, ?_⟩
  · intro zone hz
    rw [he.start, hzs, h.regular.start zone hz]
  · intro zone hz
    rw [he.start]
    exact le_trans (h.regular.wp_ge zone hz) (he.wp zone)
  · intro zone hz
    by_cases hc : zone ∈ s.current p n
    · rw [desc_current hat hc, hzs, h.regular.zsze]
      exact Nat.add_le_add_left (Nat.mul_le_mul_right _ hrm) _
    · rw [desc_not_current hat hc, hzs]
      exact h.regular.wp_le zone hz

theorem written_ready : Ready { s with zns := w.zns } p n bound units k where
  __ := h
  regular := written_regular hat
  fresh := by
    intro zone hz hk
    have hc : zone ∉ s.current p n := by
      intro hc
      have := h.zones_lt zone (mem_of_mem_current hc)
      omega
    change (w.zns.zoneDescList zone).wp = (w.zns.zoneDescList zone).startLba
    rw [desc_not_current hat hc]
    exact h.fresh zone hz hk

theorem written_level : LevelAt { s with zns := w.zns } p n (level + rows) := by
  refine ⟨hl.le, fun zone hz => ?_⟩
  change (w.zns.zoneDescList zone).wp = (w.zns.zoneDescList zone).startLba + _
  rw [desc_current hat hz]

theorem written_holds (off : ℕ) : Layout.Holds ⟨rows, fun j => (s.current p n).getD j 0,
        fun j => (s.zns.zoneDescList ((s.current p n).getD j 0)).wp⟩
      w.zns bound n ⟨sid, off, rows * n * ioBlocks, w.intervals⟩ buf where
  rows_pos := hrs
  size_buf := hsz
  size_lt := hlt
  size := rfl
  intervals := by
    have hrs' : rows = (h.job hl hrm hrs sid buf hsz hlt).rows := rfl
    rw [hat.intervals, StripeJob.intervals]
    refine map_congr_left fun j _ => ?_
    rw [if_pos hrs']
    rfl
  zone_lt j hj := h.current_lt (getD_mem_current hl.le hj)
  start_ge := by
    intro j hj
    have hj' := getD_mem_current hl.le hj
    rw [desc_current hat hj']
    exact h.regular.wp_ge _ (h.current_lt hj')
  stop_le := by
    intro j hj
    have hj' := getD_mem_current hl.le hj
    change (s.zns.zoneDescList _).wp + rows * ioBlocks ≤ (w.zns.zoneDescList _).wp
    rw [desc_current hat hj', hl.wp _ hj', add_mul, add_assoc]
  data := by
    intro r hr j hj
    have hc := hat.moved.copied _ (mem_cells hj hr)
    simp only [StripeJob.cell] at hc
    exact hc

theorem written_spans : Layout.Spans ⟨rows, fun j => (s.current p n).getD j 0,
        fun j => (s.zns.zoneDescList ((s.current p n).getD j 0)).wp⟩ s.zns w.zns n where
  inj := (h.job hl hrm hrs sid buf hsz hlt).zone_inj
  start _ _ := rfl
  stop := by
    intro j hj
    have hj' := getD_mem_current hl.le hj
    simp only
    rw [desc_current hat hj', hl.wp _ hj', add_mul, add_assoc]

theorem written_filled : filled { s with zns := w.zns } p = s.filled p + rows * n * ioBlocks := by
  let fill (z : Zns) (zone : ℕ) := (z.zoneDescList zone).wp - (z.zoneDescList zone).startLba
  let front := (s.partitions p).zoneVector.take (s.zoneSize p - n)
  have hs (z : Zns) : ((s.partitions p).zoneVector.map (fill z)).sum =
      (front.map (fill z)).sum + ((s.current p n).map (fill z)).sum := by
    rw [current, ← sum_append, ← map_append, take_append_drop]
  have ho : front.map (fill w.zns) = front.map (fill s.zns) := by
    refine map_congr_left fun zone hz => ?_
    have hc : zone ∉ s.current p n := by
      have hn := h.nodup
      rw [← take_append_drop (s.zoneSize p - n) (s.partitions p).zoneVector, nodup_append] at hn
      exact fun hc => hn.2.2 zone hz zone hc rfl
    simp only [fill, desc_not_current hat hc]
  have hnw (z : Zns) (level : ℕ) (hz : ∀ zone ∈ s.current p n, fill z zone = level * ioBlocks) :
      ((s.current p n).map (fill z)).sum = level * n * ioBlocks := by
    have hr : (s.current p n).map (fill z) = replicate n (level * ioBlocks) := by
      rw [eq_replicate_iff]
      refine ⟨by rw [length_map, length_current hl.le], fun x hx => ?_⟩
      obtain ⟨zone, hz', rfl⟩ := mem_map.mp hx
      exact hz zone hz'
    rw [hr, sum_replicate_nat]
    ring
  change ((s.partitions p).zoneVector.map (fill w.zns)).sum =
    ((s.partitions p).zoneVector.map (fill s.zns)).sum + rows * n * ioBlocks
  rw [hs, hs, ho, hnw w.zns (level + rows), hnw s.zns level]
  · ring
  · intro zone hz
    simp only [fill, hl.wp zone hz, Nat.add_sub_cancel_left]
  · intro zone hz
    simp only [fill, desc_current hat hz, Nat.add_sub_cancel_left]

end

/-- Where the next rows go: behind `level` rows of zones of `p`, or on new ones. -/
inductive Position (s : System) (p n units k : ℕ) : ℕ → ℕ → Prop
  | empty (h : (s.partitions p).zoneVector = []) : Position s p n units k 0 (k + n)
  | full (h : s.LevelAt p n units) : Position s p n units k 0 (k + n)
  | room {level : ℕ} (h : s.LevelAt p n level) (hlt : level < units) :
    Position s p n units k level k

structure Wrote (s s' : System) (p n bound units level k' rows : ℕ) : Prop where
  ready : s'.Ready p n bound units k'
  level : s'.LevelAt p n (level + rows)
  kept : s.zns.Extends bound s'.zns
  filled : s'.filled p = s.filled p + rows * n * ioBlocks
  partitions : ∀ q ≠ p, s'.partitions q = s.partitions q

theorem Ready.prepareZones (h : s.Ready p n bound units k) {level k' : ℕ} (hp : s.Position p n units k level k') :
    (s.prepareZones p = .error .allocZoneFail ∧ bound < k' + n) ∨
      ∃ s1, s.prepareZones p = .ok s1 ∧ s1.Ready p n bound units k' ∧ s1.LevelAt p n level ∧
        s1.zns = s.zns ∧ s1.filled p = s.filled p ∧
        ∀ q ≠ p, s1.partitions q = s.partitions q := by
  -- both kinds of missing zones lead to the allocation of `n` zones
  have hf (hpr : s.prepareZones p = s.allocTimes p n) : (s.prepareZones p = .error .allocZoneFail ∧ bound < k + n + n) ∨
        ∃ s1, s.prepareZones p = .ok s1 ∧ s1.Ready p n bound units (k + n) ∧ s1.LevelAt p n 0 ∧
          s1.zns = s.zns ∧ s1.filled p = s.filled p ∧
          ∀ q ≠ p, s1.partitions q = s.partitions q := by
    rw [hpr]
    by_cases hle : k + n ≤ bound
    · obtain ⟨s1, hrn, ha⟩ := allocTimes_of_le (p := p) h.dealt h.regular.bound_le hle
      obtain ⟨hr, hlv⟩ := h.allocated ha hle
      refine .inr ⟨s1, hrn, hr, hlv, ha.zns, h.filled_allocated ha hle, fun q hq => ?_⟩
      rw [ha.partitions, update_of_ne hq]
    · exact .inl ⟨allocTimes_of_lt h.dealt h.regular.bound_le h.le (by omega), by omega⟩
  cases hp with
  | empty hz => exact hf (h.prepareZones_nil hz)
  | full hl => exact hf (by rw [h.prepareZones_level hl, if_pos rfl])
  | room hl hlt =>
    refine .inr ⟨s, ?_, h, hl, rfl, rfl, fun _ _ => rfl⟩
    rw [h.prepareZones_level hl, if_neg (ne_of_lt hlt)]
    rfl

theorem Ready.write (h : s.Ready p n bound units k) {level k' rows : ℕ}
    (hp : s.Position p n units k level k') (hrm : level + rows ≤ units) (hrs : 0 < rows)
    (sid : ℕ) (buf : Slice UInt8) (hsz : buf.size = rows * n * ioSize)
    (hlt : buf.size < 4294967296) (hps : ∀ i cnt, past i cnt ≠ cnt) :
    (s.write p sid past buf (rows * n * ioBlocks) = .error .allocZoneFail ∧ bound < k' + n) ∨
      ∃ intervals s', s.write p sid past buf (rows * n * ioBlocks) = .ok (intervals, s') ∧
        s.Wrote s' p n bound units level k' rows ∧
        ∀ off, ∃ L : Layout, L.Holds s'.zns bound n
          ⟨sid, off, rows * n * ioBlocks, intervals⟩ buf ∧ L.Spans s.zns s'.zns n := by
  rcases h.prepareZones hp with ⟨hfl, hb⟩ | ⟨s1, hpr, hr, hlv, hz, hf, ho⟩
  · left
    refine ⟨?_, hb⟩
    rw [System.write, hfl]
    rfl
  · rw [System.write, bind_of_ok hpr]
    rcases hr.writeZones hlv hrm hrs sid buf hsz hlt hps with hfl | ⟨w, hw, hat⟩
    · exact .inl hfl
    refine .inr ⟨w.intervals, _, hw, ⟨written_ready hat, written_level hat, ?_, ?_, ho⟩, ?_⟩
    · rw [← hz]
      exact written_extends hat
    · rw [written_filled hat, hf]
    · intro off
      rw [← hz]
      exact ⟨_, written_holds hat off, written_spans hat⟩

end System

end ZenFSPlus.Zoad
