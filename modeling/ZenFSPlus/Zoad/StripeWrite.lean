import ZenFSPlus.Lib.Run
import ZenFSPlus.Lib.Transfer
import ZenFSPlus.Zoad.ZoneWrite
import Mathlib.Tactic.Ring

namespace ZenFSPlus.Zoad

open Lib List Function

structure Zns.SameGeometry (z z' : Zns) : Prop where
  zsze : z'.zsze = z.zsze
  maxZoneCnt : z'.maxZoneCnt = z.maxZoneCnt

structure StripeJob where
  n : ℕ
  rows : ℕ
  zns : Zns
  zone : ℕ → ℕ
  segmentId : ℕ
  buf : Slice UInt8
  n_pos : 0 < n
  rows_pos : 0 < rows
  size_buf : buf.size = rows * n * ioSize
  size_lt : buf.size < 4294967296
  zone_inj : ∀ i < n, ∀ j < n, zone i = zone j → i = j
  wp_lt : ∀ j < n, (zns.zoneDescList (zone j)).wp + rows * ioBlocks < 4294967296
  apart : ∀ i < n, ∀ j < n, i ≠ j →
    (zns.zoneDescList (zone i)).wp + rows * ioBlocks ≤ (zns.zoneDescList (zone j)).wp ∨
      (zns.zoneDescList (zone j)).wp + rows * ioBlocks ≤ (zns.zoneDescList (zone i)).wp

namespace StripeJob

variable (J : StripeJob) {past : ℕ → ℕ → ℕ}

theorem bytes_lt {count : ℕ} (h : count ≤ J.n) : J.rows * count * ioSize < 4294967296 := by
  refine lt_of_le_of_lt ?_ J.size_lt
  rw [J.size_buf]
  exact Nat.mul_le_mul_right _ (Nat.mul_le_mul_left _ h)

def wp (j : ℕ) : ℕ := (J.zns.zoneDescList (J.zone j)).wp

def cell (r j : ℕ) : ℕ × ℕ := ((J.wp j + r * ioBlocks) * blockSize, (r * J.n + j) * ioSize)

def intervals (done : ℕ → ℕ) : List Interval :=
  (range J.n).map fun j =>
    ⟨J.zone j, J.segmentId, J.wp j, if done j = J.rows then J.wp j + J.rows * ioBlocks else J.wp j⟩

def writeSize (done : ℕ → ℕ) : List ℕ := (range J.n).map fun j => J.rows - done j

structure At (done : ℕ → ℕ) (w : WriteState) : Prop where
  done_le : ∀ j < J.n, done j ≤ J.rows
  intervals : w.intervals = J.intervals done
  writeSize : w.writeSize = J.writeSize done
  geometry : J.zns.SameGeometry w.zns
  desc : ∀ j < J.n, w.zns.zoneDescList (J.zone j) =
    { J.zns.zoneDescList (J.zone j) with wp := J.wp j + done j * ioBlocks }
  desc_other : ∀ zone, (∀ j < J.n, J.zone j ≠ zone) →
    w.zns.zoneDescList zone = J.zns.zoneDescList zone
  moved : Moved ioSize J.buf.data (cells J.n done J.cell) J.zns.disk w.zns.disk

variable {J} {done done' : ℕ → ℕ} {w : WriteState}

theorem At.congr (h : J.At done w) (he : ∀ j < J.n, done j = done' j) : J.At done' w where
  __ := h
  done_le j hj := he j hj ▸ h.done_le j hj
  intervals := by
    rw [h.intervals]
    exact map_congr_left fun j hj => by rw [he j (mem_range.mp hj)]
  writeSize := by
    rw [h.writeSize]
    exact map_congr_left fun j hj => by rw [he j (mem_range.mp hj)]
  desc j hj := he j hj ▸ h.desc j hj
  moved := cells_congr he ▸ h.moved

theorem stop_lt (J : StripeJob) {j : ℕ} (hj : j < J.n) : J.wp j + J.rows * ioBlocks < 4294967296 := J.wp_lt j hj

theorem cell_disjoint {r r' i j : ℕ} (hi : i < J.n) (hj : j < J.n) (hr : r < J.rows)
    (hr' : r' < J.rows) (hne : i ≠ j ∨ r ≠ r') :
    (J.cell r i).1 + ioSize ≤ (J.cell r' j).1 ∨ (J.cell r' j).1 + ioSize ≤ (J.cell r i).1 := by
  have hrw : (J.wp i + (r + 1) * ioBlocks ≤ J.wp j + r' * ioBlocks) ∨
      (J.wp j + (r' + 1) * ioBlocks ≤ J.wp i + r * ioBlocks) := by
    have h1 : (r + 1) * ioBlocks ≤ J.rows * ioBlocks := Nat.mul_le_mul_right _ hr
    have h2 : (r' + 1) * ioBlocks ≤ J.rows * ioBlocks := Nat.mul_le_mul_right _ hr'
    by_cases hij : i = j
    · subst hij
      rcases Nat.lt_or_gt_of_ne (hne.resolve_left fun h => h rfl) with hlt | hlt
      · exact .inl (Nat.add_le_add_left (Nat.mul_le_mul_right _ hlt) _)
      · exact .inr (Nat.add_le_add_left (Nat.mul_le_mul_right _ hlt) _)
    · rcases J.apart i hi j hj hij with h | h
      · exact .inl (by unfold wp; omega)
      · exact .inr (by unfold wp; omega)
  simp only [cell, ioSize_eq, ioBlocks, blockSize] at hrw ⊢
  omega

variable {t : WriteThread}

theorem writeUnit_at {j : ℕ} (h : J.At done t.toWriteState) (hj : j < J.n)
    (hd : done j < J.rows) (ho : t.off = (done j * J.n + j) * ioSize) :
    ∃ t', writeUnit J.buf j t = .ok t' ∧ J.At (update done j (done j + 1)) t'.toWriteState ∧
      t'.off = t.off + ioSize ∧ t'.totalWritten = u32 (t.totalWritten + ioSize) := by
  have hlf : t.writeSize[j]? = some (J.rows - (done j + 1) + 1) := by
    rw [h.writeSize]
    simp [StripeJob.writeSize, hj]
    omega
  have hv : t.intervals[j]? = some ⟨J.zone j, J.segmentId, J.wp j, J.wp j⟩ := by
    rw [h.intervals]
    simp [StripeJob.intervals, hj, ne_of_lt hd]
  have hf : t.off + ioSize ≤ J.buf.size := by
    have hro : done j * J.n + j < J.rows * J.n := row_lane_lt hd hj
    rw [ho, J.size_buf, ← Nat.succ_mul]
    exact Nat.mul_le_mul_right _ hro
  have hwp : (t.zns.zoneDescList (J.zone j)).wp = J.wp j + done j * ioBlocks := by rw [h.desc j hj]
  have hds : ((t.zns.znsWrite J.buf.data t.off ioSize (J.zone j)).zoneDescList (J.zone j)) =
      { J.zns.zoneDescList (J.zone j) with wp := J.wp j + (done j + 1) * ioBlocks } := by
    simp only [Zns.znsWrite_ioSize, update_self, h.desc j hj, Nat.succ_mul, add_assoc]
  simp only [writeUnit, hlf, hv, if_pos hf]
  refine ⟨_, rfl, ?_, rfl, rfl⟩
  constructor
  · intro i hi
    by_cases hij : i = j
    · subst hij
      rw [update_self]
      omega
    · rw [update_of_ne hij]
      exact h.done_le i hi
  · -- only the last row of a zone sets the end of its interval
    by_cases hl : J.rows - (done j + 1) = 0
    · rw [if_pos hl, h.intervals, StripeJob.intervals, set_map_range, StripeJob.intervals]
      refine map_congr_left fun i hi => ?_
      by_cases hij : i = j
      · subst hij
        have hrw : done i + 1 = J.rows := by omega
        simp only [update_self, Zns.znsGetWp, hds, hrw, if_true]
        rw [u32_of_lt (J.stop_lt hj)]
      · simp only [update_of_ne hij]
    · rw [if_neg hl, h.intervals]
      refine map_congr_left fun i hi => ?_
      by_cases hij : i = j
      · subst hij
        rw [update_self, if_neg (by omega), if_neg (by omega)]
      · rw [update_of_ne hij]
  · rw [h.writeSize, StripeJob.writeSize, set_map_range, StripeJob.writeSize]
    refine map_congr_left fun i hi => ?_
    by_cases hij : i = j
    · subst hij
      rw [update_self, update_self]
    · rw [update_of_ne hij, update_of_ne hij]
  · exact ⟨h.geometry.zsze, h.geometry.maxZoneCnt⟩
  · intro i hi
    by_cases hij : i = j
    · subst hij
      rw [update_self]
      exact hds
    · have hne : J.zone i ≠ J.zone j := fun he => hij (J.zone_inj i hi j hj he)
      rw [update_of_ne hij, ← h.desc i hi]
      exact update_of_ne hne _ _
  · intro zone hz
    rw [← h.desc_other zone hz]
    exact update_of_ne (Ne.symm (hz j hj)) _ _
  · rw [cells_update hj]
    have hc := Moved.of_copy ioSize J.buf.data t.zns.disk (J.cell (done j) j).1 (J.cell (done j) j).2
    have hdk : (t.zns.znsWrite J.buf.data t.off ioSize (J.zone j)).disk =
        t.zns.disk.copy (J.cell (done j) j).1 J.buf.data (J.cell (done j) j).2 ioSize := by
      simp only [Zns.znsWrite_ioSize, hwp, ho, cell]
    rw [← hdk] at hc
    refine h.moved.trans hc ?_
    rintro c ⟨i, hi, r, hr, rfl⟩ d rfl
    refine cell_disjoint hi hj (lt_of_lt_of_le hr (h.done_le i hi)) hd ?_
    by_cases hij : i = j
    · subst hij
      exact .inr (ne_of_lt hr)
    · exact .inl hij

def raise (done : ℕ → ℕ) (base count r : ℕ) : ℕ → ℕ :=
  fun j => if base ≤ j ∧ j < base + count then r else done j

theorem raise_raise (done : ℕ → ℕ) (base count r r' : ℕ) :
    raise (raise done base count r) base count r' = raise done base count r' := by
  funext j
  simp only [raise]
  split <;> rfl

theorem raise_of_eq {base count r : ℕ} (h : ∀ j, base ≤ j → j < base + count → done j = r) :
    raise done base count r = done := by
  funext j
  simp only [raise]
  split
  · rename_i hj
    exact (h j hj.1 hj.2).symm
  · rfl

theorem raise_succ {base count r : ℕ} :
    raise (update done base r) (base + 1) count r = raise done base (count + 1) r := by
  funext j
  by_cases hj : j = base
  · subst hj
    simp [raise]
  simp only [raise, update_of_ne hj]
  congr 1
  rw [eq_iff_iff]
  omega

theorem writeRow_at {idx count r : ℕ} (h : J.At done t.toWriteState) (hn : idx + count ≤ J.n) (hr : r < J.rows)
    (hd : ∀ j, idx ≤ j → j < idx + count → done j = r) (ho : t.off = (r * J.n + idx) * ioSize)
    (ht : t.totalWritten + count * ioSize < 4294967296) :
    ∃ t', writeRow J.buf count idx t = .ok t' ∧ J.At (raise done idx count (r + 1)) t'.toWriteState ∧
      t'.off = (r * J.n + (idx + count)) * ioSize ∧
      t'.totalWritten = t.totalWritten + count * ioSize := by
  induction count generalizing idx done t with
  | zero =>
    refine ⟨t, rfl, ?_, ho, by simp⟩
    rwa [raise_of_eq fun j h1 h2 => absurd h2 (by omega)]
  | succ count ih =>
    have hi : done idx = r := hd idx (Nat.le_refl idx) (by omega)
    obtain ⟨t1, hrn1, hat1, ho1, ht1⟩ := writeUnit_at h (show idx < J.n by omega) (hi ▸ hr) (by rw [hi, ho])
    rw [Nat.succ_mul] at ht
    rw [u32_of_lt (by omega)] at ht1
    rw [hi] at hat1
    obtain ⟨t2, hrn2, hat2, ho2, ht2⟩ := ih hat1 (show idx + 1 + count ≤ J.n by omega)
      (fun j h1 h2 => by rw [update_of_ne (by omega), hd j (by omega) (by omega)])
      (by rw [ho1, ho]; ring) (by omega)
    refine ⟨t2, ?_, raise_succ ▸ hat2, ?_, by rw [Nat.succ_mul]; omega⟩
    · simp only [writeRow, hrn1]
      exact hrn2
    · rw [ho2]
      ring

theorem skipMin_of_ne {past cnt rows n izgCnt : ℕ} (hn : 0 < n) (h : cnt ≠ rows) :
    skipMin past cnt (replicate n rows) izgCnt = .ok (replicate n rows, izgCnt) := by
  obtain ⟨m, rfl⟩ : ∃ m, n = m + 1 := ⟨n - 1, by omega⟩
  simp [replicate_succ, skipMin, h]

theorem skipMin_of_eq {past cnt : ℕ} (hp : past ≠ cnt) (n izgCnt : ℕ) :
    ∃ izgCnt', skipMin past cnt (replicate n cnt) izgCnt = .ok ([], izgCnt') := by
  induction n generalizing izgCnt with
  | zero => exact ⟨izgCnt, by simp [skipMin, Ne.symm hp]⟩
  | succ n ih =>
    simp only [replicate_succ, skipMin, if_true]
    exact ih _

theorem writeRows_at {past : ℕ → ℕ} {base count left r fuel izgCnt : ℕ}
    {sorted : List ℕ} (hps : ∀ cnt, past cnt ≠ cnt) (h : J.At done t.toWriteState)
    (hn : base + count ≤ J.n) (hc : 0 < count) (hr : r + left = J.rows) (hf : left < fuel)
    (hd : ∀ j, base ≤ j → j < base + count → done j = r)
    (hlf : 0 < left → sorted = replicate J.n J.rows ∧ izgCnt = J.n ∧ t.off = (r * J.n + base) * ioSize)
    (ht : t.totalWritten = r * count * ioSize) :
    ∃ t', writeRows J.buf past base count (J.rows * count * ioSize) fuel r sorted izgCnt t = .ok t' ∧
      J.At (raise done base count J.rows) t'.toWriteState := by
  induction left generalizing done t r fuel sorted izgCnt with
  | zero =>
    obtain ⟨fuel, rfl⟩ : ∃ f, fuel = f + 1 := ⟨fuel - 1, by omega⟩
    obtain rfl : r = J.rows := by omega
    refine ⟨t, by simp [writeRows, ht], ?_⟩
    rwa [raise_of_eq hd]
  | succ left ih =>
    obtain ⟨fuel, rfl⟩ : ∃ f, fuel = f + 1 := ⟨fuel - 1, by omega⟩
    obtain ⟨rfl, rfl, ho⟩ := hlf (Nat.succ_pos left)
    have hlt : r < J.rows := by omega
    have hml : (r + 1) * count * ioSize ≤ J.rows * count * ioSize := Nat.mul_le_mul_right _ (Nat.mul_le_mul_right _ hlt)
    have hm : r * count * ioSize < (r + 1) * count * ioSize := by
      have := mul_pos hc ioSize_pos
      rw [Nat.succ_mul, add_mul]
      omega
    have hsz := J.bytes_lt (Nat.le_of_add_left_le hn)
    obtain ⟨t1, hr1, hat1, ho1, ht1⟩ := writeRow_at h hn hlt hd ho
      (by rw [ht, ← add_mul, ← Nat.succ_mul]; exact lt_of_le_of_lt hml hsz)
    have ht1' : t1.totalWritten = (r + 1) * count * ioSize := by
      rw [ht1, ht, Nat.succ_mul, add_mul]
    have hd1 : ∀ j, base ≤ j → j < base + count → raise done base count (r + 1) j = r + 1 :=
      fun j h1 h2 => if_pos ⟨h1, h2⟩
    have hsk : ∃ sorted izgCnt, skipMin (past (r + 1)) (r + 1) (replicate J.n J.rows) J.n =
        .ok (sorted, izgCnt) ∧ (0 < left → sorted = replicate J.n J.rows ∧ izgCnt = J.n) := by
      by_cases hl : r + 1 = J.rows
      · obtain ⟨izgCnt, hs⟩ := skipMin_of_eq (hps (r + 1)) J.n J.n
        rw [← hl]
        exact ⟨[], izgCnt, hs, fun hp => absurd hp (by omega)⟩
      · exact ⟨_, _, skipMin_of_ne J.n_pos hl, fun _ => ⟨rfl, rfl⟩⟩
    obtain ⟨sorted, izgCnt, hsk, hk⟩ := hsk
    have hg : 0 < left → t1.off + u32 (ioSize * sub32 izgCnt count) = ((r + 1) * J.n + base) * ioSize := by
      intro hp
      obtain ⟨-, rfl⟩ := hk hp
      have hlt : ioSize * (J.n - count) < 4294967296 := by
        rw [mul_comm]
        refine lt_of_le_of_lt (Nat.mul_le_mul_right _ ?_) (J.bytes_lt (Nat.sub_le J.n count))
        exact Nat.le_mul_of_pos_left _ J.rows_pos
      rw [sub32_of_le (by omega), u32_of_lt hlt, ho1, mul_comm ioSize, ← add_mul]
      congr 1
      rw [Nat.succ_mul]
      omega
    obtain ⟨t2, hr2, hat2⟩ : ∃ t2, writeRows J.buf past base count (J.rows * count * ioSize) fuel
        (r + 1) sorted izgCnt { t1 with off := t1.off + u32 (ioSize * sub32 izgCnt count) } = .ok t2 ∧
        J.At (raise (raise done base count (r + 1)) base count J.rows) t2.toWriteState :=
      ih hat1 (by omega) (by omega) hd1 (fun hp => ⟨(hk hp).1, (hk hp).2, hg hp⟩) ht1'
    refine ⟨t2, ?_, raise_raise done base count _ _ ▸ hat2⟩
    rw [writeRows, if_pos (by omega)]
    simp only [hr1, hsk]
    exact hr2

theorem At.setZones (h : J.At done w) (value : ZoneAction) (hv : value ≠ .reset) {base count : ℕ}
    (hn : base + count ≤ J.n) :
    ∃ z, Zoad.setZones value w.intervals base count w.zns = .ok z ∧ J.At done { w with zns := z } := by
  have hl : base + count ≤ w.intervals.length := by simpa [h.intervals, StripeJob.intervals] using hn
  rw [Zoad.setZones, if_pos hl]
  refine ⟨_, rfl, ?_⟩
  have hf (vs : List Interval) (z : Zns) :
      ∃ c, vs.foldl (fun z v => z.znsSetZone v.zoneNumber value) z = { z with openedZoneNum := c } := by
    induction vs generalizing z with
    | nil => exact ⟨z.openedZoneNum, rfl⟩
    | cons v vs ih =>
      obtain ⟨c, hc⟩ := z.znsSetZone_frame v.zoneNumber value hv
      rw [foldl_cons, hc]
      exact ih _
  obtain ⟨c, hc⟩ := hf ((w.intervals.drop base).take count) w.zns
  rw [hc]
  exact ⟨h.done_le, h.intervals, h.writeSize, ⟨h.geometry.zsze, h.geometry.maxZoneCnt⟩, h.desc, h.desc_other, h.moved⟩

theorem threadWrite_at {past : ℕ → ℕ} {base count : ℕ} (hps : ∀ cnt, past cnt ≠ cnt)
    (h : J.At done w) (hn : base + count ≤ J.n) (hcn : 0 < count)
    (hd : ∀ j, base ≤ j → j < base + count → done j = 0) :
    ∃ w', threadWrite J.buf past (base * ioSize) base count (J.rows * count)
        (replicate J.n J.rows) J.n w = .ok w' ∧ J.At (raise done base count J.rows) w' := by
  have hs := J.bytes_lt (Nat.le_of_add_left_le hn)
  have hp : 0 < J.rows * count * ioSize := mul_pos (mul_pos J.rows_pos hcn) ioSize_pos
  have hf : J.rows < J.rows * count * ioSize / ioSize + 1 := by
    rw [Nat.mul_div_cancel _ ioSize_pos]
    exact Nat.lt_succ_of_le (Nat.le_mul_of_pos_right _ hcn)
  obtain ⟨z1, ho, hat1⟩ := h.setZones .open (by decide) hn
  obtain ⟨t, hr, hat2⟩ : ∃ t, writeRows J.buf past base count (J.rows * count * ioSize)
      (J.rows * count * ioSize / ioSize + 1) 0 (replicate J.n J.rows) J.n
      { w with zns := z1, off := base * ioSize, totalWritten := 0 } = .ok t ∧
      J.At (raise done base count J.rows) t.toWriteState :=
    writeRows_at hps hat1 hn hcn (zero_add _) hf hd
      (fun _ => ⟨rfl, rfl, by rw [zero_mul, zero_add]⟩) (by rw [zero_mul, zero_mul])
  obtain ⟨z2, hc, hat3⟩ := hat2.setZones .close (by decide) hn
  refine ⟨_, ?_, hat3⟩
  simp only [threadWrite]
  rw [u32_of_lt hs, if_neg (ne_of_gt hp), bind_of_ok ho, bind_of_ok hr, bind_of_ok hc]

theorem writeZoneCnt_eq {n j : ℕ} (h : 8 * j < n) : writeZoneCnt n (n - 8 * j) j = min 8 (n - 8 * j) := by
  have hle : ¬ n < n - 8 * j := by omega
  simp only [writeZoneCnt, if_neg hle]
  rw [show threadPerIzg = 8 from rfl]
  by_cases h8 : 8 < n - 8 * j
  · rw [if_pos h8, if_neg (by omega), min_eq_left (by omega)]
  · rw [if_neg h8, min_eq_right (by omega)]

theorem At.sum_writeSize {idx count : ℕ} (h : J.At done w) (hn : idx + count ≤ J.n)
    (hd : ∀ j, idx ≤ j → j < idx + count → done j = 0) :
    ((w.writeSize.drop idx).take count).sum = J.rows * count := by
  have hr : (w.writeSize.drop idx).take count = replicate count J.rows := by
    apply ext_getElem
    · simp [h.writeSize, StripeJob.writeSize]
      omega
    · intro i h1 h2
      rw [length_replicate] at h2
      simp [h.writeSize, StripeJob.writeSize, hd (idx + i) (by omega) (by omega)]
  rw [hr, sum_replicate_nat, mul_comm]

theorem writeThreads_at {threads j : ℕ} (total : ℕ) (hp : ∀ i cnt, past i cnt ≠ cnt) (hj : j + threads = ceilDiv J.n 8)
    (h : J.At (fun k => if k < 8 * j then J.rows else 0) w) :
    ∃ idx left total' w', writeThreads J.buf past J.n (replicate J.n J.rows) threads j
        (min (8 * j) J.n) (J.n - 8 * j) (min (8 * j) J.n * ioSize) total w =
        .ok (idx, left, total', w') ∧ J.At (fun _ => J.rows) w' := by
  induction threads generalizing j total w with
  | zero =>
    refine ⟨_, _, _, w, rfl, h.congr fun k hk => ?_⟩
    have := (ceilDiv_spec (a := J.n) (show 0 < 8 by decide)).1
    rw [if_pos (by omega)]
  | succ threads ih =>
    have hlt : 8 * j < J.n := ((ceilDiv_spec (by decide)).2 j).mpr (by omega)
    have hi : min (8 * j) J.n = 8 * j := min_eq_left (le_of_lt hlt)
    have hnx : 8 * j + min 8 (J.n - 8 * j) = min (8 * (j + 1)) J.n := by omega
    have hn : 8 * j + min 8 (J.n - 8 * j) ≤ J.n := by omega
    have hd (k : ℕ) (h1 : 8 * j ≤ k) (_ : k < 8 * j + min 8 (J.n - 8 * j)) :
        (if k < 8 * j then J.rows else 0) = 0 := if_neg (by omega)
    have hln : 8 * j + min 8 (J.n - 8 * j) ≤ w.writeSize.length := by
      simpa [h.writeSize, StripeJob.writeSize] using hn
    have hsm := h.sum_writeSize hn hd
    have hs : J.rows * min 8 (J.n - 8 * j) < 4294967296 :=
      lt_of_le_of_lt (Nat.le_mul_of_pos_right _ ioSize_pos) (J.bytes_lt (by omega))
    obtain ⟨w1, hr1, hat1⟩ := threadWrite_at (hp (8 * j)) h hn (by omega) hd
    have hat1' : J.At (fun k => if k < 8 * (j + 1) then J.rows else 0) w1 := by
      refine hat1.congr fun k hk => ?_
      simp only [raise]
      split_ifs <;> omega
    obtain ⟨idx, left, total', w2, hr2, hat2⟩ := ih (u32 (total + J.rows * min 8 (J.n - 8 * j))) (by omega) hat1'
    refine ⟨idx, left, total', w2, ?_, hat2⟩
    have ho : u32 (min 8 (J.n - 8 * j) * ioSize) = min 8 (J.n - 8 * j) * ioSize := by
      refine u32_of_lt ?_
      have := Nat.mul_le_mul_right ioSize (min_le_left 8 (J.n - 8 * j))
      exact lt_of_le_of_lt this (by decide)
    have hl : sub32 (J.n - 8 * j) (min 8 (J.n - 8 * j)) = J.n - 8 * (j + 1) := by
      rw [sub32_of_le (min_le_right _ _)]
      omega
    rw [hnx] at hln
    simp only [writeThreads, hi, writeZoneCnt_eq hlt, hsm, u32_of_lt hs, ho,
      hl, hnx, if_pos hln, length_replicate, hr1, ← add_mul]
    exact hr2

theorem partialSortCopy_replicate (n k v : ℕ) : partialSortCopy (replicate n k) (replicate n v) = replicate n k := by
  rw [partialSortCopy, insertionSort_replicate, length_replicate, length_replicate, drop_replicate,
    Nat.sub_self, take_of_length_le (by simp)]
  simp

theorem spreadSizes_one (sizes : List ℕ) (hl : sizes.length = J.n) :
    spreadSizes J.n 1 0 (J.rows * J.n * ioBlocks) sizes = .ok (replicate J.n J.rows) := by
  have hs : J.n * ioBlocks < 4294967296 := by
    refine lt_of_le_of_lt ?_ J.size_lt
    rw [J.size_buf, ioSize_eq, ← mul_assoc]
    calc J.n * ioBlocks ≤ J.rows * (J.n * ioBlocks) := Nat.le_mul_of_pos_left _ J.rows_pos
      _ = J.rows * J.n * ioBlocks := (mul_assoc _ _ _).symm
      _ ≤ J.rows * J.n * ioBlocks * blockSize := Nat.le_mul_of_pos_right _ (by decide)
  have hp : 0 < J.n * ioBlocks := mul_pos J.n_pos (by decide)
  have hd : J.rows * J.n * ioBlocks / (J.n * ioBlocks) = J.rows := by
    rw [mul_assoc, Nat.mul_div_cancel _ hp]
  have hm : J.rows * J.n * ioBlocks % (J.n * ioBlocks) = 0 := by
    rw [mul_assoc, Nat.mul_mod_left]
  simp only [spreadSizes, hl, u32_of_lt hs, hd, hm, zero_add, Nat.le_refl, if_true,
    take_zero, nil_append, Nat.zero_div, Nat.not_lt_zero, if_false]
  rw [drop_of_length_le (by omega), append_nil, map_const', length_range]

theorem izgWrite_at (J : StripeJob) (hp : ∀ i cnt, past i cnt ≠ cnt) (sizes : List ℕ) (hl : sizes.length = J.n) :
    ∃ w, izgWrite J.buf past J.n J.n (J.rows * J.n * ioBlocks)
        ⟨J.zns, J.intervals fun _ => 0, sizes⟩ = .ok w ∧ J.At (fun _ => J.rows) w := by
  have hr : ceilDiv J.n J.n = 1 := by
    rw [ceilDiv, Nat.mod_self, if_pos rfl, Nat.div_self J.n_pos]
  have hs : J.At (fun _ => 0) ⟨J.zns, J.intervals fun _ => 0, replicate J.n J.rows⟩ := by
    refine ⟨fun _ _ => Nat.zero_le _, rfl, ?_, ⟨rfl, rfl⟩, fun j _ => ?_, fun _ _ => rfl, ?_⟩
    · simp [StripeJob.writeSize, map_const']
    · simp [wp]
    · rw [cells_zero]
      exact Moved.refl _ _ _
  obtain ⟨idx, left, total, w, hrn, hat⟩ := writeThreads_at (j := 0) 0 hp (zero_add _) (hs.congr fun k _ => by simp)
  refine ⟨w, ?_, hat⟩
  have hl' : (J.intervals fun _ => 0).length = J.n := by simp [StripeJob.intervals]
  have hsr : partialSortCopy ((replicate J.n J.rows).take J.n) (replicate J.n 0) = replicate J.n J.rows := by
    rw [take_of_length_le (by simp), partialSortCopy_replicate]
  rw [mul_zero, Nat.zero_min, zero_mul, Nat.sub_zero] at hrn
  rw [izgWrite, if_neg (ne_of_gt J.n_pos)]
  simp only [hr, spreadSizes_one sizes hl, hl, bind, Except.bind, writeRounds, hl',
    lt_irrefl, if_false, zero_add, length_replicate, Nat.le_refl, if_true, drop_zero,
    hsr, show threadPerIzg = 8 from rfl, hrn]

end StripeJob

end ZenFSPlus.Zoad
