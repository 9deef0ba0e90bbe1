import ZenFSPlus.Lib.Run
import ZenFSPlus.Lib.Transfer
import ZenFSPlus.Zoad.ZoneRead
import Mathlib.Tactic.Ring

namespace ZenFSPlus.Zoad

open Lib List Function

structure ReadJob where
  n : ℕ
  rows : ℕ
  zns : Zns
  zone : ℕ → ℕ
  segmentId : ℕ
  start : ℕ → ℕ
  off : ℕ
  dest : Dest
  n_pos : 0 < n
  rows_pos : 0 < rows
  size_lt : rows * n * ioSize < 4294967296
  stop_lt : ∀ j < n, start j + rows * ioBlocks < 4294967296

namespace ReadJob

variable (J : ReadJob)

def interval (j : ℕ) : Interval :=
  ⟨J.zone j, J.segmentId, J.start j, J.start j + J.rows * ioBlocks⟩

def cell (r j : ℕ) : ℕ × ℕ :=
  (J.off + (r * J.n + j) * ioSize, (J.start j + r * ioBlocks) * blockSize)

def Fits (r j : ℕ) : Prop := ∀ cap, J.dest.cap = some cap → (J.cell r j).1 + ioSize ≤ cap

structure At (done : ℕ → ℕ) (d : Dest) : Prop where
  cap : d.cap = J.dest.cap
  moved : Moved ioSize J.zns.disk (cells J.n done J.cell) J.dest.mem d.mem

structure LaneAt (j r : ℕ) (t : ReadThread) : Prop where
  off : t.off = (J.cell r j).1
  readMinSize : t.readMinSize = replicate J.n J.rows
  readZoneCnt : t.readZoneCnt = J.n
  start : t.start = J.start j + r * ioBlocks
  totalRead : t.totalRead = r * ioSize
  cnt : t.cnt = r
  actualReadCnt : t.actualReadCnt = r

variable {J} {done done' : ℕ → ℕ} {d : Dest} {j r : ℕ}

theorem At.congr (h : J.At done d) (he : ∀ i < J.n, done i = done' i) : J.At done' d :=
  ⟨h.cap, cells_congr he ▸ h.moved⟩

theorem cell_disjoint {r r' i j : ℕ} (hi : i < J.n) (hj : j < J.n) (hne : i ≠ j ∨ r ≠ r') :
    (J.cell r i).1 + ioSize ≤ (J.cell r' j).1 ∨ (J.cell r' j).1 + ioSize ≤ (J.cell r i).1 := by
  have hu : r * J.n + i ≠ r' * J.n + j := by
    intro he
    have hij : i = j := by simpa [Nat.mod_eq_of_lt, hi, hj] using congrArg (· % J.n) he
    subst hij
    have hr : r = r' := Nat.eq_of_mul_eq_mul_right J.n_pos (Nat.add_right_cancel he)
    rcases hne with h | h
    · exact h rfl
    · exact h hr
  rcases Nat.lt_or_gt_of_ne hu with h | h
  · have := Nat.mul_le_mul_right ioSize h
    rw [Nat.succ_mul] at this
    exact .inl (by simp only [cell]; omega)
  · have := Nat.mul_le_mul_right ioSize h
    rw [Nat.succ_mul] at this
    exact .inr (by simp only [cell]; omega)

theorem At.znsRead (h : J.At done d) (hj : j < J.n) (hf : J.Fits (done j) j) :
    ∃ d', d.znsRead J.zns (J.cell (done j) j).1 (J.start j + done j * ioBlocks) = .ok d' ∧
      J.At (update done j (done j + 1)) d' := by
  have hok (off lba : ℕ) (hft : ∀ cap, J.dest.cap = some cap → off + ioSize ≤ cap) :
      d.znsRead J.zns off lba = .ok { d with mem := J.zns.znsRead d.mem off ioSize lba } := by
    unfold Dest.znsRead
    split
    · rfl
    · rename_i cap hc
      exact if_pos (hft cap (h.cap ▸ hc))
  rw [hok _ _ hf, Zns.znsRead, Zns.nblocks_ioSize, ← ioSize_eq]
  refine ⟨_, rfl, h.cap, ?_⟩
  rw [cells_update hj]
  have hcl : (J.start j + done j * ioBlocks) * blockSize = (J.cell (done j) j).2 := by
    simp only [cell]
  rw [hcl]
  refine h.moved.trans (Moved.of_copy ioSize _ _ (J.cell (done j) j).1 (J.cell (done j) j).2) ?_
  rintro c ⟨i, hi, r, hr, rfl⟩ e rfl
  refine cell_disjoint hi hj ?_
  by_cases hij : i = j
  · subst hij
    exact .inr (ne_of_lt hr)
  · exact .inl hij

theorem rows_lt (J : ReadJob) : J.rows * ioSize < 4294967296 := by
  refine lt_of_le_of_lt ?_ J.size_lt
  exact Nat.mul_le_mul_right _ (Nat.le_mul_of_pos_right _ J.n_pos)

variable {t : ReadThread}

theorem LaneAt.skip (h : J.LaneAt j r t) (hr : r < J.rows) (cnt : ℕ) : t.skip cnt = .ok t := by
  obtain ⟨m, hm⟩ : ∃ m, J.n = m + 1 := ⟨J.n - 1, by have := J.n_pos; omega⟩
  have hmn : t.readMinSize = J.rows :: replicate m J.rows := by
    rw [h.readMinSize, hm, replicate_succ]
  have hne : t.cnt ≠ J.rows := by rw [h.cnt]; omega
  simp only [ReadThread.skip, hmn, skipReadMin, if_neg hne, bind, Except.bind]
  rw [← hmn]

section

variable (h : J.LaneAt j r t) (hd : J.At done t.dest) (hj : j < J.n)

include h hd hj

theorem LaneAt.readUnit (hr : r < J.rows) (hdn : done j = r) (hf : J.Fits r j) :
    t.start < (J.interval j).stop ∧ ∃ t', t.readUnit J.zns = .ok t' ∧ J.LaneAt j (r + 1) t'.next ∧
      J.At (update done j (r + 1)) t'.next.dest := by
  subst hdn
  have hro : (done j + 1) * ioBlocks ≤ J.rows * ioBlocks := Nat.mul_le_mul_right _ hr
  have hst := J.stop_lt j hj
  have hs : (done j + 1) * ioSize ≤ J.rows * ioSize := Nat.mul_le_mul_right _ hr
  have hrw := J.rows_lt
  have hn : ioSize * J.n < 4294967296 := by
    refine lt_of_le_of_lt ?_ J.size_lt
    rw [mul_comm, mul_assoc]
    exact Nat.le_mul_of_pos_left _ J.rows_pos
  have hrl : done j + 1 < 4294967296 := lt_of_le_of_lt (Nat.le_mul_of_pos_right _ ioSize_pos) (lt_of_le_of_lt hs hrw)
  rw [Nat.succ_mul] at hro hs
  obtain ⟨d', hrd, hat⟩ := hd.znsRead hj hf
  have hp : 0 < ioBlocks := by decide
  refine ⟨by rw [h.start]; simp only [interval]; omega, ?_⟩
  simp only [ReadThread.readUnit, h.off, h.start, hrd, bind, Except.bind]
  refine ⟨_, rfl, ?_, hat⟩
  constructor
  · simp only [ReadThread.next, h.readZoneCnt, u32_of_lt hn, cell]
    ring
  · exact h.readMinSize
  · exact h.readZoneCnt
  · simp only [ReadThread.next]
    rw [u32_of_lt (by omega), Nat.succ_mul, add_assoc]
  · simp only [ReadThread.next, h.totalRead]
    rw [u32_of_lt (by omega), Nat.succ_mul]
  · simp only [ReadThread.next, h.cnt]
    rw [u32_of_lt hrl]
  · simp only [ReadThread.next, h.actualReadCnt]
    rw [u32_of_lt hrl]

theorem loop_at {loop : ℕ → ReadThread → Except Fault ReadThread} {total left fuel : ℕ} (ht : total ≤ J.rows)
    (hs : ∀ {t fuel}, J.LaneAt j total t → loop (fuel + 1) t = .ok t)
    (hgo : ∀ {t t' r fuel}, r < total → J.LaneAt j r t → t.start < (J.interval j).stop → t.readUnit J.zns = .ok t' →
      loop (fuel + 1) t = loop fuel t'.next)
    (hdn : done j = r) (hrw : r + left = total) (hfl : left < fuel) (hf : ∀ r < total, J.Fits r j) :
    ∃ t', loop fuel t = .ok t' ∧ J.At (update done j total) t'.dest := by
  induction left generalizing r t done fuel with
  | zero =>
    obtain ⟨fuel, rfl⟩ : ∃ f, fuel = f + 1 := ⟨fuel - 1, by omega⟩
    rw [Nat.add_zero] at hrw
    subst hrw
    refine ⟨t, hs h, hd.congr fun i _ => ?_⟩
    rw [← hdn, update_eq_self]
  | succ left ih =>
    obtain ⟨fuel, rfl⟩ : ∃ f, fuel = f + 1 := ⟨fuel - 1, by omega⟩
    have hr : r < total := by omega
    obtain ⟨hlt, t1, hrn, hl, hat⟩ := h.readUnit hd hj (by omega) hdn (hf r hr)
    rw [hgo hr h hlt hrn, ← update_idem (r + 1)]
    exact ih hl hat (update_self _ _ _) (by omega) (by omega)

theorem readLoop_at {fuel : ℕ} (hdn : done j = 0) (hr : r = 0) (hfl : J.rows < fuel) (hf : ∀ r < J.rows, J.Fits r j) :
    ∃ t', readLoop J.zns J.n (J.rows * ioSize) (J.interval j).stop fuel t = .ok t' ∧
      J.At (update done j J.rows) t'.dest := by
  subst hr
  refine loop_at h hd hj le_rfl (fun h => ?_) (fun hr h hlt hrn => ?_) hdn (zero_add _) hfl hf
  · simp [readLoop, h.totalRead]
  · rw [readLoop, if_pos (by rw [h.totalRead]; exact Nat.mul_lt_mul_of_pos_right hr ioSize_pos)]
    simp only [h.skip hr, bind, Except.bind, if_pos hlt, hrn]

theorem readRandomLoop_at {actual fuel : ℕ} (hdn : done j = 0) (hr : r = 0)
    (hfl : min J.rows actual < fuel) (hf : ∀ r < min J.rows actual, J.Fits r j) :
    ∃ t', readRandomLoop J.zns J.n (J.rows * ioSize) actual 0 (J.interval j).stop fuel t = .ok t' ∧
      J.At (update done j (min J.rows actual)) t'.dest := by
  subst hr
  refine loop_at h hd hj (min_le_left _ _) (fun h => ?_) (fun hr h hlt hrn => ?_) hdn (zero_add _) hfl hf
  · rw [readRandomLoop, if_neg]
    rw [h.totalRead, h.actualReadCnt, Nat.mul_lt_mul_right ioSize_pos]
    omega
  · rw [readRandomLoop, if_pos]
    · simp only [h.skip (by omega), bind, Except.bind, if_pos hlt, zero_le, if_true, hrn]
    · rw [h.totalRead, h.actualReadCnt, Nat.mul_lt_mul_right ioSize_pos]
      omega

end

theorem laneAt_zero (J : ReadJob) (j : ℕ) (d : Dest) :
    J.LaneAt j 0 ⟨d, J.off + j * ioSize, replicate J.n J.rows, J.n, J.start j, 0, 0, 0, 0⟩ := by
  constructor <;> simp [cell]

theorem getSize_interval (J : ReadJob) (j : ℕ) : (J.interval j).getSize = J.rows * ioBlocks := by
  have hp := mul_pos J.rows_pos (show 0 < ioBlocks by decide)
  have hs : (J.interval j).stop = (J.interval j).start + J.rows * ioBlocks := rfl
  rw [Interval.getSize, hs, if_neg (by omega), sub32_of_le (by omega), Nat.add_sub_cancel_left]

theorem units_interval (J : ReadJob) (j : ℕ) : (J.interval j).getSize / ioBlocks = J.rows := by
  rw [getSize_interval, Nat.mul_div_cancel _ (by decide)]

theorem threadRead_at (h : J.At done d) (hj : j < J.n) (hdn : done j = 0) (hf : ∀ r < J.rows, J.Fits r j) :
    ∃ d', threadRead J.zns d (J.off + j * ioSize) (J.interval j) J.n J.rows
        (replicate J.n J.rows) = .ok d' ∧ J.At (update done j J.rows) d' := by
  have hp : J.rows * ioSize ≠ 0 := ne_of_gt (mul_pos J.rows_pos ioSize_pos)
  obtain ⟨t, hr, hat⟩ := readLoop_at (J.laneAt_zero j d) h hj hdn rfl (Nat.lt_succ_self _) hf
  refine ⟨t.dest, ?_, hat⟩
  simp only [threadRead, u32_of_lt J.rows_lt, if_neg hp, Nat.mul_div_cancel _ ioSize_pos]
  rw [show (J.interval j).start = J.start j from rfl, hr]
  rfl

theorem threadReadRandom_at (h : J.At done d) (hj : j < J.n) (hdn : done j = 0) (actual : ℕ)
    (hf : ∀ r < min J.rows actual, J.Fits r j) :
    ∃ d', threadReadRandom J.zns d (J.off + j * ioSize) (J.interval j) J.n 0 J.rows
        (replicate J.n J.rows) actual = .ok d' ∧
      J.At (update done j (min J.rows actual)) d' := by
  have hp : J.rows * ioSize ≠ 0 := ne_of_gt (mul_pos J.rows_pos ioSize_pos)
  obtain ⟨t, hr, hat⟩ := readRandomLoop_at (J.laneAt_zero j d) h hj hdn rfl
    (Nat.lt_succ_of_le (min_le_left J.rows actual)) hf
  refine ⟨t.dest, ?_, hat⟩
  simp only [threadReadRandom, u32_of_lt J.rows_lt, if_neg hp, Nat.mul_div_cancel _ ioSize_pos]
  rw [show (J.interval j).start = J.start j from rfl, hr]
  rfl

def intervals (J : ReadJob) : List Interval := (range J.n).map J.interval

theorem At.next {f : ℕ → ℕ} {k : ℕ} (h : J.At (update (fun i => if i < k then f i else 0) k (f k)) d) :
    J.At (fun i => if i < k + 1 then f i else 0) d :=
  h.congr fun i hi => by
    by_cases hik : i = k
    · subst hik
      rw [update_self, if_pos (Nat.lt_succ_self i)]
    · rw [update_of_ne hik]
      split_ifs <;> omega

theorem readThreads_at {m k : ℕ} (hk : k + m = J.n)
    (h : J.At (fun i => if i < k then J.rows else 0) d) (hf : ∀ j < J.n, ∀ r < J.rows, J.Fits r j) :
    ∃ d', readThreads J.zns J.n (replicate J.n J.rows) J.off k
        ((range' k m).map J.interval) d = .ok d' ∧ J.At (fun _ => J.rows) d' := by
  induction m generalizing k d with
  | zero => exact ⟨d, rfl, h.congr fun i hi => if_pos (by omega)⟩
  | succ m ih =>
    have hkn : k < J.n := by omega
    obtain ⟨d1, hr1, hat1⟩ := threadRead_at h hkn (if_neg (lt_irrefl k)) (hf k hkn)
    obtain ⟨d2, hr2, hat2⟩ := ih (show k + 1 + m = J.n by omega) hat1.next
    refine ⟨d2, ?_, hat2⟩
    rw [range'_succ, map_cons, readThreads, units_interval, bind_of_ok hr1, hr2]

theorem readRandomThreads_at {m k : ℕ} (actual : ℕ → ℕ) (hk : k + m = J.n)
    (h : J.At (fun i => if i < k then min J.rows (actual i) else 0) d)
    (hf : ∀ j < J.n, ∀ r < min J.rows (actual j), J.Fits r j) :
    ∃ d', readRandomThreads J.zns J.n (replicate J.n J.rows) J.off k 0
        ((range' k m).map J.interval) (replicate m 0) ((range' k m).map actual) d =
        .ok d' ∧ J.At (fun j => min J.rows (actual j)) d' := by
  induction m generalizing k d with
  | zero => exact ⟨d, rfl, h.congr fun i hi => if_pos (by omega)⟩
  | succ m ih =>
    have hkn : k < J.n := by omega
    obtain ⟨d1, hr1, hat1⟩ := threadReadRandom_at h hkn (if_neg (lt_irrefl k)) (actual k) (hf k hkn)
    obtain ⟨d2, hr2, hat2⟩ := ih (show k + 1 + m = J.n by omega) hat1.next
    refine ⟨d2, ?_, hat2⟩
    have ho : u32 (sub32 k 0 * ioSize) = k * ioSize := by
      rw [sub32_of_le (Nat.zero_le k), Nat.sub_zero]
      refine u32_of_lt (lt_of_le_of_lt (Nat.mul_le_mul_right _ ?_) J.size_lt)
      exact le_trans (le_of_lt hkn) (Nat.le_mul_of_pos_left _ J.rows_pos)
    have hl : (lessSkip 0 (replicate m 0)).1 = 0 := by simp [lessSkip]
    rw [range'_succ, map_cons, map_cons, replicate_succ, readRandomThreads]
    simp only [hl, lt_irrefl, if_false]
    rw [units_interval, ho, bind_of_ok hr1, hr2]

theorem length_intervals (J : ReadJob) : J.intervals.length = J.n := by simp [intervals]

theorem unitsOf_intervals (J : ReadJob) : unitsOf J.intervals = replicate J.n J.rows := by
  simp [unitsOf, intervals, comp_def, units_interval, map_const']

theorem blocks_lt (J : ReadJob) : J.rows * J.n * ioBlocks < 4294967296 := by
  refine lt_of_le_of_lt (Nat.mul_le_mul_left _ ?_) J.size_lt
  decide

theorem blocksOf_intervals (J : ReadJob) : blocksOf J.intervals = J.rows * J.n * ioBlocks := by
  have hs : (J.intervals.map Interval.getSize).sum = J.rows * J.n * ioBlocks := by
    simp only [intervals, map_map, comp_def, getSize_interval, map_const', length_range, sum_replicate_nat]
    ring
  rw [blocksOf, hs, u32_of_lt J.blocks_lt]

theorem rounds_self (J : ReadJob) : izgReadRounds J.n J.n = 1 := by
  simp [izgReadRounds, Nat.div_self J.n_pos]

theorem take_intervals (J : ReadJob) : J.intervals.take J.n = J.intervals :=
  take_of_length_le (le_of_eq J.length_intervals)

theorem at_zero (J : ReadJob) : J.At (fun _ => 0) J.dest := by
  refine ⟨rfl, ?_⟩
  rw [cells_zero]
  exact Moved.refl _ _ _

theorem izgRead_at (J : ReadJob) (hf : ∀ j < J.n, ∀ r < J.rows, J.Fits r j) :
    ∃ d, izgRead J.zns J.dest J.off J.n J.n J.intervals = .ok d ∧ J.At (fun _ => J.rows) d := by
  obtain ⟨d, hr, hat⟩ := readThreads_at (zero_add J.n) (J.at_zero.congr fun i _ => by simp) hf
  refine ⟨d, ?_, hat⟩
  rw [← range_eq_range'] at hr
  rw [izgRead, if_neg (ne_of_gt J.n_pos), rounds_self, threadNum, if_pos le_rfl]
  simp only [readRounds, length_intervals, lt_irrefl, if_false, take_intervals, unitsOf_intervals,
    insertionSort_replicate]
  rw [intervals, bind_of_ok hr]

def actual (J : ReadJob) (readSize j : ℕ) : ℕ :=
  if readSize < J.rows * J.n * ioBlocks then
    let readIo := if readSize / ioBlocks = 0 ∨ readSize % ioBlocks ≠ 0 then readSize / ioBlocks + 1
      else readSize / ioBlocks
    if j < readIo - readIo / J.n then readIo / J.n + 1 else readIo / J.n
  else J.rows

theorem spreadRead_replicate (each size : ℕ) (hs : 0 < size) (remain m k : ℕ) :
    spreadRead each (remain - k) (replicate m size) =
      (range' k m).map fun j => if j < remain then each + 1 else each := by
  induction m generalizing k with
  | zero => rfl
  | succ m ih =>
    rw [replicate_succ, range'_succ, map_cons, ← ih (k + 1), spreadRead]
    by_cases hk : k < remain
    · rw [if_pos ⟨by omega, hs⟩, if_pos hk, Nat.sub_sub]
    · rw [if_neg (by omega), if_neg hk, show remain - k = remain - (k + 1) by omega]

theorem actualSizes_eq (J : ReadJob) (rsz : ℕ) :
    ∃ bs, actualSizes (J.rows * J.n * ioBlocks) rsz (replicate J.n J.rows) =
      .ok (bs, (range J.n).map (J.actual rsz)) := by
  unfold actualSizes
  by_cases hlt : rsz < J.rows * J.n * ioBlocks
  · have hs (each remain : ℕ) := spreadRead_replicate each J.rows J.rows_pos remain J.n 0
    have hm : J.actual rsz = _ := funext fun j => if_pos hlt
    simp only [Nat.sub_zero] at hs
    simp only [if_pos hlt, length_replicate, if_neg (ne_of_gt J.n_pos), hs, ← range_eq_range', hm]
    exact ⟨_, rfl⟩
  · have hm : J.actual rsz = fun _ => J.rows := funext fun j => if_neg hlt
    rw [if_neg hlt, hm, map_const', length_range]
    exact ⟨_, rfl⟩

theorem spreadOffset_self (size each remain base m : ℕ) :
    spreadOffset size each remain (replicate m size) (replicate m base) = replicate m base := by
  induction m with
  | zero => simp [spreadOffset]
  | succ m ih => simp [replicate_succ, spreadOffset, sub32, ih]

theorem roundOffsets_eq (J : ReadJob) (off : ℕ) :
    roundOffsets off (J.rows * J.n * ioBlocks) (replicate J.n J.rows) = .ok (replicate J.n 0) := by
  unfold roundOffsets
  split
  · rename_i h
    have hm : (replicate J.n J.rows).min? = some J.rows := min?_replicate_of_pos J.n_pos
    have hs : u32 (J.rows * J.n) = J.rows * J.n := by
      refine u32_of_lt (lt_of_le_of_lt ?_ J.size_lt)
      exact Nat.le_mul_of_pos_right _ ioSize_pos
    have hp : ¬ J.rows * J.n < off / ioBlocks := by
      have := Nat.div_lt_of_lt_mul (by rw [mul_comm]; exact h.1)
      omega
    simp only [threadOffsets, hm, length_replicate, hs, if_neg hp, if_neg (ne_of_gt J.n_pos), spreadOffset_self]
  · simp

theorem foldl_sub32_zero (bs n : ℕ) : (replicate n 0).foldl (fun bs o => sub32 bs (u32 (o * ioBlocks))) bs = bs := by
  induction n with
  | zero => rfl
  | succ n ih => simpa [replicate_succ, sub32, u32] using ih

theorem izgReadRandom_at (J : ReadJob) (off rsz : ℕ) (ho : off < J.rows * J.n * ioBlocks)
    (hf : ∀ j < J.n, ∀ r < min J.rows (J.actual rsz j), J.Fits r j) :
    ∃ d, izgReadRandom J.zns J.dest J.off J.n J.n J.intervals off rsz = .ok d ∧
      J.At (fun j => min J.rows (J.actual rsz j)) d := by
  obtain ⟨d, hr, hat⟩ := readRandomThreads_at (J.actual rsz) (zero_add J.n) (J.at_zero.congr fun i _ => by simp) hf
  refine ⟨d, ?_, hat⟩
  obtain ⟨bs, ha⟩ := J.actualSizes_eq rsz
  rw [← range_eq_range'] at hr
  have ht : u32 (0 + J.rows * J.n * ioBlocks) = J.rows * J.n * ioBlocks := by
    rw [zero_add, u32_of_lt J.blocks_lt]
  rw [izgReadRandom, if_neg (ne_of_gt J.n_pos), rounds_self, threadNum, if_pos le_rfl]
  simp only [readRandomRounds, length_intervals, lt_irrefl, if_false, take_intervals,
    unitsOf_intervals, insertionSort_replicate, blocksOf_intervals, ht]
  rw [bind_of_ok (J.roundOffsets_eq off), foldl_sub32_zero, bind_of_ok ha]
  simp only [if_pos ho]
  rw [intervals, bind_of_ok hr]
  exact ite_self _

end ReadJob

end ZenFSPlus.Zoad
