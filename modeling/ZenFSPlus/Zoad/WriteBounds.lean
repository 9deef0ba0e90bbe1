import ZenFSPlus.Zoad.StripeWrite

/-!
The iterators of `izg_write`. A read behind the end of the sorted vector is an error in the runs in
which it finds the row number there, so a run that is right whatever it finds makes no such read.
-/

namespace ZenFSPlus.Zoad

open Lib List

def workerStart (izgCnt : ℕ) : ℕ → ℕ × ℕ
  | 0 => (0, izgCnt)
  | j + 1 =>
    let (idx, left) := workerStart izgCnt j
    let count := writeZoneCnt izgCnt left j
    (idx + count, sub32 left count)

variable {buf : Slice UInt8} {sorted : List ℕ} {n units base d count j : ℕ} {w : WriteState} {t : WriteThread}

structure Left (n units d : ℕ) (w : WriteState) : Prop where
  intervals : w.intervals.length = n
  writeSize : w.writeSize = (range n).map fun k => if d ≤ k ∧ k < units then 1 else 0

theorem Left.skip (h : Left n units d w) {d' : ℕ} (hd : units ≤ d) (hle : d ≤ d') : Left n units d' w := by
  refine ⟨h.intervals, h.writeSize.trans (map_congr_left fun k _ => ?_)⟩
  rw [if_neg (by omega), if_neg (by omega)]

structure RowAt (n units base d : ℕ) (t : WriteThread) : Prop where
  left : Left n units d t.toWriteState
  off : t.off = min d units * ioSize
  total : t.totalWritten = (min d units - base) * ioSize

theorem writeUnit_row (h : RowAt n units base d t) (hd : d < n) (hb : units * ioSize ≤ buf.size)
    (hbs : base ≤ d) (hsm : d < base + 8) : ∃ t', writeUnit buf d t = .ok t' ∧ RowAt n units base (d + 1) t' := by
  have hio : ioSize = 196608 := rfl
  obtain ⟨h, ho, ht⟩ := h
  rw [hio] at hb ho ht
  by_cases hu : d < units
  · have hs : t.writeSize[d]? = some (0 + 1) := by
      rw [h.writeSize]
      simp [hd, hu]
    have hlt : d < t.intervals.length := h.intervals ▸ hd
    have hf : t.off + ioSize ≤ buf.size := by
      rw [hio]
      omega
    simp only [writeUnit, hs, getElem?_eq_getElem hlt, if_pos hf]
    refine ⟨_, rfl, ⟨by simp [h.intervals], ?_⟩, ?_, ?_⟩
    · rw [h.writeSize, set_map_range]
      refine map_congr_left fun k _ => ?_
      by_cases hk : k = d
      · subst hk
        rw [Function.update_self, if_neg (by omega)]
      rw [Function.update_of_ne hk]
      congr 1
      rw [eq_iff_iff]
      omega
    · change t.off + ioSize = _
      rw [hio]
      omega
    · change u32 (t.totalWritten + ioSize) = _
      rw [hio, u32_of_lt (by omega)]
      omega
  · have hs : t.writeSize[d]? = some 0 := by
      rw [h.writeSize]
      simp [hd, hu]
    simp only [writeUnit, hs]
    have hsame : min (d + 1) units = min d units := by omega
    exact ⟨t, rfl, h.skip (by omega) (Nat.le_succ d), by rw [hsame, hio, ho], by rw [hsame, hio, ht]⟩

theorem writeRow_row (h : RowAt n units base d t) (hn : d + count ≤ n) (hbf : units * ioSize ≤ buf.size)
    (hb : base ≤ d) (hs : d + count ≤ base + 8) :
    ∃ t', writeRow buf count d t = .ok t' ∧ RowAt n units base (d + count) t' := by
  induction count generalizing d t with
  | zero => exact ⟨t, rfl, h⟩
  | succ count ih =>
    obtain ⟨t1, hr, h1⟩ := writeUnit_row h (by omega) hbf hb (by omega)
    obtain ⟨t2, hr2, h2⟩ := ih h1 (by omega) (by omega) (by omega)
    rw [add_right_comm] at h2
    exact ⟨t2, by simp only [writeRow, hr]; exact hr2, h2⟩

theorem Left.setZones (h : Left n units d w) (value : ZoneAction) (hn : base + count ≤ n) :
    ∃ z, Zoad.setZones value w.intervals base count w.zns = .ok z ∧ Left n units d { w with zns := z } :=
  ⟨_, if_pos (h.intervals ▸ hn), h.intervals, h.writeSize⟩

theorem threadWrite_left (past : ℕ → ℕ) (cnt : ℕ) (h : Left n units d w) (hn : d + count ≤ n) (hcn : 0 < count)
    (hsm : count ≤ 8) (hb : units * ioSize ≤ buf.size) (hsr : sorted.head? = some 0) :
    ∃ w', threadWrite buf past (d * ioSize) d count (min (d + count) units - min d units) sorted cnt w = .ok w' ∧
      Left n units (d + count) w' := by
  have hio : ioSize = 196608 := rfl
  have ht : u32 ((min (d + count) units - min d units) * ioSize) =
      (min (d + count) units - min d units) * ioSize := u32_of_lt (by
    rw [hio]
    omega)
  obtain ⟨rest, rfl⟩ := head?_eq_some_iff.mp hsr
  simp only [threadWrite, ht]
  by_cases hu : d < units
  · have hmn : min d units = d := min_eq_left (le_of_lt hu)
    obtain ⟨m, hm⟩ : ∃ m, min (d + count) units - min d units = m + 1 := Nat.exists_eq_succ_of_ne_zero (by omega)
    obtain ⟨z, ho, hl⟩ := h.setZones .open hn
    obtain ⟨t, hr, hl, -, hw⟩ := writeRow_row (t := { w with zns := z, off := d * ioSize, totalWritten := 0 })
      ⟨hl, by rw [hmn], by rw [hmn, Nat.sub_self, zero_mul]⟩ hn hb (Nat.le_refl d) (by omega)
    rw [hmn] at hm
    rw [hm] at hw
    have hp : 0 < (m + 1) * ioSize := mul_pos (Nat.succ_pos m) ioSize_pos
    obtain ⟨z', hc, hl⟩ := hl.setZones .close hn
    rw [hmn, hm, if_neg (ne_of_gt hp), Nat.mul_div_cancel _ ioSize_pos]
    refine ⟨_, bind_eq_ok.mpr ⟨z, ho, bind_eq_ok.mpr ⟨{ t with off := t.off + u32 (ioSize * sub32 cnt count) }, ?_,
      bind_eq_ok.mpr ⟨z', hc, rfl⟩⟩⟩, hl⟩
    rw [writeRows, if_pos hp]
    refine bind_eq_ok.mpr ⟨t, hr, bind_eq_ok.mpr ⟨(0 :: rest, cnt), rfl, ?_⟩⟩
    simp [writeRows, hw]
  · have hs : min (d + count) units - min d units = 0 := by omega
    rw [hs, zero_mul, if_pos rfl]
    exact ⟨w, rfl, h.skip (by omega) (by omega)⟩

theorem Left.sum (h : Left n units d w) (hn : d + count ≤ n) :
    ((w.writeSize.drop d).take count).sum = min (d + count) units - min d units := by
  have hl : (w.writeSize.drop d).take count = (range count).map fun i => if d + i < units then 1 else 0 := by
    apply ext_getElem
    · simp [h.writeSize]
      omega
    · intro i _ _
      simp [h.writeSize]
  rw [hl]
  clear hl hn
  induction count with
  | zero => simp
  | succ count ih =>
    rw [range_succ, map_append, sum_append, ih]
    simp only [map_cons, map_nil, sum_cons, sum_nil]
    split <;> omega

theorem lt_of_worker (hj : j < ceilDiv n 8) : 8 * j < n := ((ceilDiv_spec (by decide)).2 j).mpr hj

theorem workerStart_eq (hj : j ≤ ceilDiv n 8) : workerStart n j = (min (8 * j) n, n - 8 * j) := by
  induction j with
  | zero => simp [workerStart]
  | succ j ih =>
    simp only [workerStart, ih (Nat.le_of_succ_le hj), StripeJob.writeZoneCnt_eq (lt_of_worker hj)]
    rw [sub32_of_le (min_le_right _ _), Prod.mk.injEq]
    omega

theorem one_worker {k : ℕ} (hk : k < n) : ∃! j, j < ceilDiv n 8 ∧ (workerStart n j).1 ≤ k ∧
    k < (workerStart n j).1 + writeZoneCnt n (workerStart n j).2 j := by
  have hr {j : ℕ} (hj : j < ceilDiv n 8) : (workerStart n j).1 ≤ k ∧
      k < (workerStart n j).1 + writeZoneCnt n (workerStart n j).2 j ↔ j = k / 8 := by
    rw [workerStart_eq (le_of_lt hj), StripeJob.writeZoneCnt_eq (lt_of_worker hj)]
    omega
  have hl : k / 8 < ceilDiv n 8 := ((ceilDiv_spec (by decide)).2 _).mp (by omega)
  exact ⟨k / 8, ⟨hl, (hr hl).mpr rfl⟩, fun j hj => (hr hj.1).mp hj.2⟩

theorem writeThreads_left {threads : ℕ} (past : ℕ → ℕ → ℕ) (total : ℕ) (hj : j + threads = ceilDiv n 8)
    (hb : units * ioSize ≤ buf.size) (hsr : sorted.head? = some 0) (h : Left n units (workerStart n j).1 w) :
    let r' := workerStart n j
    ∃ r, writeThreads buf past n sorted threads j r'.1 r'.2 (r'.1 * ioSize) total w = .ok r := by
  induction threads generalizing j total w with
  | zero => exact ⟨_, rfl⟩
  | succ threads ih =>
    have hlt : 8 * j < n := lt_of_worker (by omega)
    have hs : workerStart n j = (8 * j, n - 8 * j) := by
      rw [workerStart_eq (by omega), min_eq_left (le_of_lt hlt)]
    have hcn := StripeJob.writeZoneCnt_eq hlt
    generalize hc : min 8 (n - 8 * j) = c at hcn
    have hnx : workerStart n (j + 1) = (8 * j + c, sub32 (n - 8 * j) c) := by simp only [workerStart, hs, hcn]
    rw [hs] at h ⊢
    have hn : 8 * j + c ≤ n := by omega
    obtain ⟨w1, hrn, hl⟩ := threadWrite_left (past (8 * j)) sorted.length h hn (by omega) (by omega) hb hsr
    have hln : 8 * j + c ≤ w.writeSize.length := by simpa [h.writeSize] using hn
    have hsz : u32 (min (8 * j + c) units - min (8 * j) units) = min (8 * j + c) units - min (8 * j) units :=
      u32_of_lt (by omega)
    have hst : u32 (c * ioSize) = c * ioSize :=
      u32_of_lt (lt_of_le_of_lt (Nat.mul_le_mul_right ioSize (show c ≤ 8 by omega)) (by decide))
    obtain ⟨r, hr⟩ := ih (j := j + 1) (u32 (total + (min (8 * j + c) units - min (8 * j) units))) (by omega)
      (by rwa [hnx])
    rw [hnx, add_mul] at hr
    simp only [writeThreads, hcn, if_pos hln, h.sum hn, hsz, hst]
    exact ⟨r, bind_eq_ok.mpr ⟨w1, hrn, hr⟩⟩

theorem head?_insertionSort {l : List ℕ} (h : 0 ∈ l) : (l.insertionSort (· ≤ ·)).head? = some 0 := by
  have hm : 0 ∈ l.insertionSort (· ≤ ·) := (perm_insertionSort _ l).mem_iff.mpr h
  have hs := pairwise_insertionSort (· ≤ ·) l
  cases hl : l.insertionSort (· ≤ ·) with
  | nil => simp [hl] at hm
  | cons a rest =>
    rw [hl] at hm hs
    rcases mem_cons.mp hm with rfl | hr
    · rfl
    · rw [Nat.le_zero.mp (rel_of_pairwise_cons hs hr)]
      rfl

end ZenFSPlus.Zoad
