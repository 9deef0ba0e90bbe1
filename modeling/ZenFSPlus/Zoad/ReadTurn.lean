import ZenFSPlus.Zoad.RoundTrip

namespace ZenFSPlus.Zoad

open Lib

/-- The units that `izg_read` with an offset delivers of a segment of `rows` rows when it is asked for `readSize`
blocks. -/
def fetched (n rows readSize : ℕ) : ℕ :=
  if readSize < rows * n * ioBlocks then
    let readIo := if readSize / ioBlocks = 0 ∨ readSize % ioBlocks ≠ 0 then readSize / ioBlocks + 1
      else readSize / ioBlocks
    min (rows * n) (readIo / n * n + min (readIo - readIo / n) n)
  else rows * n

theorem fetched_one {n rsz : ℕ} (h : n * ioBlocks ≤ rsz) : fetched n 1 rsz = n := by
  rw [fetched, one_mul, if_neg (not_lt.mpr h)]

theorem le_fetched {n rows rsz : ℕ} (hn : 0 < n) (h : rsz ≤ rows * n * ioBlocks) :
    rsz ≤ fetched n rows rsz * ioBlocks := by
  have hio : ioBlocks = 384 := rfl
  unfold fetched
  split
  · rename_i hlt
    dsimp only
    generalize hu : (if rsz / ioBlocks = 0 ∨ rsz % ioBlocks ≠ 0 then
      rsz / ioBlocks + 1 else rsz / ioBlocks) = readIo
    have hle : rsz ≤ readIo * ioBlocks ∧ readIo ≤ rows * n := by
      rw [hio] at hu hlt ⊢
      split at hu <;> omega
    have hmd := Nat.div_add_mod' readIo n
    have hlt' := Nat.mod_lt readIo hn
    have hs : readIo / n ≤ readIo / n * n := Nat.le_mul_of_pos_right _ hn
    exact le_trans hle.1 (Nat.mul_le_mul_right _ (by omega))
  · exact h

theorem ReadJob.lt_actual_iff (J : ReadJob) {rsz r j : ℕ} (hj : j < J.n) :
    r < min J.rows (J.actual rsz j) ↔ r * J.n + j < fetched J.n J.rows rsz := by
  have hr (k : ℕ) : r * J.n + j < k * J.n ↔ r < k := by
    constructor
    · intro h
      by_contra hle
      have := Nat.mul_le_mul_right J.n (not_lt.mp hle)
      omega
    · exact fun h => row_lane_lt h hj
  unfold actual fetched
  split
  · dsimp only
    generalize (if rsz / ioBlocks = 0 ∨ rsz % ioBlocks ≠ 0 then rsz / ioBlocks + 1 else rsz / ioBlocks) = readIo
    generalize readIo - readIo / J.n = remain
    generalize readIo / J.n = each
    have h1 := hr each
    have h2 := hr (each + 1)
    rw [Nat.succ_mul] at h2
    rw [Nat.lt_min, Nat.lt_min, hr]
    refine and_congr_right fun _ => ?_
    have h3 : r = each → r * J.n = each * J.n := fun h => h ▸ rfl
    split <;> omega
  · rw [Nat.min_self, hr]

theorem Layout.Holds.readSegmentAt {L : Layout} {z : Zns} {bound units n : ℕ} {seg : Segment}
    {b : Slice UInt8} (h : L.Holds z bound n seg b) (hz : z.Regular bound units) (hn : 0 < n)
    (dest : Dest) (off so rsz : ℕ) (ho : so < seg.size)
    (hft : ∀ cap, dest.cap = some cap → off + fetched n L.rows rsz * ioSize ≤ cap) :
    Userdata.readSegmentAt z n seg dest off so rsz =
      .ok { dest with mem := dest.mem.copy off b.data 0 (fetched n L.rows rsz * ioSize) } := by
  have hcl (j r : ℕ) : ((h.readJob hz hn off dest).cell r j).1 = off + (r * n + j) * ioSize := by
    simp only [ReadJob.cell]
    rfl
  obtain ⟨d, hrn, hat⟩ := (h.readJob hz hn off dest).izgReadRandom_at so rsz (h.size ▸ ho) (by
      intro j hj r hr cap hcp
      have hlt := Nat.mul_le_mul_right ioSize (((h.readJob hz hn off dest).lt_actual_iff hj).mp hr)
      rw [Nat.succ_mul] at hlt
      refine le_trans ?_ (hft cap hcp)
      rw [hcl, add_assoc]
      exact Nat.add_le_add_left hlt _)
  have hm : d.mem = dest.mem.copy off b.data 0 (fetched n L.rows rsz * ioSize) := by
    refine hat.moved.eq_copy ?_ ?_
    · intro x hx
      have hx' : x / n * n + x % n = x := Nat.div_add_mod' x n
      have hj : x % n < n := Nat.mod_lt x hn
      have hr : x / n < min L.rows ((h.readJob hz hn off dest).actual rsz (x % n)) :=
        ((h.readJob hz hn off dest).lt_actual_iff hj).mpr (by rw [← hx'] at hx; exact hx)
      have hf : off + x * ioSize = ((h.readJob hz hn off dest).cell (x / n) (x % n)).1 := by
        rw [hcl, hx']
      refine ⟨((h.readJob hz hn off dest).cell (x / n) (x % n)).2, ?_, ?_⟩
      · rw [hf]
        exact mem_cells hj hr
      · have hdt := h.data (x / n) (by omega) (x % n) hj
        rw [hx'] at hdt
        rw [← hdt]
        simp only [ReadJob.cell]
        rfl
    · rintro c ⟨j, hj, r, hr, rfl⟩
      exact ⟨r * n + j, ((h.readJob hz hn off dest).lt_actual_iff hj).mp hr, hcl j r⟩
  have hd : d = ⟨d.mem, dest.cap⟩ := by rw [← show d.cap = dest.cap from hat.cap]
  have hl : seg.intervals.length = n := by simp [h.intervals]
  rw [Userdata.readSegmentAt, hl, ← hm, ← hd, h.intervals]
  exact hrn

theorem blocksOfBytes_spec (size : ℕ) : size ≤ blocksOfBytes size * 512 ∧ blocksOfBytes size * 512 < size + 512 := by
  unfold blocksOfBytes ceilDiv
  rw [show blockSize = 512 from rfl]
  split <;> omega

namespace Userdata

structure OneRow (z : Zns) (bound n : ℕ) (seg : Segment) (b : Slice UInt8) : Prop where
  holds : ∃ L : Layout, L.rows = 1 ∧ L.Holds z bound n seg b
  lt : seg.offset + seg.size < 4294967296

variable {z : Zns} {bound units n : ℕ} {seg : Segment} {b : Slice UInt8} {req : ℕ}

section

variable (h : OneRow z bound n seg b)

include h

theorem OneRow.size : seg.size = n * ioBlocks := by
  obtain ⟨L, hr, hL⟩ := h.holds
  rw [hL.size, hr, one_mul]

theorem OneRow.size_buf : b.size = n * ioSize := by
  obtain ⟨L, hr, hL⟩ := h.holds
  rw [hL.size_buf, hr, one_mul]

theorem OneRow.size_lt : n * ioSize < 4294967296 := by
  rw [← h.size_buf]
  obtain ⟨L, -, hL⟩ := h.holds
  exact hL.size_lt

theorem OneRow.next : seg.getNextOffset = seg.offset + n * ioBlocks := by
  rw [Segment.getNextOffset, u32_of_lt h.lt, h.size]

theorem OneRow.readSegmentAt (hz : z.Regular bound units) (hn : 0 < n)
    (dest : Dest) (off so rsz : ℕ) (ho : so < n * ioBlocks)
    (hr : n * ioBlocks ≤ rsz)
    (hft : ∀ cap, dest.cap = some cap → off + n * ioSize ≤ cap) :
    Userdata.readSegmentAt z n seg dest off so rsz =
      .ok { dest with mem := dest.mem.copy off b.data 0 (n * ioSize) } := by
  have hs := h.size
  obtain ⟨L, hrw, hL⟩ := h.holds
  have hf : fetched n L.rows rsz = n := by rw [hrw, fetched_one hr]
  have hrd := hL.readSegmentAt hz hn dest off so rsz (by omega) (by rw [hf]; exact hft)
  rwa [hf] at hrd

end

namespace ReadAt

variable {t : ReadAt} {stripe blocks q size : ℕ}

theorem turn_skip (h : t.readSize = 0 ∨ seg.offset + seg.size ≤ t.offset)
    (hps : 0 < seg.size) (hlt : seg.offset + seg.size < 4294967296) : t.turn z n seg = .ok t := by
  rw [turn, if_pos]
  rcases h with h | h
  · exact .inl h
  · right
    rw [Segment.getNextOffset, u32_of_lt hlt, sub32_of_le (by omega)]
    omega

def ask (t : ReadAt) (req : ℕ) : ReadAt :=
  { t with reqSize := req, readSize := sub32 t.readSize req, offset := u32 (t.offset + req) }

theorem turn_inside (hlt : seg.offset + seg.size < 4294967296) (hn : 0 < n) {a : ℕ}
    (hoff : t.offset = seg.offset + a) (ha : a < seg.size) (hr : t.readSize ≠ 0) :
    let r := t.request seg
    t.turn z n seg = if (t.ask r.2).bounces n then (t.ask r.2).bounce z n seg r.1
      else (t.ask r.2).direct z n seg r.1 := by
  have hnx : seg.getNextOffset = seg.offset + seg.size := u32_of_lt hlt
  have hnt : ¬ (t.readSize = 0 ∨ sub32 seg.getNextOffset 1 < t.offset) := by
    rw [hnx, sub32_of_le (by omega)]
    omega
  rw [turn, if_neg hnt, if_pos (by rw [hnx]; omega), if_neg (ne_of_gt hn)]
  rfl

theorem turn_rows {L : Layout} (h : L.Holds z bound n seg b)
    (hlt : seg.offset + seg.size < 4294967296) (hz : z.Regular bound units) (hn : 0 < n)
    (hoff : t.offset = seg.offset) (hr : t.readSize ≠ 0) (hrem : t.remainBytes = false)
    (hq : t.oriOffset % (n * ioSize) = 0) (hrq : t.request seg = (0, req))
    (hle : n * ioBlocks ≤ req) :
    t.turn z n seg = .ok { t.ask req with
      buf := t.buf.copy t.bufOffset b.data 0 (fetched n L.rows req * ioSize)
      bufOffset := u32 (t.bufOffset + u32 (req * blockSize)) } := by
  have hs : n * ioBlocks ≤ seg.size := by
    rw [h.size]
    exact Nat.mul_le_mul_right _ (Nat.le_mul_of_pos_left _ h.rows_pos)
  have hps : 0 < seg.size := lt_of_lt_of_le (mul_pos hn (by decide)) hs
  have hst : u32 (n * ioSize) = n * ioSize := by
    refine u32_of_lt (lt_of_le_of_lt ?_ h.size_lt)
    rw [h.size_buf]
    exact Nat.mul_le_mul_right _ (Nat.le_mul_of_pos_left _ h.rows_pos)
  have hbl : u32 (n * ioBlocks) = n * ioBlocks := u32_of_lt (by omega)
  have hb : (t.ask req).bounces n = false := by
    rw [bounces, mul_comm ioSize, mul_comm ioBlocks, hst, hbl]
    simp [ask, hq, hrem, hle]
  have hd := h.readSegmentAt hz hn ⟨t.buf, none⟩ t.bufOffset 0 req hps (fun cap hcp => by simp at hcp)
  rw [turn_inside hlt hn hoff hps hr, hrq, if_neg (by simp [hb])]
  change (t.ask req).direct z n seg 0 = _
  rw [direct, show (t.ask req).reqSize = req from rfl, show (t.ask req).buf = t.buf from rfl,
    show (t.ask req).bufOffset = t.bufOffset from rfl, bind_of_ok hd]
  rfl

theorem request_start (h : OneRow z bound n seg b) (hoff : t.offset = seg.offset) :
    t.request seg = (0, if n * ioBlocks < t.reqSize then n * ioBlocks else t.readSize) := by
  rw [request, if_pos hoff, h.size]

theorem request_inside (h : OneRow z bound n seg b) {a : ℕ} (hoff : t.offset = seg.offset + a)
    (hps : 0 < a) (ha : a < n * ioBlocks) (hlt : a + t.readSize < 4294967296) :
    t.request seg = (a, if n * ioBlocks < a + t.readSize then n * ioBlocks - a else t.readSize) := by
  have hs : t.offset - seg.offset = a := by omega
  rw [request, if_neg (by omega)]
  simp only [hs, u32_of_lt hlt, h.size]
  rw [sub32_of_le (le_of_lt ha)]

def filled (len : ℕ) (b : Slice UInt8) (t : ReadAt) : ReadAt :=
  { t with readBuf := t.readBuf.copy 0 b.data 0 len }

theorem bounce_eq (h : OneRow z bound n seg b) (hz : z.Regular bound units) (hn : 0 < n)
    (hn' : n ≤ 512) {start : ℕ} (hs : start < n * ioBlocks) (hps : 0 < t.reqSize)
    (hle : t.reqSize ≤ n * ioBlocks) :
    t.bounce z n seg start = if t.remainBytes then if ioSize * n < t.oriReadSize then .error .outOfBounds
        else .ok (leave n { t.filled (n * ioSize) b with
          buf := t.buf.copy t.bufOffset (t.filled (n * ioSize) b).readBuf 0 t.oriReadSize, remainBytes := false })
      else .ok ((((t.filled (n * ioSize) b).copyHead n).remainder n seg).leave n) := by
  have hcl := ceilDiv_spec (a := t.reqSize) (show 0 < ioBlocks by decide)
  have hc : 0 < ceilDiv t.reqSize ioBlocks := (hcl.2 0).mp (by simpa using hps)
  have hc' : ceilDiv t.reqSize ioBlocks ≤ n := by
    refine not_lt.mp fun hlt => ?_
    have := (hcl.2 n).mpr hlt
    rw [mul_comm] at this
    omega
  have hsm : ceilDiv t.reqSize ioBlocks * ioSize < 4294967296 := lt_of_le_of_lt (Nat.mul_le_mul_right _ hc') h.size_lt
  have hr : n * ioBlocks ≤ ceilDiv t.reqSize ioBlocks * ioSize :=
    calc n * ioBlocks ≤ 512 * ioBlocks := Nat.mul_le_mul_right _ hn'
      _ = ioSize := rfl
      _ ≤ ceilDiv t.reqSize ioBlocks * ioSize := Nat.le_mul_of_pos_left _ hc
  have hrd := h.readSegmentAt hz hn ⟨t.readBuf, some (ioSize * n)⟩ 0 start _ hs hr (fun cap hcp => by
      cases hcp
      rw [zero_add, mul_comm])
  rw [bounce, u32_of_lt hsm, bind_of_ok hrd]
  rfl

def settle (n : ℕ) (seg : Segment) (t : ReadAt) : ReadAt := ((t.copyHead n).remainder n seg).leave n

section

variable (h : OneRow z bound n seg b) (hz : z.Regular bound units) (hn : 0 < n) (hn' : n ≤ 512)

include h hz hn

theorem turn_direct (hoff : t.offset = seg.offset) (hrd : t.readSize ≠ 0)
    (hrem : t.remainBytes = false) (hq : t.oriOffset % (n * ioSize) = 0)
    (hrq : t.request seg = (0, req)) (hle : n * ioBlocks ≤ req) :
    t.turn z n seg = .ok { t.ask req with
      buf := t.buf.copy t.bufOffset b.data 0 (n * ioSize)
      bufOffset := u32 (t.bufOffset + u32 (req * blockSize)) } := by
  obtain ⟨L, hr, hL⟩ := h.holds
  have htr := turn_rows hL h.lt hz hn hoff hrd hrem hq hrq hle
  rwa [hr, fetched_one hle] at htr

include hn'

theorem turn_bounce {a req : ℕ} (hoff : t.offset = seg.offset + a) (ha : a < n * ioBlocks)
    (hr : t.readSize ≠ 0) (hrem : t.remainBytes = false) (hrq : t.request seg = (a, req))
    (hps : 0 < req) (hle : req ≤ n * ioBlocks)
    (hb : t.oriOffset % (n * ioSize) ≠ 0 ∨ req < n * ioBlocks) :
    t.turn z n seg = .ok (((t.ask req).filled (n * ioSize) b).settle n seg) := by
  have hb : (t.ask req).bounces n = true := by
    have hbl : u32 (ioBlocks * n) = n * ioBlocks := by
      rw [mul_comm]
      exact u32_of_lt (by have := h.lt; have := h.size; omega)
    rw [bounces, mul_comm ioSize, u32_of_lt h.size_lt, hbl]
    rcases hb with hb | hb
    · have hps : 0 < t.oriOffset := Nat.pos_of_ne_zero fun h0 => by simp [h0] at hb
      simp [ask, hb, hps]
    · simp [ask, hb]
  rw [turn_inside h.lt hn hoff (h.size ▸ ha) hr, hrq, if_pos hb, bounce_eq h hz hn hn' ha hps hle,
    if_neg (by simp [ask, hrem])]
  rfl

theorem turn_remain (hoff : t.offset = seg.offset) (hr : t.readSize ≠ 0)
    (hrem : t.remainBytes = true) (hrq : t.request seg = (0, req)) (hps : 0 < req)
    (hle : req ≤ n * ioBlocks) (hoi : t.oriReadSize ≤ n * ioSize) :
    ∃ t', t.turn z n seg = .ok t' ∧ t'.readSize = sub32 t.readSize req ∧
      t'.buf = t.buf.copy t.bufOffset (t.readBuf.copy 0 b.data 0 (n * ioSize)) 0 t.oriReadSize := by
  have hb : (t.ask req).bounces n = true := by simp [bounces, ask, hrem]
  rw [turn_inside h.lt hn hoff (h.size ▸ mul_pos hn (by decide)) hr, hrq, if_pos hb,
    bounce_eq h hz hn hn' (mul_pos hn (by decide)) hps hle, if_pos (by simp [ask, hrem]),
    if_neg (by rw [mul_comm]; exact not_lt.mpr hoi)]
  exact ⟨_, rfl, rfl, rfl⟩

end

section

variable (hlt : n * ioSize < 4294967296)

include hlt

theorem head_eq : t.head n = n * ioSize - t.oriOffset % (n * ioSize) := by
  rw [head, mul_comm ioSize, u32_of_lt hlt]

theorem settle_fit (seg : Segment) (hf : t.oriReadSize ≤ t.head n) :
    (t.settle n seg).readSize = t.readSize ∧ ∃ len, t.oriReadSize ≤ len ∧ len ≤ t.head n ∧
      (t.settle n seg).buf = t.buf.copy t.bufOffset t.readBuf (t.oriOffset % (n * ioSize)) len := by
  have hcp : ∃ len, t.oriReadSize ≤ len ∧ len ≤ t.head n ∧
      t.copyHead n = { t with buf := t.buf.copy t.bufOffset t.readBuf (t.oriOffset % (n * ioSize)) len } := by
    simp only [copyHead, mul_comm ioSize, u32_of_lt hlt, if_pos hf]
    split
    · exact ⟨t.oriReadSize, le_rfl, hf, rfl⟩
    · exact ⟨_, hf, le_rfl, rfl⟩
  obtain ⟨len, h1, h2, hcp⟩ := hcp
  have hr : (t.copyHead n).remainder n seg = t.copyHead n := by
    rw [remainder, if_neg]
    rw [hcp]
    exact fun hc => absurd hc.1 (not_lt.mpr hf)
  rw [settle, hr, hcp]
  exact ⟨rfl, len, h1, h2, rfl⟩

theorem settle_more (hmr : t.head n < t.oriReadSize) (hr : t.readSize ≠ 0) : t.settle n seg = { t with
      buf := t.buf.copy t.bufOffset t.readBuf (t.oriOffset % (n * ioSize)) (t.head n)
      oriReadSize := if t.reqSize < u32 (ioBlocks * n) then t.oriReadSize - t.head n else t.oriReadSize
      reqSize := 0
      bufOffset := u32 (t.bufOffset + t.head n)
      oriOffset := 0 } := by
  have hcp : t.copyHead n = { t with
      buf := t.buf.copy t.bufOffset t.readBuf (t.oriOffset % (n * ioSize)) (t.head n)
      oriReadSize := if t.reqSize < u32 (ioBlocks * n) then t.oriReadSize - t.head n else t.oriReadSize } := by
    simp only [copyHead, mul_comm ioSize, u32_of_lt hlt, if_neg (not_le.mpr hmr), if_pos hr]
    split <;> rfl
  rw [settle, remainder, if_neg, hcp, leave]
  · rfl
  · rw [hcp]
    exact fun hc => hr hc.2

theorem settle_remain (seg : Segment) (hmr : t.head n < t.oriReadSize) (hr : t.readSize = 0) : t.settle n seg = { t with
      buf := t.buf.copy t.bufOffset t.readBuf (t.oriOffset % (n * ioSize)) (t.head n)
      oriReadSize := t.oriReadSize - t.head n
      offset := seg.getNextOffset
      readSize := blocksOfBytes (t.oriReadSize - t.head n)
      remainBytes := true
      reqSize := 0
      bufOffset := u32 (t.bufOffset + t.head n)
      oriOffset := 0 } := by
  have hcp : t.copyHead n = { t with
      buf := t.buf.copy t.bufOffset t.readBuf (t.oriOffset % (n * ioSize)) (t.head n) } := by
    simp only [copyHead, mul_comm ioSize, u32_of_lt hlt, if_neg (not_le.mpr hmr), if_neg (not_not.mpr hr)]
    split <;> rfl
  rw [settle, remainder, if_pos, hcp, leave]
  · rfl
  · rw [hcp]
    exact ⟨hmr, hr⟩

end

def Delivered (c old buf : Mem UInt8) (k : ℕ) : Prop :=
  (∀ i < k, buf i = c i) ∧ ∀ i, k ≤ i → buf i = old i

theorem Delivered.copy {c old buf src : Mem UInt8} {k len start : ℕ} (h : Delivered c old buf k)
    (hs : ∀ i < len, src (start + i) = c (k + i)) :
    Delivered c old (buf.copy k src start len) (k + len) := by
  constructor
  · intro i hi
    by_cases hk : i < k
    · rw [Mem.copy_of_notMem _ _ _ _ _ _ (.inl hk), h.1 i hk]
    · obtain ⟨d, rfl⟩ : ∃ d, i = k + d := ⟨i - k, by omega⟩
      rw [Mem.copy_of_mem _ _ _ _ _ _ (by omega), hs d (by omega)]
  · intro i hi
    rw [Mem.copy_of_notMem _ _ _ _ _ _ (.inr hi), h.2 i (by omega)]

theorem delivered_copy {c old src : Mem UInt8} {len start : ℕ}
    (hs : ∀ i < len, src (start + i) = c i) : Delivered c old (old.copy 0 src start len) len := by
  have hzr : Delivered c old old 0 := ⟨fun i hi => absurd hi (Nat.not_lt_zero i), fun _ _ => rfl⟩
  simpa using hzr.copy (k := 0) (by simpa using hs)

/-- The state after the first turn, when it has not delivered everything. -/
structure AfterFirst (stripe blocks : ℕ) (c old : Mem UInt8) (q size next : ℕ) (t : ReadAt) :
    Prop where
  buf : Delivered c old t.buf (stripe - q)
  bufOffset : t.bufOffset = stripe - q
  offset : t.offset = next
  oriOffset : t.oriOffset % stripe = 0
  reqSize : t.reqSize ≤ blocks
  goes_on :
    (512 ≤ q ∧ t.remainBytes = false ∧ t.oriReadSize = size - (stripe - q) ∧
      blocks < q / 512 + blocksOfBytes size ∧
      t.readSize = q / 512 + blocksOfBytes size - blocks) ∨
    ((512 ≤ q ∨ blocksOfBytes size = blocks) ∧ t.remainBytes = true ∧
      t.oriReadSize = size - (stripe - q) ∧ t.oriReadSize < 512 ∧ t.readSize = 1) ∨
    (q < 512 ∧ t.remainBytes = false ∧ t.oriReadSize = size ∧ blocks < blocksOfBytes size ∧
      t.readSize = blocksOfBytes size - blocks)

theorem AfterFirst.request {c old : Mem UInt8} (ht : AfterFirst stripe blocks c old q size seg.offset t)
    (h : OneRow z bound n seg b) (hbl : n * ioBlocks = blocks) : t.request seg = (0, t.readSize) := by
  rw [request_start h ht.offset, hbl, if_neg (not_lt.mpr ht.reqSize)]

theorem rows_eq (n : ℕ) : n * ioSize = n * ioBlocks * 512 := by
  rw [ioSize_eq, ← mul_assoc]
  rfl

theorem init_readSize_ne (buf rb : Mem UInt8) (o : ℕ) {size : ℕ} (hps : 0 < size) :
    (ReadAt.init buf rb o size).readSize ≠ 0 := by
  have hs := blocksOfBytes_spec size
  simp only [ReadAt.init]
  omega

section

variable (h : OneRow z bound n seg b) (hn : 0 < n) {o q size : ℕ} (ho : o = seg.offset * 512 + q)
  (hmd : o % (n * ioSize) = q) (hps : 0 < size) (hlt : size < 4294967296)

include h hn ho hmd hps hlt

theorem first_request (buf rb : Mem UInt8) :
    let r := ReadAt.init buf rb o size
    r.offset = seg.offset + q / 512 ∧
    r.request seg = (q / 512, if n * ioBlocks < q / 512 + blocksOfBytes size then n * ioBlocks - q / 512
      else blocksOfBytes size) := by
  have hsp := blocksOfBytes_spec size
  have hS := rows_eq n
  have hs := h.size_lt
  have hq : q < n * ioSize := hmd ▸ Nat.mod_lt _ (mul_pos hn ioSize_pos)
  have hoff : (ReadAt.init buf rb o size).offset = seg.offset + q / 512 := by
    simp only [ReadAt.init, show blockSize = 512 from rfl]
    omega
  refine ⟨hoff, ?_⟩
  by_cases hq0 : q / 512 = 0
  · rw [request_start h (by rw [hoff, hq0, add_zero]), hq0, zero_add, Nat.sub_zero]
    rfl
  · rw [request_inside h hoff (by omega) (by omega) (by simp only [ReadAt.init]; omega)]
    rfl

variable (hz : z.Regular bound units) {c buf : Mem UInt8}
  (hc : ∀ i < n * ioSize - q, c i = b.data (q + i))

include hz hc

theorem first_turn_direct (rb : Mem UInt8) (hq0 : q = 0) (hmr : n * ioSize < size) :
    ∃ t, (ReadAt.init buf rb o size).turn z n seg = .ok t ∧
      AfterFirst (n * ioSize) (n * ioBlocks) c buf q size (seg.offset + n * ioBlocks) t := by
  subst hq0
  have hsp := blocksOfBytes_spec size
  have hS := rows_eq n
  have hs := h.size_lt
  have hsg := h.lt
  have hsz := h.size
  obtain ⟨hoff, hrq⟩ := first_request h hn ho hmd hps hlt buf rb
  rw [Nat.zero_div, zero_add, Nat.sub_zero, if_pos (by omega)] at hrq
  have hr := init_readSize_ne buf rb o hps
  have hb : u32 (n * ioBlocks * blockSize) = n * ioSize := by
    rw [show blockSize = 512 from rfl, ← hS, u32_of_lt hs]
  refine ⟨_, turn_direct h hz hn hoff hr rfl hmd hrq le_rfl, ?_⟩
  refine ⟨delivered_copy fun i hi => (hc i hi).symm, ?_, ?_, hmd, le_rfl, .inr (.inr ?_)⟩
  · simp only [ReadAt.init, hb, zero_add, Nat.sub_zero, u32_of_lt hs]
  · simp only [ask, hoff, Nat.zero_div, add_zero]
    exact u32_of_lt (by omega)
  · refine ⟨by decide, rfl, rfl, by omega, ?_⟩
    simp only [ask, ReadAt.init]
    exact sub32_of_le (by omega)

variable (hn' : n ≤ 512)

include hn'

theorem first_turn_fit (rb : Mem UInt8) (hf : q + size ≤ n * ioSize) :
    ∃ t, (ReadAt.init buf rb o size).turn z n seg = .ok t ∧ t.readSize = 0 ∧
      ∃ len, size ≤ len ∧ Delivered c buf t.buf len := by
  have hs := blocksOfBytes_spec size
  have hS := rows_eq n
  obtain ⟨hoff, hrq⟩ := first_request h hn ho hmd hps hlt buf rb
  rw [if_neg (by omega)] at hrq
  have hr := init_readSize_ne buf rb o hps
  by_cases hd : q = 0 ∧ n * ioBlocks ≤ blocksOfBytes size
  · obtain ⟨rfl, hle⟩ := hd
    have htr := turn_direct h hz hn hoff hr rfl hmd hrq hle
    refine ⟨_, htr, ?_, n * ioSize, by omega, ?_⟩
    · simp [ask, ReadAt.init, sub32]
    · exact delivered_copy fun i hi => (hc i hi).symm
  · have htr := turn_bounce h hz hn hn' hoff (by omega) hr rfl hrq (by omega) (by omega) (by
      change o % (n * ioSize) ≠ 0 ∨ _
      omega)
    obtain ⟨hzr, len, h1, h2, hb⟩ := settle_fit
      (t := (((ReadAt.init buf rb o size).ask (blocksOfBytes size)).filled (n * ioSize) b))
      h.size_lt seg (by
        rw [head_eq h.size_lt]
        change size ≤ n * ioSize - o % (n * ioSize)
        omega)
    refine ⟨_, htr, ?_, len, h1, ?_⟩
    · rw [hzr]
      simp [ask, filled, ReadAt.init, sub32]
    · rw [head_eq h.size_lt] at h2
      have hl : len ≤ n * ioSize - o % (n * ioSize) := h2
      rw [hb]
      refine delivered_copy fun i hi => ?_
      change rb.copy 0 b.data 0 (n * ioSize) (o % (n * ioSize) + i) = c i
      rw [hmd, Mem.copy_zero_of_mem _ _ _ _ _ (by omega), zero_add, hc i (by omega)]

theorem first_turn_bounce (rb : Mem UInt8) (hq0 : q ≠ 0) (hmr : n * ioSize < q + size) :
    ∃ t, (ReadAt.init buf rb o size).turn z n seg = .ok t ∧
      AfterFirst (n * ioSize) (n * ioBlocks) c buf q size (seg.offset + n * ioBlocks) t := by
  have hsp := blocksOfBytes_spec size
  have hS := rows_eq n
  have hs := h.size_lt
  have hq : q < n * ioSize := hmd ▸ Nat.mod_lt _ (mul_pos hn ioSize_pos)
  obtain ⟨hoff, hrq⟩ := first_request h hn ho hmd hps hlt buf rb
  have hrd := init_readSize_ne buf rb o hps
  have hrq' : (ReadAt.init buf rb o size).request seg = (q / 512, n * ioBlocks - q / 512) := by
    rw [hrq]
    split
    · rfl
    · rw [show blocksOfBytes size = n * ioBlocks - q / 512 by omega]
  have htr := turn_bounce h hz hn hn' hoff (by omega) hrd rfl hrq' (by omega) (by omega)
    (.inl (by change o % (n * ioSize) ≠ 0; omega))
  let t := ((ReadAt.init buf rb o size).ask (n * ioBlocks - q / 512)).filled (n * ioSize) b
  have hrs : t.readSize = blocksOfBytes size - (n * ioBlocks - q / 512) := by
    simp only [t, filled, ask, ReadAt.init]
    exact sub32_of_le (by omega)
  have hoi : t.oriOffset % (n * ioSize) = q := hmd
  have hsz : t.oriReadSize = size := rfl
  have hh : t.head n = n * ioSize - q := by rw [head_eq hs, hoi]
  have hp : t.head n < t.oriReadSize := by omega
  have hbf : Delivered c buf (t.buf.copy t.bufOffset t.readBuf (t.oriOffset % (n * ioSize)) (t.head n))
      (n * ioSize - q) := by
    rw [hoi, hh]
    refine delivered_copy fun i hi => ?_
    change rb.copy 0 b.data 0 (n * ioSize) (q + i) = c i
    rw [Mem.copy_zero_of_mem _ _ _ _ _ (by omega), zero_add, hc i hi]
  have hb : u32 (t.bufOffset + t.head n) = n * ioSize - q := by
    rw [hh, show t.bufOffset = 0 from rfl, zero_add]
    exact u32_of_lt (by omega)
  refine ⟨_, htr, ?_⟩
  by_cases hzr : t.readSize = 0
  · have hon := blocksOfBytes_spec (size - (n * ioSize - q))
    have hle : size - (n * ioSize - q) < 512 := by omega
    rw [settle_remain hs seg hp hzr]
    refine ⟨hbf, hb, h.next, Nat.zero_mod _, Nat.zero_le _, .inr (.inl ?_)⟩
    simp only [hh, hsz]
    exact ⟨by omega, trivial, trivial, hle, by omega⟩
  · have hr : t.reqSize = n * ioBlocks - q / 512 := rfl
    have hrem : t.remainBytes = false := rfl
    have hsg := h.lt
    have hsi := h.size
    have hbl : u32 (ioBlocks * n) = n * ioBlocks := by
      rw [mul_comm]
      exact u32_of_lt (by omega)
    have hos : t.offset = seg.offset + n * ioBlocks := by
      simp only [t, filled, ask, hoff]
      rw [u32_of_lt (by omega)]
      omega
    rw [settle_more hs hp hzr]
    refine ⟨hbf, hb, hos, Nat.zero_mod _, Nat.zero_le _, ?_⟩
    simp only [hh, hsz, hr, hbl, hrs, hrem]
    by_cases hrw : 512 ≤ q
    · rw [if_pos (by omega)]
      exact .inl ⟨hrw, trivial, rfl, by omega, by omega⟩
    · rw [if_neg (by omega)]
      exact .inr (.inr ⟨by omega, trivial, rfl, by omega, by omega⟩)

theorem first_turn_more (rb : Mem UInt8) (hmr : n * ioSize < q + size) :
    ∃ t, (ReadAt.init buf rb o size).turn z n seg = .ok t ∧
      AfterFirst (n * ioSize) (n * ioBlocks) c buf q size (seg.offset + n * ioBlocks) t := by
  by_cases hq0 : q = 0
  · exact first_turn_direct h hn ho hmd hps hlt hz hc rb hq0 (by omega)
  · exact first_turn_bounce h hn ho hmd hps hlt hz hc hn' rb hq0 hmr

end

/-- The state after two turns that leave bytes for a third one. -/
structure AfterSecond (stripe : ℕ) (c old : Mem UInt8) (q size next : ℕ) (t : ReadAt) : Prop where
  buf : Delivered c old t.buf (stripe - q + stripe)
  bufOffset : t.bufOffset = stripe - q + stripe
  offset : t.offset = next
  remainBytes : t.remainBytes = true
  oriReadSize : t.oriReadSize = size - stripe
  readSize : t.readSize = blocksOfBytes (size - stripe)
  reqSize : t.reqSize = 0

section

variable {stripe blocks q size : ℕ} {c old : Mem UInt8} (h : OneRow z bound n seg b) (hn : 0 < n)
  (hst : n * ioSize = stripe) (hbl : n * ioBlocks = blocks) (hq : q < stripe)
  (ht : AfterFirst stripe blocks c old q size seg.offset t) (hmr : stripe < q + size)
  (hz : z.Regular bound units) (hn' : n ≤ 512)
  (hc : ∀ i < stripe, c (stripe - q + i) = b.data i)

include ht hc

theorem delivered_filled {len : ℕ} (hl : len ≤ stripe) :
    Delivered c old (t.buf.copy t.bufOffset (t.readBuf.copy 0 b.data 0 stripe) 0 len) (stripe - q + len) := by
  rw [ht.bufOffset]
  refine ht.buf.copy fun i hi => ?_
  rw [zero_add, Mem.copy_zero_of_mem _ _ _ _ _ (by omega), zero_add, hc i (by omega)]

include h hn hst hbl hz

theorem second_turn_direct (hrem : t.remainBytes = false) (hle : blocks ≤ t.readSize) :
    ∃ t', t.turn z n seg = .ok t' ∧ t'.readSize = 0 ∧ Delivered c old t'.buf (stripe - q + stripe) := by
  have hr := ht.request h hbl
  have hps : 0 < blocks := hbl ▸ mul_pos hn (by decide)
  have htr := turn_direct h hz hn ht.offset (by omega) hrem (hst ▸ ht.oriOffset) hr (hbl ▸ hle)
  rw [hst] at htr
  refine ⟨_, htr, by simp [ask, sub32], ?_⟩
  have hb := ht.buf
  rw [← ht.bufOffset] at hb ⊢
  exact hb.copy fun i hi => by rw [zero_add, ht.bufOffset, hc i hi]

include hn'

theorem second_turn_fit (hrem : t.remainBytes = false) (hrd : t.readSize ≠ 0)
    (hlt : t.readSize < blocks) (hoi : t.oriReadSize ≤ stripe) :
    ∃ t' len, t.turn z n seg = .ok t' ∧ t'.readSize = 0 ∧ t.oriReadSize ≤ len ∧
      Delivered c old t'.buf (stripe - q + len) := by
  have hr := ht.request h hbl
  have htr := turn_bounce h hz hn hn' ht.offset (mul_pos hn (by decide)) hrd hrem hr
    (by omega) (by omega) (.inr (hbl ▸ hlt))
  rw [hst] at htr
  let t1 := (t.ask t.readSize).filled stripe b
  have hh : t1.oriOffset % stripe = 0 := ht.oriOffset
  have hhd : t1.head n = stripe := by rw [head_eq h.size_lt, hst, hh, Nat.sub_zero]
  obtain ⟨hzr, len, h1, h2, hb'⟩ := settle_fit (t := t1) h.size_lt seg (hhd ▸ hoi)
  rw [hhd] at h2
  rw [hst, hh] at hb'
  refine ⟨_, len, htr, ?_, h1, ?_⟩
  · rw [hzr]
    simp [t1, ask, filled, sub32]
  · rw [hb']
    exact delivered_filled ht hc h2

include hq

theorem second_turn_remain (hrem : t.remainBytes = true) (hrd : t.readSize = 1) (hoi : t.oriReadSize < 512) :
    ∃ t', t.turn z n seg = .ok t' ∧ t'.readSize = 0 ∧ Delivered c old t'.buf (stripe - q + t.oriReadSize) := by
  have hS := rows_eq n
  have hps : 0 < n * ioBlocks := mul_pos hn (by decide)
  have hr := ht.request h hbl
  obtain ⟨t', htr, hzr, hb'⟩ := turn_remain h hz hn hn' ht.offset (by omega) hrem hr (by omega) (by omega) (by omega)
  refine ⟨t', htr, by rw [hzr]; simp [sub32], ?_⟩
  rw [hb', hst]
  exact delivered_filled ht hc (by omega)

theorem second_turn_more (hq512 : q < 512) (hlo : blocks < blocksOfBytes size) (hhi : blocksOfBytes size < 2 * blocks) :
    ∃ t', t.turn z n seg = .ok t' ∧ AfterSecond stripe c old q size (seg.offset + blocks) t' := by
  have hsp := blocksOfBytes_spec size
  have hS := rows_eq n
  have hrq := ht.request h hbl
  obtain ⟨hrem, hoi, hr⟩ : t.remainBytes = false ∧ t.oriReadSize = size ∧ t.readSize = blocksOfBytes size - blocks := by
    rcases ht.goes_on with ⟨hq, -⟩ | ⟨hq, -⟩ | ⟨-, hrem, hoi, -, hr⟩
    · omega
    · omega
    · exact ⟨hrem, hoi, hr⟩
  have htr := turn_bounce h hz hn hn' ht.offset (mul_pos hn (by decide)) (by omega) hrem hrq
    (by omega) (by omega) (.inr (by omega))
  rw [hst] at htr
  let t1 := (t.ask t.readSize).filled stripe b
  have hh : t1.oriOffset % stripe = 0 := ht.oriOffset
  have hsz : t1.oriReadSize = size := hoi
  have hzr : t1.readSize = 0 := by simp [t1, ask, filled, sub32]
  have hhd : t1.head n = stripe := by rw [head_eq h.size_lt, hst, hh, Nat.sub_zero]
  have hs := settle_remain (t := t1) h.size_lt seg (by omega) hzr
  rw [hst, hh, hsz, hhd] at hs
  refine ⟨_, htr, ?_⟩
  rw [hs]
  refine ⟨delivered_filled ht hc le_rfl, ?_, hbl ▸ h.next, rfl, rfl, rfl, rfl⟩
  change u32 (t.bufOffset + stripe) = _
  rw [ht.bufOffset]
  refine u32_of_lt ?_
  have hle : stripe ≤ 512 * ioSize := hst ▸ Nat.mul_le_mul_right _ hn'
  rw [show 512 * ioSize = 100663296 from rfl] at hle
  omega

include hmr

theorem second_turn_done (hrw : 512 ≤ q ∨ blocksOfBytes size = blocks ∨ 2 * blocks ≤ blocksOfBytes size) :
    ∃ t' len, t.turn z n seg = .ok t' ∧ t'.readSize = 0 ∧ Delivered c old t'.buf len ∧
      if q + size ≤ 2 * stripe then size ≤ len else len = stripe - q + stripe := by
  have hs := blocksOfBytes_spec size
  have hS := rows_eq n
  have hd (hrem : t.remainBytes = false) (hle : blocks ≤ t.readSize) : ∃ t' len,
      t.turn z n seg = .ok t' ∧ t'.readSize = 0 ∧ Delivered c old t'.buf len ∧
        if q + size ≤ 2 * stripe then size ≤ len else len = stripe - q + stripe := by
    obtain ⟨t', htr, hzr, hb⟩ := second_turn_direct h hn hst hbl ht hz hc hrem hle
    refine ⟨t', _, htr, hzr, hb, ?_⟩
    split <;> omega
  rcases ht.goes_on with ⟨hq512, hrem, hoi, hov, hr⟩ | ⟨-, hrem, hoi, hoi', hr⟩ | ⟨hq512, hrem, hoi, hov, hr⟩
  · rcases lt_or_ge t.readSize blocks with hlt | hle
    · obtain ⟨t', len, htr, hzr, hl, hb⟩ := second_turn_fit h hn hst hbl ht hz hn' hc hrem (by omega) hlt (by omega)
      exact ⟨t', _, htr, hzr, hb, by rw [if_pos (by omega)]; omega⟩
    · exact hd hrem hle
  · obtain ⟨t', htr, hzr, hb⟩ := second_turn_remain h hn hst hbl hq ht hz hn' hc hrem hr hoi'
    exact ⟨t', _, htr, hzr, hb, by rw [if_pos (by omega)]; omega⟩
  · exact hd hrem (by omega)

end

theorem third_turn {c old : Mem UInt8} (h : OneRow z bound n seg b)
    (hz : z.Regular bound units) (hn : 0 < n) (hn' : n ≤ 512) (hst : n * ioSize = stripe)
    (hbl : n * ioBlocks = blocks) (ht : AfterSecond stripe c old q size seg.offset t)
    (hq512 : q < 512) (hlo : blocks < blocksOfBytes size) (hhi : blocksOfBytes size < 2 * blocks) :
    ∃ t', t.turn z n seg = .ok t' ∧ t'.readSize = 0 ∧ ∀ i < size, t'.buf i = c i := by
  have hs := blocksOfBytes_spec size
  have hs' := blocksOfBytes_spec (size - stripe)
  have hS := rows_eq n
  have hrq : t.request seg = (0, t.readSize) := by
    rw [request_start h ht.offset, ht.reqSize, if_neg (Nat.not_lt_zero _)]
  have hr := ht.readSize
  have hoi := ht.oriReadSize
  have hoff := ht.bufOffset
  obtain ⟨t', htr, hzr, hb⟩ := turn_remain h hz hn hn' ht.offset (by omega) ht.remainBytes hrq
    (by omega) (by omega) (by omega)
  refine ⟨t', htr, by rw [hzr]; simp [sub32], fun i hi => ?_⟩
  rw [hb, Mem.copy_of_notMem _ _ _ _ _ _ (.inl (by omega)), ht.buf.1 i (by omega)]

end ReadAt

end Userdata

end ZenFSPlus.Zoad
