import ZenFSPlus.Zoad.StripeRead
import ZenFSPlus.Zoad.StripedFile
import Mathlib.Data.List.TakeWhile

namespace ZenFSPlus.Zoad

open Lib List Function

def Tiles : ℕ → List Segment → ℕ → Prop
  | a, [], e => a = e
  | a, seg :: segs, e => seg.offset = a ∧ Tiles (a + seg.size) segs e

variable {segs : List Segment} {a e : ℕ}

theorem Tiles.le (h : Tiles a segs e) : a ≤ e := by
  induction segs generalizing a with
  | nil => exact le_of_eq h
  | cons seg segs ih => exact le_trans (Nat.le_add_right _ _) (ih h.2)

theorem Tiles.stop_le (h : Tiles a segs e) : ∀ seg ∈ segs, seg.offset + seg.size ≤ e := by
  induction segs generalizing a with
  | nil => simp
  | cons seg segs ih =>
    intro x hx
    rcases mem_cons.mp hx with rfl | hx
    · rw [h.1]
      exact h.2.le
    · exact ih h.2 x hx

theorem Tiles.append (h : Tiles a segs e) (seg : Segment)
    (ho : seg.offset = e) : Tiles a (segs ++ [seg]) (e + seg.size) := by
  induction segs generalizing a with
  | nil =>
    cases h
    exact ⟨ho, rfl⟩
  | cons x segs ih => exact ⟨h.1, ih h.2⟩

theorem Tiles.next_offset (h : Tiles a segs e) (he : e < 4294967296) :
    (segs.getLast?.map Segment.getNextOffset).getD a = e := by
  induction segs generalizing a with
  | nil => exact h
  | cons seg segs ih =>
    cases segs with
    | nil =>
      obtain ⟨rfl, h⟩ := h
      change seg.offset + seg.size = e at h
      simp [Segment.getNextOffset, h, u32_of_lt he]
    | cons x segs =>
      have hx := ih h.2
      rw [getLast?_cons_cons]
      cases hl : (x :: segs).getLast? with
      | none => simp at hl
      | some y =>
        rw [hl] at hx
        exact hx

theorem insertSegment_of_le {seg : Segment}
    (h : ∀ e ∈ segs, e.offset ≤ seg.offset) : insertSegment segs seg = segs ++ [seg] := by
  have h' : ∀ e ∈ segs, decide (e.offset ≤ seg.offset) = true := fun e he => decide_eq_true (h e he)
  rw [insertSegment, takeWhile_eq_self_iff.mpr h', dropWhile_eq_nil_iff.mpr h']

theorem blocksOfBytes_rows (units : ℕ) : blocksOfBytes (units * ioSize) = units * ioBlocks := by
  rw [blocksOfBytes, ceilDiv, ioSize_eq, ← mul_assoc, Nat.mul_mod_left, if_pos rfl, Nat.mul_div_cancel _ (by decide)]

def Layout.Holds.readJob {L : Layout} {z : Zns} {bound units n : ℕ} {seg : Segment}
    {b : Slice UInt8} (h : L.Holds z bound n seg b) (hz : z.Regular bound units) (hn : 0 < n)
    (off : ℕ) (dest : Dest) : ReadJob where
  n := n
  rows := L.rows
  zns := z
  zone := L.zone
  segmentId := seg.id
  start := L.start
  off := off
  dest := dest
  n_pos := hn
  rows_pos := h.rows_pos
  size_lt := h.size_buf ▸ h.size_lt
  stop_lt j hj := lt_of_le_of_lt (h.stop_le j hj) (hz.wp_lt (h.zone_lt j hj))

theorem Layout.Holds.readSegment {L : Layout} {z : Zns} {bound units n : ℕ} {seg : Segment}
    {b : Slice UInt8} (h : L.Holds z bound n seg b) (hz : z.Regular bound units) (hn : 0 < n)
    (off : ℕ) (mem : Mem UInt8) :
    ∃ mem', Userdata.readSegment z n seg ⟨mem, none⟩ off seg.size = .ok ⟨mem', none⟩ ∧
      mem'.load off b.size = b.bytes ∧ ∀ a < off, mem' a = mem a := by
  obtain ⟨d, hrn, hat⟩ := (h.readJob hz hn off ⟨mem, none⟩).izgRead_at fun j _ r _ cap hc =>
    absurd hc (by simp [readJob])
  have hl : seg.intervals.length = n := by simp [h.intervals]
  have hu : n ≤ seg.size / ioBlocks := by
    rw [h.size, Nat.mul_div_cancel _ (by decide)]
    exact Nat.le_mul_of_pos_left _ h.rows_pos
  refine ⟨d.mem, ?_, ?_, ?_⟩
  · rw [Userdata.readSegment, if_pos hu, hl, h.intervals]
    have hca : d.cap = none := hat.cap
    have hd : d = ⟨d.mem, none⟩ := by rw [← hca]
    rw [← hd]
    exact hrn
  · rw [h.size_buf, Slice.bytes, h.size_buf]
    refine load_eq_of_cells fun r hr j hj => ?_
    have hcp := hat.moved.copied _ (mem_cells hj hr)
    simp only [ReadJob.cell] at hcp
    rw [zero_add, ← h.data r hr j hj]
    exact hcp
  · intro a ha
    refine hat.moved.kept a ?_
    rintro c ⟨j, hj, r, hr, rfl⟩
    refine .inl (lt_of_lt_of_le ha ?_)
    simp only [ReadJob.cell]
    exact Nat.le_add_right _ _

theorem blocksOfBytes_add (units size : ℕ) :
    blocksOfBytes (units * ioSize + size) = units * ioBlocks + blocksOfBytes size := by
  have hm : (units * ioSize + size) % blockSize = size % blockSize := by
    rw [ioSize_eq, ← mul_assoc, Nat.mul_add_mod_self_right]
  have hd : (units * ioSize + size) / blockSize = units * ioBlocks + size / blockSize := by
    rw [ioSize_eq, ← mul_assoc, add_comm, Nat.add_mul_div_right _ _ (by decide), add_comm]
  rw [blocksOfBytes, blocksOfBytes, ceilDiv, ceilDiv, hm, hd]
  split
  · rfl
  · rw [add_assoc]

namespace Userdata

structure Holds (u : Userdata) (z : Zns) (bound n : ℕ) (bs : List (Slice UInt8)) : Prop where
  segments : List.Forall₂ (fun seg b => ∃ L : Layout, L.Holds z bound n seg b) u.fileSegment bs
  tiles : Tiles 0 u.fileSegment u.size

def Grown (u u' : Userdata) (z z' : Zns) (n size : ℕ) : Prop :=
  ∃ (seg : Segment) (L : Layout), u'.fileSegment = u.fileSegment ++ [seg] ∧ seg.size = size ∧
    size = L.rows * n * ioBlocks ∧ L.Spans z z' n ∧
    seg.intervals = (range n).map fun j =>
      ⟨L.zone j, seg.id, L.start j, L.start j + L.rows * ioBlocks⟩

variable {s : System} {u : Userdata} {z z' : Zns} {p n bound units k : ℕ} {bs : List (Slice UInt8)}

theorem Holds.extends (h : u.Holds z bound n bs) (hz : z.Extends bound z') : u.Holds z' bound n bs :=
  ⟨h.segments.imp fun _ _ ⟨L, hL⟩ => ⟨L, hL.extends hz⟩, h.tiles⟩

theorem append_spec (h : s.Ready p n bound units k) {level k' rows : ℕ}
    (hp : s.Position p n units k level k') (hrm : level + rows ≤ units) (hrw : 0 < rows)
    {buf : Slice UInt8} (hsz : buf.size = rows * n * ioSize) (hlt : buf.size < 4294967296)
    {past : ℕ → ℕ → ℕ} (hps : ∀ i cnt, past i cnt ≠ cnt) (hu : u.partition = p)
    (hh : u.Holds s.zns bound n bs) (hc : u.size ≤ s.filled p) :
    (u.append s past buf = .error .allocZoneFail ∧ bound < k' + n) ∨
      ∃ s' u', u.append s past buf = .ok (s', u') ∧ s.Wrote s' p n bound units level k' rows ∧
        (u'.partition = p ∧ u'.Holds s'.zns bound n (bs ++ [buf]) ∧ u'.size ≤ s'.filled p) ∧
        u.Grown u' s.zns s'.zns n (blocksOfBytes buf.size) := by
  have hbl : blocksOfBytes buf.size = rows * n * ioBlocks := by rw [hsz, blocksOfBytes_rows]
  rcases h.write hp hrm hrw u.nextSegmentId buf hsz hlt hps with
    ⟨hfl, hb⟩ | ⟨intervals, s', hr, hw, hhl⟩
  · refine .inl ⟨?_, hb⟩
    rw [append, hbl, hu, hfl]
    rfl
  · right
    have hf := hw.filled
    have hc' : u.size + rows * n * ioBlocks < 4294967296 := lt_of_le_of_lt (by rw [hf]; omega)
        (lt_of_le_of_lt hw.ready.filled_le hw.ready.regular.capacity_lt)
    have ho := hh.tiles.next_offset (show u.size < 4294967296 by omega)
    obtain ⟨L, hL, hs⟩ := hhl u.size
    let seg : Segment := ⟨u.nextSegmentId, u.size, rows * n * ioBlocks, intervals⟩
    have hi : insertSegment u.fileSegment seg = u.fileSegment ++ [seg] :=
      insertSegment_of_le fun x hx => le_trans (Nat.le_add_right _ _) (hh.tiles.stop_le x hx)
    have ha : u.append s past buf = .ok (s', ⟨p, u32 (u.nextSegmentId + 1),
        u.fileSegment ++ [seg], u.size + rows * n * ioBlocks⟩) := by
      rw [append, hbl, hu, bind_of_ok hr]
      simp only [ho, u32_of_lt hc']
      rw [← hi]
    refine ⟨s', _, ha, hw, ⟨rfl, ⟨?_, hh.tiles.append seg rfl⟩, ?_⟩, seg, L, rfl, hbl.symm, ?_, hs, hL.intervals⟩
    · exact rel_append (hh.extends hw.kept).segments (.cons ⟨L, hL⟩ .nil)
    · rw [hf]
      exact Nat.add_le_add_right hc _
    · rw [hbl]
      exact hL.size

theorem readSegments_spec (hz : z.Regular bound units) (hn : 0 < n)
    (h : List.Forall₂ (fun seg b => ∃ L : Layout, L.Holds z bound n seg b) segs bs)
    (hlt : (Slice.concat bs).length < 4294967296) (off : ℕ) (mem : Mem UInt8) :
    ∃ mem', readSegments z n segs (blocksOfBytes (Slice.concat bs).length) off ⟨mem, none⟩ = .ok ⟨mem', none⟩ ∧
      mem'.load off (Slice.concat bs).length = Slice.concat bs ∧ ∀ a < off, mem' a = mem a := by
  induction h generalizing off mem with
  | nil => exact ⟨mem, rfl, rfl, fun _ _ => rfl⟩
  | @cons seg b segs bs hs _ ih =>
    obtain ⟨L, hL⟩ := hs
    have hc : Slice.concat (b :: bs) = b.bytes ++ Slice.concat bs := rfl
    rw [hc, length_append, Slice.length_bytes] at hlt ⊢
    obtain ⟨mem1, hr1, hl1, hk1⟩ := hL.readSegment hz hn off mem
    obtain ⟨mem2, hr2, hl2, hk2⟩ := ih (by omega) (off + b.size) mem1
    have hb : blocksOfBytes (b.size + (Slice.concat bs).length) =
        seg.size + blocksOfBytes (Slice.concat bs).length := by
      rw [hL.size_buf, blocksOfBytes_add, hL.size]
    have hp : 0 < seg.size := by
      rw [hL.size]
      exact mul_pos (mul_pos hL.rows_pos hn) (by decide)
    have hby : seg.size * blockSize = b.size := by
      rw [hL.size, hL.size_buf, ioSize_eq, mul_assoc]
    refine ⟨mem2, ?_, ?_, fun a ha => ?_⟩
    · rw [readSegments, if_neg (by omega), bind_of_ok hr1, hb, sub32_of_le (by omega),
        Nat.add_sub_cancel_left, hby, u32_of_lt (by omega), hr2]
    · rw [Mem.load_add, hl2]
      congr 1
      rw [← hl1, Mem.load_eq_iff]
      exact fun i hi => hk2 (off + i) (by omega)
    · rw [hk2 a (by omega), hk1 a ha]

theorem readAll_spec (h : s.Ready p n bound units k) (hu : u.partition = p)
    (hh : u.Holds s.zns bound n bs) (hlt : (Slice.concat bs).length < 4294967296) (buf : Mem UInt8) :
    ∃ m, u.readAll s buf (Slice.concat bs).length = .ok m ∧ m.load 0 (Slice.concat bs).length = Slice.concat bs := by
  obtain ⟨m, hr, hl, -⟩ := readSegments_spec h.regular h.n_pos hh.segments hlt 0 buf
  refine ⟨m, ?_, hl⟩
  rw [readAll, hu, h.izgCnt, bind_of_ok hr]

end Userdata

structure Volume where
  sys : System
  files : ℕ → Userdata

structure AppendOp where
  file : ℕ
  buf : Slice UInt8
  /-- What `thread_write` reads behind the sorted vector, by worker and row. -/
  past : ℕ → ℕ → ℕ

namespace Volume

def append (v : Volume) (op : AppendOp) : Except Fault Volume := do
  let (s, u) ← (v.files op.file).append v.sys op.past op.buf
  .ok ⟨s, update v.files op.file u⟩

def appends (v : Volume) (ops : List AppendOp) : Except Fault Volume := ops.foldlM append v

def slices (ops : List AppendOp) (f : ℕ) : List (Slice UInt8) :=
  (ops.filter fun op => op.file = f).map AppendOp.buf

variable {v : Volume} {p n bound units k : ℕ}

def Holds (v : Volume) (p n bound : ℕ) (data : ℕ → List (Slice UInt8)) : Prop :=
  ∀ f, (v.files f).partition = p ∧ (v.files f).Holds v.sys.zns bound n (data f) ∧
    (v.files f).size ≤ v.sys.filled p

variable {data : ℕ → List (Slice UInt8)}

theorem append_spec (h : v.sys.Ready p n bound units k)
    {level k' rows : ℕ} (hp : v.sys.Position p n units k level k') (hrm : level + rows ≤ units)
    (hrw : 0 < rows) {op : AppendOp} (hs : op.buf.size = rows * n * ioSize)
    (hlt : op.buf.size < 4294967296) (hps : ∀ i cnt, op.past i cnt ≠ cnt)
    (hv : v.Holds p n bound data) :
    (v.append op = .error .allocZoneFail ∧ bound < k' + n) ∨
      ∃ v', v.append op = .ok v' ∧ v.sys.Wrote v'.sys p n bound units level k' rows ∧
        v'.Holds p n bound (update data op.file (data op.file ++ [op.buf])) ∧
        (v.files op.file).Grown (v'.files op.file) v.sys.zns v'.sys.zns n (blocksOfBytes op.buf.size) := by
  obtain ⟨hpr, hfl, hc⟩ := hv op.file
  rcases Userdata.append_spec h hp hrm hrw hs hlt hps hpr hfl hc with
    ⟨hfa, hb⟩ | ⟨s', u', hr, hw, hn, hg⟩
  · refine .inl ⟨?_, hb⟩
    rw [append, hfa]
    rfl
  · refine .inr ⟨_, by rw [append, bind_of_ok hr], hw, fun f => ?_, ?_⟩
    rotate_left
    · simp only [update_self]
      exact hg
    by_cases hf : f = op.file
    · subst hf
      simp only [update_self]
      exact hn
    simp only [update_of_ne hf]
    obtain ⟨hpr, hfl, hc⟩ := hv f
    refine ⟨hpr, hfl.extends hw.kept, ?_⟩
    rw [hw.filled]
    exact Nat.le_add_right_of_le hc

structure Progress (v : Volume) (p n bound units k i c : ℕ) : Prop where
  ready : v.sys.Ready p n bound units (k + n * c)
  zones : (i = 0 ∧ c = 0 ∧ (v.sys.partitions p).zoneVector = []) ∨
    ∃ level, 0 < level ∧ level ≤ units ∧ v.sys.LevelAt p n level ∧ i + units = units * c + level

variable {i c : ℕ}

theorem Progress.position (h : v.Progress p n bound units k i c) :
    ∃ level c', level < units ∧ v.sys.Position p n units (k + n * c) level (k + n * c') ∧
      i + 1 + units = units * c' + (level + 1) ∧ units * (c' - 1) ≤ i := by
  have hu := h.ready.regular.units_pos
  have hn : k + n * c + n = k + n * (c + 1) := by ring
  rcases h.zones with ⟨rfl, rfl, hz⟩ | ⟨level, hp, hle, hl, hi⟩
  · refine ⟨0, 1, hu, ?_, by omega, by simp⟩
    rw [← hn]
    exact .empty hz
  rcases lt_or_eq_of_le hle with hlt | rfl
  · refine ⟨level, c, hlt, .room hl hlt, by omega, ?_⟩
    obtain ⟨d, rfl⟩ : ∃ d, c = d + 1 := by
      refine ⟨c - 1, ?_⟩
      rcases Nat.eq_zero_or_pos c with rfl | hc
      · omega
      · omega
    rw [Nat.mul_succ] at hi
    simp only [Nat.add_sub_cancel]
    omega
  · refine ⟨0, c + 1, hu, ?_, by rw [Nat.mul_succ]; omega, ?_⟩
    · rw [← hn]
      exact .full hl
    · simp only [Nat.add_sub_cancel]
      omega

theorem Progress.append (h : v.Progress p n bound units k i c) (op : AppendOp) (hn : n * ioSize < 4294967296)
    (hs : op.buf.size = n * ioSize) (hps : ∀ i cnt, op.past i cnt ≠ cnt)
    (hv : v.Holds p n bound data) :
    (v.append op = .error .allocZoneFail ∧ ∃ c', bound < k + n * c' + n ∧ units * (c' - 1) ≤ i) ∨
      ∃ v' c', v.append op = .ok v' ∧ v'.Progress p n bound units k (i + 1) c' ∧
        v'.Holds p n bound (update data op.file (data op.file ++ [op.buf])) := by
  obtain ⟨level, c', hlt, hp, hc, hg⟩ := h.position
  have hs' : op.buf.size = 1 * n * ioSize := by rw [hs, one_mul]
  rcases append_spec h.ready hp hlt Nat.one_pos hs' (hs ▸ hn) hps hv with
    ⟨hf, hb⟩ | ⟨v', hr, hw, hv', -⟩
  · exact .inl ⟨hf, c', hb, hg⟩
  · exact .inr ⟨v', c', hr, ⟨hw.ready, .inr ⟨level + 1, Nat.succ_pos _, hlt, hw.level, hc⟩⟩, hv'⟩

theorem slices_cons (data : ℕ → List (Slice UInt8)) (op : AppendOp) (ops : List AppendOp) :
    (fun f => update data op.file (data op.file ++ [op.buf]) f ++ slices ops f) =
      fun f => data f ++ slices (op :: ops) f := by
  funext f
  by_cases hf : f = op.file
  · subst hf
    simp [slices]
  · simp [slices, update_of_ne hf, Ne.symm hf]

theorem appends_cons (v : Volume) (op : AppendOp) (ops : List AppendOp) :
    v.appends (op :: ops) = v.append op >>= fun v => v.appends ops := rfl

theorem appends_spec (hn : n * ioSize < 4294967296) (ops : List AppendOp)
    (ho : ∀ op ∈ ops, op.buf.size = n * ioSize ∧ ∀ i cnt, op.past i cnt ≠ cnt)
    (h : v.Progress p n bound units k i c) (hv : v.Holds p n bound data) :
    (v.appends ops = .error .allocZoneFail ∧ bound - k < n * (ceilDiv (i + ops.length) units + 1)) ∨
      ∃ v' c', v.appends ops = .ok v' ∧ v'.Progress p n bound units k (i + ops.length) c' ∧
        v'.Holds p n bound fun f => data f ++ slices ops f := by
  induction ops generalizing v i c data with
  | nil => exact .inr ⟨v, c, rfl, h, by simpa [slices] using hv⟩
  | cons op ops ih =>
    obtain ⟨hs, hps⟩ := ho op (by simp)
    rw [appends_cons, length_cons]
    rcases h.append op hn hs hps hv with ⟨hf, c', hb, hg⟩ | ⟨v1, c', hr, hp, hv1⟩
    · refine .inl ⟨by rw [hf]; rfl, ?_⟩
      have hc : c' - 1 < ceilDiv (i + (ops.length + 1)) units :=
        ((ceilDiv_spec h.ready.regular.units_pos).2 _).mp (by omega)
      have hm := Nat.mul_le_mul_left n (show c' + 1 ≤ ceilDiv (i + (ops.length + 1)) units + 1 by omega)
      rw [Nat.mul_succ] at hm
      have hnp := h.ready.n_pos
      omega
    · rw [bind_of_ok hr, ← slices_cons, ← add_assoc, add_right_comm]
      exact ih (fun op' hop => ho op' (mem_cons_of_mem _ hop)) hp hv1

structure SameZones (s s' : System) : Prop where
  zns : s'.zns = s.zns
  inactiveIzgQueue : s'.inactiveIzgQueue = s.inactiveIzgQueue
  izgCnt : ∀ p, (s'.partitions p).izgCnt = (s.partitions p).izgCnt
  zoneVector : ∀ p, (s'.partitions p).zoneVector = (s.partitions p).zoneVector

theorem SameZones.levelAt {s s' : System} (h : SameZones s s') {level : ℕ} (hl : s.LevelAt p n level) :
    s'.LevelAt p n level := by
  obtain ⟨hle, hwp⟩ := hl
  simp only [System.zoneSize, System.current] at hle hwp
  constructor <;> simpa only [System.zoneSize, System.current, h.zoneVector, h.zns]

theorem SameZones.ready {s s' : System} (h : SameZones s s') (hr : s.Ready p n bound units k) :
    s'.Ready p n bound units k where
  __ := hr
  izgCnt := (h.izgCnt p).trans hr.izgCnt
  regular := h.zns ▸ hr.regular
  dealt := h.inactiveIzgQueue.trans hr.dealt
  fresh := h.zns ▸ hr.fresh
  zones_lt := h.zoneVector p ▸ hr.zones_lt
  nodup := h.zoneVector p ▸ hr.nodup

theorem Progress.same {s : System} (h : v.Progress p n bound units k i c)
    (hs : SameZones v.sys s) : Progress ⟨s, v.files⟩ p n bound units k i c := by
  refine ⟨hs.ready h.ready, ?_⟩
  rcases h.zones with ⟨hi, hc, hz⟩ | ⟨level, hp, hle, hl, hi⟩
  · exact .inl ⟨hi, hc, (hs.zoneVector p).trans hz⟩
  · exact .inr ⟨level, hp, hle, hs.levelAt hl, hi⟩

theorem Holds.same {s : System} (h : v.Holds p n bound data)
    (hs : SameZones v.sys s) : Holds ⟨s, v.files⟩ p n bound data := by
  intro f
  obtain ⟨hp, hf, hc⟩ := h f
  refine ⟨hp, hs.zns ▸ hf, ?_⟩
  simpa only [System.filled, hs.zoneVector, hs.zns] using hc

theorem Holds.new (hfl : ∀ f, ∃ id, v.files f = Userdata.new p id) : v.Holds p n bound fun _ => [] := by
  intro f
  obtain ⟨id, hf⟩ := hfl f
  rw [hf]
  exact ⟨rfl, ⟨.nil, rfl⟩, Nat.zero_le _⟩

theorem single_ready : (System.single 384 32 1).Ready 1 1 32 1 0 := by
  have hd := System.identifyIzg_dealt (s := System.init (Zns.formatted 384 32 64)) rfl (by decide)
  have ht : (System.init (Zns.formatted 384 32 64)).zns.znsGetTotalZone.toNat = 32 := by decide
  rw [ht, System.Dealt, ← System.zMklp_queue] at hd
  exact System.ready_of_formatted (by decide) (by decide) (by decide) (by decide) rfl rfl hd rfl

end Volume

end ZenFSPlus.Zoad
