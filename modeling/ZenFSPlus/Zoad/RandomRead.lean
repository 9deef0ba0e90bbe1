import ZenFSPlus.Zoad.ReadTurn

namespace ZenFSPlus.Zoad

open Lib List

theorem Tiles.split {a e : ℕ} {segs1 segs2 : List Segment} (h : Tiles a (segs1 ++ segs2) e) :
    ∃ m, Tiles a segs1 m ∧ Tiles m segs2 e := by
  induction segs1 generalizing a with
  | nil => exact ⟨a, rfl, h⟩
  | cons seg segs1 ih =>
    obtain ⟨m, h1, h2⟩ := ih h.2
    exact ⟨m, ⟨h.1, h1⟩, h2⟩

namespace Userdata

variable {z : Zns} {bound units n : ℕ} {seg : Segment} {segs : List Segment} {b : Slice UInt8}
  {bs : List (Slice UInt8)}

theorem tiles_bytes {a e : ℕ} (h : List.Forall₂ (fun seg b => ∃ L : Layout, L.Holds z bound n seg b) segs bs)
    (ht : Tiles a segs e) : e * 512 = a * 512 + (Slice.concat bs).length := by
  induction h generalizing a with
  | nil =>
    have ha : a = e := ht
    simp [ha]
  | @cons seg b segs bs hs _ ih =>
    obtain ⟨L, hL⟩ := hs
    have hb : b.size = seg.size * 512 := by
      rw [hL.size_buf, hL.size, ReadAt.rows_eq]
    have hc : Slice.concat (b :: bs) = b.bytes ++ Slice.concat bs := rfl
    rw [ih ht.2, hc, length_append, Slice.length_bytes, hb]
    omega

theorem segments_pos (hn : 0 < n) (h : List.Forall₂ (fun seg b => ∃ L : Layout, L.Holds z bound n seg b) segs bs) :
    ∀ seg ∈ segs, 0 < seg.size := by
  induction h with
  | nil => simp
  | cons hs _ ih =>
    obtain ⟨L, hL⟩ := hs
    refine forall_mem_cons.mpr ⟨?_, ih⟩
    rw [hL.size]
    exact mul_pos (mul_pos hL.rows_pos hn) (by decide)

theorem oneRow_of_size (hn : 0 < n) (hb : b.size = n * ioSize) (hlt : seg.offset + seg.size < 4294967296)
    (h : ∃ L : Layout, L.Holds z bound n seg b) : OneRow z bound n seg b := by
  obtain ⟨L, hL⟩ := h
  refine ⟨⟨L, ?_, hL⟩, hlt⟩
  have hs := hL.size_buf
  rw [hb, mul_assoc] at hs
  exact (Nat.eq_of_mul_eq_mul_right (mul_pos hn ioSize_pos) ((one_mul _).trans hs)).symm

namespace ReadAt

variable {t : ReadAt}

theorem foldlM_skip {segs : List Segment}
    (h : ∀ seg ∈ segs, (t.readSize = 0 ∨ seg.offset + seg.size ≤ t.offset) ∧ 0 < seg.size ∧
      seg.offset + seg.size < 4294967296) : segs.foldlM (turn z n) t = .ok t := by
  induction segs with
  | nil => rfl
  | cons seg segs ih =>
    obtain ⟨hs, hpos, hlt⟩ := h seg (by simp)
    rw [foldlM_cons, bind_of_ok (turn_skip hs hpos hlt)]
    exact ih fun x hx => h x (mem_cons_of_mem _ hx)

section

variable {b1 b2 : Slice UInt8} {o q size : ℕ}

def Passed (z : Zns) (n : ℕ) (segs : List Segment) : Prop :=
  ∀ t : ReadAt, t.readSize = 0 → segs.foldlM (turn z n) t = .ok t

def wanted (bs : List (Slice UInt8)) (q : ℕ) : Mem UInt8 := fun i => Slice.splice (fun _ => 0) bs (q + i)

theorem wanted_first (bs : List (Slice UInt8)) (hb : b.size = n * ioSize) (hq : q < n * ioSize) :
    ∀ i < n * ioSize - q, wanted (b :: bs) q i = b.data (q + i) := by
  intro i hi
  simp only [wanted, Slice.splice]
  rw [if_pos (by omega)]

theorem wanted_second (hb : b.size = n * ioSize) (hb1 : b1.size = n * ioSize) (hq : q < n * ioSize) :
    ∀ i < n * ioSize, wanted (b :: b1 :: bs) q (n * ioSize - q + i) = b1.data i := by
  intro i hi
  simp only [wanted, Slice.splice]
  rw [if_neg (by omega), if_pos (by omega)]
  congr 1
  omega

variable {seg1 seg2 : Segment} (h : OneRow z bound n seg b) (h1 : OneRow z bound n seg1 b1)
  (hz : z.Regular bound units) (hn : 0 < n) (hn' : n ≤ 512) (ho : o = seg.offset * 512 + q)
  (hmod : o % (n * ioSize) = q) (hpos : 0 < size) (hlt : size < 4294967296)
  (hnx : seg1.offset = seg.offset + n * ioBlocks)

include h hz hn hn' ho hmod hpos hlt

theorem foldlM_fit (hs : Passed z n segs) (bs : List (Slice UInt8)) (buf rb : Mem UInt8) (hf : q + size ≤ n * ioSize) :
    ∃ t, (seg :: segs).foldlM (turn z n) (ReadAt.init buf rb o size) = .ok t ∧
      t.readSize = 0 ∧ ∀ i < size, t.buf i = wanted (b :: bs) q i := by
  have hq : q < n * ioSize := by omega
  obtain ⟨t, ht, hzr, len, hl, hb⟩ := first_turn_fit h hn ho hmod hpos hlt hz (wanted_first bs h.size_buf hq) hn' rb hf
  refine ⟨t, ?_, hzr, fun i hi => hb.1 i (by omega)⟩
  rw [foldlM_cons, bind_of_ok ht, hs t hzr]

include h1 hnx

theorem foldlM_two (hs : Passed z n segs) (bs : List (Slice UInt8)) (buf rb : Mem UInt8) (hm : n * ioSize < q + size)
    (hr : 512 ≤ q ∨ blocksOfBytes size = n * ioBlocks ∨ 2 * (n * ioBlocks) ≤ blocksOfBytes size) :
    let r := n * ioSize - q + n * ioSize
    ∃ t, (seg :: seg1 :: segs).foldlM (turn z n) (ReadAt.init buf rb o size) = .ok t ∧ t.readSize = 0 ∧
      if q + size ≤ 2 * (n * ioSize) then ∀ i < size, t.buf i = wanted (b :: b1 :: bs) q i
      else t.buf r = buf r := by
  have hq : q < n * ioSize := hmod ▸ Nat.mod_lt _ (mul_pos hn ioSize_pos)
  obtain ⟨t, htr, ht⟩ := first_turn_more h hn ho hmod hpos hlt hz (wanted_first (b1 :: bs) h.size_buf hq) hn' rb hm
  rw [← hnx] at ht
  obtain ⟨t', len, htr', hzr, hb, hl⟩ := second_turn_done h1 hn rfl rfl hq ht hm
    hz hn' (wanted_second h.size_buf h1.size_buf hq) hr
  refine ⟨t', ?_, hzr, ?_⟩
  · rw [foldlM_cons, bind_of_ok htr, foldlM_cons, bind_of_ok htr', hs t' hzr]
  · split
    · rename_i hle
      rw [if_pos hle] at hl
      exact fun i hi => hb.1 i (by omega)
    · rename_i hle
      rw [if_neg hle] at hl
      exact hb.2 _ (by omega)

variable (hq512 : q < 512) (hlo : n * ioBlocks < blocksOfBytes size)
  (hhi : blocksOfBytes size < 2 * (n * ioBlocks))

include hq512 hlo hhi

theorem foldlM_remain (bs : List (Slice UInt8)) (buf rb : Mem UInt8) : ∃ t, (∀ segs : List Segment,
        (seg :: seg1 :: segs).foldlM (turn z n) (ReadAt.init buf rb o size) = segs.foldlM (turn z n) t) ∧
      AfterSecond (n * ioSize) (wanted (b :: b1 :: bs) q) buf q size (seg1.offset + n * ioBlocks) t := by
  have hq : q < n * ioSize := hmod ▸ Nat.mod_lt _ (mul_pos hn ioSize_pos)
  have hs := blocksOfBytes_spec size
  have hS := rows_eq n
  obtain ⟨t, htr, ht⟩ := first_turn_more h hn ho hmod hpos hlt hz
    (wanted_first (b1 :: bs) h.size_buf hq) hn' rb (by omega)
  rw [← hnx] at ht
  obtain ⟨t', htr', ht'⟩ := second_turn_more h1 hn rfl rfl hq ht hz hn'
    (wanted_second h.size_buf h1.size_buf hq) hq512 hlo hhi
  refine ⟨t', fun segs => ?_, ht'⟩
  rw [foldlM_cons, bind_of_ok htr, foldlM_cons, bind_of_ok htr']

theorem foldlM_nil (buf rb : Mem UInt8) :
    ∃ t, [seg, seg1].foldlM (turn z n) (ReadAt.init buf rb o size) = .ok t ∧ t.readSize ≠ 0 := by
  have hs := blocksOfBytes_spec size
  have hS := rows_eq n
  obtain ⟨t, hf, ha⟩ := foldlM_remain h h1 hz hn hn' ho hmod hpos hlt hnx hq512 hlo hhi [] buf rb
  refine ⟨t, hf [], ?_⟩
  have hl := blocksOfBytes_spec (size - n * ioSize)
  have hr := ha.readSize
  omega

theorem foldlM_third (h2 : OneRow z bound n seg2 b2) (hnx2 : seg2.offset = seg1.offset + n * ioBlocks)
    (hs : Passed z n segs) (bs : List (Slice UInt8)) (buf rb : Mem UInt8) :
    ∃ t, (seg :: seg1 :: seg2 :: segs).foldlM (turn z n) (ReadAt.init buf rb o size) = .ok t ∧
      t.readSize = 0 ∧ ∀ i < size, t.buf i = wanted (b :: b1 :: bs) q i := by
  obtain ⟨t, hf, ha⟩ := foldlM_remain h h1 hz hn hn' ho hmod hpos hlt hnx hq512 hlo hhi bs buf rb
  rw [← hnx2] at ha
  obtain ⟨t', ht, hzr, hb⟩ := third_turn h2 hz hn hn' rfl rfl ha hq512 hlo hhi
  refine ⟨t', ?_, hzr, hb⟩
  rw [hf, foldlM_cons, bind_of_ok ht, hs t' hzr]

end

theorem passed_of_tiles {a e : ℕ} (hn : 0 < n)
    (h : List.Forall₂ (fun seg b => ∃ L : Layout, L.Holds z bound n seg b) segs bs)
    (ht : Tiles a segs e) (he : e < 4294967296) : Passed z n segs := fun _ hzr =>
  foldlM_skip fun seg hs => ⟨.inl hzr, segments_pos hn h seg hs, lt_of_le_of_lt (ht.stop_le seg hs) he⟩

theorem delivered_iff {a e o q size : ℕ}
    (hbs : List.Forall₂ (fun seg b => ∃ L : Layout, L.Holds z bound n seg b) segs bs)
    (ht : Tiles a segs e) (he : e < 4294967296) (hon : ∀ b ∈ bs.take 3, b.size = n * ioSize)
    (hz : z.Regular bound units) (hn : 0 < n) (hn' : n ≤ 512) (ho : o = a * 512 + q)
    (hmod : o % (n * ioSize) = q) (hpos : 0 < size) (hlt : size < 4294967296)
    (hin : q + size ≤ (Slice.concat bs).length) (rb : Mem UInt8) :
    (∀ buf, ∃ t, segs.foldlM (turn z n) (ReadAt.init buf rb o size) = .ok t ∧ t.readSize = 0 ∧
      ∀ i < size, t.buf i = wanted bs q i) ↔
    q + size ≤ n * ioSize ∨ q + size ≤ 2 * (n * ioSize) ∧ (512 ≤ q ∨
      blocksOfBytes size = n * ioBlocks ∨ blocksOfBytes size = 2 * (n * ioBlocks) ∨ 2 < bs.length) := by
  have hsp := blocksOfBytes_spec size
  have hS := rows_eq n
  have hq : q < n * ioSize := hmod ▸ Nat.mod_lt _ (mul_pos hn ioSize_pos)
  have hs := ht.stop_le
  obtain _ | @⟨seg, b, segs, bs, hsg, hbs⟩ := hbs
  · simp only [Slice.concat_nil, length_nil] at hin
    omega
  have hb : b.size = n * ioSize := hon b (by simp)
  have h : OneRow z bound n seg b := oneRow_of_size hn hb (lt_of_le_of_lt (hs seg (by simp)) he) hsg
  rw [← ht.1] at ho
  by_cases hft : q + size ≤ n * ioSize
  · exact iff_of_true (fun buf => foldlM_fit h hz hn hn' ho hmod hpos hlt
      (passed_of_tiles hn hbs ht.2 he) bs buf rb hft) (.inl hft)
  obtain _ | @⟨seg1, b1, segs, bs, hsg1, hbs⟩ := hbs
  · simp only [Slice.concat_singleton, Slice.length_bytes, hb] at hin
    exact absurd hin hft
  have hb1 : b1.size = n * ioSize := hon b1 (by simp)
  have h1 : OneRow z bound n seg1 b1 := oneRow_of_size hn hb1 (lt_of_le_of_lt (hs seg1 (by simp)) he) hsg1
  have hnx : seg1.offset = seg.offset + n * ioBlocks := by rw [ht.2.1, ht.1, h.size]
  by_cases hrw : 512 ≤ q ∨ blocksOfBytes size = n * ioBlocks ∨ 2 * (n * ioBlocks) ≤ blocksOfBytes size
  · have hrn (buf : Mem UInt8) := foldlM_two h h1 hz hn hn' ho hmod hpos hlt hnx
      (passed_of_tiles hn hbs ht.2.2 he) bs buf rb (by omega) hrw
    by_cases htw : q + size ≤ 2 * (n * ioSize)
    · simp only [if_pos htw] at hrn
      exact iff_of_true hrn (.inr ⟨htw, by omega⟩)
    -- the byte behind the second stripe stays as it was
    refine iff_of_false (fun ha => ?_) (by omega)
    let other : Mem UInt8 := fun i => if wanted (b :: b1 :: bs) q i = 0 then 1 else 0
    have hoh (i : ℕ) : wanted (b :: b1 :: bs) q i ≠ other i := by
      intro hi
      simp only [other] at hi
      split at hi <;> simp_all
    obtain ⟨t, hf, -, hbf⟩ := ha other
    obtain ⟨t', hf', -, hk⟩ := hrn other
    rw [if_neg htw] at hk
    cases hf.symm.trans hf'
    rw [hbf _ (by omega)] at hk
    exact hoh _ hk
  obtain _ | @⟨seg2, b2, segs, bs, hsg2, hbs⟩ := hbs
  · refine iff_of_false (fun ha => ?_) (by simp only [length_cons, length_nil]; omega)
    obtain ⟨t, hf, hzr, -⟩ := ha fun _ => 0
    obtain ⟨t', hf', hr⟩ := foldlM_nil h h1 hz hn hn' ho hmod hpos hlt hnx (by omega)
      (by omega) (by omega) (fun _ => 0) rb
    cases hf.symm.trans hf'
    exact hr hzr
  · have h2 : OneRow z bound n seg2 b2 := oneRow_of_size hn (hon b2 (by simp))
      (lt_of_le_of_lt (hs seg2 (by simp)) he) hsg2
    have hnx2 : seg2.offset = seg1.offset + n * ioBlocks := by rw [ht.2.2.1, ht.2.1, h1.size]
    refine iff_of_true (fun buf => foldlM_third h h1 hz hn hn' ho hmod hpos hlt hnx (by omega)
      (by omega) (by omega) h2 hnx2 (passed_of_tiles hn hbs ht.2.2.2 he) (b2 :: bs) buf rb)
      (.inr ⟨by omega, .inr (.inr (.inr ?_))⟩)
    simp only [length_cons]
    omega

end ReadAt

variable {s : System} {u : Userdata} {p k o q size : ℕ} {bs1 bs2 : List (Slice UInt8)}

theorem Holds.foldlM_tail (h : u.Holds z bound n (bs1 ++ bs2)) (hn : 0 < n) (hlt : u.size < 4294967296) :
    ∃ segs mid, List.Forall₂ (fun seg b => ∃ L : Layout, L.Holds z bound n seg b) segs bs2 ∧
      Tiles mid segs u.size ∧ mid * 512 = (Slice.concat bs1).length ∧
      ∀ buf rb o size, (Slice.concat bs1).length ≤ o →
        u.fileSegment.foldlM (ReadAt.turn z n) (ReadAt.init buf rb o size) =
          segs.foldlM (ReadAt.turn z n) (ReadAt.init buf rb o size) := by
  have h1 := forall₂_take_append _ _ _ h.segments
  have h2 := forall₂_drop_append _ _ _ h.segments
  have ht := h.tiles
  rw [← take_append_drop bs1.length u.fileSegment] at ht
  obtain ⟨mid, ht1, ht2⟩ := ht.split
  have hm := tiles_bytes h1 ht1
  rw [zero_mul, zero_add] at hm
  refine ⟨_, mid, h2, ht2, hm, fun buf rb o size ho => ?_⟩
  have hs : (u.fileSegment.take bs1.length).foldlM (ReadAt.turn z n)
      (ReadAt.init buf rb o size) = .ok (ReadAt.init buf rb o size) := by
    refine ReadAt.foldlM_skip fun seg hsg => ?_
    have hst := ht1.stop_le seg hsg
    have hle := ht2.le
    refine ⟨.inr ?_, segments_pos hn h1 seg hsg, by omega⟩
    simp only [ReadAt.init, show blockSize = 512 from rfl]
    omega
  conv_lhs => rw [← take_append_drop bs1.length u.fileSegment]
  rw [foldlM_append, bind_of_ok hs]

def Delivers (s : System) (u : Userdata) (bs : List (Slice UInt8)) (o size : ℕ) : Prop :=
  ∀ buf, ∃ m s', u.read s buf o size = .ok (0, m, s') ∧
    m.load 0 size = ((Slice.concat bs).drop o).take size

theorem delivers_iff (h : s.Ready p n bound units k) (hu : u.partition = p)
    (hh : u.Holds s.zns bound n (bs1 ++ bs2)) (hlt : u.size < 4294967296)
    (ho : o = (Slice.concat bs1).length + q) (hin : q + size ≤ (Slice.concat bs2).length) :
    ∃ segs mid, List.Forall₂ (fun seg b => ∃ L : Layout, L.Holds s.zns bound n seg b) segs bs2 ∧
      Tiles mid segs u.size ∧ mid * 512 = (Slice.concat bs1).length ∧
      (u.Delivers s (bs1 ++ bs2) o size ↔ ∀ buf, ∃ t, segs.foldlM (ReadAt.turn s.zns n)
          (ReadAt.init buf (s.partitions p).readBuf o size) = .ok t ∧ t.readSize = 0 ∧
        ∀ i < size, t.buf i = ReadAt.wanted bs2 q i) := by
  obtain ⟨segs, mid, hs, ht, hmd, hf⟩ := hh.foldlM_tail h.n_pos hlt
  refine ⟨segs, mid, hs, ht, hmd, forall_congr' fun buf => ?_⟩
  have hb (m : Mem UInt8) : m.load 0 size = ((Slice.concat (bs1 ++ bs2)).drop o).take size ↔
      ∀ i < size, m i = ReadAt.wanted bs2 q i := by
    rw [← Mem.load_eq_take_drop (ReadAt.wanted bs2 q) 0 size, Mem.load_eq_iff]
    · simp
    · intro i hi
      rw [Slice.concat_append, List.getElem?_append_right (by omega),
        Slice.getElem?_concat (fun _ => 0) bs2 _ (by omega), ReadAt.wanted]
      congr 2
      omega
  have htt := tiles_bytes hs ht
  rw [read, if_neg (by rw [show blockSize = 512 from rfl]; omega)]
  simp only [readRange, hu, h.izgCnt, hf buf _ o size (show (Slice.concat bs1).length ≤ o by omega)]
  constructor
  · rintro ⟨m, s', hr, hm⟩
    cases hrn : segs.foldlM (ReadAt.turn s.zns n) (ReadAt.init buf (s.partitions p).readBuf o size) with
    | error e =>
      rw [hrn] at hr
      cases hr
    | ok t =>
      rw [bind_of_ok hrn] at hr
      by_cases hzr : t.readSize = 0
      · rw [if_neg (not_not.mpr hzr)] at hr
        cases hr
        exact ⟨t, rfl, hzr, (hb _).mp hm⟩
      · rw [if_pos hzr] at hr
        cases hr
  · rintro ⟨t, hrn, hzr, hbf⟩
    rw [bind_of_ok hrn, if_neg (not_not.mpr hzr)]
    exact ⟨t.buf, _, rfl, (hb _).mpr hbf⟩

/-- Where the loop of `Read` ends with all bytes delivered, in a file of `total` bytes made of
stripes: the range lies in one stripe, or in two, if then it starts behind the first block of its
segment, has as many blocks as one or two stripes, or there is a third stripe. -/
def InReach (n total o size : ℕ) : Prop :=
  o % (n * ioSize) + size ≤ n * ioSize ∨
    o % (n * ioSize) + size ≤ 2 * (n * ioSize) ∧
      (512 ≤ o % (n * ioSize) ∨ blocksOfBytes size = n * ioBlocks ∨
        blocksOfBytes size = 2 * (n * ioBlocks) ∨
        o - o % (n * ioSize) + 2 * (n * ioSize) < total)

instance (n total o size : ℕ) : Decidable (InReach n total o size) :=
  inferInstanceAs (Decidable (_ ∨ _))

theorem two_lt_length_iff (hn : 0 < n) (hon : ∀ b ∈ bs2.take 3, b.size = n * ioSize) (hpos : 0 < size)
    (hin : q + size ≤ (Slice.concat bs2).length) :
    2 < bs2.length ↔ 2 * (n * ioSize) < (Slice.concat bs2).length := by
  match bs2 with
  | [] =>
    simp only [Slice.concat_nil, length_nil] at hin
    omega
  | [b] => simp [Slice.concat, hon b (by simp)]; omega
  | [b, b1] => simp [Slice.concat, hon b (by simp), hon b1 (by simp)]; omega
  | b :: b1 :: b2 :: bs =>
    have hpos' : 0 < n * ioSize := mul_pos hn ioSize_pos
    simp [Slice.concat, hon b (by simp), hon b1 (by simp), hon b2 (by simp)]
    omega

theorem delivers_stripes_iff (h : s.Ready p n bound units k) (hn' : n ≤ 512) (hu : u.partition = p)
    (hh : u.Holds s.zns bound n (bs1 ++ bs2)) (hlt : u.size < 4294967296)
    (hon : ∀ b ∈ bs2.take 3, b.size = n * ioSize)
    (ho : o = (Slice.concat bs1).length + q) (hq : o % (n * ioSize) = q)
    (hpos : 0 < size) (hsz : size < 4294967296) (hin : q + size ≤ (Slice.concat bs2).length) :
    u.Delivers s (bs1 ++ bs2) o size ↔ InReach n (Slice.concat (bs1 ++ bs2)).length o size := by
  obtain ⟨segs, mid, hs, ht, hm, hi⟩ := delivers_iff h hu hh hlt ho hin
  rw [hi, ReadAt.delivered_iff hs ht hlt hon h.regular h.n_pos hn' (by omega) hq hpos hsz hin,
    InReach, hq, Slice.concat_append, length_append]
  have hth : 2 < bs2.length ↔ o - q + 2 * (n * ioSize) < (Slice.concat bs1).length + (Slice.concat bs2).length := by
    rw [two_lt_length_iff h.n_pos hon hpos hin, ho]
    omega
  rw [hth]

theorem delivers_of_start (h : s.Ready p n bound units k) (hu : u.partition = p)
    (hh : u.Holds s.zns bound n (bs1 ++ b :: bs2)) (hlt : u.size < 4294967296)
    (ho : o = (Slice.concat bs1).length) (hmod : o % (n * ioSize) = 0)
    (hlo : n * ioBlocks ≤ blocksOfBytes size) (hhi : blocksOfBytes size * 512 ≤ b.size) :
    u.Delivers s (bs1 ++ b :: bs2) o size := by
  have hsp := blocksOfBytes_spec size
  have hpos : 0 < n * ioBlocks := mul_pos h.n_pos (by decide)
  have hin : 0 + size ≤ (Slice.concat (b :: bs2)).length := by
    have hc : Slice.concat (b :: bs2) = b.bytes ++ Slice.concat bs2 := rfl
    rw [hc, length_append, Slice.length_bytes]
    omega
  obtain ⟨segs, mid, hsg, ht, hm, hiff⟩ := delivers_iff h hu hh hlt (show o = (Slice.concat bs1).length + 0 from ho) hin
  refine hiff.mpr fun buf => ?_
  obtain _ | @⟨seg, _, segs, _, hse, hr⟩ := hsg
  have hs := ht.stop_le
  obtain ⟨L, hL⟩ := hse
  have hft : blocksOfBytes size ≤ L.rows * n * ioBlocks := by
    have hb : b.size = L.rows * n * ioBlocks * 512 := by rw [hL.size_buf, ReadAt.rows_eq]
    omega
  have hoff : (ReadAt.init buf (s.partitions p).readBuf o size).offset = seg.offset := by
    rw [ht.1]
    simp only [ReadAt.init, show blockSize = 512 from rfl]
    omega
  have hrq : (ReadAt.init buf (s.partitions p).readBuf o size).request seg = (0, blocksOfBytes size) := by
    rw [ReadAt.request, if_pos hoff, if_neg]
    · rfl
    · rw [hL.size]
      exact not_lt.mpr hft
  obtain ⟨t, htr, hzr, hbf⟩ : ∃ t,
      (ReadAt.init buf (s.partitions p).readBuf o size).turn s.zns n seg = .ok t ∧ t.readSize = 0 ∧
        t.buf = buf.copy 0 b.data 0 (fetched n L.rows (blocksOfBytes size) * ioSize) :=
    ⟨_, ReadAt.turn_rows hL (lt_of_le_of_lt (hs seg (by simp)) hlt) h.regular h.n_pos hoff
      (by simp only [ReadAt.init]; omega) rfl hmod hrq hlo,
      by simp [ReadAt.ask, ReadAt.init, sub32], rfl⟩
  refine ⟨t, ?_, hzr, fun i hi => ?_⟩
  · rw [foldlM_cons, bind_of_ok htr]
    exact ReadAt.foldlM_skip fun x hx => ⟨.inl hzr, segments_pos h.n_pos hr x hx,
      lt_of_le_of_lt (hs x (mem_cons_of_mem _ hx)) hlt⟩
  · have hf := Nat.mul_le_mul_right 512 (le_fetched h.n_pos hft)
    rw [← ReadAt.rows_eq] at hf
    rw [hbf, Mem.copy_zero_of_mem _ _ _ _ _ (by omega), ReadAt.wanted, Slice.splice, if_pos (by omega)]

theorem dvd_length_concat (h : List.Forall₂ (fun seg b => ∃ L : Layout, L.Holds z bound n seg b) segs bs) :
    n * ioSize ∣ (Slice.concat bs).length := by
  induction h with
  | nil => exact dvd_zero _
  | @cons seg b segs bs hs _ ih =>
    obtain ⟨L, hL⟩ := hs
    have hc : Slice.concat (b :: bs) = b.bytes ++ Slice.concat bs := rfl
    rw [hc, length_append, Slice.length_bytes, hL.size_buf, mul_assoc]
    exact Nat.dvd_add (Nat.dvd_mul_left _ _) ih

def Striped (n : ℕ) (bs : List (Slice UInt8)) (o : ℕ) : Prop :=
  ∀ bs1 b bs2, bs = bs1 ++ b :: bs2 → o < (Slice.concat (bs1 ++ [b])).length →
    (Slice.concat bs1).length ≤ o - o % (n * ioSize) + 2 * (n * ioSize) → b.size = n * ioSize

theorem exists_slice (ho : o < (Slice.concat bs).length) :
    ∃ bs1 b bs2, bs = bs1 ++ b :: bs2 ∧ (Slice.concat bs1).length ≤ o ∧ o < (Slice.concat (bs1 ++ [b])).length := by
  induction bs generalizing o with
  | nil => simp at ho
  | cons b bs ih =>
    have hc (l : List (Slice UInt8)) : Slice.concat (b :: l) = b.bytes ++ Slice.concat l := rfl
    rw [hc, length_append, Slice.length_bytes] at ho
    by_cases hb : o < b.size
    · exact ⟨[], b, bs, rfl, Nat.zero_le _, by simpa using hb⟩
    obtain ⟨bs1, b', bs2, rfl, h1, h2⟩ := ih (o := o - b.size) (by omega)
    refine ⟨b :: bs1, b', bs2, rfl, ?_, ?_⟩
    · rw [hc, length_append, Slice.length_bytes]
      omega
    · rw [cons_append, hc, length_append, Slice.length_bytes]
      omega

theorem Striped.start (h : Striped n (bs1 ++ b :: bs2) o) (hd : n * ioSize ∣ (Slice.concat bs1).length)
    (hle : (Slice.concat bs1).length ≤ o) (hlt : o < (Slice.concat (bs1 ++ [b])).length) :
    o = (Slice.concat bs1).length + o % (n * ioSize) ∧ b.size = n * ioSize := by
  have hr : o - (Slice.concat bs1).length + (Slice.concat bs1).length = o := Nat.sub_add_cancel hle
  have hmod : (o - (Slice.concat bs1).length) % (n * ioSize) = o % (n * ioSize) := by
    conv_rhs => rw [← hr]
    rw [Nat.add_mod, Nat.mod_eq_zero_of_dvd hd, add_zero, Nat.mod_mod]
  have hle' := Nat.mod_le (o - (Slice.concat bs1).length) (n * ioSize)
  have hb : b.size = n * ioSize := h bs1 b bs2 rfl hlt (by omega)
  rw [Slice.concat_append, length_append, Slice.concat_singleton, Slice.length_bytes, hb] at hlt
  rw [Nat.mod_eq_of_lt (by omega)] at hmod
  exact ⟨by omega, hb⟩

theorem Striped.take_three (h : Striped n (bs1 ++ b :: bs2) o)
    (ho : o = (Slice.concat bs1).length + o % (n * ioSize)) (hb : b.size = n * ioSize)
    (hlt : o % (n * ioSize) < n * ioSize) : ∀ x ∈ (b :: bs2).take 3, x.size = n * ioSize := by
  have hl (l : List (Slice UInt8)) (x : Slice UInt8) :
      (Slice.concat (l ++ [x])).length = (Slice.concat l).length + x.size := by simp
  intro x hx
  match bs2 with
  | [] =>
    simp only [List.take, mem_cons, not_mem_nil, or_false] at hx
    rwa [hx]
  | b1 :: bs =>
    have hb1 : b1.size = n * ioSize := by
      refine h (bs1 ++ [b]) b1 bs (by simp) ?_ ?_
      · rw [hl, hl, hb]
        omega
      · rw [hl, hb]
        omega
    match bs with
    | [] =>
      simp only [List.take, mem_cons, not_mem_nil, or_false] at hx
      rcases hx with rfl | rfl <;> assumption
    | b2 :: bs =>
      have hb2 : b2.size = n * ioSize := by
        refine h (bs1 ++ [b] ++ [b1]) b2 bs (by simp) ?_ ?_
        · rw [hl, hl, hl, hb, hb1]
          omega
        · rw [hl, hl, hb, hb1]
          omega
      simp only [List.take, mem_cons, not_mem_nil, or_false] at hx
      rcases hx with rfl | rfl | rfl <;> assumption

end Userdata

namespace Volume

variable {v : Volume} {p n bound units k : ℕ}

/-- Every append is made of whole rows, and the last zones of the partition are level and have room
for them. -/
def Roomy (p n units : ℕ) : Volume → List AppendOp → Prop
  | _, [] => True
  | v, op :: ops =>
    (∃ k level k' rows, v.sys.Position p n units k level k' ∧ level + rows ≤ units ∧ 0 < rows ∧
      op.buf.size = rows * n * ioSize) ∧ op.buf.size < 4294967296 ∧
    (∀ i cnt, op.past i cnt ≠ cnt) ∧ ∀ v', v.append op = .ok v' → Roomy p n units v' ops

theorem position_any {s : System} {k' level : ℕ} (h : s.Position p n units k level k') (l : ℕ) :
    ∃ l', s.Position p n units l level l' := by
  cases h with
  | empty h => exact ⟨_, .empty h⟩
  | full h => exact ⟨_, .full h⟩
  | room h hlt => exact ⟨_, .room h hlt⟩

variable {data : ℕ → List (Slice UInt8)}

theorem appends_roomy {v' : Volume} {ops : List AppendOp}
    (h : v.sys.Ready p n bound units k) (hv : v.Holds p n bound data) (hop : v.Roomy p n units ops)
    (hrn : v.appends ops = .ok v') : ∃ k', v'.sys.Ready p n bound units k' ∧
      v'.Holds p n bound fun f => data f ++ slices ops f := by
  induction ops generalizing v k data with
  | nil =>
    cases hrn
    exact ⟨k, h, by simpa [slices] using hv⟩
  | cons op ops ih =>
    obtain ⟨⟨_, level, _, rows, hpos, hrm, hrw, hs⟩, hlt, hp, hnx⟩ := hop
    obtain ⟨k', hpos'⟩ := position_any hpos k
    rw [appends_cons] at hrn
    rcases append_spec h hpos' hrm hrw hs hlt hp hv with ⟨hf, -⟩ | ⟨v1, hok, hw, hv1, -⟩
    · rw [hf] at hrn
      cases hrn
    rw [bind_of_ok hok] at hrn
    obtain ⟨l, hr, hh⟩ := ih hw.ready hv1 (hnx v1 hok) hrn
    refine ⟨l, hr, ?_⟩
    rwa [slices_cons] at hh

theorem Progress.roomy {i c : ℕ} (hn : n * ioSize < 4294967296) {ops : List AppendOp}
    (hos : ∀ op ∈ ops, op.buf.size = n * ioSize ∧ ∀ i cnt, op.past i cnt ≠ cnt)
    (h : v.Progress p n bound units k i c) (hv : v.Holds p n bound data) : v.Roomy p n units ops := by
  induction ops generalizing v i c data with
  | nil => trivial
  | cons op ops ih =>
    obtain ⟨hs, hps⟩ := hos op (by simp)
    obtain ⟨level, c', hlt, hp, -, -⟩ := h.position
    have hs' : op.buf.size = 1 * n * ioSize := by rw [hs, one_mul]
    refine ⟨⟨_, level, _, 1, hp, hlt, Nat.one_pos, hs'⟩, hs ▸ hn, hps, fun v1 hok => ?_⟩
    rcases h.append op hn hs hps hv with ⟨hf, -⟩ | ⟨v2, c', hr, hpr, hv2⟩
    · rw [hf] at hok
      cases hok
    · cases hr.symm.trans hok
      exact ih (fun op' hop => hos op' (mem_cons_of_mem _ hop)) hpr hv2

theorem Holds.size_lt (h : v.sys.Ready p n bound units k)
    (hv : v.Holds p n bound data) (f : ℕ) : (v.files f).size < 4294967296 :=
  lt_of_le_of_lt (le_trans (hv f).2.2 h.filled_le) h.regular.capacity_lt

theorem Holds.delivers_iff {f o size : ℕ}
    (h : v.sys.Ready p n bound units k) (hn : n ≤ 512) (hv : v.Holds p n bound data)
    (hpos : 1 ≤ size) (hsz : size < 4294967296) (hin : o + size ≤ (Slice.concat (data f)).length)
    (hs : Userdata.Striped n (data f) o) :
    (v.files f).Delivers v.sys (data f) o size ↔ Userdata.InReach n (Slice.concat (data f)).length o size := by
  have hlt := hv.size_lt h f
  obtain ⟨hp, hf, -⟩ := hv f
  obtain ⟨bs1, b, bs2, hbs, hle, he⟩ := Userdata.exists_slice (show o < (Slice.concat (data f)).length by omega)
  rw [hbs] at hs hf hin ⊢
  have hd : n * ioSize ∣ (Slice.concat bs1).length := Userdata.dvd_length_concat (forall₂_take_append _ _ _ hf.segments)
  obtain ⟨ho, hb⟩ := hs.start hd hle he
  have hq : o % (n * ioSize) < n * ioSize := Nat.mod_lt _ (mul_pos h.n_pos ioSize_pos)
  rw [Slice.concat_append, length_append] at hin
  exact Userdata.delivers_stripes_iff h hn hp hf hlt (hs.take_three ho hb hq) ho rfl hpos hsz (by omega)

end Volume

end ZenFSPlus.Zoad
