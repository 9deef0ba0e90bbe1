import ZenFSPlus.ZoadEnv.WriteBuffer

namespace ZenFSPlus.ZoadEnv

open Lib ZenFSPlus.Zoad List

namespace ZoadFile

def Hit (f : ZoadFile) (offset n : ℕ) : Prop :=
  f.readBufOffset ≤ offset ∧ offset + n ≤ f.readBufOffset + ioSize

def Overlap (f : ZoadFile) (offset n : ℕ) : Prop :=
  f.readBufOffset ≤ offset ∧ offset < f.readBufOffset + ioSize ∧
    f.readBufOffset + ioSize < offset + n

end ZoadFile

open ZoadFile

/-- The reads of `n` bytes that come out right: bytes of the window had been flushed when it was filled, and a range
that runs past the window starts in its first chunk, or before it. -/
structure ReadOk (f : ZoadFile) (offset n : ℕ) : Prop where
  hit : offset + n ≤ f.fileSize - f.bufPos → f.useReadBuf → Hit f offset n →
    offset + n ≤ f.readBufFlushed
  overlap : offset + n ≤ f.fileSize - f.bufPos → f.useReadBuf → Overlap f offset n →
    offset - offset % ioSize ≤ f.readBufOffset ∧
      offset + (ioSize - offset % ioSize) ≤ f.readBufFlushed ∧
      offset + (ioSize - offset % ioSize) < 4294967296 ∧ ioRound n < 4294967296
  load : offset + n ≤ f.fileSize - f.bufPos → ¬ (f.useReadBuf ∧ (Hit f offset n ∨ Overlap f offset n)) →
    offset < 4294967296 ∧ ioRound n < 4294967296
  straddle : offset < f.fileSize - f.bufPos → f.fileSize - f.bufPos < offset + n →
    offset < 4294967296 ∧ f.fileSize - f.bufPos - offset < 4294967296

structure Cached (f : ZoadFile) : Prop where
  le : f.readBufFlushed ≤ f.flushed.length
  eq : f.useReadBuf → ∀ i < ioSize, f.readBufOffset + i < f.readBufFlushed →
    f.flushed[f.readBufOffset + i]? = some (f.readBuf i)

theorem SameRead.cached {f g : ZoadFile} (h : SameRead f g) (hc : Cached f) : Cached g := by
  obtain ⟨rest, hr⟩ := h.prefix_flushes
  have hg : g.flushed = f.flushed ++ Slice.concat (rest.map Flush.payload) := by
    simp [flushed, ← hr]
  have hle := hc.le
  constructor
  · rw [h.readBufFlushed, hg, length_append]
    omega
  · intro hu i hi hlt
    rw [h.readBufFlushed, h.readBufOffset] at hlt
    rw [h.readBufOffset, h.readBuf, hg, List.getElem?_append_left (by omega)]
    exact hc.eq (h.useReadBuf ▸ hu) i hi hlt

namespace ZoadFile

variable {bufSize : ℕ} {f : ZoadFile} {content : List UInt8} {offset n d size i : ℕ}

theorem le_ioRound (n : ℕ) : n ≤ ioRound n := by
  unfold ioRound
  have := Nat.mod_lt n ioSize_pos
  split <;> omega

theorem ioSize_le_ioRound {n : ℕ} (h : 0 < n) : ioSize ≤ ioRound n := by
  unfold ioRound
  split
  · have := Nat.le_of_dvd h (Nat.dvd_of_mod_eq_zero ‹_›)
    omega
  · omega

section

variable (env : ReadEnv) (scr : Mem UInt8)

include env scr

theorem zLoad_flushed (ho : offset < 4294967296) (hs : size < 4294967296) (hi : i < size)
    (hlt : offset + i < f.flushed.length) :
    f.flushed[offset + i]? = some (f.zLoad env scr d offset size (d + i)) := by
  rw [zLoad, u32_of_lt ho, u32_of_lt hs, Mem.copy_of_mem _ _ _ _ _ _ hi]
  exact Slice.getElem?_concat env.junk _ _ hlt

theorem zLoad_zero_flushed {offset size i : ℕ} (ho : offset < 4294967296) (hs : size < 4294967296) (hi : i < size)
    (hlt : offset + i < f.flushed.length) :
    f.flushed[offset + i]? = some (f.zLoad env scr 0 offset size i) := by
  simpa only [Nat.zero_add] using zLoad_flushed env scr (d := 0) ho hs hi hlt

theorem zLoad_below (h : i < d) : f.zLoad env scr d offset size i = scr i := Mem.copy_of_notMem _ _ _ _ _ _ (Or.inl h)

theorem loadWindow_cached {d offset size : ℕ} (ho : offset < 4294967296) (hs : size < 4294967296)
    (hio : ioSize ≤ size) :
    Cached (f.loadWindow env scr d offset size).1 := by
  refine ⟨Nat.le_refl _, fun _ i hi hlt => ?_⟩
  change f.flushed[offset + size - ioSize + i]? = some (f.readBuf.copy 0
    (f.zLoad env scr d offset size) (d + size - ioSize) ioSize i)
  change offset + size - ioSize + i < f.flushed.length at hlt
  have hsr : d + size - ioSize + i = d + (size - ioSize + i) := by omega
  have hix : offset + size - ioSize + i = offset + (size - ioSize + i) := by omega
  rw [Mem.copy_zero_of_mem _ _ _ _ _ hi, hsr, hix]
  exact zLoad_flushed env scr ho hs (by omega) (by omega)

end

theorem readBufMem_flushed (hc : Cached f) (hu : f.useReadBuf) (env : ReadEnv) {offset i : ℕ}
    (ho : f.readBufOffset ≤ offset) (hw : offset + i < f.readBufOffset + ioSize)
    (hl : offset + i < f.readBufFlushed) :
    f.flushed[offset + i]? = some (f.readBufMem env (offset - f.readBufOffset + i)) := by
  have hi : offset + i = f.readBufOffset + (offset - f.readBufOffset + i) := by omega
  have hlt : offset - f.readBufOffset + i < ioSize := by omega
  rw [readBufMem, if_pos hlt, hi]
  exact hc.eq hu _ hlt (by omega)

theorem readFlushed_spec (hc : Cached f) (env : ReadEnv) (hn : 0 < n)
    (hle : offset + n ≤ f.flushed.length) (hst : f.fileSize - f.bufPos = f.flushed.length)
    (hok : ReadOk f offset n) :
    ∃ g m, f.readFlushed env offset n = .ok (g, m) ∧ Cached g ∧ ∀ i < n, f.flushed[offset + i]? = some (m i) := by
  rw [← hst] at hle
  have hr := le_ioRound n
  have hio := ioSize_le_ioRound hn
  unfold readFlushed
  by_cases hu : f.useReadBuf = true
  · rw [if_pos hu]
    by_cases hh : Hit f offset n
    · have hl := hok.hit hle hu hh
      obtain ⟨h1, h2⟩ := hh
      refine ⟨_, _, if_pos ⟨h1, h2⟩, hc, fun i hi => ?_⟩
      rw [readBufMem_flushed hc hu env h1 (by omega) (by omega), Mem.copy_zero_of_mem _ _ _ _ _ hi]
    · rw [if_neg (show ¬ (f.readBufOffset ≤ offset ∧ _) from hh)]
      by_cases ho : Overlap f offset n
      · -- the first chunk comes from the window, the rest from the device
        obtain ⟨hal, hl, h32, hs32⟩ := hok.overlap hle hu ho
        obtain ⟨h1, h2, h3⟩ := ho
        have hmd := Nat.mod_lt offset ioSize_pos
        have hml := Nat.mod_le offset ioSize
        rw [if_neg (by omega), if_pos ⟨h1, h2, h3⟩]
        refine ⟨_, _, rfl, loadWindow_cached env _ h32 hs32 hio, fun i hi => ?_⟩
        by_cases hb : i < ioSize - offset % ioSize
        · rw [zLoad_below env _ hb, readBufMem_flushed hc hu env h1 (by omega) (by omega),
            Mem.copy_zero_of_mem _ _ _ _ _ hb]
        · obtain ⟨j, rfl⟩ := Nat.exists_eq_add_of_le (Nat.le_of_not_lt hb)
          rw [← Nat.add_assoc]
          exact zLoad_flushed env _ h32 hs32 (by omega) (by omega)
      · obtain ⟨h32, hs32⟩ := hok.load hle (by tauto)
        have hm : f.readBufOffset + ioSize ≤ offset ∨ offset < f.readBufOffset := by
          simp only [Hit, Overlap] at hh ho
          omega
        refine ⟨_, _, if_pos hm, loadWindow_cached env _ h32 hs32 hio, fun i hi => ?_⟩
        exact zLoad_zero_flushed env _ h32 hs32 (by omega) (by omega)
  · obtain ⟨h32, hs32⟩ := hok.load hle (by tauto)
    refine ⟨_, _, if_neg hu, loadWindow_cached env _ h32 hs32 hio, fun i hi => ?_⟩
    exact zLoad_zero_flushed env _ h32 hs32 (by omega) (by omega)

def GuardedRead (f : ZoadFile) (offset n : ℕ) : Prop :=
  0 < min n (f.fileSize - offset) → ReadOk f offset (min n (f.fileSize - offset))

section

variable (h : Buffered bufSize f content)

include h

theorem content_flushed {i : ℕ} (hi : i < f.flushed.length) : content[i]? = f.flushed[i]? := by
  rw [← h.eq, List.getElem?_append_left hi]

theorem content_buffered {i : ℕ} (hi : i < f.bufPos) : content[f.flushed.length + i]? = some (f.buf i) := by
  rw [← h.eq, List.getElem?_append_right (by omega), Nat.add_sub_cancel_left]
  simp [Mem.load, hi]

theorem readRange_spec (hl : f.fileSize = content.length) (hc : Cached f) (env : ReadEnv) (hn : 0 < n)
    (hle : offset + n ≤ f.fileSize) (hok : ReadOk f offset n) :
    ∃ g m, f.readRange bufSize env offset n = .ok (g, m) ∧ Cached g ∧ ∀ i < n, content[offset + i]? = some (m i) := by
  have hp := h.pos_le
  have ha := length_flushed_add h hl
  have hs : sub64 f.fileSize f.bufPos = f.flushed.length := by
    rw [sub64_of_le (by omega)]
    omega
  simp only [readRange, hs]
  split_ifs with h1 h2 h3 h4
  · refine ⟨_, _, readBuffered_ok (by omega) _ _, hc, fun i hi => ?_⟩
    have hnl : f.flushed.length = 0 := by omega
    rw [Mem.copy_zero_of_mem _ _ _ _ _ hi, ← content_buffered h (by omega), hnl, Nat.zero_add]
  · omega
  · refine ⟨_, _, readBuffered_ok (by omega) _ _, hc, fun i hi => ?_⟩
    rw [Mem.copy_zero_of_mem _ _ _ _ _ hi, ← content_buffered h (by omega)]
    congr 1
    omega
  · obtain ⟨g, m, hr, hg, hm⟩ := readFlushed_spec hc env hn h4 (by omega) hok
    refine ⟨g, m, hr, hg, fun i hi => ?_⟩
    rw [content_flushed h (by omega), hm i hi]
  · -- the first part comes from the device, the rest from the start of the buffer
    obtain ⟨h32, hs32⟩ := hok.straddle (by omega) (by omega)
    refine ⟨_, _, readBuffered_ok (by omega) _ _, hc, fun i hi => ?_⟩
    by_cases hi' : i < f.flushed.length - offset
    · rw [Mem.copy_of_notMem _ _ _ _ _ _ (Or.inl hi'), content_flushed h (by omega)]
      exact zLoad_zero_flushed env _ h32 (by omega) hi' (by omega)
    obtain ⟨j, rfl⟩ := Nat.exists_eq_add_of_le (Nat.le_of_not_lt hi')
    rw [Mem.copy_of_mem _ _ _ _ _ _ (by omega), Nat.zero_add, ← content_buffered h (by omega)]
    congr 1
    omega

theorem read_spec (hl : f.fileSize = content.length) (hc : Cached f) (env : ReadEnv)
    (ho : offset ≤ f.fileSize) (hok : GuardedRead f offset n) :
    ∃ g, f.read bufSize env offset n = .ok (g, .ok ((content.drop offset).take n)) ∧ Cached g := by
  have ht : (content.drop offset).take n = (content.drop offset).take (min n (f.fileSize - offset)) := by
    rw [← take_take, hl]
    congr 1
    exact (take_of_length_le (by simp)).symm
  rw [ht]
  simp only [read]
  rw [if_neg (by omega)]
  by_cases hn : min n (f.fileSize - offset) = 0
  · exact ⟨f, by simp [hn], hc⟩
  obtain ⟨g, m, hr, hg, hm⟩ := readRange_spec h hl hc env (Nat.pos_of_ne_zero hn) (by omega)
    (hok (Nat.pos_of_ne_zero hn))
  refine ⟨g, ?_, hg⟩
  rw [if_neg hn, hr]
  have hld := Mem.load_eq_take_drop m 0 (min n (f.fileSize - offset)) content offset (by simpa using hm)
  rw [← hld]
  rfl

end

def Guard (f : ZoadFile) : Op → Prop
  | .read _ offset n => GuardedRead f offset n
  | _ => True

theorem step_cached (hs : 0 < bufSize) (hd : ioSize ∣ bufSize) (h : Buffered bufSize f content)
    (hl : f.fileSize = content.length) (hc : Cached f) {op : Op} (hg : Guard f op) {g : ZoadFile}
    (hst : f.step bufSize op = some g) : Cached g := by
  cases op with
  | append data =>
    obtain ⟨k, hk, -, hsame⟩ := append_spec hs hd h data
    cases (show some k = some g by simpa [step, apply, hk, Except.toOption] using hst)
    exact hsame.cached ⟨hc.le, hc.eq⟩
  | flushBuffer | sync =>
    obtain ⟨k, hk, -, -, hsame⟩ := flushFileBuffer_spec hs hd h
    cases (show some k = some g by simpa [step, apply, flushBuffer, sync, hk, Except.toOption] using hst)
    exact hsame.cached hc
  | read env offset n =>
    by_cases ho : offset ≤ f.fileSize
    · obtain ⟨k, hk, hkc⟩ := read_spec h hl hc env ho hg
      cases (show some k = some g by simpa [step, apply, hk, Except.toOption, Except.map] using hst)
      exact hkc
    have hk : f.read bufSize env offset n = .ok (f, .ioError) := by
      simp only [read]
      rw [if_pos (by omega)]
    cases (show some f = some g by simpa [step, apply, hk, Except.toOption, Except.map] using hst)
    exact hc

theorem run_cached (hs : 0 < bufSize) (hd : ioSize ∣ bufSize) (ops : List Op)
    (h : Buffered bufSize f content) (hl : f.fileSize = content.length) (hc : Cached f)
    (hg : Along (step bufSize) Guard f ops) {g : ZoadFile} (hr : run (step bufSize) f ops = some g) :
    Cached g := by
  induction ops generalizing f content with
  | nil =>
    cases hr
    exact hc
  | cons op ops ih =>
    obtain ⟨k, hk, hr⟩ := run_cons.mp hr
    obtain ⟨k', hk', hb, hkl⟩ := step_buffered hs hd h hl op
    cases hk.symm.trans hk'
    exact ih hb hkl (step_cached hs hd h hl hc hg.1 hk) (hg.2 k hk) hr

theorem read_history (hs : 0 < bufSize) (hd : ioSize ∣ bufSize) (buf readBuf : Mem UInt8)
    (ops : List Op) (hg : Along (step bufSize) Guard (new buf readBuf) ops) :
    ∃ f, run (step bufSize) (new buf readBuf) ops = some f ∧
      ∀ env offset n, offset ≤ f.fileSize → GuardedRead f offset n → ∃ g, f.read bufSize env offset n =
          .ok (g, .ok (((ZoadEnv.content ops).drop offset).take n)) := by
  obtain ⟨f, hr, hb, hl⟩ := run_buffered hs hd ops (new_buffered bufSize buf readBuf) rfl
  have hc : Cached f := run_cached hs hd ops (new_buffered bufSize buf readBuf) rfl ⟨Nat.le_refl _, by simp [new]⟩ hg hr
  refine ⟨f, hr, fun env offset n ho hok => ?_⟩
  obtain ⟨g, hrd, -⟩ := read_spec hb hl hc env ho hok
  exact ⟨g, hrd⟩

def zeroEnv : ReadEnv := ⟨fun _ => 0, fun _ => 0, fun _ => 0⟩

theorem guardedRead_of_unflushed (h : f.fileSize = f.bufPos) (offset n : ℕ) : GuardedRead f offset n := by
  intro hn
  have hz : f.fileSize - f.bufPos = 0 := by omega
  exact ⟨by omega, by omega, by omega, by omega⟩

theorem read_history_buffered : ∃ f,
    run (step ioSize) (new (fun _ => 0) (fun _ => 0)) [.append ⟨fun _ => 7, 5⟩] = some f ∧
      ∃ g, f.read ioSize zeroEnv 3 9 = .ok (g, .ok [7, 7]) := by
  obtain ⟨f, hr, h1, h2⟩ : ∃ f, run (step ioSize) (new (fun _ => 0) (fun _ => 0)) [.append ⟨fun _ => 7, 5⟩] = some f ∧
      f.fileSize = 5 ∧ f.bufPos = 5 := exists_some_of_check (by decide +kernel)
  obtain ⟨f', hr', h⟩ := read_history ioSize_pos (Nat.dvd_refl ioSize) (fun _ => 0) (fun _ => 0)
    [.append ⟨fun _ => 7, 5⟩] ⟨trivial, fun _ _ => trivial⟩
  cases hr.symm.trans hr'
  exact ⟨f, hr, h zeroEnv 3 9 (by omega) (guardedRead_of_unflushed (by omega) 3 9)⟩

def windowAtOne : List Op := [.append ⟨fun _ => 1, 3 * ioSize⟩, .flushBuffer, .read zeroEnv 1 1]

theorem read_history_fails : ¬ ∀ bufSize, 0 < bufSize → ioSize ∣ bufSize →
    ∀ buf readBuf ops f, run (step bufSize) (new buf readBuf) ops = some f →
      ∀ env offset n, offset ≤ f.fileSize → ∃ g, f.read bufSize env offset n =
        .ok (g, .ok (((ZoadEnv.content ops).drop offset).take n)) := by
  intro h
  obtain ⟨f, hf, hs, hr⟩ : ∃ f, run (step (3 * ioSize)) (new (fun _ => 0) (fun _ => 0)) windowAtOne = some f ∧
      ioSize ≤ f.fileSize ∧ (f.read (3 * ioSize) zeroEnv ioSize 2).toOption.map Prod.snd = some (.ok [1, 0]) :=
    exists_some_of_check (by decide +kernel)
  obtain ⟨g, hg⟩ := h (3 * ioSize) (by decide) (Nat.dvd_mul_left _ _) _ _ windowAtOne f hf zeroEnv ioSize 2 hs
  have hc : ((ZoadEnv.content windowAtOne).drop ioSize).take 2 = [1, 1] := by
    simp only [ZoadEnv.content, windowAtOne, flatMap_cons, flatMap_nil, Op.appended,
      append_nil, Slice.bytes, Mem.drop_load, Mem.take_load]
    rfl
  rw [hg, hc] at hr
  simp [Except.toOption] at hr

end ZoadFile

end ZenFSPlus.ZoadEnv
