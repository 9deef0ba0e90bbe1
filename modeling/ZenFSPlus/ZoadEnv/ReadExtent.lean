import ZenFSPlus.ZoadEnv.ReadCache

namespace ZenFSPlus.ZoadEnv.ZoadFile

open Lib ZenFSPlus.Zoad

/-- A read of `n` bytes that stores nothing behind the first `n` bytes of the scratch buffer and
asks `z_load` for flushed bytes only: what it leaves does not depend on the others. -/
def ReadsInside (bufSize : ℕ) (f : ZoadFile) (env : ReadEnv) (offset n : ℕ) : Prop :=
  ∃ g m, (∀ i, n ≤ i → m i = env.scratch i) ∧
    ∀ junk, f.readRange bufSize { env with junk := junk } offset n = .ok (g, m)

/-- A read of flushed bytes that the window does not hold is a whole number of chunks long and
starts outside the window. -/
def WholeChunks (f : ZoadFile) (offset n : ℕ) : Prop :=
  offset + n ≤ f.fileSize - f.bufPos → ¬ (f.useReadBuf ∧ Hit f offset n) →
    ioSize ∣ n ∧ ¬ (f.useReadBuf ∧ Overlap f offset n)

variable {bufSize : ℕ} {f : ZoadFile} {content : List UInt8} {env : ReadEnv} {offset n : ℕ}

theorem zLoad_inside (junk scr : Mem UInt8) {d size : ℕ} (h : offset + size ≤ f.flushed.length) :
    f.zLoad { env with junk := junk } scr d offset size = f.zLoad env scr d offset size := by
  have ho : u32 offset ≤ offset := Nat.mod_le _ _
  have hs : u32 size ≤ size := Nat.mod_le _ _
  funext i
  simp only [zLoad, Mem.copy]
  split
  · rename_i hi
    have hlt : u32 offset + (i - d) < f.flushed.length := by omega
    have hj := Slice.getElem?_concat junk _ _ hlt
    rw [Slice.getElem?_concat env.junk _ _ hlt] at hj
    exact (Option.some.inj hj).symm
  · rfl

theorem zLoad_behind (scr : Mem UInt8) {d size i : ℕ} (h : d + size ≤ i) : f.zLoad env scr d offset size i = scr i := by
  have hs : u32 size ≤ size := Nat.mod_le _ _
  exact Mem.copy_of_notMem _ _ _ _ _ _ (by omega)

theorem ioRound_of_dvd (h : ioSize ∣ n) : ioRound n = n := by
  simp [ioRound, Nat.mod_eq_zero_of_dvd h]

theorem loadWindow_inside (env : ReadEnv) (hd : ioSize ∣ n) (h : offset + n ≤ f.flushed.length) :
    ∃ g m, (∀ i, n ≤ i → m i = env.scratch i) ∧
      ∀ junk, f.loadWindow { env with junk := junk } env.scratch 0 offset (ioRound n) = (g, m) := by
  rw [ioRound_of_dvd hd]
  refine ⟨(f.loadWindow env env.scratch 0 offset n).1, f.zLoad env env.scratch 0 offset n,
    fun i hi => zLoad_behind _ (by omega), fun junk => ?_⟩
  simp only [loadWindow]
  rw [zLoad_inside junk env.scratch h]

theorem readFlushed_inside (hle : offset + n ≤ f.flushed.length)
    (hf : ¬ (f.useReadBuf ∧ Hit f offset n) → ioSize ∣ n ∧ ¬ (f.useReadBuf ∧ Overlap f offset n)) :
    ∃ g m, (∀ i, n ≤ i → m i = env.scratch i) ∧
      ∀ junk, f.readFlushed { env with junk := junk } offset n = .ok (g, m) := by
  by_cases hh : f.useReadBuf = true ∧ Hit f offset n
  · refine ⟨f, env.scratch.copy 0 (f.readBufMem env) (offset - f.readBufOffset) n,
      fun i hi => Mem.copy_of_notMem _ _ _ _ _ _ (by omega), fun junk => ?_⟩
    rw [readFlushed, if_pos hh.1]
    exact if_pos hh.2
  · obtain ⟨hd, ho⟩ := hf hh
    obtain ⟨g, m, hm, hl⟩ := loadWindow_inside env hd hle
    refine ⟨g, m, hm, fun junk => ?_⟩
    rw [readFlushed]
    split_ifs with hu h1 h2 h3
    · exact absurd ⟨hu, h1⟩ hh
    · rw [hl]
    · exact absurd ⟨hu, h3⟩ ho
    · omega
    · rw [hl]

theorem readRange_inside (h : Buffered bufSize f content) (hl : f.fileSize = content.length)
    (hle : offset + n ≤ f.fileSize) (hf : WholeChunks f offset n) : ReadsInside bufSize f env offset n := by
  have hp := h.pos_le
  have ha := length_flushed_add h hl
  have hs : sub64 f.fileSize f.bufPos = f.flushed.length := by
    rw [sub64_of_le (by omega)]
    omega
  simp only [ReadsInside, readRange, hs]
  split_ifs with h1 h2 h3 h4
  · exact ⟨_, _, fun i hi => Mem.copy_of_notMem _ _ _ _ _ _ (by omega), fun _ => readBuffered_ok (by omega) _ _⟩
  · omega
  · exact ⟨_, _, fun i hi => Mem.copy_of_notMem _ _ _ _ _ _ (by omega), fun _ => readBuffered_ok (by omega) _ _⟩
  · exact readFlushed_inside h4 (hf (by omega))
  refine ⟨f, (f.zLoad env env.scratch 0 offset (f.flushed.length - offset)).copy (f.flushed.length - offset) f.buf 0
    (offset + n - f.flushed.length), fun i hi => ?_, fun junk => ?_⟩
  · rw [Mem.copy_of_notMem _ _ _ _ _ _ (by omega), zLoad_behind _ (by omega)]
  · rw [zLoad_inside junk env.scratch (by omega)]
    exact readBuffered_ok (by omega) _ _

theorem read_inside (hs : 0 < bufSize) (hd : ioSize ∣ bufSize) (buf readBuf : Mem UInt8) (ops : List Op)
    (hrun : run (step bufSize) (new buf readBuf) ops = some f) (env : ReadEnv) (hoffset : offset ≤ f.fileSize)
    (hfits : WholeChunks f offset (min n (f.fileSize - offset))) :
    ReadsInside bufSize f env offset (min n (f.fileSize - offset)) := by
  obtain ⟨g, hg, hb, hl⟩ := run_buffered hs hd ops (new_buffered bufSize buf readBuf) rfl
  cases hrun.symm.trans hg
  exact readRange_inside hb hl (by omega) hfits

def threeChunks : List Op := [.append ⟨fun _ => 1, 3 * ioSize⟩, .flushBuffer]

theorem run_threeChunks : ∃ f, run (step (3 * ioSize)) (new (fun _ => 0) (fun _ => 0)) threeChunks = some f ∧
    f.fileSize = 3 * ioSize ∧ f.useReadBuf = false ∧
      ((f.readRange (3 * ioSize) zeroEnv 0 1).toOption.map fun r => r.2 1) = some 1 :=
  exists_some_of_check (by decide +kernel)

theorem read_inside_threeChunks : ∃ f, run (step (3 * ioSize)) (new (fun _ => 0) (fun _ => 0)) threeChunks = some f ∧
      ReadsInside (3 * ioSize) f zeroEnv 0 (min ioSize (f.fileSize - 0)) := by
  obtain ⟨f, hf, hs, hu, -⟩ := run_threeChunks
  have hm : min ioSize (f.fileSize - 0) = ioSize := by omega
  refine ⟨f, hf, read_inside (by decide) (Nat.dvd_mul_left _ _) _ _ threeChunks hf zeroEnv (Nat.zero_le _) ?_⟩
  rw [hm]
  exact fun _ _ => ⟨Nat.dvd_refl _, by simp [hu]⟩

theorem read_overruns_scratch : ∃ f, run (step (3 * ioSize)) (new (fun _ => 0) (fun _ => 0)) threeChunks = some f ∧
    ¬ ReadsInside (3 * ioSize) f zeroEnv 0 (min 1 (f.fileSize - 0)) := by
  obtain ⟨f, hf, hs, -, hr⟩ := run_threeChunks
  have hmn : min 1 (f.fileSize - 0) = 1 := by
    rw [hs]
    decide
  refine ⟨f, hf, ?_⟩
  rw [hmn]
  rintro ⟨g, m, hm, hj⟩
  have ho : f.readRange (3 * ioSize) zeroEnv 0 1 = .ok (g, m) := hj zeroEnv.junk
  rw [ho] at hr
  have hb : m 1 = 1 := Option.some.inj hr
  rw [hm 1 (Nat.le_refl 1)] at hb
  cases hb

end ZenFSPlus.ZoadEnv.ZoadFile
