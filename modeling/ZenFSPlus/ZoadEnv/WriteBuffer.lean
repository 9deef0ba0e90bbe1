import ZenFSPlus.ZoadEnv.ZoadFile
import ZenFSPlus.Lib.Run

namespace ZenFSPlus.ZoadEnv

open Lib ZenFSPlus.Zoad List

structure Buffered (bufSize : ℕ) (f : ZoadFile) (content : List UInt8) : Prop where
  pos_le : f.bufPos ≤ bufSize
  eq : f.flushed ++ f.buf.load 0 f.bufPos = content
  whole : ∀ p ∈ f.flushes, p.payload.size = bufSize ∧ p.short = false

structure SameRead (f g : ZoadFile) : Prop where
  fileSize : g.fileSize = f.fileSize
  readBuf : g.readBuf = f.readBuf
  readBufOffset : g.readBufOffset = f.readBufOffset
  useReadBuf : g.useReadBuf = f.useReadBuf
  readBufFlushed : g.readBufFlushed = f.readBufFlushed
  prefix_flushes : f.flushes <+: g.flushes

theorem SameRead.refl (f : ZoadFile) : SameRead f f := ⟨rfl, rfl, rfl, rfl, rfl, prefix_rfl⟩

theorem SameRead.trans {f g h : ZoadFile} (a : SameRead f g) (b : SameRead g h) : SameRead f h :=
  ⟨b.fileSize.trans a.fileSize, b.readBuf.trans a.readBuf, b.readBufOffset.trans a.readBufOffset,
    b.useReadBuf.trans a.useReadBuf, b.readBufFlushed.trans a.readBufFlushed,
    a.prefix_flushes.trans b.prefix_flushes⟩

namespace ZoadFile

variable {bufSize : ℕ} {f : ZoadFile} {content : List UInt8}

theorem fill_spec (h : Buffered bufSize f content) (data : Slice UInt8) (n : ℕ)
    (hn : f.bufPos + n ≤ bufSize) (hd : n ≤ data.size) :
    ∃ g, f.fill bufSize data n = .ok g ∧ Buffered bufSize g (content ++ data.data.load 0 n) ∧
      g.bufPos = f.bufPos + n ∧ SameRead f g := by
  refine ⟨_, if_pos ⟨hn, hd⟩, ⟨hn, ?_, h.whole⟩, rfl, ⟨rfl, rfl, rfl, rfl, rfl, prefix_rfl⟩⟩
  change f.flushed ++ (f.buf.copy f.bufPos data.data 0 n).load 0 (f.bufPos + n) = _
  rw [Mem.load_copy_append, ← append_assoc, h.eq]

theorem flushFileBuffer_full (hd : ioSize ∣ bufSize) (hp : f.bufPos = bufSize) : f.flushFileBuffer bufSize =
      .ok { f with bufPos := 0, flushes := f.flushes ++ [⟨⟨f.buf, f.bufPos⟩, false⟩] } := by
  have hm : ¬ f.bufPos % ioSize ≠ 0 := by simp [hp, Nat.mod_eq_zero_of_dvd hd]
  rw [flushFileBuffer, if_neg (by omega), if_neg (by omega), if_neg hm]

section

variable (hs : 0 < bufSize) (hd : ioSize ∣ bufSize)

include hs hd

theorem flushFileBuffer_spec (h : Buffered bufSize f content) :
    ∃ g, f.flushFileBuffer bufSize = .ok g ∧ Buffered bufSize g content ∧ g.bufPos < bufSize ∧ SameRead f g := by
  by_cases hp : f.bufPos < bufSize
  · exact ⟨f, if_pos hp, h, hp, .refl f⟩
  -- a buffer that is not below its capacity is exactly full, so the flush leaves no rest
  have hps : f.bufPos = bufSize := Nat.le_antisymm h.pos_le (Nat.le_of_not_lt hp)
  refine ⟨_, flushFileBuffer_full hd hps, ⟨Nat.zero_le _, ?_, ?_⟩, hs, ⟨rfl, rfl, rfl, rfl, rfl, prefix_append _ _⟩⟩
  · change Slice.concat ((f.flushes ++ [_]).map Flush.payload) ++ [] = content
    simp
    exact h.eq
  · intro p hp
    rcases mem_append.mp hp with hp | hp
    · exact h.whole p hp
    · cases mem_singleton.mp hp
      exact ⟨hps, rfl⟩

theorem flushIfFull_spec (h : Buffered bufSize f content) :
    ∃ g, f.flushIfFull bufSize = .ok g ∧ Buffered bufSize g content ∧ g.bufPos < bufSize ∧ SameRead f g := by
  unfold flushIfFull
  by_cases hf : bufSize ≤ f.bufPos
  · rw [if_pos hf]
    exact flushFileBuffer_spec hs hd h
  · exact ⟨f, if_neg hf, h, by omega, .refl f⟩

theorem writeUnbuffered_spec (fuel : ℕ) (data : Slice UInt8) (hf : data.size < fuel) (h : Buffered bufSize f content)
    (hp : f.bufPos < bufSize) :
    ∃ g, writeUnbuffered bufSize fuel f data = .ok g ∧ Buffered bufSize g (content ++ data.bytes) ∧ SameRead f g := by
  induction fuel generalizing f content data with
  | zero => omega
  | succ fuel ih =>
    rw [writeUnbuffered]
    by_cases hz : data.size = 0
    · refine ⟨f, if_pos hz, ?_, .refl f⟩
      rwa [Slice.bytes_of_size_zero hz, append_nil]
    rw [if_neg hz, sub64_of_le h.pos_le]
    -- the turn copies at least one byte, since the buffer is not full at its start
    obtain ⟨g, hg, hgb, hgp, hgs⟩ := fill_spec h data (min data.size (bufSize - f.bufPos))
      (by omega) (Nat.min_le_left _ _)
    obtain ⟨k, hk, hkb, hkp, hks⟩ := flushIfFull_spec hs hd hgb
    obtain ⟨r, hr, hrb, hrs⟩ := ih (data.drop (min data.size (bufSize - f.bufPos)))
      (by simp only [Slice.size_drop]; omega) hkb hkp
    refine ⟨r, ?_, ?_, hgs.trans (hks.trans hrs)⟩
    · simp only [hg, hk, hr, bind, Except.bind]
    · rwa [append_assoc, ← Slice.bytes_split _ _ (Nat.min_le_left _ _)] at hrb

theorem append_spec (h : Buffered bufSize f content) (data : Slice UInt8) :
    ∃ g, f.append bufSize data = .ok g ∧ Buffered bufSize g (content ++ data.bytes) ∧
      SameRead { f with fileSize := f.fileSize + data.size } g := by
  have h0 : Buffered bufSize { f with fileSize := f.fileSize + data.size } content := ⟨h.pos_le, h.eq, h.whole⟩
  have hle := h.pos_le
  rw [append, sub64_of_le hle]
  obtain ⟨g, hg, hgb, hgp, hgs⟩ := fill_spec h0 data (min data.size (bufSize - f.bufPos))
    (by simp only; omega) (Nat.min_le_left _ _)
  have hsp := Slice.bytes_split data (min data.size (bufSize - f.bufPos)) (Nat.min_le_left _ _)
  by_cases hz : (data.drop (min data.size (bufSize - f.bufPos))).size = 0
  · refine ⟨g, by simp only [hg, bind, Except.bind, hz, if_true], ?_, hgs⟩
    rwa [hsp, Slice.bytes_of_size_zero hz, append_nil]
  obtain ⟨k, hk, hkb, hkp, hks⟩ := flushFileBuffer_spec hs hd hgb
  obtain ⟨r, hr, hrb, hrs⟩ := writeUnbuffered_spec hs hd _ _ (Nat.lt_succ_self _) hkb hkp
  refine ⟨r, by simp only [hg, bind, Except.bind, hz, if_false, hk]; exact hr, ?_, hgs.trans (hks.trans hrs)⟩
  rwa [append_assoc, ← hsp] at hrb

end

theorem length_flushed_add (h : Buffered bufSize f content) (hl : f.fileSize = content.length) :
    f.flushed.length + f.bufPos = f.fileSize := by
  rw [hl, ← h.eq]
  simp

theorem readBuffered_ok {a n : ℕ} (h : a + n ≤ bufSize) (scr : Mem UInt8) (d : ℕ) :
    f.readBuffered bufSize scr d a n = .ok (f, scr.copy d f.buf a n) := if_pos h

theorem readFlushed_ok (f : ZoadFile) (env : ReadEnv) (off n : ℕ) :
    ∃ g m, f.readFlushed env off n = .ok (g, m) ∧ g.fileSize = f.fileSize ∧ g.buf = f.buf ∧
      g.bufPos = f.bufPos ∧ g.flushes = f.flushes := by
  unfold readFlushed
  split_ifs
  · exact ⟨_, _, rfl, rfl, rfl, rfl, rfl⟩
  · exact ⟨_, _, rfl, rfl, rfl, rfl, rfl⟩
  · exact ⟨_, _, rfl, rfl, rfl, rfl, rfl⟩
  · omega
  · exact ⟨_, _, rfl, rfl, rfl, rfl, rfl⟩

section

variable (h : Buffered bufSize f content) (hl : f.fileSize = content.length) (env : ReadEnv)

include h hl env

theorem readRange_ok {off n : ℕ} (hn : off + n ≤ f.fileSize) :
    ∃ g m, f.readRange bufSize env off n = .ok (g, m) ∧ g.fileSize = f.fileSize ∧
      g.buf = f.buf ∧ g.bufPos = f.bufPos ∧ g.flushes = f.flushes := by
  have hle := h.pos_le
  have ha := length_flushed_add h hl
  have hsb : sub64 f.fileSize f.bufPos = f.fileSize - f.bufPos := sub64_of_le (by omega)
  simp only [readRange, hsb]
  split_ifs
  · exact ⟨_, _, readBuffered_ok (by omega) _ _, rfl, rfl, rfl, rfl⟩
  · omega
  · exact ⟨_, _, readBuffered_ok (by omega) _ _, rfl, rfl, rfl, rfl⟩
  · exact readFlushed_ok f env off n
  · exact ⟨_, _, readBuffered_ok (by omega) _ _, rfl, rfl, rfl, rfl⟩

theorem read_ok (off n : ℕ) : ∃ g st, f.read bufSize env off n = .ok (g, st) ∧ g.fileSize = f.fileSize ∧
      g.buf = f.buf ∧ g.bufPos = f.bufPos ∧ g.flushes = f.flushes := by
  simp only [read]
  split_ifs
  · exact ⟨f, _, rfl, rfl, rfl, rfl, rfl⟩
  · exact ⟨f, _, rfl, rfl, rfl, rfl, rfl⟩
  · have hle : off + min n (f.fileSize - off) ≤ f.fileSize := by omega
    obtain ⟨g, m, hr, hg⟩ := readRange_ok h hl env hle
    exact ⟨g, _, by rw [hr]; rfl, hg⟩

end

theorem step_buffered (hs : 0 < bufSize) (hd : ioSize ∣ bufSize) (h : Buffered bufSize f content)
    (hl : f.fileSize = content.length) (op : Op) :
    ∃ g, f.step bufSize op = some g ∧ Buffered bufSize g (content ++ op.appended) ∧
      g.fileSize = (content ++ op.appended).length := by
  cases op with
  | append data =>
    obtain ⟨g, hg, hb, hsame⟩ := append_spec hs hd h data
    refine ⟨g, by simp [step, apply, hg, Except.toOption], hb, ?_⟩
    simp [hsame.fileSize, hl, Op.appended]
  | flushBuffer | sync =>
    obtain ⟨g, hg, hb, -, hsame⟩ := flushFileBuffer_spec hs hd h
    refine ⟨g, by simp [step, apply, flushBuffer, sync, hg, Except.toOption], ?_, ?_⟩
    · simpa [Op.appended] using hb
    · simp [hsame.fileSize, hl, Op.appended]
  | read env off n =>
    obtain ⟨g, st, hg, hsz, hbf, hp, hfl⟩ := read_ok h hl env off n
    refine ⟨g, by simp [step, apply, hg, Except.toOption, Except.map], ?_, ?_⟩
    · simp only [Op.appended, append_nil]
      exact ⟨hp ▸ h.pos_le, by rw [flushed, hfl, hbf, hp]; exact h.eq, hfl ▸ h.whole⟩
    · simp [hsz, hl, Op.appended]

theorem run_buffered (hs : 0 < bufSize) (hd : ioSize ∣ bufSize) (ops : List Op)
    (h : Buffered bufSize f content) (hl : f.fileSize = content.length) :
    let r := content ++ ZoadEnv.content ops
    ∃ g, run (step bufSize) f ops = some g ∧ Buffered bufSize g r ∧ g.fileSize = r.length := by
  induction ops generalizing f content with
  | nil => exact ⟨f, rfl, by simpa [ZoadEnv.content] using h, by simpa [ZoadEnv.content] using hl⟩
  | cons op ops ih =>
    obtain ⟨g, hg, hb, hgl⟩ := step_buffered hs hd h hl op
    obtain ⟨k, hk, hkb, hkl⟩ := ih hb hgl
    refine ⟨k, run_cons.mpr ⟨g, hg, hk⟩, ?_, ?_⟩
    · simpa [ZoadEnv.content] using hkb
    · simpa [ZoadEnv.content, Nat.add_assoc] using hkl

theorem new_buffered (bufSize : ℕ) (buf rb : Mem UInt8) : Buffered bufSize (new buf rb) [] :=
  ⟨Nat.zero_le _, rfl, by simp [new]⟩

/-- Over every sequence of calls nothing that was appended is lost, doubled or
reordered, and data leaves the buffer in whole buffers only. -/
theorem append_history (hs : 0 < bufSize) (hd : ioSize ∣ bufSize) (buf readBuf : Mem UInt8) (ops : List Op) :
    ∃ f, run (step bufSize) (new buf readBuf) ops = some f ∧
      Slice.concat (f.flushes.map Flush.payload) ++ f.buf.load 0 f.bufPos = ZoadEnv.content ops ∧
      f.fileSize = (ZoadEnv.content ops).length ∧ f.bufPos ≤ bufSize ∧
      ∀ p ∈ f.flushes, p.payload.size = bufSize ∧ p.short = false := by
  obtain ⟨f, hr, hb, hl⟩ := run_buffered hs hd ops (new_buffered bufSize buf readBuf) rfl
  exact ⟨f, hr, hb.eq, hl, hb.pos_le, hb.whole⟩

theorem append_history_sync : ∃ f,
    run (step ioSize) (new (fun _ => 0) (fun _ => 0)) [.append ⟨fun _ => 7, 5⟩, .sync] = some f ∧ f.fileSize = 5 := by
  obtain ⟨f, hr, -, hl, -⟩ := append_history ioSize_pos (Nat.dvd_refl ioSize) (fun _ => 0)
    (fun _ => 0) [.append ⟨fun _ => 7, 5⟩, .sync]
  exact ⟨f, hr, hl⟩

end ZoadFile

end ZenFSPlus.ZoadEnv
