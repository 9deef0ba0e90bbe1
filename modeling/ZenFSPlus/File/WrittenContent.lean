import ZenFSPlus.File.WritableFileWriter

namespace ZenFSPlus.File

open Lib ZenFSPlus.Util List AlignedBuffer

variable {o : WriterOptions} {w : WritableFileWriter} {wr data : List UInt8} {off : ℕ} {n : ℕ}

theorem WriterOptions.alignment_pos (o : WriterOptions) : 0 < o.alignment := by
  obtain ⟨k, hk⟩ := o.alignment_pow
  rw [hk]
  exact Nat.two_pow_pos k

theorem WriterOptions.truncate_eq (o : WriterOptions) (s : ℕ) :
    truncateToPageBoundary o.alignment s = rounddown s o.alignment := by
  obtain ⟨k, hk⟩ := o.alignment_pow
  rw [hk]
  exact truncateToPageBoundary_eq k s

namespace WritableFile

variable {f : WritableFile}

section

variable (h : off ≤ f.content.length)

include h

theorem positionedAppend_content : (f.positionedAppend data off).content =
      f.content.take off ++ data ++ f.content.drop (off + data.length) := by
  rw [positionedAppend, Nat.sub_eq_zero_of_le h, replicate_zero, append_nil]

theorem take_positionedAppend (hn : n ≤ data.length) :
    (f.positionedAppend data off).content.take (off + n) = f.content.take off ++ data.take n := by
  have hl : (f.content.take off).length = off := length_take_of_le h
  rw [positionedAppend_content h, append_assoc, take_append, hl, Nat.add_sub_cancel_left,
    take_of_length_le (by omega), take_append_of_le_length hn]

theorem length_positionedAppend : off + data.length ≤ (f.positionedAppend data off).content.length := by
  rw [positionedAppend_content h]
  simp only [length_append, length_take, length_drop]
  omega

end

end WritableFile

namespace WritableFileWriter

open WritableFile

theorem writeBufferedLoop_content (o : WriterOptions) (data : List UInt8) (reqs : ℕ) (file : WritableFile) :
    (writeBufferedLoop o data reqs file).2 = file.append data := by
  induction data, reqs, file using writeBufferedLoop.induct o with
  | case1 reqs file =>
    rw [writeBufferedLoop, dif_pos rfl]
    simp [WritableFile.append]
  | case2 data reqs file h allowed ih =>
    rw [writeBufferedLoop, dif_neg h]
    rw [ih]
    simp [WritableFile.append, allowed]

structure Placed (alignment : ℕ) (file : WritableFile) (data : List UInt8) (offset : ℕ) (file' : WritableFile) :
    Prop where
  content : file'.content.take (offset + data.length) = file.content.take offset ++ data
  length_le : offset + data.length ≤ file'.content.length
  positioned : ∀ p ∈ file'.positioned, p ∈ file.positioned ∨ alignment ∣ p.1 ∧ alignment ∣ p.2

theorem placed_positionedAppend {alignment : ℕ} {file : WritableFile} (h : off ≤ file.content.length)
    (ho : alignment ∣ off) (hd : alignment ∣ data.length) :
    Placed alignment file data off (file.positionedAppend data off) where
  content := by rw [take_positionedAppend h (Nat.le_refl _), take_length]
  length_le := length_positionedAppend h
  positioned := by
    intro p hp
    rcases mem_append.mp hp with hp | hp
    · exact .inl hp
    · rw [mem_singleton.mp hp]
      exact .inr ⟨ho, hd⟩

theorem writeDirectLoop_placed (hdr : o.useDirectIo = true) (reqs : ℕ) (file : WritableFile)
    (h : off ≤ file.content.length) (ho : o.alignment ∣ off) (hd : o.alignment ∣ data.length) :
    Placed o.alignment file data off (writeDirectLoop o data off reqs file).2 := by
  induction data, off, reqs, file using writeDirectLoop.induct o with
  | case1 off reqs file =>
    rw [writeDirectLoop, dif_pos rfl]
    exact ⟨by simp, by simpa using h, fun p hp => .inl hp⟩
  | case2 data off reqs file hne size ih =>
    rw [writeDirectLoop, dif_neg hne]
    have hle : size ≤ data.length := o.rateLimiter.le reqs data.length
    have hsize : o.alignment ∣ size := o.rateLimiter.dvd hdr reqs data.length hd
    have ht : (data.take size).length = size := length_take_of_le hle
    have hf : Placed o.alignment file (data.take size) off (file.positionedAppend (data.take size) off) :=
      placed_positionedAppend h ho (by rw [ht]; exact hsize)
    have hm := hf.length_le
    rw [ht] at hm
    have hr := ih hm (Nat.dvd_add ho hsize) (by rw [length_drop]; exact Nat.dvd_sub hd hsize)
    have hc := hf.content
    rw [ht] at hc
    refine ⟨?_, ?_, ?_⟩
    · have := hr.content
      rw [hc, append_assoc, take_append_drop, length_drop, add_assoc, Nat.add_sub_cancel' hle] at this
      exact this
    · have := hr.length_le
      rw [length_drop, add_assoc, Nat.add_sub_cancel' hle] at this
      exact this
    · intro p hp
      rcases hr.positioned p hp with hp | hp
      · exact hf.positioned p hp
      · exact .inr hp

structure Core (o : WriterOptions) (w : WritableFileWriter) (written : List UInt8) : Prop where
  alignment : w.buf.alignment = o.alignment
  capacity_dvd : o.alignment ∣ w.buf.capacity
  capacity_pos : 0 < w.buf.capacity
  cursize_le : w.buf.cursize ≤ w.buf.capacity
  buffered : o.useDirectIo = false → w.file.content ++ w.buf.bytes = written
  direct : o.useDirectIo = true → w.file.content.take w.nextWriteOffset ++ w.buf.bytes = written
  offset_le : o.useDirectIo = true → w.nextWriteOffset ≤ w.file.content.length
  offset_dvd : o.alignment ∣ w.nextWriteOffset
  settled : o.useDirectIo = true → w.pendingSync = false →
    written.length ≤ w.file.content.length ∧ w.file.content.take written.length = written
  positioned : ∀ p ∈ w.file.positioned, o.alignment ∣ p.1 ∧ o.alignment ∣ p.2

theorem Core.length_written (h : Core o w wr) (hd : o.useDirectIo = true) :
    wr.length = w.nextWriteOffset + w.buf.cursize := by
  rw [← h.direct hd, length_append, length_take_of_le (h.offset_le hd), length_bytes]

structure Same (w w' : WritableFileWriter) : Prop where
  capacity : w'.buf.capacity = w.buf.capacity
  alignment : w'.buf.alignment = w.buf.alignment
  filesize : w'.filesize = w.filesize
  pendingSync : w'.pendingSync = w.pendingSync

theorem Placed.take {alignment : ℕ} {file file' : WritableFile} (h : Placed alignment file data off file')
    (ho : off ≤ file.content.length) (hn : n ≤ data.length) :
    file'.content.take (off + n) = file.content.take off ++ data.take n := by
  have hc := congrArg (List.take (off + n)) h.content
  rw [take_take, Nat.min_eq_left (by omega), take_append, length_take_of_le ho,
    Nat.add_sub_cancel_left, take_take, Nat.min_eq_right (by omega)] at hc
  exact hc

section

variable (b : AlignedBuffer)

theorem take_bytes : b.bytes.take b.cursize = b.bytes := take_of_length_le (Nat.le_of_eq (length_bytes b))

theorem bytes_padded : (b.padToAlignmentWith 0).bytes =
    b.bytes ++ replicate (roundup b.cursize b.alignment - b.cursize) 0 := by
  rw [padToAlignmentWith, bytes_padWith]

theorem length_padded (hp : 0 < b.alignment) :
    (b.padToAlignmentWith 0).bytes.length = roundup b.cursize b.alignment := by
  have hup := le_roundup (x := b.cursize) hp
  rw [bytes_padded, length_append, length_bytes, length_replicate]
  omega

theorem take_padded (hn : n ≤ b.cursize) : (b.padToAlignmentWith 0).bytes.take n = b.bytes.take n := by
  rw [bytes_padded, take_append_of_le_length]
  rw [length_bytes]
  exact hn

theorem bytes_refitTail_padded (hn : n ≤ b.cursize) :
    ((b.padToAlignmentWith 0).refitTail n (b.cursize - n)).bytes = b.bytes.drop n := by
  have ha : b.bytes = (b.padToAlignmentWith 0).bytes.take b.cursize := by
    rw [take_padded b (Nat.le_refl _), take_bytes]
  rw [refitTail, AlignedBuffer.bytes, Mem.load_copy, ha, AlignedBuffer.bytes, Mem.take_load, Mem.drop_load, zero_add]
  congr 1
  change _ = min b.cursize (b.cursize + _) - _
  omega

end

theorem writeDirectWith_core {write : List UInt8 → ℕ × WritableFile} (h : Core o w wr) (hdr : o.useDirectIo = true)
    (hw : ∀ data, o.alignment ∣ data.length → Placed o.alignment w.file data w.nextWriteOffset (write data).2) :
    let w' := w.writeDirectWith write
    Core o w' wr ∧ Same w w' ∧ w'.buf.cursize < o.alignment ∧ wr.length ≤ w'.file.content.length ∧
      w'.file.content.take wr.length = wr := by
  have hps := o.alignment_pos
  have hl := h.length_written hdr
  have hd := rounddown_le w.buf.cursize o.alignment
  have hnr := lt_rounddown_add (x := w.buf.cursize) hps
  have hup := le_roundup (x := w.buf.cursize) hps
  have hpd : (w.buf.padToAlignmentWith 0).bytes.length = roundup w.buf.cursize o.alignment := by
    rw [length_padded _ (h.alignment ▸ hps), h.alignment]
  have hpl := hw (w.buf.padToAlignmentWith 0).bytes (by rw [hpd]; exact dvd_roundup _ _)
  rw [writeDirectWith, h.alignment, o.truncate_eq]
  generalize write (w.buf.padToAlignmentWith 0).bytes = result at hpl
  obtain ⟨reqs, file⟩ := result
  dsimp only at hpl ⊢
  have ht {n : ℕ} (hn : n ≤ w.buf.cursize) :
      file.content.take (w.nextWriteOffset + n) = w.file.content.take w.nextWriteOffset ++ w.buf.bytes.take n := by
    rw [hpl.take (h.offset_le hdr) (by rw [hpd]; omega), take_padded _ hn]
  have hs : file.content.take wr.length = wr := by
    rw [hl, ht (Nat.le_refl _), take_bytes]
    exact h.direct hdr
  have hle : wr.length ≤ file.content.length := by
    have := hpl.length_le
    rw [hpd] at this
    omega
  refine ⟨⟨h.alignment, h.capacity_dvd, h.capacity_pos, ?_, ?_, ?_, ?_, ?_, ?_, ?_⟩, ⟨rfl, rfl, rfl, rfl⟩, ?_, hle, hs⟩
  · change w.buf.cursize - rounddown w.buf.cursize o.alignment ≤ w.buf.capacity
    have := h.cursize_le
    omega
  · intro hb
    rw [hdr] at hb
    cases hb
  · intro _
    change file.content.take (w.nextWriteOffset + _) ++ _ = wr
    rw [ht hd, bytes_refitTail_padded _ hd, append_assoc, take_append_drop]
    exact h.direct hdr
  · intro _
    change w.nextWriteOffset + _ ≤ file.content.length
    omega
  · exact Nat.dvd_add h.offset_dvd (dvd_rounddown _ _)
  · exact fun _ _ => ⟨hle, hs⟩
  · intro p hp
    rcases hpl.positioned p hp with hp | hp
    · exact h.positioned p hp
    · exact hp
  · change w.buf.cursize - rounddown w.buf.cursize o.alignment < o.alignment
    omega

theorem writeAll_core (reqs : ℕ) (h : Core o w wr) (hb : o.useDirectIo = false)
    {file : WritableFile} (hf : file = w.file.append data) (he : w.buf.cursize = 0 ∨ data = w.buf.bytes) :
    Core o { w with buf := w.buf.size 0, requests := reqs, file := file }
      (if w.buf.cursize = 0 then wr ++ data else wr) := by
  subst hf
  refine ⟨h.alignment, h.capacity_dvd, h.capacity_pos, Nat.zero_le _, ?_, ?_, ?_, h.offset_dvd, ?_, h.positioned⟩
  · intro _
    have hw := h.buffered hb
    change (w.file.content ++ data) ++ [] = _
    rw [append_nil]
    split
    · rename_i hz
      have hn : w.buf.bytes = [] := eq_nil_of_length_eq_zero (by simp [hz])
      rw [hn, append_nil] at hw
      rw [hw]
    · rename_i hne
      rcases he with he | rfl
      · exact absurd he hne
      · exact hw
  · intro hd
    rw [hb] at hd
    cases hd
  · intro hd
    rw [hb] at hd
    cases hd
  · intro hd
    rw [hb] at hd
    cases hd

structure Flushed (o : WriterOptions) (w w' : WritableFileWriter) (written : List UInt8) : Prop where
  core : Core o w' written
  same : Same w w'
  buffered : o.useDirectIo = false → w'.buf.cursize = 0
  drained : o.useDirectIo = true → w.pendingSync = true → w'.buf.cursize < o.alignment
  settled : o.useDirectIo = true → written.length ≤ w'.file.content.length ∧
    w'.file.content.take written.length = written

theorem rangeSync_same (o : WriterOptions) (w : WritableFileWriter) :
    ∃ n, w.rangeSync o = { w with lastSyncSize := n } := by
  unfold rangeSync
  split
  · dsimp only
    split
    · exact ⟨_, rfl⟩
    · exact ⟨w.lastSyncSize, rfl⟩
  · exact ⟨w.lastSyncSize, rfl⟩

theorem flushBuffer_spec (h : Core o w wr) : Flushed o w (w.flushBuffer o) wr := by
  unfold flushBuffer
  by_cases hsize : 0 < w.buf.cursize
  · rw [if_pos hsize]
    cases hdr : o.useDirectIo with
    | true =>
      simp only [if_true]
      by_cases hpn : w.pendingSync = true
      · rw [if_pos hpn]
        have hs {w' : WritableFileWriter} (hw : Core o w' wr ∧ Same w w' ∧ w'.buf.cursize < o.alignment ∧
            wr.length ≤ w'.file.content.length ∧ w'.file.content.take wr.length = wr) :
            Flushed o w w' wr :=
          ⟨hw.1, hw.2.1, (fun hb => by rw [hdr] at hb; cases hb), fun _ _ => hw.2.2.1, fun _ => hw.2.2.2⟩
        split
        · apply hs
          apply writeDirectWith_core h hdr
          intro data hd
          exact placed_positionedAppend (h.offset_le hdr) h.offset_dvd hd
        · apply hs
          apply writeDirectWith_core h hdr
          intro data hd
          exact writeDirectLoop_placed hdr _ _ (h.offset_le hdr) h.offset_dvd hd
      · rw [if_neg hpn]
        refine ⟨h, ⟨rfl, rfl, rfl, rfl⟩, ?_, fun _ hp => absurd hp hpn, ?_⟩
        · intro hb
          rw [hdr] at hb
          cases hb
        · exact fun hd => h.settled hd (by simpa using hpn)
    | false =>
      simp only [Bool.false_eq_true, if_false]
      have hs {reqs : ℕ} {file : WritableFile} (hf : file = w.file.append w.buf.bytes) :
          Flushed o w { w with buf := w.buf.size 0, requests := reqs, file := file } wr := by
        have hc := writeAll_core reqs h hdr hf (.inr rfl)
        rw [if_neg (by omega)] at hc
        refine ⟨hc, ⟨rfl, rfl, rfl, rfl⟩, fun _ => rfl, ?_, ?_⟩
        · intro hd
          rw [hdr] at hd
          cases hd
        · intro hd
          rw [hdr] at hd
          cases hd
      split
      · exact hs rfl
      · exact hs (writeBufferedLoop_content o w.buf.bytes w.requests w.file)
  · rw [if_neg hsize]
    have hps := o.alignment_pos
    refine ⟨h, ⟨rfl, rfl, rfl, rfl⟩, fun _ => by omega, fun _ _ => by omega, ?_⟩
    intro hdr
    have hl := h.length_written hdr
    have hn : w.buf.bytes = [] := eq_nil_of_length_eq_zero (by simp; omega)
    have hwr := h.direct hdr
    rw [hn, append_nil] at hwr
    have hle := h.offset_le hdr
    refine ⟨by omega, ?_⟩
    rw [hl, show w.nextWriteOffset + w.buf.cursize = w.nextWriteOffset by omega, hwr]

theorem flush_spec (h : Core o w wr) : Flushed o w (w.flush o) wr := by
  have hf := flushBuffer_spec h
  obtain ⟨n, hn⟩ := rangeSync_same o (w.flushBuffer o)
  rw [flush, hn]
  have hc := hf.core
  exact ⟨⟨hc.alignment, hc.capacity_dvd, hc.capacity_pos, hc.cursize_le, hc.buffered, hc.direct, hc.offset_le,
    hc.offset_dvd, hc.settled, hc.positioned⟩, ⟨hf.same.capacity, hf.same.alignment, hf.same.filesize,
    hf.same.pendingSync⟩, hf.buffered, hf.drained, hf.settled⟩

theorem Core.fill (h : Core o w wr) (buf : AlignedBuffer) {more : List UInt8}
    (hby : buf.bytes = w.buf.bytes ++ more) (hc : buf.capacity = w.buf.capacity)
    (ha : buf.alignment = w.buf.alignment) (hf : buf.cursize ≤ buf.capacity)
    (hpn : o.useDirectIo = true → w.pendingSync = true) :
    Core o { w with buf := buf } (wr ++ more) := by
  refine ⟨ha.trans h.alignment, ?_, ?_, hf, ?_, ?_, h.offset_le, h.offset_dvd, ?_, h.positioned⟩
  · rw [hc]
    exact h.capacity_dvd
  · rw [hc]
    exact h.capacity_pos
  · intro hb
    rw [hby, ← append_assoc, h.buffered hb]
  · intro hd
    rw [hby, ← append_assoc, h.direct hd]
  · intro hd hp
    rw [hpn hd] at hp
    cases hp

theorem appendLoop_core (fuel : ℕ) (data : List UInt8) (h : Core o w wr)
    (hpn : o.useDirectIo = true → w.pendingSync = true)
    (hfu : data.length + (if w.room = 0 then 2 else 1) ≤ fuel) :
    ∃ w', appendLoop o fuel data w = some w' ∧ Core o w' (wr ++ data) ∧ Same w w' := by
  induction fuel generalizing data w wr with
  | zero =>
    split at hfu <;> omega
  | succ fuel ih =>
    rw [appendLoop]
    by_cases hn : data = []
    · rw [if_pos hn, hn]
      exact ⟨w, rfl, by simpa using h, rfl, rfl, rfl, rfl⟩
    rw [if_neg hn]
    dsimp only
    have hps := length_pos_iff.mpr hn
    have hl : (w.buf.append data).2 = min data.length w.room := rfl
    have hb := w.buf.bytes_append data
    have hle := h.cursize_le
    have hfl : Core o { w with buf := (w.buf.append data).1 } (wr ++ data.take (w.buf.append data).2) := by
      apply h.fill _ hb rfl rfl _ hpn
      change w.buf.cursize + min data.length (w.buf.capacity - w.buf.cursize) ≤ w.buf.capacity
      omega
    by_cases hr : data.drop (w.buf.append data).2 = []
    · rw [if_pos hr]
      refine ⟨_, rfl, ?_, rfl, rfl, rfl, rfl⟩
      have ht : data.take (w.buf.append data).2 = data := by
        rw [drop_eq_nil_iff] at hr
        exact take_of_length_le hr
      rwa [ht] at hfl
    · rw [if_neg hr]
      have hf := flush_spec hfl
      have hrm : 0 < (({ w with buf := (w.buf.append data).1 } : WritableFileWriter).flush o).room := by
        have hcp : 0 < w.buf.capacity := h.capacity_pos
        have hsame : (({ w with buf := (w.buf.append data).1 } : WritableFileWriter).flush o).buf.capacity =
            w.buf.capacity := hf.same.capacity
        have hp := Nat.le_of_dvd hcp h.capacity_dvd
        unfold room
        cases hdr : o.useDirectIo with
        | true =>
          have := hf.drained hdr (hpn hdr)
          omega
        | false =>
          have := hf.buffered hdr
          omega
      have hs : (data.drop (w.buf.append data).2).length + 1 ≤ fuel := by
        rw [length_drop, hl]
        by_cases hz : w.room = 0
        · rw [if_pos hz] at hfu
          omega
        · rw [if_neg hz] at hfu
          omega
      obtain ⟨w', hw', hc, hsame⟩ := ih _ hf.core (fun hd => hf.same.pendingSync.trans (hpn hd))
        (by rw [if_neg (by omega)]; exact hs)
      refine ⟨w', hw', ?_, hsame.capacity.trans hf.same.capacity, hsame.alignment.trans hf.same.alignment,
        hsame.filesize.trans hf.same.filesize, hsame.pendingSync.trans hf.same.pendingSync⟩
      rwa [append_assoc, take_append_drop] at hc

theorem padWith_eq (b : AlignedBuffer) (left : ℕ) :
    b.padWith (min (b.capacity - b.cursize) left) 0 = (b.append (replicate left 0)).1 := by
  have hz : (fun i => (replicate left (0 : UInt8)).getD i 0) = fun _ => 0 := by
    funext i
    rw [getD_eq_getElem?_getD, List.getElem?_replicate]
    split <;> rfl
  rw [padWith, AlignedBuffer.append, hz, length_replicate, Nat.min_comm]

theorem padLoop_eq {fuel left : ℕ} {w' : WritableFileWriter}
    (h : appendLoop o fuel (replicate left 0) w = some w') : padLoop o (fuel + 1) left w = some w' := by
  induction fuel generalizing left w with
  | zero => cases h
  | succ fuel ih =>
    rw [appendLoop] at h
    rw [padLoop]
    by_cases hl : left = 0
    · subst hl
      rw [if_pos replicate_zero] at h
      rw [if_pos rfl]
      exact h
    · rw [if_neg (by simpa using hl)] at h
      rw [if_neg hl]
      dsimp only at h ⊢
      rw [room, padWith_eq]
      have ha : (w.buf.append (replicate left 0)).2 = min (w.buf.capacity - w.buf.cursize) left := by
        rw [AlignedBuffer.append, length_replicate, Nat.min_comm]
      rw [drop_replicate, ha] at h
      by_cases hr : 0 < left - min (w.buf.capacity - w.buf.cursize) left
      · rw [if_neg (by rw [replicate_eq_nil_iff]; omega)] at h
        rw [if_pos hr]
        exact ih h
      · have hz : left - min (w.buf.capacity - w.buf.cursize) left = 0 := by omega
        rw [hz, if_pos replicate_zero] at h
        rw [if_neg hr, hz, padLoop, if_pos rfl]
        exact h

theorem Core.pending (h : Core o w wr) : Core o { w with pendingSync := true } wr :=
  ⟨h.alignment, h.capacity_dvd, h.capacity_pos, h.cursize_le, h.buffered, h.direct, h.offset_le, h.offset_dvd,
    (fun _ hp => nomatch hp), h.positioned⟩

theorem Core.filesize (h : Core o w wr) (n : ℕ) : Core o { w with filesize := n } wr :=
  ⟨h.alignment, h.capacity_dvd, h.capacity_pos, h.cursize_le, h.buffered, h.direct, h.offset_le, h.offset_dvd,
    h.settled, h.positioned⟩

theorem desiredCapacity_pos {left cap desired : ℕ} (h : desiredCapacity o w left cap = some desired) : 0 < desired := by
  induction cap using desiredCapacity.induct o w left with
  | case1 cap hc desired' hr =>
    rw [desiredCapacity, dif_pos hc, if_pos hr] at h
    cases h
    omega
  | case2 cap hc desired' hr ih =>
    rw [desiredCapacity, dif_pos hc, if_neg hr] at h
    exact ih h
  | case3 cap hc =>
    rw [desiredCapacity, dif_neg hc] at h
    cases h

theorem enlarge_core (left : ℕ) (h : Core o w wr) (hpn : w.pendingSync = true) :
    ∃ w', w.enlarge o left = some w' ∧ Core o w' wr ∧ w'.filesize = w.filesize ∧ w'.pendingSync = true := by
  unfold enlarge
  split
  · have hcp := h.capacity_pos
    rw [if_neg (by omega)]
    cases hd : desiredCapacity o w left w.buf.capacity with
    | none => exact ⟨w, rfl, h, rfl, hpn⟩
    | some desired =>
      refine ⟨_, rfl, ?_, rfl, hpn⟩
      have hby := w.buf.bytes_allocateNewBuffer o.fresh desired
      have hps := o.alignment_pos
      have hle := h.cursize_le
      have hsize : (w.buf.allocateNewBuffer o.fresh desired true 0 0).cursize = w.buf.cursize := by
        have := congrArg List.length hby
        rwa [length_bytes, length_bytes] at this
      have hds : 0 < desired := desiredCapacity_pos hd
      have hup := le_roundup (x := desired) hps
      have hc : o.alignment ∣ (w.buf.allocateNewBuffer o.fresh desired true 0 0).capacity ∧
          0 < (w.buf.allocateNewBuffer o.fresh desired true 0 0).capacity ∧
          w.buf.cursize ≤ (w.buf.allocateNewBuffer o.fresh desired true 0 0).capacity := by
        unfold allocateNewBuffer
        simp only [Nat.lt_irrefl, if_false, if_true, true_and]
        split
        · exact ⟨h.capacity_dvd, hcp, hle⟩
        rw [h.alignment]
        refine ⟨dvd_roundup _ _, ?_, ?_⟩
        · dsimp only
          omega
        · dsimp only
          omega
      have ha : (w.buf.allocateNewBuffer o.fresh desired true 0 0).alignment = w.buf.alignment := by
        unfold allocateNewBuffer
        dsimp only
        split
        · rfl
        · split <;> rfl
      refine ⟨ha.trans h.alignment, hc.1, hc.2.1, hsize ▸ hc.2.2, ?_, ?_, h.offset_le, h.offset_dvd, ?_, h.positioned⟩
      · intro hb
        rw [hby]
        exact h.buffered hb
      · intro hd
        rw [hby]
        exact h.direct hd
      · intro _ hp
        rw [hpn] at hp
        cases hp
  · exact ⟨w, rfl, h, rfl, hpn⟩

theorem appendData_core (hasChecksum : Bool) (h : Core o w wr) (hp : w.pendingSync = true)
    (he : o.useDirectIo = false → w.room < data.length → w.buf.cursize = 0) :
    ∃ w', w.appendData o data hasChecksum = some w' ∧ Core o w' (wr ++ data) ∧ w'.filesize = w.filesize := by
  have hl : ∃ w', appendLoop o (data.length + 2) data w = some w' ∧ Core o w' (wr ++ data) ∧
      w'.filesize = w.filesize := by
    obtain ⟨w', hw', hc, hsame⟩ := appendLoop_core (data.length + 2) data h (fun _ => hp) (by split <;> omega)
    exact ⟨w', hw', hc, hsame.filesize⟩
  have ha {reqs : ℕ} {file : WritableFile} (hb : o.useDirectIo = false) (hr : w.room < data.length)
      (hf : file = w.file.append data) :
      Core o { w with buf := w.buf.size 0, requests := reqs, file := file } (wr ++ data) := by
    have hz := he hb hr
    have hc := writeAll_core reqs h hb hf (.inl hz)
    rwa [if_pos hz] at hc
  have hr : w.room ≤ w.buf.capacity := Nat.sub_le _ _
  unfold appendData
  by_cases hs : o.checksumHandoff ∧ hasChecksum
  · rw [if_pos hs]
    by_cases hft : data.length ≤ w.room
    · rw [if_pos (.inr hft), if_pos hft]
      refine ⟨_, rfl, ?_, rfl⟩
      have hle := h.cursize_le
      apply h.fill (w.buf.append data).1 _ rfl rfl _ fun _ => hp
      · rw [bytes_append]
        change _ ++ data.take (min data.length w.room) = _
        rw [Nat.min_eq_left hft, take_length]
      · change w.buf.cursize + min data.length (w.buf.capacity - w.buf.cursize) ≤ w.buf.capacity
        omega
    · cases hdr : o.useDirectIo with
      | true =>
        rw [if_pos (.inl rfl), if_neg hft]
        exact hl
      | false =>
        rw [if_neg (by simp; omega)]
        exact ⟨_, rfl, ha hdr (by omega) rfl, rfl⟩
  · rw [if_neg hs]
    by_cases hft : o.useDirectIo = true ∨ data.length ≤ w.buf.capacity
    · rw [if_pos hft]
      exact hl
    rw [if_neg hft]
    have hbf : o.useDirectIo = false := by
      cases hd : o.useDirectIo with
      | true => exact absurd (.inl hd) hft
      | false => rfl
    have hln : w.room < data.length := by
      have : ¬ data.length ≤ w.buf.capacity := fun hle => hft (.inr hle)
      omega
    split
    · exact ⟨_, rfl, ha hbf hln rfl, rfl⟩
    · exact ⟨_, rfl, ha hbf hln (writeBufferedLoop_content o data w.requests w.file), rfl⟩

theorem append_core (data : List UInt8) (hasChecksum : Bool) (h : Core o w wr) :
    ∃ w', w.append o data hasChecksum = some w' ∧ Core o w' (wr ++ data) ∧ w'.filesize = w.filesize + data.length := by
  obtain ⟨w1, hw1, h1, hsize1, hp1⟩ := enlarge_core data.length h.pending rfl
  have hfl : ∃ w2, (if !o.useDirectIo ∧ w1.room < data.length ∧ 0 < w1.buf.cursize then w1.flush o else w1) = w2 ∧
      Core o w2 wr ∧ w2.pendingSync = true ∧ w2.filesize = w1.filesize ∧
      (o.useDirectIo = false → w2.room < data.length → w2.buf.cursize = 0) := by
    refine ⟨_, rfl, ?_⟩
    split
    · have hf := flush_spec h1
      exact ⟨hf.core, hf.same.pendingSync.trans hp1, hf.same.filesize, fun hb _ => hf.buffered hb⟩
    rename_i hc
    refine ⟨h1, hp1, rfl, ?_⟩
    intro hb hr
    by_contra hne
    exact hc ⟨by simp [hb], hr, by omega⟩
  obtain ⟨w2, hw2, h2, hp2, hsize2, he⟩ := hfl
  obtain ⟨w3, hw3, h3, hsize3⟩ := appendData_core hasChecksum h2 hp2 he
  refine ⟨{ w3 with filesize := w3.filesize + data.length }, ?_, h3.filesize _, ?_⟩
  · rw [append, hw1]
    simp only [Option.bind_eq_bind, Option.bind_some, hw2, hw3]
    rfl
  · change w3.filesize + data.length = _
    rw [hsize3, hsize2, hsize1]

def Guard (o : WriterOptions) (w : WritableFileWriter) : Call → Prop
  | .pad padBytes => o.useDirectIo = true → w.pendingSync = false → padBytes ≤ w.room
  | _ => True

theorem pad_core {pb : ℕ} (h : Core o w wr) (hg : Guard o w (.pad pb)) :
    ∃ w', w.pad o pb = some w' ∧ Core o w' (wr ++ replicate pb 0) ∧ w'.filesize = w.filesize + pb := by
  have hcp := h.cursize_le
  by_cases hs : o.useDirectIo = true ∧ w.pendingSync = false
  · have hr := hg hs.1 hs.2
    have hm : min w.room pb = pb := Nat.min_eq_right hr
    have hl : padLoop o (pb + 3) pb w = some { w with buf := w.buf.padWith pb 0 } := by
      rw [padLoop]
      split
      · rename_i hz
        subst hz
        simp [padWith]
      · rw [hm]
        dsimp only
        rw [Nat.sub_self, if_neg (by omega), padLoop, if_pos rfl]
    refine ⟨_, by rw [pad, hl]; rfl, ?_, rfl⟩
    have hf := h.pending.fill (w.buf.padWith pb 0) (w.buf.bytes_padWith pb 0) rfl rfl
      (by change w.buf.cursize + pb ≤ w.buf.capacity; unfold room at hr; omega) (fun _ => rfl)
    exact hf.filesize _
  · have hpn : o.useDirectIo = true → w.pendingSync = true := by
      intro hd
      by_contra hp
      exact hs ⟨hd, by simpa using hp⟩
    obtain ⟨w', hw', hc, hsame⟩ := appendLoop_core (pb + 2) (replicate pb 0) h
      hpn (by rw [length_replicate]; split <;> omega)
    refine ⟨_, by rw [pad, padLoop_eq hw']; rfl, hc.pending.filesize _, ?_⟩
    change w'.filesize + pb = _
    rw [hsame.filesize]

def added : Call → List UInt8
  | .append data _ => data
  | .pad padBytes => replicate padBytes 0
  | .flush | .sync => []

theorem new_core (hc : 0 < o.initialCapacity) : Core o (new o) [] := by
  have hp := o.alignment_pos
  have hup := le_roundup (x := o.initialCapacity) hp
  have hb : (new o).buf = ⟨o.alignment, roundup o.initialCapacity o.alignment, 0, o.fresh⟩ := by
    simp [new, allocateNewBuffer, empty]
  refine ⟨?_, ?_, ?_, ?_, ?_, ?_, ?_, Nat.dvd_zero _, ?_, nofun⟩
  · rw [hb]
  · rw [hb]
    exact dvd_roundup _ _
  · rw [hb]
    dsimp only
    omega
  · rw [hb]
    exact Nat.zero_le _
  · intro _
    rw [hb]
    rfl
  · intro _
    rw [hb]
    rfl
  · exact fun _ => Nat.le_refl _
  · exact fun _ _ => ⟨Nat.le_refl _, rfl⟩

section

variable (h : Core o w wr) (hsize : w.filesize = wr.length)

include h hsize

theorem step_core {call : Call} (hg : Guard o w call) : ∃ w', w.step o call = some w' ∧ Core o w' (wr ++ added call) ∧
      w'.filesize = (wr ++ added call).length := by
  cases call with
  | append data hasChecksum =>
    obtain ⟨w', hw', hcr, hsize'⟩ := append_core data hasChecksum h
    exact ⟨w', hw', hcr, by rw [hsize', hsize, added, length_append]⟩
  | pad pb =>
    obtain ⟨w', hw', hcr, hsize'⟩ := pad_core h hg
    exact ⟨w', hw', hcr, by rw [hsize', hsize, added, length_append, length_replicate]⟩
  | flush =>
    have hf := flush_spec h
    rw [added, append_nil]
    exact ⟨_, rfl, hf.core, hf.same.filesize.trans hsize⟩
  | sync =>
    have hf := flush_spec h
    have hc := hf.core
    rw [added, append_nil]
    refine ⟨_, rfl, ?_, hf.same.filesize.trans hsize⟩
    exact ⟨hc.alignment, hc.capacity_dvd, hc.capacity_pos, hc.cursize_le, hc.buffered, hc.direct, hc.offset_le,
      hc.offset_dvd, fun hd _ => hf.settled hd, hc.positioned⟩

theorem run_core {calls : List Call} (hg : Along (step o) (Guard o) w calls) :
    let r := wr ++ calls.flatMap added
    ∃ w', run (step o) w calls = some w' ∧ Core o w' r ∧ w'.filesize = r.length := by
  induction calls generalizing w wr with
  | nil => exact ⟨w, rfl, by simpa using h, by simpa using hsize⟩
  | cons call calls ih =>
    obtain ⟨hcl, hc⟩ := hg
    obtain ⟨w1, hw1, h1, hsize1⟩ := step_core h hsize hcl
    obtain ⟨w', hw', hcr, hsize'⟩ := ih h1 hsize1 (hc w1 hw1)
    rw [append_assoc] at hcr hsize'
    exact ⟨w', run_cons.mpr ⟨w1, hw1, hw'⟩, hcr, hsize'⟩

theorem close_content : (w.close o).file.content = wr ∧ (w.close o).filesize = wr.length ∧
      ∀ p ∈ (w.close o).file.positioned, o.alignment ∣ p.1 ∧ o.alignment ∣ p.2 := by
  have hf := flush_spec h
  have hfl : (w.flush o).filesize = wr.length := hf.same.filesize.trans hsize
  unfold close
  cases hd : o.useDirectIo with
  | true =>
    rw [if_pos rfl]
    obtain ⟨hle, ht⟩ := hf.settled hd
    refine ⟨?_, hfl, hf.core.positioned⟩
    change (w.flush o).file.content.take (w.flush o).filesize ++ replicate _ 0 = wr
    rw [hfl, ht, Nat.sub_eq_zero_of_le hle, replicate_zero, append_nil]
  | false =>
    rw [if_neg Bool.false_ne_true]
    refine ⟨?_, hfl, hf.core.positioned⟩
    have hn : (w.flush o).buf.bytes = [] := eq_nil_of_length_eq_zero (by rw [length_bytes]; exact hf.buffered hd)
    have hc := hf.core.buffered hd
    rwa [hn, append_nil] at hc

end

def pageWriter : WriterOptions where
  initialCapacity := 4
  maxBufferSize := 4
  alignment := 4
  alignment_pow := ⟨2, rfl⟩
  useDirectIo := true
  checksumHandoff := false
  bytesPerSync := 0
  rateLimiter :=
    { requestToken := fun _ bytes => if bytes < 4 then bytes else 4
      pos := by intro _ bytes _; split <;> omega
      le := by intro _ bytes; split <;> omega
      dvd := by intro _ _ bytes _; split <;> omega }
  fresh := fun _ => 255

instance (o : WriterOptions) (w : WritableFileWriter) : (call : Call) → Decidable (Guard o w call)
  | .pad padBytes =>
    inferInstanceAs (Decidable (o.useDirectIo = true → w.pendingSync = false → padBytes ≤ w.room))
  | .append .. | .flush | .sync => inferInstanceAs (Decidable True)

theorem padLoop_stuck {left : ℕ} (hr : w.room = 0) (hf : w.flush o = w) (hl : 0 < left) (fuel : ℕ) :
    padLoop o fuel left w = none := by
  induction fuel with
  | zero => rfl
  | succ fuel ih =>
    have hp : ({ w with buf := w.buf.padWith 0 0 } : WritableFileWriter) = w := by
      simp [padWith]
    rw [padLoop, if_neg (by omega)]
    dsimp only
    rw [hr, Nat.zero_min, Nat.sub_zero, if_pos hl, hp, hf]
    exact ih

theorem flush_of_settled (hd : o.useDirectIo = true) (hp : w.pendingSync = false) : w.flush o = w := by
  have hb : w.flushBuffer o = w := by
    unfold flushBuffer
    rw [hd, hp]
    simp
  rw [flush, hb, rangeSync, if_neg (by simp [hd])]

theorem padLoop_none {left : ℕ} (hd : o.useDirectIo = true) (hp : w.pendingSync = false)
    (hl : w.room < left) (hle : w.buf.cursize ≤ w.buf.capacity) (fuel : ℕ) : padLoop o fuel left w = none := by
  cases fuel with
  | zero => rfl
  | succ fuel =>
    have hm : min w.room left = w.room := Nat.min_eq_left (by omega)
    have hf : ({ w with buf := w.buf.padWith w.room 0 } : WritableFileWriter).flush o =
        { w with buf := w.buf.padWith w.room 0 } := flush_of_settled hd hp
    rw [padLoop, if_neg (by omega)]
    dsimp only
    rw [hm, if_pos (by omega), hf]
    apply padLoop_stuck _ hf (by omega)
    change w.buf.capacity - (w.buf.cursize + (w.buf.capacity - w.buf.cursize)) = 0
    omega

end WritableFileWriter

end ZenFSPlus.File
