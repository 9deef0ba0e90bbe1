import ZenFSPlus.File.FilePrefetchBuffer

namespace ZenFSPlus.File

open Lib ZenFSPlus.Util

variable {ε : Type} {file : RandomAccessFile} {out : ReadOutcome ε} {b c : FilePrefetchBuffer} {offset n : ℕ}

namespace RandomAccessFile

theorem alignment_pos (file : RandomAccessFile) : 0 < file.alignment :=
  Nat.pos_of_dvd_of_pos file.alignment_dvd (by decide)

theorem read_before (file : RandomAccessFile) (out : ReadOutcome ε) (offset n : ℕ) (buf : Mem UInt8) {d i : ℕ}
    (h : i < d) : (file.read out offset n buf d).1 i = buf i := by
  unfold read
  cases out.status with
  | error e => exact Mem.copy_of_notMem _ _ _ _ _ _ (.inl h)
  | ok u =>
    dsimp only
    rw [Mem.copy_of_notMem _ _ _ _ _ _ (.inl h), Mem.copy_of_notMem _ _ _ _ _ _ (.inl h)]

variable {u : Unit}

theorem read_size (h : out.status = .ok u) (offset n : ℕ) (buf : Mem UInt8) (d : ℕ) :
    (file.read out offset n buf d).2 = min n (file.content.length - offset) := by
  simp [read, h]

theorem read_bytes (h : out.status = .ok u) (offset n : ℕ) (buf : Mem UInt8) (d : ℕ) {i : ℕ}
    (hi : i < (file.read out offset n buf d).2) :
    file.content[offset + i]? = some ((file.read out offset n buf d).1 (d + i)) := by
  rw [read_size h] at hi
  have hlt : offset + i < file.content.length := by omega
  simp only [read, h]
  rw [Mem.copy_of_mem _ _ _ _ _ _ hi, List.getElem?_eq_getElem hlt]
  simp [hlt]

end RandomAccessFile

open RandomAccessFile

namespace FilePrefetchBuffer

structure Cached (file : RandomAccessFile) (b : FilePrefetchBuffer) : Prop where
  aligned : file.alignment ∣ b.bufferOffset
  bytes : ∀ i < b.buffer.cursize, file.content[b.bufferOffset + i]? = some (b.buffer.buf i)

theorem Cached.bufferEnd_le (h : Cached file b) (hs : 0 < b.buffer.cursize) : b.bufferEnd ≤ file.content.length := by
  have hl := h.bytes (b.buffer.cursize - 1) (by omega)
  have hlt := (List.getElem?_eq_some_iff.mp hl).1
  unfold bufferEnd
  omega

def Reads (b : FilePrefetchBuffer) (offset n : ℕ) : Prop :=
  b.enable ∧ ¬ (b.Starts offset ∧ u64 (offset + n) ≤ b.bufferEnd)

def KeepsOnFailure (file : RandomAccessFile) (b : FilePrefetchBuffer) (offset n : ℕ) : Prop :=
  b.buffer.cursize = 0 ∨
    b.bufferOffset ≤ offset ∧ offset < b.bufferOffset + file.alignment ∧ offset ≤ b.bufferEnd ∨
    ¬ b.Starts offset ∧ b.buffer.capacity < roundupLen file offset n

instance : Decidable (KeepsOnFailure file b offset n) := inferInstanceAs (Decidable (_ ∨ _))

theorem chunk_span (h : Cached file b) (hs : b.Starts offset) :
    b.bufferOffset + b.chunkOffsetInBuffer file offset = rounddown offset file.alignment ∧
      rounddown offset file.alignment + b.chunkLen file offset = b.bufferEnd := by
  have hsb := rounddown_sub file.alignment_pos h.aligned hs.2.1
  have hle := rounddown_le (offset - b.bufferOffset) file.alignment
  have he := hs.2.2
  unfold bufferEnd at he ⊢
  simp only [chunkLen, chunkOffsetInBuffer, if_pos hs]
  omega

theorem chunkLen_of_not_starts (hs : ¬ b.Starts offset) : b.chunkLen file offset = 0 := if_neg hs

theorem chunkLen_lt_roundupLen (h : Cached file b) (hs : b.Starts offset) (hr : ¬ u64 (offset + n) ≤ b.bufferEnd) :
    b.chunkLen file offset < roundupLen file offset n ∨ roundupLen file offset n = 0 := by
  obtain ⟨-, hsp⟩ := chunk_span h hs
  have he := h.bufferEnd_le hs.1
  have hl := file.length_lt
  have hw := u64_lt (offset + n)
  have hle := le_roundup (x := u64 (offset + n)) file.alignment_pos
  have hup := roundup_le_of_dvd file.alignment_pos file.alignment_dvd (Nat.le_of_lt hw)
  unfold roundupLen sub64
  rcases Nat.lt_or_eq_of_le hup with hlt | heq
  · rw [u64_of_lt hlt]
    left
    split <;> omega
  · rw [heq]
    simp only [u64, Nat.mod_self]
    split <;> omega

theorem makeRoom_eq (out : ReadOutcome ε) (h : Cached file b) (hr : Reads b offset n)
    (hp : 0 < b.chunkLen file offset) :
    let r := b.makeRoom file out offset n
    r.cursize = b.chunkLen file offset ∧ ∃ mem : Mem UInt8, r.buf =
        mem.copy 0 b.buffer.buf (b.chunkOffsetInBuffer file offset) (b.chunkLen file offset) := by
  have hs : b.Starts offset := by
    by_contra hs
    rw [chunkLen_of_not_starts hs] at hp
    omega
  have hrm := chunkLen_lt_roundupLen h hs fun hu => hr.2 ⟨hs, hu⟩
  rw [makeRoom]
  split
  · rw [AlignedBuffer.allocateNewBuffer]
    simp only [hp, if_true, decide_true, true_and]
    rw [if_neg (by omega)]
    exact ⟨rfl, out.scratch, rfl⟩
  · exact ⟨rfl, b.buffer.buf, rfl⟩

theorem makeRoom_bytes (out : ReadOutcome ε) (h : Cached file b) (hr : Reads b offset n) : ∀ i < b.chunkLen file offset,
      file.content[rounddown offset file.alignment + i]? = some ((b.makeRoom file out offset n).buf i) := by
  intro i hi
  have hs : b.Starts offset := by
    by_contra hs
    rw [chunkLen_of_not_starts hs] at hi
    omega
  obtain ⟨hst, hsp⟩ := chunk_span h hs
  obtain ⟨-, mem, hm⟩ := makeRoom_eq out h hr (by omega)
  have hk : file.content[rounddown offset file.alignment + i]? =
      some (b.buffer.buf (b.chunkOffsetInBuffer file offset + i)) := by
    rw [← hst, add_assoc]
    apply h.bytes
    unfold bufferEnd at hsp
    omega
  rw [hk, hm, Mem.copy_zero_of_mem _ _ _ _ _ hi]

theorem makeRoom_cursize (out : ReadOutcome ε) (h : Cached file b) (hr : Reads b offset n)
    (hk : KeepsOnFailure file b offset n) :
    (b.makeRoom file out offset n).cursize = b.chunkLen file offset ∧
      (0 < b.chunkLen file offset → rounddown offset file.alignment = b.bufferOffset) := by
  by_cases hs : b.Starts offset
  · obtain ⟨hst, hsp⟩ := chunk_span h hs
    have hp := file.alignment_pos
    have hsz := hs.1
    have hf : offset < b.bufferOffset + file.alignment := by
      rcases hk with hk | hk | hk
      · omega
      · exact hk.2.1
      · exact absurd hs hk.1
    have hz : b.chunkOffsetInBuffer file offset = 0 := by
      rw [chunkOffsetInBuffer, if_pos hs, rounddown, Nat.div_eq_of_lt (by omega), Nat.zero_mul]
    unfold bufferEnd at hsp
    exact ⟨(makeRoom_eq out h hr (by omega)).1, fun _ => by omega⟩
  · have hl : b.chunkLen file offset = 0 := chunkLen_of_not_starts hs
    refine ⟨?_, fun hp => by omega⟩
    rw [makeRoom, hl]
    split
    · simp [AlignedBuffer.allocateNewBuffer]
    rcases hk with hk | hk | hk
    · simpa using hk
    · by_contra hne
      exact hs ⟨Nat.pos_of_ne_zero (by simpa using hne), hk.1, hk.2.2⟩
    · omega

theorem prefetch_of_not_reads (hr : ¬ Reads b offset n) : b.prefetch file out offset n = (.ok (), b) := by
  unfold prefetch
  by_cases he : b.enable
  · rw [if_neg (by simp [he]), if_pos (by by_contra hc; exact hr ⟨he, hc⟩)]
  · rw [if_pos (by simpa using he)]

theorem prefetch_of_error (file : RandomAccessFile) {e : ε} (hr : Reads b offset n) (he : out.status = .error e) :
    (b.prefetch file out offset n).2.bufferOffset = b.bufferOffset ∧
    (b.prefetch file out offset n).2.buffer.cursize = (b.makeRoom file out offset n).cursize ∧
    ∀ i < b.chunkLen file offset, (b.prefetch file out offset n).2.buffer.buf i =
      (b.makeRoom file out offset n).buf i := by
  unfold prefetch
  rw [if_neg (by simp [hr.1]), if_neg hr.2]
  simp only [he]
  refine ⟨trivial, trivial, ?_⟩
  intro i hi
  exact read_before file out _ _ _ hi

theorem prefetch_of_ok (file : RandomAccessFile) {u : Unit} (hr : Reads b offset n) (ho : out.status = .ok u) :
    ∃ size buf, (b.prefetch file out offset n).2.bufferOffset = rounddown offset file.alignment ∧
      (b.prefetch file out offset n).2.buffer.cursize = b.chunkLen file offset + size ∧
      (b.prefetch file out offset n).2.buffer.buf = buf ∧
      size = min (sub64 (roundupLen file offset n) (b.chunkLen file offset))
        (file.content.length - (rounddown offset file.alignment + b.chunkLen file offset)) ∧
      (∀ i < b.chunkLen file offset, buf i = (b.makeRoom file out offset n).buf i) ∧
      ∀ i < size, file.content[rounddown offset file.alignment + b.chunkLen file offset + i]? =
        some (buf (b.chunkLen file offset + i)) := by
  unfold prefetch
  rw [if_neg (by simp [hr.1]), if_neg hr.2]
  simp only [ho]
  refine ⟨_, _, trivial, rfl, rfl, read_size ho _ _ _ _, ?_, ?_⟩
  · intro i hi
    exact read_before file out _ _ _ hi
  · intro i hi
    exact read_bytes ho _ _ _ _ hi

theorem prefetch_cached (h : Cached file b)
    (hk : ∀ e, out.status = .error e → Reads b offset n → KeepsOnFailure file b offset n) :
    Cached file (b.prefetch file out offset n).2 := by
  by_cases hr : Reads b offset n
  · have hch := makeRoom_bytes out h hr
    cases ho : out.status with
    | error e =>
      obtain ⟨hoff, hs, hb⟩ := prefetch_of_error file hr ho
      obtain ⟨hrm, hsame⟩ := makeRoom_cursize out h hr (hk e ho hr)
      constructor
      · rw [hoff]
        exact h.aligned
      · intro i hi
        rw [hs, hrm] at hi
        rw [hoff, hb i hi, ← hsame (by omega)]
        exact hch i hi
    | ok u =>
      obtain ⟨size, buf, hoff, hs, hb, -, hkp, hrd⟩ := prefetch_of_ok file hr ho
      constructor
      · rw [hoff]
        exact dvd_rounddown _ _
      · intro i hi
        rw [hoff, hb]
        rw [hs] at hi
        by_cases hc : i < b.chunkLen file offset
        · rw [hkp i hc]
          exact hch i hc
        · have := hrd (i - b.chunkLen file offset) (by omega)
          rw [add_assoc, Nat.add_sub_cancel' (by omega)] at this
          exact this
  · rw [prefetch_of_not_reads hr]
    exact h

theorem prefetch_covers {u : Unit} (h : Cached file b) (hr : Reads b offset n) (ho : out.status = .ok u)
    (hf : offset + n + file.alignment ≤ 18446744073709551616) :
    (b.prefetch file out offset n).2.bufferOffset ≤ offset ∧
      min (offset + n) file.content.length ≤ (b.prefetch file out offset n).2.bufferEnd := by
  obtain ⟨size, buf, hoff, hsz, -, hm, -, -⟩ := prefetch_of_ok file hr ho
  have hd := rounddown_le offset file.alignment
  have hp := file.alignment_pos
  have hw : u64 (offset + n) = offset + n := u64_of_lt (by omega)
  have hup := roundup_lt_add (x := offset + n) hp
  have hle := le_roundup (x := offset + n) hp
  have hl : roundupLen file offset n = roundup (offset + n) file.alignment - rounddown offset file.alignment := by
    unfold roundupLen
    rw [hw, u64_of_lt (by omega), sub64_of_le (by omega)]
  have hc : b.chunkLen file offset ≤ roundupLen file offset n := by
    by_cases hs : b.Starts offset
    · obtain ⟨-, hsp⟩ := chunk_span h hs
      have hgt : ¬ u64 (offset + n) ≤ b.bufferEnd := fun hu => hr.2 ⟨hs, hu⟩
      omega
    · rw [chunkLen_of_not_starts hs]
      exact Nat.zero_le _
  rw [sub64_of_le hc] at hm
  rw [bufferEnd, hoff, hsz]
  omega

def Guard (file : RandomAccessFile) (b : FilePrefetchBuffer) : Call ε → Prop
  | .prefetch offset n out =>
    ∀ e, out.status = .error e → Reads b offset n → KeepsOnFailure file b offset n
  | .tryReadFromCache offset n forCompaction out =>
    offset + n + b.readaheadSize + file.alignment ≤ 18446744073709551616 ∧
      ∀ e, out.status = .error e → b.bufferEnd < offset + n → 0 < b.readaheadSize →
        KeepsOnFailure file b offset (if forCompaction then max n b.readaheadSize else n + b.readaheadSize)
  | .updateReadPattern .. => True

structure SameBytes (b c : FilePrefetchBuffer) : Prop where
  buffer : c.buffer = b.buffer
  bufferOffset : c.bufferOffset = b.bufferOffset
  enable : c.enable = b.enable

theorem SameBytes.cached (h : SameBytes b c) (hc : Cached file b) : Cached file c := by
  constructor
  · rw [h.bufferOffset]
    exact hc.aligned
  · rw [h.buffer, h.bufferOffset]
    exact hc.bytes

theorem SameBytes.bufferEnd (h : SameBytes b c) : c.bufferEnd = b.bufferEnd := by
  rw [FilePrefetchBuffer.bufferEnd, FilePrefetchBuffer.bufferEnd, h.buffer, h.bufferOffset]

theorem SameBytes.keepsOnFailure (h : SameBytes b c) (hk : KeepsOnFailure file b offset n) :
    KeepsOnFailure file c offset n := by
  unfold KeepsOnFailure Starts at hk ⊢
  rwa [h.bufferEnd, h.buffer, h.bufferOffset]

theorem sameBytes_updateReadPattern (b : FilePrefetchBuffer) (offset len : ℕ) (adaptive : Bool) :
    SameBytes b (b.updateReadPattern offset len adaptive) := by
  unfold updateReadPattern decreaseReadAheadIfEligible
  cases adaptive with
  | false => exact ⟨rfl, rfl, rfl⟩
  | true =>
    by_cases h : b.implicitAutoReadahead ∧ 0 < b.readaheadSize ∧ b.bufferEnd < u64 (offset + len) ∧
      b.isBlockSequential offset ∧ kMinNumFileReadsToStartAutoReadahead < b.numFileReads + 1
    · simp only [if_pos h]
      exact ⟨rfl, rfl, rfl⟩
    · simp only [if_neg h]
      exact ⟨rfl, rfl, rfl⟩

theorem tryReadFromCache_cases (b : FilePrefetchBuffer) (file : RandomAccessFile) (out : ReadOutcome ε)
    (offset n : ℕ) (forCompaction : Bool) :
    let r := b.tryReadFromCache file out offset n forCompaction
    r.1.result = none ∧ SameBytes b r.2 ∨
      (∃ c, SameBytes b c ∧ b.bufferOffset ≤ offset ∧ u64 (offset + n) ≤ b.bufferEnd ∧
        b.tryReadFromCache file out offset n forCompaction = c.serve offset n) ∨
      ∃ c, SameBytes b c ∧ b.enable ∧ b.bufferOffset ≤ offset ∧ b.bufferEnd < u64 (offset + n) ∧
        0 < b.readaheadSize ∧ b.tryReadFromCache file out offset n forCompaction = c.prefetchAndServe file out offset n
            (if forCompaction then max n b.readaheadSize else u64 (n + b.readaheadSize)) := by
  have ht : ∃ c, (if b.trackMinOffset ∧ offset < b.minOffsetRead then { b with minOffsetRead := offset }
      else b) = c ∧ SameBytes b c ∧ c.readaheadSize = b.readaheadSize := by
    refine ⟨_, rfl, ?_⟩
    split <;> exact ⟨⟨rfl, rfl, rfl⟩, rfl⟩
  obtain ⟨c, hc, hsame, ha⟩ := ht
  unfold tryReadFromCache
  simp only [hc]
  simp only [← ha, ← hsame.bufferEnd, ← hsame.bufferOffset, ← hsame.enable]
  by_cases ho : !c.enable ∨ offset < c.bufferOffset
  · rw [if_pos ho]
    exact .inl ⟨rfl, hsame⟩
  simp only [Bool.not_eq_eq_eq_not, Bool.not_true, not_or, Bool.not_eq_false, Nat.not_lt] at ho
  rw [if_neg (by simp [ho])]
  by_cases hin : u64 (offset + n) ≤ c.bufferEnd
  · rw [if_pos hin]
    exact .inr (.inl ⟨c, hsame, ho.2, hin, rfl⟩)
  rw [if_neg hin]
  by_cases hz : c.readaheadSize = 0
  · rw [if_pos hz]
    exact .inl ⟨rfl, hsame⟩
  rw [if_neg hz]
  cases forCompaction with
  | true => exact .inr (.inr ⟨c, hsame, ho.1, ho.2, by omega, by omega, rfl⟩)
  | false =>
    simp only [Bool.false_eq_true, if_false]
    by_cases hau : c.implicitAutoReadahead
    · rw [if_pos hau]
      by_cases hs : !c.isBlockSequential offset
      · rw [if_pos hs]
        have hp := sameBytes_updateReadPattern c offset n false
        exact .inl ⟨rfl, hp.buffer.trans hsame.buffer, hp.bufferOffset.trans hsame.bufferOffset,
          hp.enable.trans hsame.enable⟩
      · rw [if_neg hs]
        by_cases hf : c.numFileReads + 1 ≤ kMinNumFileReadsToStartAutoReadahead
        · rw [if_pos hf]
          exact .inl ⟨rfl, hsame.buffer, hsame.bufferOffset, hsame.enable⟩
        · rw [if_neg hf]
          refine .inr (.inr ⟨_, ?_, ho.1, ho.2, by omega, by omega, rfl⟩)
          exact ⟨hsame.buffer, hsame.bufferOffset, hsame.enable⟩
    · rw [if_neg hau]
      exact .inr (.inr ⟨c, hsame, ho.1, ho.2, by omega, by omega, rfl⟩)

theorem serve_sameBytes (b : FilePrefetchBuffer) (offset n : ℕ) :
    SameBytes b (b.serve (ε := ε) offset n).2 := sameBytes_updateReadPattern b offset n false

theorem serve_delivers (h : Cached file b) (hl : b.bufferOffset ≤ offset) (hu : offset + n ≤ b.bufferEnd) :
    (b.serve (ε := ε) offset n).1.result = some ((file.content.drop offset).take n) := by
  unfold serve
  simp only [Option.some.injEq]
  apply Mem.load_eq_take_drop
  intro i hi
  unfold bufferEnd at hu
  have := h.bytes (offset - b.bufferOffset + i) (by omega)
  rwa [← add_assoc, Nat.add_sub_cancel' hl] at this

variable {len : ℕ}

theorem prefetchAndServe_cached (h : Cached file b)
    (hk : ∀ e, out.status = .error e → Reads b offset len → KeepsOnFailure file b offset len) :
    Cached file (b.prefetchAndServe file out offset n len).2 := by
  have hc := prefetch_cached h hk
  unfold prefetchAndServe
  split
  · rename_i e c heq
    rwa [heq] at hc
  rename_i u c heq
  rw [heq] at hc
  apply (serve_sameBytes _ offset n).cached
  exact ⟨hc.aligned, hc.bytes⟩

theorem prefetchAndServe_delivers {bytes : List UInt8} (h : Cached file b) (hr : Reads b offset len)
    (hln : n ≤ len) (hf : offset + len + file.alignment ≤ 18446744073709551616)
    (hen : offset + n ≤ file.content.length)
    (hrs : (b.prefetchAndServe file out offset n len).1.result = some bytes) :
    bytes = (file.content.drop offset).take n := by
  unfold prefetchAndServe at hrs
  split at hrs
  · simp at hrs
  rename_i u c heq
  have ho : out.status = .ok () := by
    cases ho : out.status with
    | ok u => rfl
    | error e =>
      unfold prefetch at heq
      rw [if_neg (by simp [hr.1]), if_neg hr.2] at heq
      simp [ho] at heq
  have hc : Cached file (b.prefetch file out offset len).2 := prefetch_cached h (fun e he => by rw [ho] at he; cases he)
  obtain ⟨hl, hu⟩ := prefetch_covers h hr ho hf
  rw [heq] at hc hl hu
  have hs := serve_delivers (ε := ε) (n := n)
    (b := { c with readaheadSize := min c.maxReadaheadSize (u64 (c.readaheadSize * 2)) })
    ⟨hc.aligned, hc.bytes⟩ hl (by simp only [bufferEnd] at hu ⊢; omega)
  rw [hs] at hrs
  exact (Option.some.inj hrs).symm

variable {forCompaction : Bool}

theorem prefetched_len (hg : Guard file b (.tryReadFromCache offset n forCompaction out)) :
    let r := if forCompaction then max n b.readaheadSize else n + b.readaheadSize
    (if forCompaction then max n b.readaheadSize else u64 (n + b.readaheadSize)) = r ∧ n ≤ r ∧
      offset + r + file.alignment ≤ 18446744073709551616 := by
  have hf := hg.1
  have hp := file.alignment_pos
  rw [u64_of_lt (by omega)]
  refine ⟨rfl, ?_⟩
  split <;> omega

section

variable (h : Cached file b) (hg : Guard file b (.tryReadFromCache offset n forCompaction out))

include h hg

theorem tryReadFromCache_cached : Cached file (b.tryReadFromCache file out offset n forCompaction).2 := by
  rcases tryReadFromCache_cases b file out offset n forCompaction with
    ⟨-, hsame⟩ | ⟨c, hsame, -, -, heq⟩ | ⟨c, hsame, -, -, hb, ha, heq⟩
  · exact hsame.cached h
  · rw [heq]
    exact (serve_sameBytes c offset n).cached (hsame.cached h)
  · rw [heq, (prefetched_len hg).1]
    apply prefetchAndServe_cached (hsame.cached h)
    intro e he hr
    have := u64_le (offset + n)
    exact hsame.keepsOnFailure (hg.2 e he (by omega) ha)

theorem tryReadFromCache_delivers {bytes : List UInt8} (he : offset + n ≤ file.content.length)
    (hrs : (b.tryReadFromCache file out offset n forCompaction).1.result = some bytes) :
    bytes = (file.content.drop offset).take n := by
  have hf := hg.1
  have hp := file.alignment_pos
  have hw : u64 (offset + n) = offset + n := u64_of_lt (by omega)
  rcases tryReadFromCache_cases b file out offset n forCompaction with
    ⟨hn, -⟩ | ⟨c, hsame, hl, hin, heq⟩ | ⟨c, hsame, hen, hl, hb, -, heq⟩
  · rw [hn] at hrs
    cases hrs
  · rw [heq, serve_delivers (hsame.cached h) (by rwa [hsame.bufferOffset]) (by rw [hsame.bufferEnd]; omega)] at hrs
    exact (Option.some.inj hrs).symm
  · obtain ⟨hln, hle, hr⟩ := prefetched_len hg
    rw [heq, hln] at hrs
    apply prefetchAndServe_delivers (hsame.cached h) _ hle hr he hrs
    refine ⟨by rw [hsame.enable]; exact hen, ?_⟩
    rintro ⟨-, hu⟩
    rw [u64_of_lt (by omega), hsame.bufferEnd] at hu
    omega

end

theorem step_cached (file : RandomAccessFile) (b : FilePrefetchBuffer) (call : Call ε) (c : FilePrefetchBuffer)
    (hg : Guard file b call) (hs : step file b call = some c) (h : Cached file b) : Cached file c := by
  cases call with
  | prefetch offset n out =>
    cases hs
    exact prefetch_cached h hg
  | tryReadFromCache offset n forCompaction out =>
    cases hs
    exact tryReadFromCache_cached h hg
  | updateReadPattern offset len adaptive =>
    cases hs
    exact (sameBytes_updateReadPattern b offset len adaptive).cached h

/-- After any calls the buffer survives, a request inside the file that is answered
is answered with the file's bytes. -/
theorem tryReadFromCache_file_bytes (file : RandomAccessFile) (readahead maxReadahead : ℕ)
    (enable trackMinOffset implicitAuto : Bool) (calls : List (Call ε)) (b : FilePrefetchBuffer)
    (hrun : run (step file) (new readahead maxReadahead enable trackMinOffset implicitAuto) calls = some b)
    (hguard : Along (step file) (Guard file) (new readahead maxReadahead enable trackMinOffset implicitAuto) calls)
    (offset n : ℕ) (forCompaction : Bool) (out : ReadOutcome ε)
    (hlast : Guard file b (.tryReadFromCache offset n forCompaction out))
    (hend : offset + n ≤ file.content.length) (bytes : List UInt8)
    (hres : (b.tryReadFromCache file out offset n forCompaction).1.result = some bytes) :
    bytes = (file.content.drop offset).take n := by
  apply tryReadFromCache_delivers _ hlast hend hres
  apply run_invariant_along (Guard file) (Cached file) (step_cached file) hrun hguard
  exact ⟨Nat.dvd_zero _, fun i hi => absurd hi (Nat.not_lt_zero i)⟩

def pages : RandomAccessFile where
  content := [0, 1, 2, 3, 4, 5, 6, 7, 8, 9, 10, 11, 12, 13, 14, 15]
  alignment := 4
  length_lt := by decide
  alignment_dvd := by decide

def readOk : ReadOutcome String := ⟨.ok (), fun _ => 255⟩

def readFails : ReadOutcome String := ⟨.error "IO error", fun _ => 255⟩

theorem tryReadFromCache_file_bytes_after_error : ∃ b : FilePrefetchBuffer,
      run (step pages) (new 4 8 true false false) [.prefetch 4 8 readOk, .prefetch 6 8 readFails] = some b ∧
      (b.tryReadFromCache pages readOk 6 10 false).1.result = some [6, 7, 8, 9, 10, 11, 12, 13, 14, 15] ∧
      [6, 7, 8, 9, 10, 11, 12, 13, 14, 15] = (pages.content.drop 6).take 10 :=
  ⟨_, rfl, by decide, tryReadFromCache_file_bytes pages 4 8 true false false
    [.prefetch 4 8 readOk, .prefetch 6 8 readFails] _ rfl
    ⟨(fun _ h => nomatch h), fun _ h => by cases h; exact ⟨fun _ _ _ => by decide, fun _ _ => trivial⟩⟩
    6 10 false readOk ⟨by decide, fun _ h => nomatch h⟩ (by decide) _ (by decide)⟩

/-- A failing read has already moved the second page over the first one, and the
buffer still counts as starting at the first. -/
theorem tryReadFromCache_after_failed_prefetch : ∃ b : FilePrefetchBuffer,
      run (step pages) (new 0 0 true false false) [.prefetch 0 8 readOk, .prefetch 4 8 readFails] = some b ∧
      (b.tryReadFromCache pages readOk 0 4 false).1.result = some [4, 5, 6, 7] ∧
      (pages.content.drop 0).take 4 = [0, 1, 2, 3] :=
  ⟨_, rfl, by decide, by decide⟩

end FilePrefetchBuffer

end ZenFSPlus.File
