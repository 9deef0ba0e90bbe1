import ZenFSPlus.Db.FragmentBufferedReader
import ZenFSPlus.Db.LogRoundTrip

namespace ZenFSPlus.Db.Log

open Util List Format

namespace Window

theorem length_buffer (w : Window) : w.buffer.length = w.size := by
  have := w.le_length
  rw [buffer, length_take, length_drop]
  omega

theorem buffer_readBlock (w : Window) (read : Bytes) : (w.readBlock read).buffer = read := by
  simp only [buffer, readBlock, overwrite, drop_zero, take_zero, nil_append]
  exact take_left

theorem buffer_unmarkEOF {w : Window} (h : w.eof = true) (remaining : ℕ)
    (hr : remaining = kBlockSize - w.eofOffset) (read : Bytes) :
    (w.unmarkEOF h remaining hr read).buffer = w.buffer ++ read := by
  obtain ⟨hsm, -⟩ := w.of_eof h
  have hle := w.le_length
  have hs : w.eofOffset - w.size = w.start := by omega
  have hsz : w.eofOffset + read.length - w.start = w.size + read.length := by omega
  have ht : (w.backingStore.take w.eofOffset).drop w.start = w.buffer := by
    rw [drop_take, buffer]
    congr 1
    omega
  have hl : w.start ≤ (w.backingStore.take w.eofOffset).length := by
    rw [length_take]
    omega
  simp only [unmarkEOF, hs, hsz]
  rw [buffer]
  simp only [overwrite]
  rw [append_assoc, drop_append_of_le_length hl, ht, ← append_assoc]
  apply take_left'
  rw [length_append, length_buffer]

theorem buffer_removePrefix {w : Window} {n : ℕ} (h : n ≤ w.size) : (w.removePrefix n).buffer = w.buffer.drop n := by
  simp only [buffer, removePrefix, Nat.min_eq_left h]
  rw [drop_take, drop_drop]

end Window

namespace FragmentBufferedReader

variable {r : FragmentBufferedReader} {inFragment : Bool} {fragments v : Bytes} {off : ℕ}

structure At (inFragment : Bool) (fragments : Bytes) (r : FragmentBufferedReader) (off : ℕ) (v : Bytes) : Prop where
  visible_eq : r.window.buffer ++ r.file = v
  size_eq : r.window.eof = false → r.window.size = kBlockSize - off
  start_eq : r.window.eof = true → r.window.start = off
  inFragmented_eq : r.inFragmentedRecord = inFragment
  fragments_eq : r.fragments = fragments
  reports_eq : r.reports = []

theorem fill_of_le {n : ℕ} (h : n ≤ r.window.size) : r.fill n = (r, true) := by
  rw [fill, if_neg (Nat.not_lt.mpr h)]

theorem fill_of_eq {n : ℕ} (h : r.window.size < n) (heq : r.window.size = r.tryReadMore.window.size) :
    r.fill n = (r.tryReadMore, false) := by
  rw [fill, if_pos h, if_pos heq]

theorem fill_of_ne {n : ℕ} (h : r.window.size < n) (hne : r.window.size ≠ r.tryReadMore.window.size) :
    r.fill n = r.tryReadMore.fill n := by
  rw [fill, if_pos h, if_neg hne]

section

variable (h : At inFragment fragments r off v)

include h

theorem At.length_eq : v.length = r.window.size + r.file.length := by
  rw [← h.visible_eq, length_append, Window.length_buffer]

theorem At.tryReadMore_block (he : r.window.eof = false) :
    At inFragment fragments r.tryReadMore 0 (v.drop (kBlockSize - off)) ∧
      r.tryReadMore.window.size = min kBlockSize (v.length - (kBlockSize - off)) := by
  have hl := h.length_eq
  have hs := h.size_eq he
  have hfi : v.drop (kBlockSize - off) = r.file := by
    rw [← h.visible_eq, ← hs, ← Window.length_buffer, drop_left]
  have hm : r.tryReadMore = { r with
      file := r.file.drop kBlockSize
      window := r.window.readBlock (r.file.take kBlockSize)
      endOfBufferOffset := r.endOfBufferOffset + (r.file.take kBlockSize).length } := by
    rw [tryReadMore, dif_neg (by simp [he])]
  rw [hm, hfi]
  refine ⟨⟨?_, ?_, fun _ => rfl, h.inFragmented_eq, h.fragments_eq, h.reports_eq⟩, ?_⟩
  · rw [Window.buffer_readBlock, take_append_drop]
  · intro hfl
    have hfl := of_decide_eq_false hfl
    simp only [Window.readBlock] at *
    rw [length_take] at *
    omega
  · simp only [Window.readBlock, length_take]
    omega

theorem At.tryReadMore_eof (he : r.window.eof = true) :
    At inFragment fragments r.tryReadMore off v ∧ r.tryReadMore.window.size = min (kBlockSize - off) v.length ∧
      r.tryReadMore.window.start = r.window.start := by
  have hl := h.length_eq
  have hs := h.start_eq he
  obtain ⟨hsm, hlt⟩ := r.window.of_eof he
  have hm : r.tryReadMore = { r with
      file := r.file.drop (kBlockSize - r.window.eofOffset)
      window := r.window.unmarkEOF he _ rfl (r.file.take (kBlockSize - r.window.eofOffset))
      endOfBufferOffset := r.endOfBufferOffset + (r.file.take (kBlockSize - r.window.eofOffset)).length } := by
    rw [tryReadMore, dif_pos he]
  rw [hm]
  refine ⟨⟨?_, ?_, ?_, h.inFragmented_eq, h.fragments_eq, h.reports_eq⟩, ?_, ?_⟩
  · rw [Window.buffer_unmarkEOF, append_assoc, take_append_drop, h.visible_eq]
  · intro hfl
    have hfl := of_decide_eq_false hfl
    simp only [Window.unmarkEOF]
    rw [length_take] at *
    omega
  · intro _
    simp only [Window.unmarkEOF]
    omega
  · simp only [Window.unmarkEOF, length_take]
    omega
  · simp only [Window.unmarkEOF]
    omega

theorem At.fill {n : ℕ} (hn : n ≤ kBlockSize - off) :
    ∃ r', r.fill n = (r', decide (n ≤ v.length)) ∧ At inFragment fragments r' off v ∧
      (n ≤ v.length → n ≤ r'.window.size) ∧ r'.window.start = r.window.start := by
  have hl := h.length_eq
  rcases Nat.lt_or_ge r.window.size n with hlt | hge
  · have he : r.window.eof = true := by
      by_contra hne
      have := h.size_eq (by simpa using hne)
      omega
    obtain ⟨hat, hsz, hs⟩ := h.tryReadMore_eof he
    by_cases heq : r.window.size = r.tryReadMore.window.size
    · refine ⟨_, ?_, hat, ?_, hs⟩
      · rw [fill_of_eq hlt heq, decide_eq_false]
        omega
      · omega
    · rw [fill_of_ne hlt heq]
      rcases Nat.lt_or_ge r.tryReadMore.window.size n with hlt' | hge'
      · have he' : r.tryReadMore.window.eof = true := by
          by_contra hne
          have := hat.size_eq (by simpa using hne)
          omega
        obtain ⟨hat', hsz', hs'⟩ := hat.tryReadMore_eof he'
        refine ⟨_, ?_, hat', ?_, hs'.trans hs⟩
        · rw [fill_of_eq hlt' (by omega), decide_eq_false]
          omega
        · omega
      · refine ⟨_, ?_, hat, fun _ => hge', hs⟩
        rw [fill_of_le hge', decide_eq_true]
        omega
  · refine ⟨r, ?_, h, fun _ => hge, rfl⟩
    rw [fill_of_le hge, decide_eq_true]
    omega

end

def Stuck (inFragment : Bool) (fragments : Bytes) (r : FragmentBufferedReader) (off : ℕ) (v : Bytes) : Prop :=
  ∃ r', r.fill kHeaderSize = (r', false) ∧ (At inFragment fragments r' off v ∨
    kBlockSize - off ≤ v.length ∧ At inFragment fragments r' 0 (v.drop (kBlockSize - off)))

abbrev Refills (inFragment : Bool) (fragments : Bytes) (r : FragmentBufferedReader) (off : ℕ) (v : Bytes) : Prop :=
  (v.length < kBlockSize - off + kHeaderSize → Stuck inFragment fragments r off v) ∧
    (kBlockSize - off + kHeaderSize ≤ v.length → ∃ r', r.fill kHeaderSize = r'.fill kHeaderSize ∧
      At inFragment fragments r' 0 (v.drop (kBlockSize - off)))

theorem At.fill_block (h : At inFragment fragments r off v) (he : r.window.eof = false)
    (hsh : kBlockSize - off < kHeaderSize) : Refills inFragment fragments r off v := by
  have hl := h.length_eq
  have hs := h.size_eq he
  have hh : kHeaderSize < kBlockSize := by decide
  obtain ⟨hat, hs'⟩ := h.tryReadMore_block he
  constructor
  · intro hv
    by_cases heq : r.window.size = r.tryReadMore.window.size
    · exact ⟨_, fill_of_eq (by omega) heq, .inr ⟨by omega, hat⟩⟩
    obtain ⟨r', hfl, hat', -, -⟩ := hat.fill (n := kHeaderSize) (by omega)
    refine ⟨r', ?_, .inr ⟨by omega, hat'⟩⟩
    rw [fill_of_ne (by omega) heq, hfl, length_drop, decide_eq_false]
    omega
  · intro hv
    exact ⟨_, fill_of_ne (by omega) (by omega), hat⟩

theorem At.fill_trailer (h : At inFragment fragments r off v) (hsh : kBlockSize - off < kHeaderSize) :
    Refills inFragment fragments r off v := by
  have hl := h.length_eq
  cases he : r.window.eof with
  | false => exact h.fill_block he hsh
  | true =>
    obtain ⟨hat, hsz, -⟩ := h.tryReadMore_eof he
    obtain ⟨hsm, hlt⟩ := r.window.of_eof he
    have hs := h.start_eq he
    by_cases heq : r.window.size = r.tryReadMore.window.size
    · -- nothing more of the trailer is visible
      constructor
      · intro _
        exact ⟨_, fill_of_eq (by omega) heq, .inl hat⟩
      · omega
    · unfold Refills Stuck
      rw [fill_of_ne (by omega) heq]
      cases he' : r.tryReadMore.window.eof with
      | false => exact hat.fill_block he' hsh
      | true =>
        obtain ⟨hat', hsz', -⟩ := hat.tryReadMore_eof he'
        obtain ⟨hsm', hlt'⟩ := r.tryReadMore.window.of_eof he'
        have hs' := hat.start_eq he'
        constructor
        · intro _
          exact ⟨_, fill_of_eq (by omega) (by omega), .inl hat'⟩
        · omega

section

variable {f : Format} {begin end_ : Bool} {ptr pad hidden more : Bytes} {o : ℕ}

theorem At.store_eq (h : At inFragment fragments r off v) {front rest : Bytes} (hsz : front.length ≤ r.window.size)
    (hv : v ++ hidden = front ++ rest) :
    ∃ behind, r.window.backingStore.drop r.window.start = front ++ behind := by
  set store := r.window.backingStore.drop r.window.start with hs
  have hl := h.length_eq
  have ht : store.take front.length = front := by
    calc store.take front.length
        = r.window.buffer.take front.length := by
          rw [Window.buffer, ← hs, take_take, Nat.min_eq_left hsz]
      _ = v.take front.length := by
        rw [← h.visible_eq, take_append_of_le_length (by rwa [Window.length_buffer])]
      _ = (v ++ hidden).take front.length := by rw [take_append_of_le_length (by omega)]
      _ = front := by rw [hv, take_left]
  refine ⟨store.drop front.length, ?_⟩
  conv_lhs => rw [← take_append_drop front.length store, ht]

theorem At.removePrefix (h : At inFragment fragments r off v) {front : Bytes} (hs : front.length ≤ r.window.size)
    (hv : v ++ hidden = front ++ more) :
    ∃ v', At inFragment fragments { r with window := r.window.removePrefix front.length } (off + front.length) v' ∧
      v' ++ hidden = more := by
  have hl := h.length_eq
  refine ⟨v.drop front.length, ⟨?_, ?_, ?_, h.inFragmented_eq, h.fragments_eq, h.reports_eq⟩, ?_⟩
  · rw [← h.visible_eq, Window.buffer_removePrefix hs, drop_append_of_le_length (by rwa [Window.length_buffer])]
  · intro he
    have := h.size_eq he
    simp only [Window.removePrefix]
    omega
  · intro he
    have := h.start_eq he
    simp only [Window.removePrefix]
    omega
  · rw [← drop_append_of_le_length (by omega), hv, drop_left]

theorem hidden_ne_nil (hlt : v.length < f.headerSize + ptr.length)
    (hv : v ++ hidden = f.physicalRecord (f.recordType begin end_) ptr ++ more) : hidden ≠ [] := by
  rintro rfl
  rw [append_nil] at hv
  rw [hv, length_append, f.length_physicalRecord begin end_ ptr] at hlt
  omega

theorem At.takeFragment (h : At inFragment fragments r off v) (hr : off + f.headerSize + ptr.length ≤ kBlockSize)
    (hv : v ++ hidden = f.physicalRecord (f.recordType begin end_) ptr ++ more) :
    (∃ r' v', r.takeFragment r.window.start f.headerSize (.record (f.recordType begin end_)) ptr.length =
        (r', some { type := .record (f.recordType begin end_), fragment := ptr }) ∧
      At inFragment fragments r' (off + f.headerSize + ptr.length) v' ∧ v' ++ hidden = more) ∨
    hidden ≠ [] ∧ ∃ r', r.takeFragment r.window.start f.headerSize (.record (f.recordType begin end_)) ptr.length =
        (r', none) ∧ At inFragment fragments r' off v := by
  have hl := f.length_physicalRecord begin end_ ptr
  unfold FragmentBufferedReader.takeFragment
  obtain ⟨r', hfl, hat, hsz, hs⟩ := h.fill (n := f.headerSize + ptr.length) (by omega)
  rw [hfl]
  by_cases ha : f.headerSize + ptr.length ≤ v.length
  · left
    rw [decide_eq_true ha]
    have hsz := hsz ha
    rw [← hl] at hsz
    obtain ⟨behind, hst⟩ := hat.store_eq hsz hv
    obtain ⟨v', hat', hv'⟩ := hat.removePrefix hsz hv
    rw [hl, ← add_assoc] at hat'
    refine ⟨_, v', ?_, hat', hv'⟩
    have hz : ¬ (PhysicalType.record (f.recordType begin end_) = .record .zeroType ∧ ptr.length = 0) := by
      intro hz
      injection hz.1 with hz
      exact recordType_ne_zero _ _ _ hz
    have hfr : ((r'.window.backingStore.drop (r.window.start + f.headerSize)).take ptr.length) = ptr := by
      rw [← hs, ← drop_drop, hst, physicalRecord, append_assoc, ← f.length_header begin end_ ptr, drop_left, take_left]
    simp only
    rw [if_neg hz, if_neg, hfr]
    rw [← hs, ← drop_drop, hst, header_crc]
    exact fun hne => hne.2 rfl
  · right
    rw [decide_eq_false ha]
    exact ⟨hidden_ne_nil (by omega) hv, r', rfl, hat⟩

theorem At.tryReadFragment (hf : f.recycleLogFiles = false) (h : At inFragment fragments r off v)
    (hr : off + f.headerSize + ptr.length ≤ kBlockSize)
    (hv : v ++ hidden = f.physicalRecord (f.recordType begin end_) ptr ++ more) :
    (∃ r' v', r.tryReadFragment = (r', some { type := .record (f.recordType begin end_), fragment := ptr }) ∧
      At inFragment fragments r' (off + f.headerSize + ptr.length) v' ∧ v' ++ hidden = more) ∨
    hidden ≠ [] ∧ ∃ r', r.tryReadFragment = (r', none) ∧ At inFragment fragments r' off v := by
  have hh : f.headerSize = kHeaderSize := by
    rw [headerSize, hf]
    rfl
  have hp : ptr.length < 2 ^ 16 := by
    unfold kBlockSize at hr
    omega
  unfold FragmentBufferedReader.tryReadFragment
  obtain ⟨r1, hfl, hat, hsz, -⟩ := h.fill (n := kHeaderSize) (by omega)
  rw [hfl]
  by_cases hvs : kHeaderSize ≤ v.length
  · rw [decide_eq_true hvs]
    have hv' : v ++ hidden = f.header (f.recordType begin end_) ptr ++ (ptr ++ more) := by
      rw [hv, physicalRecord, append_assoc]
    obtain ⟨behind, hs⟩ := hat.store_eq (by rw [length_header, hh]; exact hsz hvs) hv'
    have ht : PhysicalType.ofChar (r1.window.backingStore.getD (r1.window.start + 6) 0) =
        .record (f.recordType begin end_) := by
      rw [getD_eq_getElem?_getD, ← List.getElem?_drop, hs, ← getD_eq_getElem?_getD, header_type]
    have hl : decodeFixed16 (r1.window.backingStore.drop (r1.window.start + 4)) = ptr.length := by
      rw [← drop_drop, hs, header_length hp]
    simp only [ht, hl, PhysicalType.isRecyclable, isRecyclable_recordType, hf]
    rw [if_neg Bool.false_ne_true, ← hh]
    exact hat.takeFragment hr hv
  · right
    rw [decide_eq_false hvs]
    exact ⟨hidden_ne_nil (by omega) hv, r1, rfl, hat⟩

theorem At.tryReadFragment_start (hf : f.recycleLogFiles = false) (hsr : f.Starts off pad o)
    (h : At inFragment fragments r off v) (hrm : o + f.headerSize + ptr.length ≤ kBlockSize)
    (hv : v ++ hidden = pad ++ (f.physicalRecord (f.recordType begin end_) ptr ++ more)) :
    (∃ r' v', r.tryReadFragment = (r', some { type := .record (f.recordType begin end_), fragment := ptr }) ∧
      At inFragment fragments r' (o + f.headerSize + ptr.length) v' ∧ v' ++ hidden = more) ∨
    hidden ≠ [] ∧ ∃ r', r.tryReadFragment = (r', none) ∧ (At inFragment fragments r' off v ∨
      ∃ v', v = pad ++ v' ∧ At inFragment fragments r' o v') := by
  obtain ⟨hlt, hz, rfl⟩ | ⟨hle, rfl, rfl⟩ := hsr
  · have hhd : f.headerSize = kHeaderSize := by
      rw [headerSize, hf]
      rfl
    have hp : pad.length = kBlockSize - off := by rw [hz, length_replicate]
    have hs (hle : kBlockSize - off ≤ v.length) : v = pad ++ v.drop (kBlockSize - off) ∧
          v.drop (kBlockSize - off) ++ hidden = f.physicalRecord (f.recordType begin end_) ptr ++ more := by
      rw [← hp] at hle ⊢
      have ht := congrArg (List.take pad.length) hv
      have hd := congrArg (List.drop pad.length) hv
      rw [take_append_of_le_length hle, take_left] at ht
      rw [drop_append_of_le_length hle, drop_left] at hd
      refine ⟨?_, hd⟩
      conv_lhs => rw [← take_append_drop pad.length v, ht]
    obtain ⟨hst, hnx⟩ := h.fill_trailer (hhd ▸ hlt)
    rcases Nat.lt_or_ge v.length (kBlockSize - off + kHeaderSize) with hfw | hm
    · obtain ⟨r', hfl, hat⟩ := hst hfw
      have hr : r.tryReadFragment = (r', none) := by
        unfold FragmentBufferedReader.tryReadFragment
        rw [hfl]
      have hh : hidden ≠ [] := by
        rintro rfl
        rw [append_nil] at hv
        rw [hv, length_append, length_append, length_physicalRecord] at hfw
        omega
      refine .inr ⟨hh, r', hr, ?_⟩
      rcases hat with hat | ⟨hle, hat⟩
      · exact .inl hat
      · exact .inr ⟨_, (hs hle).1, hat⟩
    · obtain ⟨r1, hfl, hat⟩ := hnx hm
      have hr : r.tryReadFragment = r1.tryReadFragment := by
        unfold FragmentBufferedReader.tryReadFragment
        rw [hfl]
      obtain ⟨hs, hrs⟩ := hs (by omega)
      rw [hr]
      rcases hat.tryReadFragment hf hrm hrs with ha | ⟨hh, r', hn, hat'⟩
      · exact .inl ha
      · exact .inr ⟨hh, r', hn, .inr ⟨_, hs, hat'⟩⟩
  · rcases h.tryReadFragment hf hrm hv with ha | ⟨hh, r', hn, hat'⟩
    · exact .inl ha
    · exact .inr ⟨hh, r', hn, .inl hat'⟩

theorem At.tryReadFragment_end (h : At inFragment fragments r off []) :
    ∃ r' off', r.tryReadFragment = (r', none) ∧ At inFragment fragments r' off' [] := by
  have hfl {r' : FragmentBufferedReader} (hfi : r.fill kHeaderSize = (r', false)) : r.tryReadFragment = (r', none) := by
    unfold FragmentBufferedReader.tryReadFragment
    rw [hfi]
  rcases Nat.lt_or_ge (kBlockSize - off) kHeaderSize with hlt | hge
  · obtain ⟨r', hfi, hat | ⟨-, hat⟩⟩ := (h.fill_trailer hlt).1 (by rw [length_nil]; omega)
    · exact ⟨r', off, hfl hfi, hat⟩
    · exact ⟨r', 0, hfl hfi, by rwa [drop_nil] at hat⟩
  · obtain ⟨r', hfi, hat, -, -⟩ := h.fill hge
    exact ⟨r', off, hfl hfi, hat⟩

end

end FragmentBufferedReader

inductive Format.Todo (f : Format) : ℕ → Bool → Bytes → List Bytes → Bytes → Prop
  | nil (off : ℕ) : Todo f off false [] [] []
  | record {off off' : ℕ} {begin : Bool} {fragments left bytes rest : Bytes} {records : List Bytes}
      (hbegin : begin = true → fragments = []) (hw : f.Written off begin left bytes off')
      (h : f.Layout off' records rest) :
      Todo f off (!begin) fragments ((fragments ++ left) :: records) (bytes ++ rest)

theorem Format.Layout.todo {f : Format} {off : ℕ} {rs : List Bytes} {bytes : Bytes}
    (h : f.Layout off rs bytes) : f.Todo off false [] rs bytes := by
  cases h with
  | nil => exact .nil off
  | cons hw h => exact .record (fun _ => rfl) hw h

theorem Format.Written.todo_behind {f : Format} {off off' n : ℕ} {left bytes rest fragments : Bytes}
    {rs : List Bytes} (hw : f.Written off false (left.drop n) bytes off') (h : f.Layout off' rs rest) :
    f.Todo off true (fragments ++ left.take n) ((fragments ++ left) :: rs) (bytes ++ rest) := by
  have ht : f.Todo off (!false) (fragments ++ left.take n)
      ((fragments ++ left.take n ++ left.drop n) :: rs) (bytes ++ rest) :=
    .record (fun hfr => absurd hfr Bool.false_ne_true) hw h
  rwa [append_assoc, take_append_drop] at ht

theorem Format.starts_nil {f : Format} {o n : ℕ} (h : o + f.headerSize + n ≤ kBlockSize) : f.Starts o [] o :=
  .inr ⟨by omega, rfl, rfl⟩

namespace FragmentBufferedReader

variable {f : Format} {r r' : FragmentBufferedReader} {begin : Bool} {ptr hidden : Bytes} {rs : List Bytes}
  {size : ℕ}

theorem readRecordRound_last (p q : ℕ)
    (hr : r.tryReadFragment = (r', some { type := .record (f.recordType begin true), fragment := ptr }))
    (hin : r'.inFragmentedRecord = !begin) (hb : begin = true → r'.fragments = []) :
    ∃ n, r.readRecordRound p q = .done { r' with fragments := [], lastRecordOffset := n, inFragmentedRecord := false }
        (some (r'.fragments ++ ptr)) := by
  unfold readRecordRound
  rw [hr]
  cases begin with
  | true =>
    rw [hb rfl]
    cases hf : f.recycleLogFiles <;> simp only [recordType, hf, hin] <;> exact ⟨_, rfl⟩
  | false =>
    cases hf : f.recycleLogFiles <;> simp only [recordType, hf, hin] <;> exact ⟨_, rfl⟩

theorem readRecordRound_cut (p q : ℕ)
    (hr : r.tryReadFragment = (r', some { type := .record (f.recordType begin false), fragment := ptr }))
    (hin : r'.inFragmentedRecord = !begin) (hb : begin = true → r'.fragments = []) :
    ∃ n, r.readRecordRound p q = .next { r' with fragments := r'.fragments ++ ptr, inFragmentedRecord := true } n := by
  unfold readRecordRound
  rw [hr]
  cases begin with
  | true =>
    rw [hb rfl]
    cases hf : f.recycleLogFiles <;> simp only [recordType, hf, hin, hb rfl] <;> exact ⟨_, rfl⟩
  | false =>
    cases hf : f.recycleLogFiles <;> simp only [recordType, hf, hin] <;> exact ⟨_, rfl⟩

theorem readRecordRound_none (p q : ℕ) (hr : r.tryReadFragment = (r', none)) :
    r.readRecordRound p q = .done r' none := by
  unfold readRecordRound
  rw [hr]

def Before (f : Format) (r : FragmentBufferedReader) (records : List Bytes) (hidden : Bytes) (size : ℕ) : Prop :=
  ∃ off inFragment fragments v stream, At inFragment fragments r off v ∧
    f.Todo off inFragment fragments records stream ∧ v ++ hidden = stream ∧ stream.length ≤ size

inductive RoundSpec (f : Format) (records : List Bytes) (hidden : Bytes) (size : ℕ) : Round → Prop
  | record {r : FragmentBufferedReader} {record : Bytes} {records' : List Bytes} (hrecords : records = record :: records')
      (h : ∃ size' < size, Before f r records' hidden size') : RoundSpec f records hidden size (.done r (some record))
  | fragment {r : FragmentBufferedReader} {q : ℕ} (h : ∃ size' < size, Before f r records hidden size') :
      RoundSpec f records hidden size (.next r q)
  | stop {r : FragmentBufferedReader} (h : Before f r records hidden size) (hall : hidden = [] → records = []) :
      RoundSpec f records hidden size (.done r none)

theorem Before.of_stuck {off o : ℕ} {inFragment : Bool} {fragments v pad stream : Bytes}
    (hat : At inFragment fragments r off v ∨ ∃ v', v = pad ++ v' ∧ At inFragment fragments r o v')
    (hoff : f.Todo off inFragment fragments rs (pad ++ stream))
    (ho : f.Todo o inFragment fragments rs stream) (hv : v ++ hidden = pad ++ stream)
    (hs : (pad ++ stream).length ≤ size) : Before f r rs hidden size := by
  rcases hat with hat | ⟨v', rfl, hat⟩
  · exact ⟨off, _, _, v, _, hat, hoff, hv, hs⟩
  · rw [append_assoc] at hv
    rw [length_append] at hs
    exact ⟨o, _, _, v', _, hat, ho, append_cancel_left hv, by omega⟩

theorem Before.mono {size' : ℕ} (h : Before f r rs hidden size) (hle : size ≤ size') : Before f r rs hidden size' := by
  obtain ⟨off, inFragment, fragments, v, stream, hat, ht, hv, hs⟩ := h
  exact ⟨off, inFragment, fragments, v, stream, hat, ht, hv, Nat.le_trans hs hle⟩

section

variable (hf : f.recycleLogFiles = false) (h : Before f r rs hidden size)

include hf h

theorem Before.readRecordRound (p q : ℕ) : RoundSpec f rs hidden size (r.readRecordRound p q) := by
  obtain ⟨off, inFragment, fragments, v, stream, hat, ht, hv, hsz⟩ := h
  have hp := f.headerSize_pos
  cases ht with
  | nil =>
    obtain ⟨rfl, rfl⟩ := append_eq_nil_iff.mp hv
    obtain ⟨r', off', hrd, hat'⟩ := hat.tryReadFragment_end
    rw [readRecordRound_none p q hrd]
    exact .stop ⟨off', _, _, _, _, hat', .nil off', rfl, hsz⟩ (fun _ => rfl)
  | @record off' begin fragments left bytes rest rs hbg hw hrs =>
    have ht := Format.Todo.record hbg hw hrs
    cases hw with
    | last hs hrm =>
      have hnx := Format.Todo.record hbg (.last (starts_nil hrm) hrm) hrs
      rw [nil_append] at hnx
      rw [append_assoc] at hv hsz ht
      rcases hat.tryReadFragment_start hf hs hrm hv with
        ⟨r', v', hrd, hat', hv'⟩ | ⟨hh, r', hrd, hat'⟩
      · obtain ⟨n, hr⟩ := readRecordRound_last p q hrd hat'.inFragmented_eq
          (fun hb => by rw [hat'.fragments_eq, hbg hb])
        rw [hr, hat'.fragments_eq]
        simp only [length_append, length_physicalRecord] at hsz
        refine .record rfl ⟨rest.length, by omega, _, false, [], v', rest, ?_, hrs.todo, hv', Nat.le_refl _⟩
        exact ⟨hat'.visible_eq, hat'.size_eq, hat'.start_eq, rfl, rfl, hat'.reports_eq⟩
      · rw [readRecordRound_none p q hrd]
        exact .stop (.of_stuck hat' ht hnx hv hsz) (fun hnl => absurd hnl hh)
    | cut hs hn hfl hrs' =>
      have hrm := hfl
      rw [← length_take_of_le (Nat.le_of_lt hn)] at hrm
      have hnx := Format.Todo.record hbg (.cut (starts_nil (Nat.le_of_eq hfl)) hn hfl hrs') hrs
      rw [nil_append, append_assoc] at hnx
      rw [append_assoc, append_assoc] at hv hsz ht
      rcases hat.tryReadFragment_start hf hs (Nat.le_of_eq hrm) hv with
        ⟨r', v', hrd, hat', hv'⟩ | ⟨hh, r', hrd, hat'⟩
      · obtain ⟨m, hr⟩ := readRecordRound_cut p q hrd hat'.inFragmented_eq (fun hb => by rw [hat'.fragments_eq, hbg hb])
        rw [hrm] at hat'
        rw [hr, hat'.fragments_eq]
        simp only [length_append, length_physicalRecord] at hsz
        refine .fragment ⟨_, ?_, kBlockSize, true, _, v', _, ?_, hrs'.todo_behind hrs, hv', Nat.le_refl _⟩
        · rw [length_append]
          omega
        · exact ⟨hat'.visible_eq, hat'.size_eq, hat'.start_eq, rfl, rfl, hat'.reports_eq⟩
      · rw [readRecordRound_none p q hrd]
        exact .stop (.of_stuck hat' ht hnx hv hsz) (fun hnl => absurd hnl hh)

theorem Before.readRecordLoop (p q : ℕ) {fuel : ℕ} (hfl : size < fuel) :
    ∃ r' record?, FragmentBufferedReader.readRecordLoop p fuel r q = some (r', record?) ∧
      RoundSpec f rs hidden size (.done r' record?) := by
  induction fuel generalizing r size q with
  | zero => omega
  | succ fuel ih =>
    have hs := h.readRecordRound hf p q
    rw [FragmentBufferedReader.readRecordLoop]
    generalize r.readRecordRound p q = round at hs ⊢
    cases hs with
    | record hr h' => exact ⟨_, _, rfl, .record hr h'⟩
    | stop h' ha => exact ⟨_, _, rfl, .stop h' ha⟩
    | fragment h' =>
      obtain ⟨size', hlt, hb⟩ := h'
      obtain ⟨r', record?, hl, hs⟩ := ih hb _ (by omega)
      refine ⟨r', record?, hl, ?_⟩
      cases hs with
      | record hr h' =>
        obtain ⟨size'', hlt', hb'⟩ := h'
        exact .record hr ⟨size'', by omega, hb'⟩
      | stop h' ha => exact .stop (h'.mono (Nat.le_of_lt hlt)) ha

theorem Before.readAll {fuel : ℕ} (hfl : size + 1 < fuel) :
    ∃ r' got rest, FragmentBufferedReader.readAll fuel r = some (r', got) ∧ rs = got ++ rest ∧
      Before f r' rest hidden size ∧ (hidden = [] → rest = []) := by
  induction fuel generalizing r rs size with
  | zero => omega
  | succ fuel ih =>
    obtain ⟨r1, record?, hrd, hs⟩ := h.readRecordLoop hf (r.endOfBufferOffset - r.window.size) 0
      (show size < fuel by omega)
    rw [FragmentBufferedReader.readAll, readRecord, hrd]
    cases hs with
    | stop h' ha => exact ⟨r1, [], rs, rfl, rfl, h', ha⟩
    | @record _ record rs' hr h' =>
      obtain ⟨size', hlt, hb⟩ := h'
      obtain ⟨r', got, rest, ha, rfl, hrs, hn⟩ := ih hb (by omega)
      refine ⟨r', record :: got, rest, ?_, hr, hrs.mono (Nat.le_of_lt hlt), hn⟩
      simp only [ha, Option.map_some]

end

theorem Before.grow {chunk : Bytes} (h : Before f r rs (chunk ++ hidden) size) :
    Before f { r with file := r.file ++ chunk } rs hidden size := by
  obtain ⟨off, inFragment, fragments, v, stream, hat, ht, hv, hs⟩ := h
  refine ⟨off, inFragment, fragments, v ++ chunk, stream, ?_, ht, ?_, hs⟩
  · refine ⟨?_, hat.size_eq, hat.start_eq, hat.inFragmented_eq, hat.fragments_eq, hat.reports_eq⟩
    rw [← hat.visible_eq, append_assoc]
  · rw [append_assoc, hv]

theorem Before.follow (hf : f.recycleLogFiles = false) {chunks : List Bytes}
    (h : Before f r rs chunks.flatten size) (hn : chunks.flatten = [] → rs = []) {fuel : ℕ}
    (hfu : size + 1 < fuel) :
    ∃ r', FragmentBufferedReader.follow fuel chunks r = some (r', rs) ∧ r'.reports = [] := by
  induction chunks generalizing r rs with
  | nil =>
    obtain ⟨off, inFragment, fragments, v, stream, hat, -⟩ := h
    refine ⟨r, ?_, hat.reports_eq⟩
    rw [FragmentBufferedReader.follow, hn rfl]
  | cons chunk chunks ih =>
    rw [flatten_cons] at h
    obtain ⟨r1, got, rest, hrd, rfl, hrs, hn'⟩ := h.grow.readAll hf hfu
    obtain ⟨r', hfl, hr⟩ := ih hrs hn'
    refine ⟨r', ?_, hr⟩
    rw [FragmentBufferedReader.follow, hrd]
    simp only [hfl, Option.map_some]

end FragmentBufferedReader

theorem follow_logOf (logNumber : ℕ) (checksum : Bool) (rs chunks : List Bytes)
    (hchunks : chunks.flatten = logOf ⟨logNumber, false⟩ rs) :
    ∃ enough, ∀ fuel ≥ enough, ∃ r,
      FragmentBufferedReader.follow fuel chunks { file := [], checksum, logNumber } = some (r, rs) ∧
        r.reports = [] := by
  obtain ⟨bytes, hb⟩ := Writer.foldl_addRecord_dest rs { logNumber, recycleLogFiles := false }
  have hfl : logOf ⟨logNumber, false⟩ rs = bytes := hb
  have hl := Writer.addRecords_layout rs { logNumber, recycleLogFiles := false } hb (.inr ⟨rfl, rfl⟩)
  have hbf : FragmentBufferedReader.Before ⟨logNumber, false⟩ { file := [], checksum, logNumber } rs
      chunks.flatten bytes.length := by
    refine ⟨kBlockSize, false, [], [], bytes, ⟨rfl, fun _ => rfl, nofun, rfl, rfl, rfl⟩, hl.todo, ?_, Nat.le_refl _⟩
    rw [nil_append, hchunks, hfl]
  have hn : chunks.flatten = [] → rs = [] := by
    rw [hchunks, hfl]
    rintro rfl
    exact hl.eq_nil
  exact ⟨bytes.length + 2, fun fuel hfu => hbf.follow rfl hn hfu⟩

theorem follow_logOf_two_chunks :
    [(logOf ⟨7, false⟩ [[1, 2, 3], []]).take 5, (logOf ⟨7, false⟩ [[1, 2, 3], []]).drop 5].flatten =
        logOf ⟨7, false⟩ [[1, 2, 3], []] ∧
      ∃ enough, ∀ fuel ≥ enough, ∃ r, FragmentBufferedReader.follow fuel
            [(logOf ⟨7, false⟩ [[1, 2, 3], []]).take 5, (logOf ⟨7, false⟩ [[1, 2, 3], []]).drop 5]
            { file := [], checksum := true, logNumber := 7 } =
          some (r, [[1, 2, 3], []]) ∧ r.reports = [] :=
  ⟨by simp, follow_logOf 7 true [[1, 2, 3], []]
    [(logOf ⟨7, false⟩ [[1, 2, 3], []]).take 5, (logOf ⟨7, false⟩ [[1, 2, 3], []]).drop 5] (by simp)⟩

end ZenFSPlus.Db.Log
