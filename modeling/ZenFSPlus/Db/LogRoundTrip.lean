import ZenFSPlus.Db.LogReader

namespace ZenFSPlus.Db.Log

open List Format
open Lib (u32 u32_of_lt)
open Util

section

variable {f : Format} {begin end_ : Bool} {ptr rest : Bytes}

theorem ofChar_code (t : RecordType) : PhysicalType.ofChar (.ofNat t.code) = .record t := by
  cases t <;> rfl

theorem recordType_ne_zero (f : Format) (begin end_ : Bool) : f.recordType begin end_ ≠ .zeroType := by
  unfold recordType
  cases begin <;> cases end_ <;> cases f.recycleLogFiles <;> decide

def Format.logNumberField (f : Format) : Bytes :=
  if f.recycleLogFiles then encodeFixed32 (u32 f.logNumber) else []

theorem header_eq (f : Format) (begin end_ : Bool) (ptr : Bytes) : f.header (f.recordType begin end_) ptr =
      encodeFixed32 (Crc32c.mask (Crc32c.value
        (.ofNat (f.recordType begin end_).code :: (f.logNumberField ++ ptr)))).toNat ++
      (encodeFixed16 ptr.length ++ (.ofNat (f.recordType begin end_).code :: f.logNumberField)) := by
  simp only [header, isRecyclable_recordType, logNumberField]
  cases f.recycleLogFiles with
  | true => simp [Crc32c.extend_value, Crc32c.crc32cCombine_value]
  | false => simp [Crc32c.crc32cCombine_value]

theorem length_logNumberField (f : Format) : 7 + f.logNumberField.length = f.headerSize := by
  unfold logNumberField headerSize
  cases f.recycleLogFiles <;> rfl

theorem drop_encodeFixed (n k v : ℕ) (bs : Bytes) : (encodeFixed n v ++ bs).drop (n + k) = bs.drop k := by
  rw [← drop_drop, drop_left' (length_encodeFixed n v)]

theorem header_drop_four (rest : Bytes) : (f.header (f.recordType begin end_) ptr ++ rest).drop 4 =
      encodeFixed16 ptr.length ++ (.ofNat (f.recordType begin end_).code :: (f.logNumberField ++ rest)) := by
  rw [header_eq, append_assoc, encodeFixed32, drop_encodeFixed 4 0, drop_zero, append_assoc, cons_append]

theorem header_drop_six (rest : Bytes) : (f.header (f.recordType begin end_) ptr ++ rest).drop 6 =
      .ofNat (f.recordType begin end_).code :: (f.logNumberField ++ rest) := by
  rw [show 6 = 4 + 2 from rfl, ← drop_drop, header_drop_four, encodeFixed16, drop_encodeFixed 2 0, drop_zero]

theorem header_type (rest : Bytes) : PhysicalType.ofChar ((f.header (f.recordType begin end_) ptr ++ rest).getD 6 0) =
      .record (f.recordType begin end_) := by
  rw [getD_eq_getElem?_getD, ← head?_drop, header_drop_six]
  exact ofChar_code _

theorem header_length (hp : ptr.length < 2 ^ 16) (rest : Bytes) :
    decodeFixed16 ((f.header (f.recordType begin end_) ptr ++ rest).drop 4) = ptr.length := by
  rw [header_drop_four, decodeFixed16_append, Nat.mod_eq_of_lt hp]

theorem header_logNumber (hf : f.recycleLogFiles = true) (rest : Bytes) :
    decodeFixed32 ((f.header (f.recordType begin end_) ptr ++ rest).drop 7) = u32 f.logNumber := by
  rw [show 7 = 6 + 1 from rfl, ← drop_drop, header_drop_six, drop_succ_cons, drop_zero,
    logNumberField, if_pos hf, decodeFixed32_append]
  exact Nat.mod_mod _ _

theorem header_crc (rest : Bytes) : Crc32c.value (((f.physicalRecord (f.recordType begin end_) ptr ++ rest).drop 6).take
        (ptr.length + f.headerSize - 6)) =
      Crc32c.unmask (.ofNat 32 (decodeFixed32 (f.physicalRecord (f.recordType begin end_) ptr ++ rest))) := by
  have hs := length_logNumberField f
  have ht : ptr.length + f.headerSize - 6 = (f.logNumberField ++ ptr).length + 1 := by
    rw [length_append]
    omega
  rw [physicalRecord, append_assoc, header_drop_six, ht, ← append_assoc f.logNumberField,
    take_succ_cons, take_left, header_eq, append_assoc, decodeFixed32_append,
    Nat.mod_eq_of_lt (BitVec.isLt _), BitVec.ofNat_toNat, BitVec.setWidth_eq, Crc32c.unmask_mask]

end

namespace Reader

variable {f : Format} {begin end_ : Bool} {ptr rest stream : Bytes} {r : Reader} {off : ℕ}

structure At (f : Format) (r : Reader) (off : ℕ) (stream : Bytes) : Prop where
  buffer_eq : r.buffer = stream.take (kBlockSize - off)
  file_eq : r.file = stream.drop (kBlockSize - off)
  eof_eq : r.eof = decide (stream.length < kBlockSize - off)
  logNumber_eq : f.recycleLogFiles = true → r.logNumber = u32 f.logNumber
  reports_eq : r.reports = []

theorem takeFragment_physicalRecord (hb : r.buffer = f.physicalRecord (f.recordType begin end_) ptr ++ rest) :
    r.takeFragment f.headerSize (.record (f.recordType begin end_)) ptr.length =
      ({ r with buffer := rest }, { type := .record (f.recordType begin end_), fragment := ptr }) := by
  have hh := f.length_header begin end_ ptr
  have hl : ¬ f.headerSize + ptr.length > r.buffer.length := by
    rw [hb, physicalRecord, length_append, length_append, hh]
    omega
  have hz : ¬ (PhysicalType.record (f.recordType begin end_) = .record .zeroType ∧ ptr.length = 0) := by
    intro h
    injection h.1 with h
    exact recordType_ne_zero _ _ _ h
  have hc : ¬ (r.checksum = true ∧ Crc32c.value ((r.buffer.drop 6).take (ptr.length + f.headerSize - 6)) ≠
      Crc32c.unmask (.ofNat 32 (decodeFixed32 r.buffer))) := by
    rw [hb, header_crc]
    exact fun h => h.2 rfl
  rw [takeFragment, if_neg hl, if_neg hz, if_neg hc, hb, physicalRecord, append_assoc,
    ← drop_drop, ← hh, drop_left, drop_left, take_left]

theorem readPhysicalRecord_header (hp : ptr.length < 2 ^ 16)
    (hlg : f.recycleLogFiles = true → r.logNumber = u32 f.logNumber)
    (hb : r.buffer = f.header (f.recordType begin end_) ptr ++ rest) :
    ∃ recycled, r.readPhysicalRecord =
      takeFragment { r with recycled } f.headerSize (.record (f.recordType begin end_)) ptr.length := by
  have hsz : f.headerSize ≤ r.buffer.length := by
    rw [hb, length_append, length_header]
    omega
  have hmn := length_logNumberField f
  have hs : ¬ r.buffer.length < kHeaderSize := by
    unfold kHeaderSize
    omega
  have ht : PhysicalType.ofChar (r.buffer.getD 6 0) = .record (f.recordType begin end_) := by
    rw [hb, header_type]
  have hl : decodeFixed16 (r.buffer.drop 4) = ptr.length := by
    rw [hb, header_length hp]
  rw [readPhysicalRecord, if_neg hs]
  simp only [ht, hl, PhysicalType.isRecyclable, isRecyclable_recordType]
  cases hf : f.recycleLogFiles with
  | false =>
    have hh : f.headerSize = kHeaderSize := by
      rw [headerSize, hf]
      rfl
    refine ⟨r.recycled, ?_⟩
    rw [if_neg Bool.false_ne_true, ← hh]
  | true =>
    obtain ⟨recycled, hm⟩ := r.markRecycled_eq
    have hh : f.headerSize = kRecyclableHeaderSize := by
      rw [headerSize, hf]
      rfl
    have hb' : r.markRecycled.buffer = r.buffer := by rw [hm]
    have hln : ¬ r.markRecycled.buffer.length < kRecyclableHeaderSize := by
      rw [hb']
      omega
    have hn : ¬ decodeFixed32 (r.markRecycled.buffer.drop 7) ≠ r.markRecycled.logNumber := by
      rw [hb', hb, header_logNumber hf, hm, ← hlg hf]
      exact fun h => h rfl
    refine ⟨recycled, ?_⟩
    rw [if_pos rfl, if_neg hln, if_neg hn, ← hh, hm]

section

variable (h : At f r off (rest ++ stream)) (hrs : rest.length = kBlockSize - off)

include h hrs

theorem At.readMore : ∃ r', r.readMore = (r', none) ∧ At f r' 0 stream := by
  have hl : (rest ++ stream).length = kBlockSize - off + stream.length := by
    rw [length_append, hrs]
  have he : r.eof = false := by
    rw [h.eof_eq, decide_eq_false]
    omega
  have hf : r.file = stream := by rw [h.file_eq, ← hrs, drop_left]
  refine ⟨_, readMore_of_not_eof he, ?_⟩
  constructor
  · rw [hf]
    rfl
  · rw [hf]
    rfl
  · simp only [hf, length_take, decide_eq_decide]
    omega
  · exact h.logNumber_eq
  · exact h.reports_eq

theorem At.readPhysicalRecord_trailer (hsh : kBlockSize - off < kHeaderSize) :
    ∃ r', r.readPhysicalRecord = r'.readPhysicalRecord ∧ At f r' 0 stream := by
  obtain ⟨r', hm, hat⟩ := h.readMore hrs
  refine ⟨r', ?_, hat⟩
  have hb : r.buffer.length < kHeaderSize := by
    rw [h.buffer_eq, length_take]
    omega
  rw [readPhysicalRecord, if_pos hb]
  split
  · rename_i hs
    rw [hm] at hs
    cases (Prod.mk.inj hs).2
  · rename_i hn
    rw [hm] at hn
    rw [(Prod.mk.inj hn).1]

end

theorem At.readPhysicalRecord (h : At f r off (f.physicalRecord (f.recordType begin end_) ptr ++ stream))
    (hrm : off + f.headerSize + ptr.length ≤ kBlockSize) :
    ∃ r', r.readPhysicalRecord = (r', { type := .record (f.recordType begin end_), fragment := ptr }) ∧
      At f r' (off + f.headerSize + ptr.length) stream := by
  have hp : ptr.length < 2 ^ 16 := by
    unfold kBlockSize at hrm
    omega
  have hl := f.length_physicalRecord begin end_ ptr
  have hs : kBlockSize - off = (f.headerSize + ptr.length) + (kBlockSize - (off + f.headerSize + ptr.length)) := by
    omega
  have hb := h.buffer_eq
  rw [hs, ← hl, take_length_add_append] at hb
  obtain ⟨recycled, hr⟩ := readPhysicalRecord_header hp h.logNumber_eq (hb.trans (append_assoc _ _ _))
  have hb' : { r with recycled }.buffer = _ := hb
  rw [takeFragment_physicalRecord hb'] at hr
  refine ⟨_, hr, rfl, ?_, ?_, h.logNumber_eq, h.reports_eq⟩
  · rw [h.file_eq, hs, ← hl, drop_length_add_append]
  · simp only [h.eof_eq, length_append, hl, decide_eq_decide]
    omega

theorem At.readPhysicalRecord_zeros (h : At f r off (replicate (kBlockSize - off) 0 ++ stream))
    (hlg : kHeaderSize ≤ kBlockSize - off) :
    ∃ r', r.readPhysicalRecord = (r', { type := .badRecord }) ∧ At f r' kBlockSize stream := by
  have hln : (replicate (kBlockSize - off) (0 : UInt8)).length = kBlockSize - off := length_replicate
  have hb : r.buffer = replicate (kBlockSize - off) 0 := by
    rw [h.buffer_eq, take_left' hln]
  have hf : r.file = stream := by rw [h.file_eq, drop_left' hln]
  have he : r.eof = false := by
    rw [h.eof_eq, length_append, hln, decide_eq_false]
    omega
  have hs : ¬ r.buffer.length < kHeaderSize := by
    rw [hb, hln]
    omega
  have ht : PhysicalType.ofChar (r.buffer.getD 6 0) = .record .zeroType := by
    rw [hb, getD_eq_getElem?_getD, List.getElem?_replicate, if_pos (show 6 < kBlockSize - off from hlg)]
    rfl
  have hl : decodeFixed16 (r.buffer.drop 4) = 0 := by
    rw [hb, decodeFixed16, drop_replicate, take_replicate, decodeFixed_replicate]
  have hft : ¬ kHeaderSize + 0 > r.buffer.length := by
    rw [hb, hln]
    omega
  refine ⟨{ r with buffer := [] }, ?_, ?_⟩
  · rw [Reader.readPhysicalRecord, if_neg hs]
    simp only [ht, hl]
    rw [if_neg (by decide), takeFragment, if_neg hft, if_pos ⟨rfl, rfl⟩]
  · constructor
    · rw [Nat.sub_self, take_zero]
    · rw [Nat.sub_self, drop_zero]
      exact hf
    · simp [he]
    · exact h.logNumber_eq
    · exact h.reports_eq

theorem At.readPhysicalRecord_end (h : At f r off stream) (hsh : stream.length < kHeaderSize)
    (hen : stream.length < kBlockSize - off) :
    ∃ r', r.readPhysicalRecord =
      (r', { type := if stream = [] then .eof else .badHeader, dropSize := stream.length }) ∧ r'.reports = [] := by
  have hb : r.buffer = stream := by
    rw [h.buffer_eq, take_of_length_le (Nat.le_of_lt hen)]
  have he : r.eof = true := by
    rw [h.eof_eq, decide_eq_true hen]
  have hm := readMore_of_eof he
  rw [hb] at hm
  refine ⟨{ r with buffer := [] }, ?_, h.reports_eq⟩
  rw [Reader.readPhysicalRecord, if_pos (by rwa [hb])]
  split
  · rename_i hs
    rw [hm] at hs
    obtain ⟨rfl, hp⟩ := Prod.mk.inj hs
    rw [Option.some.inj hp]
  · rename_i hn
    rw [hm] at hn
    cases (Prod.mk.inj hn).2

theorem At.lastRecordOffset (h : At f r off stream) (n : ℕ) : At f { r with lastRecordOffset := n } off stream :=
  ⟨h.buffer_eq, h.file_eq, h.eof_eq, h.logNumber_eq, h.reports_eq⟩

section

variable (mode : WALRecoveryMode) {l : Locals} {r' : Reader}

structure Locals.Before (begin : Bool) (l : Locals) : Prop where
  inFragmented_eq : l.inFragmentedRecord = !begin
  scratch_eq : begin = true → l.scratch = []

theorem readRecordRound_last (hr : r.readPhysicalRecord =
      (r', { type := .record (f.recordType begin true), fragment := ptr })) (hl : l.Before begin) :
    ∃ n, readRecordRound mode r l = .done { r' with lastRecordOffset := n } (some (l.scratch ++ ptr)) := by
  unfold readRecordRound
  rw [hr]
  cases begin with
  | true =>
    have hfr : l.inFragmentedRecord = false := hl.inFragmented_eq
    rw [hl.scratch_eq rfl, hfr]
    cases hf : f.recycleLogFiles <;> simp only [recordType, hf] <;> exact ⟨_, rfl⟩
  | false =>
    have hfr : l.inFragmentedRecord = true := hl.inFragmented_eq
    rw [hfr]
    cases hf : f.recycleLogFiles <;> simp only [recordType, hf] <;> exact ⟨_, rfl⟩

theorem readRecordRound_cut (hr : r.readPhysicalRecord =
      (r', { type := .record (f.recordType begin false), fragment := ptr })) (hl : l.Before begin) :
    ∃ l', readRecordRound mode r l = .next r' l' ∧ l'.Before false ∧ l'.scratch = l.scratch ++ ptr := by
  unfold readRecordRound
  rw [hr]
  cases begin with
  | true =>
    have hfg : l.inFragmentedRecord = false := hl.inFragmented_eq
    rw [hl.scratch_eq rfl, hfg]
    cases hf : f.recycleLogFiles <;> simp only [recordType, hf] <;>
      exact ⟨_, rfl, ⟨rfl, fun hfr => absurd hfr Bool.false_ne_true⟩, rfl⟩
  | false =>
    have hfg : l.inFragmentedRecord = true := hl.inFragmented_eq
    rw [hfg]
    cases hf : f.recycleLogFiles <;> simp only [recordType, hf] <;>
      exact ⟨_, rfl, ⟨rfl, fun hfr => absurd hfr Bool.false_ne_true⟩, rfl⟩

theorem readRecordLoop_start {pad : Bytes} {o : ℕ} (hst : f.Starts off pad o) (h : At f r off (pad ++ stream))
    (hl : l.inFragmentedRecord = true → off = kBlockSize) :
    ∃ r0 r1, r0.readPhysicalRecord = r1.readPhysicalRecord ∧ At f r1 o stream ∧ ∀ fuel,
      ∃ fuel' ≥ fuel, readRecordLoop mode (fuel + 2) r l = readRecordLoop mode (fuel' + 1) r0 l := by
  obtain ⟨hlt, rfl, rfl⟩ | ⟨hle, rfl, rfl⟩ := hst
  · rcases Nat.lt_or_ge (kBlockSize - off) kHeaderSize with hs | hln
    · obtain ⟨r1, hrd, hat⟩ := h.readPhysicalRecord_trailer length_replicate hs
      exact ⟨r, r1, hrd, hat, fun fuel => ⟨fuel + 1, Nat.le_succ fuel, rfl⟩⟩
    have hf : l.inFragmentedRecord = false := by
      by_contra hne
      rw [hl (by simpa using hne), Nat.sub_self] at hln
      exact absurd hln (by decide)
    obtain ⟨r0, hz, hat⟩ := h.readPhysicalRecord_zeros hln
    have hr : readRecordRound mode r l = .next r0 l := by
      unfold readRecordRound
      rw [hz]
      obtain ⟨inFragmented, scr, prospective⟩ := l
      subst hf
      rfl
    have he : At f r0 kBlockSize ([] ++ stream) := hat
    obtain ⟨r1, hrd, hat⟩ := he.readPhysicalRecord_trailer (Nat.sub_self _).symm (by decide)
    refine ⟨r0, r1, hrd, hat, fun fuel => ⟨fuel, Nat.le_refl fuel, ?_⟩⟩
    rw [readRecordLoop, hr]
  · exact ⟨r, r, rfl, h, fun fuel => ⟨fuel + 1, Nat.le_succ fuel, rfl⟩⟩

theorem Locals.Before.at_block_end (hl : l.Before begin) (ho : begin = false → off = kBlockSize)
    (hin : l.inFragmentedRecord = true) : off = kBlockSize := by
  rw [hl.inFragmented_eq, Bool.not_eq_true'] at hin
  exact ho hin

theorem readRecordLoop_written {left bytes : Bytes} {off' : ℕ} (hw : f.Written off begin left bytes off')
    (hl : l.Before begin) (ho : begin = false → off = kBlockSize) (h : At f r off (bytes ++ stream)) :
    ∃ r', At f r' off' stream ∧
      ∀ fuel > bytes.length, readRecordLoop mode fuel r l = some (r', some (l.scratch ++ left)) := by
  have hsz := length_logNumberField f
  induction hw generalizing l r with
  | @last off o begin left pad hs hrm =>
    rw [append_assoc] at h
    obtain ⟨r0, r1, hrd, hat, hlp⟩ := readRecordLoop_start mode hs h (hl.at_block_end ho)
    obtain ⟨r2, hp, hat⟩ := hat.readPhysicalRecord hrm
    obtain ⟨n, hr⟩ := readRecordRound_last mode (hrd.trans hp) hl
    refine ⟨_, hat.lastRecordOffset n, fun fuel hfl => ?_⟩
    rw [length_append, length_physicalRecord] at hfl
    obtain ⟨fuel, rfl⟩ : ∃ k, fuel = k + 2 := ⟨fuel - 2, by omega⟩
    obtain ⟨fuel', hge, hlp⟩ := hlp fuel
    rw [hlp, readRecordLoop, hr]
  | @cut off o n off' begin left pad bytes hs hn hf hrs ih =>
    rw [append_assoc, append_assoc] at h
    obtain ⟨r0, r1, hrd, hat, hlp⟩ := readRecordLoop_start mode hs h (hl.at_block_end ho)
    have hrm : o + f.headerSize + (left.take n).length = kBlockSize := by
      rw [length_take, Nat.min_eq_left (Nat.le_of_lt hn), hf]
    obtain ⟨r2, hp, hat⟩ := hat.readPhysicalRecord (Nat.le_of_eq hrm)
    rw [hrm] at hat
    obtain ⟨l', hr, hl', hsc⟩ := readRecordRound_cut mode (hrd.trans hp) hl
    obtain ⟨r3, hat, hrs⟩ := ih hl' (fun _ => rfl) hat
    refine ⟨r3, hat, fun fuel hfl => ?_⟩
    rw [length_append, length_append, length_physicalRecord] at hfl
    obtain ⟨fuel, rfl⟩ : ∃ k, fuel = k + 2 := ⟨fuel - 2, by omega⟩
    obtain ⟨fuel', hge, hlp⟩ := hlp fuel
    rw [hlp, readRecordLoop, hr]
    change readRecordLoop mode fuel' r2 l' = _
    rw [hrs fuel' (by omega), hsc, append_assoc, take_append_drop]

theorem readRecord_written {record bytes : Bytes} {off' : ℕ} (hw : f.Written off true record bytes off')
    (h : At f r off (bytes ++ stream)) :
    ∃ r', At f r' off' stream ∧ ∀ fuel > bytes.length, r.readRecord mode fuel = some (r', some record) :=
  readRecordLoop_written mode hw ⟨rfl, fun _ => rfl⟩ nofun h

theorem readRecord_end (h : At f r off []) (fuel : ℕ) :
    ∃ r', r.readRecord mode (fuel + 1) = some (r', none) ∧ r'.reports = [] := by
  obtain ⟨r1, hrd, hr⟩ : ∃ r1, r.readPhysicalRecord = (r1, { type := .eof }) ∧ r1.reports = [] := by
    rcases Nat.lt_or_ge 0 (kBlockSize - off) with hp | hz
    · exact h.readPhysicalRecord_end (by decide) hp
    have he : At f r off ([] ++ []) := h
    obtain ⟨r0, hrd, hat⟩ := he.readPhysicalRecord_trailer (by rw [length_nil]; omega)
      (Nat.lt_of_le_of_lt hz (by decide))
    rw [hrd]
    exact hat.readPhysicalRecord_end (by decide) (by decide)
  refine ⟨r1, ?_, hr⟩
  rw [readRecord, readRecordLoop]
  unfold readRecordRound
  rw [hrd]
  rfl

end

theorem readAll_written (mode : WALRecoveryMode) {rs : List Bytes} {bytes : Bytes}
    (hl : f.Layout off rs bytes) (h : At f r off bytes) (fuel : ℕ) (hf : bytes.length + 2 ≤ fuel) :
    ∃ r', r.readAll mode fuel = some (r', rs) ∧ r'.reports = [] := by
  induction hl generalizing r fuel with
  | nil off =>
    obtain ⟨fuel, rfl⟩ : ∃ k, fuel = k + 1 + 1 := ⟨fuel - 2, by omega⟩
    obtain ⟨r', hrd, hr⟩ := readRecord_end mode h fuel
    refine ⟨r', ?_, hr⟩
    rw [readAll, hrd]
  | cons hw _ ih =>
    obtain ⟨fuel, rfl⟩ : ∃ k, fuel = k + 1 := ⟨fuel - 1, by omega⟩
    have hne := hw.length_pos
    rw [length_append] at hf
    obtain ⟨r1, hat, hrd⟩ := readRecord_written mode hw h
    obtain ⟨r', hrs, hr⟩ := ih hat fuel (by omega)
    refine ⟨r', ?_, hr⟩
    rw [readAll, hrd fuel (by omega)]
    simp only [hrs, Option.map_some]

end Reader

def logOf (f : Format) (records : List Bytes) : Bytes :=
  (records.foldl Writer.addRecord { f with }).dest

theorem readAll_logOf (f : Format) (hlog : f.logNumber < 2 ^ 32) (checksum : Bool) (mode : WALRecoveryMode)
    (records : List Bytes) :
    ∃ enough, ∀ fuel ≥ enough, ∃ r,
      Reader.readAll mode fuel { file := logOf f records, checksum, logNumber := f.logNumber } =
        some (r, records) ∧ r.reports = [] := by
  obtain ⟨bytes, hb⟩ := Writer.foldl_addRecord_dest records { f with }
  have hf : logOf f records = bytes := hb
  refine ⟨bytes.length + 2, fun fuel hfl => ?_⟩
  rw [hf]
  have hat : Reader.At f { file := bytes, checksum, logNumber := f.logNumber } kBlockSize bytes :=
    ⟨rfl, rfl, rfl, fun _ => (u32_of_lt hlog).symm, rfl⟩
  have hl := Writer.addRecords_layout records { f with } hb (.inr ⟨rfl, rfl⟩)
  exact Reader.readAll_written mode hl hat fuel hfl

theorem readAll_logOf_recyclable : (7 : ℕ) < 2 ^ 32 ∧ ∃ enough, ∀ fuel ≥ enough, ∃ r,
      Reader.readAll .absoluteConsistency fuel
          { file := logOf { logNumber := 7, recycleLogFiles := true } [[], replicate 40000 1],
            checksum := true, logNumber := 7 } =
        some (r, [[], replicate 40000 1]) ∧ r.reports = [] :=
  ⟨by decide, readAll_logOf { logNumber := 7, recycleLogFiles := true } (by decide) true .absoluteConsistency
    [[], replicate 40000 1]⟩

end ZenFSPlus.Db.Log
