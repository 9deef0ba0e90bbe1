import ZenFSPlus.Db.LogRoundTrip

namespace ZenFSPlus.Db.Log

open Util List

namespace Reader

variable {f : Format} {begin end_ : Bool} {ptr pad stream : Bytes} {r : Reader} {off o : ℕ}

def CutShort (r : Reader) : Prop :=
  ∃ r' p, r.readPhysicalRecord = (r', p) ∧ r'.reports = [] ∧
    (p.type = .eof ∨ p.type = .badHeader ∨ p.type = .badRecordLen ∧ r'.eof = true)

theorem CutShort.readRecordLoop (h : r.CutShort) (l : Locals) (fuel : ℕ) :
    ∃ r', readRecordLoop .tolerateCorruptedTailRecords (fuel + 1) r l = some (r', none) ∧ r'.reports = [] := by
  obtain ⟨r', ⟨type, fragment, dropSize⟩, hrd, hr, ht⟩ := h
  refine ⟨r', ?_, hr⟩
  rw [Reader.readRecordLoop]
  unfold readRecordRound
  rw [hrd]
  have he : endOfLog .tolerateCorruptedTailRecords r' l = .done r' none := by
    unfold endOfLog
    rw [strict, Bool.and_comm]
    rfl
  rcases ht with rfl | rfl | ⟨rfl, hef⟩
  · simp only [he]
  · have hh : endOfLog .tolerateCorruptedTailRecords
        (reportIf (strict .tolerateCorruptedTailRecords) r' dropSize "truncated header") l = .done r' none := he
    simp only [hh]
  · simp only [hef, if_true]
    rfl

theorem At.cutShort_end (h : At f r off stream) (hs : stream.length < kHeaderSize)
    (he : stream.length < kBlockSize - off) : r.CutShort := by
  obtain ⟨r', hrd, hr⟩ := h.readPhysicalRecord_end hs he
  refine ⟨r', _, hrd, hr, ?_⟩
  simp only
  split
  · exact .inl rfl
  · exact .inr (.inl rfl)

section

variable (hf : f.recycleLogFiles = false)

include hf

theorem At.cutShort_payload {k : ℕ} (hk : k < ptr.length) (hrm : off + f.headerSize + ptr.length ≤ kBlockSize)
    (h : At f r off (f.header (f.recordType begin end_) ptr ++ ptr.take k)) : r.CutShort := by
  have hh : f.headerSize = kHeaderSize := by
    rw [Format.headerSize, hf]
    rfl
  have hln : (f.header (f.recordType begin end_) ptr ++ ptr.take k).length = f.headerSize + k := by
    rw [length_append, Format.length_header, length_take, Nat.min_eq_left (Nat.le_of_lt hk)]
  have hb : r.buffer = f.header (f.recordType begin end_) ptr ++ ptr.take k := by
    rw [h.buffer_eq, take_of_length_le]
    omega
  have he : r.eof = true := by
    rw [h.eof_eq, decide_eq_true]
    omega
  have hp : ptr.length < 2 ^ 16 := by
    unfold kBlockSize at hrm
    omega
  obtain ⟨recycled, hr⟩ := readPhysicalRecord_header hp h.logNumber_eq hb
  have hl : f.headerSize + ptr.length > r.buffer.length := by
    rw [hb, hln]
    omega
  rw [takeFragment, if_pos hl] at hr
  exact ⟨_, _, hr, h.reports_eq, .inr (.inr ⟨rfl, he⟩)⟩

theorem At.cutShort_fragment (hs : f.Starts off pad o) (hrm : o + f.headerSize + ptr.length ≤ kBlockSize)
    {t : ℕ} (ht : t < (pad ++ f.physicalRecord (f.recordType begin end_) ptr).length)
    (h : At f r off ((pad ++ f.physicalRecord (f.recordType begin end_) ptr).take t)) : r.CutShort := by
  have hh : f.headerSize = kHeaderSize := by
    rw [Format.headerSize, hf]
    rfl
  have hl := f.length_physicalRecord begin end_ ptr
  -- at the start of the fragment
  have hfr {r : Reader} {t : ℕ} (ht : t < (f.physicalRecord (f.recordType begin end_) ptr).length)
      (h : At f r o ((f.physicalRecord (f.recordType begin end_) ptr).take t)) : r.CutShort := by
    rcases Nat.lt_or_ge t kHeaderSize with hlt | hge
    · have htk : ((f.physicalRecord (f.recordType begin end_) ptr).take t).length = t := by
        rw [length_take, Nat.min_eq_left (Nat.le_of_lt ht)]
      apply h.cutShort_end <;> omega
    · obtain ⟨k, rfl⟩ := Nat.exists_eq_add_of_le hge
      rw [Format.physicalRecord, ← hh, ← f.length_header begin end_ ptr, take_length_add_append] at h
      exact h.cutShort_payload hf (by omega) hrm
  obtain ⟨hlt, hz, rfl⟩ | ⟨hle, rfl, rfl⟩ := hs
  · have hpd : pad.length = kBlockSize - off := by rw [hz, length_replicate]
    rcases Nat.lt_or_ge t pad.length with hc | hp
    · rw [take_append_of_le_length (Nat.le_of_lt hc)] at h
      have htk : (pad.take t).length = t := by rw [length_take, Nat.min_eq_left (Nat.le_of_lt hc)]
      apply h.cutShort_end <;> omega
    obtain ⟨k, rfl⟩ := Nat.exists_eq_add_of_le hp
    rw [take_length_add_append] at h
    obtain ⟨r1, hr, hat⟩ := h.readPhysicalRecord_trailer hpd (by omega)
    rw [length_append] at ht
    unfold CutShort
    rw [hr]
    exact hfr (by omega) hat
  · exact hfr ht h

theorem readRecordLoop_cut {left bytes : Bytes} {off' : ℕ} (hw : f.Written off begin left bytes off') {l : Locals}
    (hl : l.Before begin) (ho : begin = false → off = kBlockSize) {t : ℕ} (ht : t < bytes.length)
    (h : At f r off (bytes.take t)) (fuel : ℕ) (hfu : bytes.length < fuel) :
    ∃ r', readRecordLoop .tolerateCorruptedTailRecords fuel r l = some (r', none) ∧ r'.reports = [] := by
  have hsz := length_logNumberField f
  induction hw generalizing l r t fuel with
  | @last off o begin left pad hs hrm =>
    obtain ⟨fuel, rfl⟩ : ∃ k, fuel = k + 1 := ⟨fuel - 1, by omega⟩
    exact (h.cutShort_fragment hf hs hrm ht).readRecordLoop l fuel
  | @cut off o n off' begin left pad bytes hs hn hfl hrs ih =>
    have hrm : o + f.headerSize + (left.take n).length = kBlockSize := by
      rw [length_take, Nat.min_eq_left (Nat.le_of_lt hn), hfl]
    have hln := f.length_physicalRecord begin false (left.take n)
    rcases Nat.lt_or_ge t (pad ++ f.physicalRecord (f.recordType begin false) (left.take n)).length with hc | hps
    · rw [take_append_of_le_length (Nat.le_of_lt hc)] at h
      obtain ⟨fuel, rfl⟩ : ∃ k, fuel = k + 1 := ⟨fuel - 1, by omega⟩
      exact (h.cutShort_fragment hf hs (Nat.le_of_eq hrm) hc).readRecordLoop l fuel
    obtain ⟨k, rfl⟩ := Nat.exists_eq_add_of_le hps
    rw [take_length_add_append, append_assoc] at h
    simp only [length_append, hln] at ht hfu
    obtain ⟨r0, r1, hrd, hat, hlp⟩ := readRecordLoop_start .tolerateCorruptedTailRecords hs h (hl.at_block_end ho)
    obtain ⟨r2, hp, hat⟩ := hat.readPhysicalRecord (Nat.le_of_eq hrm)
    rw [hrm] at hat
    obtain ⟨l', hrn, hl', -⟩ := readRecordRound_cut .tolerateCorruptedTailRecords (hrd.trans hp) hl
    obtain ⟨fuel, rfl⟩ : ∃ k, fuel = k + 2 := ⟨fuel - 2, by omega⟩
    obtain ⟨fuel', hge, hlp⟩ := hlp fuel
    obtain ⟨r3, hrs, hr⟩ := ih hl' (fun _ => rfl) (by omega) hat fuel' (by omega)
    refine ⟨r3, ?_, hr⟩
    rw [hlp, readRecordLoop, hrn]
    exact hrs

theorem readRecord_cut {record bytes : Bytes} {off' : ℕ} (hw : f.Written off true record bytes off') {t : ℕ}
    (ht : t < bytes.length) (h : At f r off (bytes.take t)) (fuel : ℕ) (hfl : bytes.length < fuel) :
    ∃ r', r.readRecord .tolerateCorruptedTailRecords fuel = some (r', none) ∧ r'.reports = [] :=
  readRecordLoop_cut hf hw ⟨rfl, fun _ => rfl⟩ nofun ht h fuel hfl

end

theorem readAll_cut (rs : List Bytes) (w : Writer) (hw : w.recycleLogFiles = false) {bytes : Bytes} {t : ℕ}
    (hb : (rs.foldl Writer.addRecord w).dest = w.dest ++ bytes)
    (h : At w.toFormat r off (bytes.take t))
    (ho : off = w.blockOffset ∨ w.blockOffset = 0 ∧ off = kBlockSize) :
    ∃ k ≤ rs.length, (∀ i < rs.length, i < k ↔
        ((rs.take (i + 1)).foldl Writer.addRecord w).dest.length ≤ w.dest.length + t) ∧
      ∀ fuel ≥ bytes.length + 2, ∃ r',
        r.readAll .tolerateCorruptedTailRecords fuel = some (r', rs.take k) ∧ r'.reports = [] := by
  induction rs generalizing r w off bytes t with
  | nil =>
    obtain rfl : bytes = [] := self_eq_append_right.mp hb
    rw [take_nil] at h
    exact ⟨0, Nat.le_refl 0, nofun, readAll_written .tolerateCorruptedTailRecords (.nil off) h⟩
  | cons record rs ih =>
    obtain ⟨head, tail, rfl, hh, ht, hwr⟩ := Writer.addRecords_cons hb ho
    have hne := hwr.length_pos
    rw [length_append]
    rcases Nat.lt_or_ge t head.length with hc | hp
    · rw [take_append_of_le_length (Nat.le_of_lt hc)] at h
      refine ⟨0, Nat.zero_le _, fun i _ => ?_, fun fuel hfl => ?_⟩
      · obtain ⟨more, hm⟩ := Writer.foldl_addRecord_dest (rs.take i) (w.addRecord record)
        rw [take_succ_cons, foldl_cons, hm, hh]
        simp only [length_append]
        omega
      · obtain ⟨fuel, rfl⟩ : ∃ k, fuel = k + 1 := ⟨fuel - 1, by omega⟩
        obtain ⟨r', hrd, hr⟩ := readRecord_cut hw hwr hc h fuel (by omega)
        refine ⟨r', ?_, hr⟩
        rw [readAll, hrd, take_zero]
    · obtain ⟨t, rfl⟩ := Nat.exists_eq_add_of_le hp
      rw [take_length_add_append] at h
      have hw' : (w.addRecord record).recycleLogFiles = false := by rw [w.addRecord_toFormat, hw]
      obtain ⟨r1, hat, hrd⟩ := readRecord_written .tolerateCorruptedTailRecords hwr h
      rw [← w.addRecord_toFormat record] at hat
      obtain ⟨k, hk, hiff, hrs⟩ := ih (w.addRecord record) hw' ht hat (.inl rfl)
      rw [hh, length_append] at hiff
      refine ⟨k + 1, Nat.succ_le_succ hk, fun i hi => ?_, fun fuel hfl => ?_⟩
      · cases i with
        | zero =>
          change 0 < k + 1 ↔ (w.addRecord record).dest.length ≤ _
          rw [hh, length_append]
          omega
        | succ i =>
          rw [take_succ_cons, foldl_cons, Nat.succ_lt_succ_iff, hiff i (Nat.lt_of_succ_lt_succ hi), add_assoc]
      · obtain ⟨fuel, rfl⟩ : ∃ k, fuel = k + 1 := ⟨fuel - 1, by omega⟩
        obtain ⟨r', hrs, hr⟩ := hrs fuel (by omega)
        refine ⟨r', ?_, hr⟩
        rw [readAll, hrd fuel (by omega)]
        simp [hrs]

end Reader

theorem readAll_truncated (logNumber : ℕ) (checksum : Bool) (records : List Bytes) (t : ℕ) : ∃ k ≤ records.length,
      (∀ i < records.length, i < k ↔ (logOf ⟨logNumber, false⟩ (records.take (i + 1))).length ≤ t) ∧
      ∃ enough, ∀ fuel ≥ enough, ∃ r, Reader.readAll .tolerateCorruptedTailRecords fuel
            { file := (logOf ⟨logNumber, false⟩ records).take t, checksum, logNumber } =
          some (r, records.take k) ∧ r.reports = [] := by
  obtain ⟨bytes, hb⟩ := Writer.foldl_addRecord_dest records { logNumber, recycleLogFiles := false }
  have hfl : logOf ⟨logNumber, false⟩ records = bytes := hb
  rw [hfl]
  have hat : Reader.At ⟨logNumber, false⟩ { file := bytes.take t, checksum, logNumber } kBlockSize (bytes.take t) :=
    ⟨rfl, rfl, rfl, nofun, rfl⟩
  obtain ⟨k, hk, hiff, hr⟩ :=
    Reader.readAll_cut records { logNumber, recycleLogFiles := false } rfl hb hat (.inr ⟨rfl, rfl⟩)
  refine ⟨k, hk, fun i hi => ?_, bytes.length + 2, hr⟩
  rw [hiff i hi, logOf, length_nil, zero_add]

end ZenFSPlus.Db.Log
