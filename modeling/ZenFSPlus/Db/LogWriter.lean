import ZenFSPlus.Util.Coding
import ZenFSPlus.Util.Crc32c

/-!
`db/log_format.h` and `db/log_writer.cc`. The file the writer appends to is `dest`, and appending to it succeeds.
-/

namespace ZenFSPlus.Db.Log

open List
open Lib (u32 u32_of_lt)
open Util

def kBlockSize : ℕ := 32768

def kHeaderSize : ℕ := 4 + 2 + 1

def kRecyclableHeaderSize : ℕ := 4 + 2 + 1 + 4

inductive RecordType
  | zeroType | fullType | firstType | middleType | lastType
  | recyclableFullType | recyclableFirstType | recyclableMiddleType | recyclableLastType
  deriving DecidableEq, Repr

namespace RecordType

def code : RecordType → ℕ
  | zeroType => 0
  | fullType => 1
  | firstType => 2
  | middleType => 3
  | lastType => 4
  | recyclableFullType => 5
  | recyclableFirstType => 6
  | recyclableMiddleType => 7
  | recyclableLastType => 8

def isRecyclable (t : RecordType) : Bool := recyclableFullType.code ≤ t.code

end RecordType

structure Format where
  logNumber : ℕ
  recycleLogFiles : Bool

namespace Format

def headerSize (f : Format) : ℕ := if f.recycleLogFiles then kRecyclableHeaderSize else kHeaderSize

def recordType (f : Format) (begin end_ : Bool) : RecordType :=
  if begin && end_ then if f.recycleLogFiles then .recyclableFullType else .fullType
  else if begin then if f.recycleLogFiles then .recyclableFirstType else .firstType
  else if end_ then if f.recycleLogFiles then .recyclableLastType else .lastType
  else if f.recycleLogFiles then .recyclableMiddleType else .middleType

def header (f : Format) (t : RecordType) (ptr : Bytes) : Bytes :=
  let typeCrc := Crc32c.value [.ofNat t.code]
  let logNumber := if t.isRecyclable then encodeFixed32 (u32 f.logNumber) else []
  let crc := if t.isRecyclable then Crc32c.extend typeCrc logNumber else typeCrc
  let payloadCrc := Crc32c.value ptr
  let crc := Crc32c.mask (Crc32c.crc32cCombine crc payloadCrc ptr.length)
  encodeFixed32 crc.toNat ++ encodeFixed16 ptr.length ++ [.ofNat t.code] ++ logNumber

theorem headerSize_pos (f : Format) : 0 < f.headerSize ∧ f.headerSize < kBlockSize := by
  unfold headerSize
  split <;> decide

theorem isRecyclable_recordType (f : Format) (begin end_ : Bool) :
    (f.recordType begin end_).isRecyclable = f.recycleLogFiles := by
  unfold recordType
  cases begin <;> cases end_ <;> cases f.recycleLogFiles <;> rfl

theorem length_header (f : Format) (begin end_ : Bool) (ptr : Bytes) :
    (f.header (f.recordType begin end_) ptr).length = f.headerSize := by
  simp only [header, isRecyclable_recordType, headerSize]
  cases f.recycleLogFiles <;>
    simp [encodeFixed32, encodeFixed16, length_encodeFixed, kHeaderSize, kRecyclableHeaderSize]

end Format

structure Writer extends Format where
  dest : Bytes := []
  blockOffset : ℕ := 0

namespace Writer

def emitPhysicalRecord (w : Writer) (t : RecordType) (ptr : Bytes) : Writer :=
  let buf := w.header t ptr
  { w with dest := w.dest ++ buf ++ ptr, blockOffset := w.blockOffset + buf.length + ptr.length }

def switchBlock (w : Writer) : Writer :=
  let leftover := kBlockSize - w.blockOffset
  if leftover < w.headerSize then
    { w with dest := w.dest ++ replicate leftover 0, blockOffset := 0 }
  else w

variable {w : Writer} {off : ℕ}

theorem switchBlock_of_lt (h : kBlockSize - w.blockOffset < w.headerSize) : w.switchBlock =
      { w with dest := w.dest ++ replicate (kBlockSize - w.blockOffset) 0, blockOffset := 0 } :=
  if_pos h

theorem switchBlock_of_le (h : w.headerSize ≤ kBlockSize - w.blockOffset) : w.switchBlock = w :=
  if_neg (Nat.not_lt.mpr h)

theorem switchBlock_toFormat (w : Writer) : w.switchBlock.toFormat = w.toFormat := by
  rcases Nat.lt_or_ge (kBlockSize - w.blockOffset) w.headerSize with h | h
  · rw [switchBlock_of_lt h]
  · rw [switchBlock_of_le h]

theorem switchBlock_room (w : Writer) : w.switchBlock.blockOffset + w.headerSize ≤ kBlockSize := by
  have := w.headerSize_pos
  rcases Nat.lt_or_ge (kBlockSize - w.blockOffset) w.headerSize with h | h
  · rw [switchBlock_of_lt h]
    simp only
    omega
  · rw [switchBlock_of_le h]
    omega

def fragmentLength (w : Writer) (left : Bytes) : ℕ :=
  let avail := kBlockSize - w.blockOffset - w.headerSize
  if left.length < avail then left.length else avail

def addFragment (w : Writer) (left : Bytes) (begin : Bool) : Writer :=
  let w := w.switchBlock
  let fragmentLength := w.fragmentLength left
  let end_ : Bool := left.length = fragmentLength
  w.emitPhysicalRecord (w.recordType begin end_) (left.take fragmentLength)

def headerOnly (w : Writer) : ℕ := if w.switchBlock.blockOffset + w.headerSize = kBlockSize then 1 else 0

theorem fragmentLength_eq (w : Writer) (left : Bytes) :
    w.fragmentLength left = min left.length (kBlockSize - w.blockOffset - w.headerSize) := by
  unfold fragmentLength
  simp only
  split <;> omega

theorem addFragment_toFormat (w : Writer) (left : Bytes) (begin : Bool) :
    (w.addFragment left begin).toFormat = w.toFormat :=
  w.switchBlock_toFormat

theorem addFragment_blockOffset (w : Writer) (left : Bytes) (begin : Bool) : (w.addFragment left begin).blockOffset =
      w.switchBlock.blockOffset + w.headerSize + w.switchBlock.fragmentLength left := by
  have hle : w.switchBlock.fragmentLength left ≤ left.length := by
    rw [fragmentLength_eq]
    omega
  simp only [addFragment, emitPhysicalRecord, Format.length_header, switchBlock_toFormat, length_take,
    Nat.min_eq_left hle]

theorem addFragment_fills {left : Bytes} (begin : Bool) (hl : left.drop (w.switchBlock.fragmentLength left) ≠ []) :
    (w.addFragment left begin).blockOffset = kBlockSize := by
  have hr := w.switchBlock_room
  have hlt := drop_eq_nil_iff.not.mp hl
  rw [addFragment_blockOffset]
  rw [fragmentLength_eq, switchBlock_toFormat] at *
  omega

theorem addRecordLoop_decreasing {left : Bytes} (begin : Bool)
    (hl : left.drop (w.switchBlock.fragmentLength left) ≠ []) :
    2 * (left.drop (w.switchBlock.fragmentLength left)).length + (w.addFragment left begin).headerOnly <
      2 * left.length + w.headerOnly := by
  have hn : (w.addFragment left begin).headerOnly = 0 := by
    have hp := (w.addFragment left begin).headerSize_pos
    have hs : kBlockSize - (w.addFragment left begin).blockOffset < (w.addFragment left begin).headerSize := by
      rw [addFragment_fills begin hl]
      omega
    rw [headerOnly, switchBlock_of_lt hs, if_neg]
    simp only
    omega
  have hr := w.switchBlock_room
  have hlt := drop_eq_nil_iff.not.mp hl
  rw [hn, length_drop, headerOnly]
  rw [fragmentLength_eq, switchBlock_toFormat] at *
  split <;> omega

def addRecordLoop (w : Writer) (left : Bytes) (begin : Bool) : Writer :=
  let w' := w.addFragment left begin
  let left' := left.drop (w.switchBlock.fragmentLength left)
  if left' = [] then w' else addRecordLoop w' left' false
termination_by 2 * left.length + w.headerOnly
decreasing_by
  rename_i hleft
  exact addRecordLoop_decreasing begin hleft

def addRecord (w : Writer) (slice : Bytes) : Writer := w.addRecordLoop slice true

end Writer

namespace Format

def Starts (f : Format) (off : ℕ) (pad : Bytes) (o : ℕ) : Prop :=
  kBlockSize - off < f.headerSize ∧ pad = replicate (kBlockSize - off) 0 ∧ o = 0 ∨
    f.headerSize ≤ kBlockSize - off ∧ pad = [] ∧ o = off

def physicalRecord (f : Format) (t : RecordType) (ptr : Bytes) : Bytes := f.header t ptr ++ ptr

/-- `Written f off begin left bytes off'`: from the block offset `off` on, `bytes` are the fragments of `left`, which
end at `off'`. -/
inductive Written (f : Format) : ℕ → Bool → Bytes → Bytes → ℕ → Prop
  | last {off o : ℕ} {begin : Bool} {left pad : Bytes} (hstart : f.Starts off pad o)
      (hroom : o + f.headerSize + left.length ≤ kBlockSize) :
      Written f off begin left (pad ++ f.physicalRecord (f.recordType begin true) left)
        (o + f.headerSize + left.length)
  | cut {off o n off' : ℕ} {begin : Bool} {left pad bytes : Bytes} (hstart : f.Starts off pad o)
      (hn : n < left.length) (hfills : o + f.headerSize + n = kBlockSize)
      (hrest : Written f kBlockSize false (left.drop n) bytes off') :
      Written f off begin left (pad ++ f.physicalRecord (f.recordType begin false) (left.take n) ++ bytes) off'

theorem length_physicalRecord (f : Format) (begin end_ : Bool) (ptr : Bytes) :
    (f.physicalRecord (f.recordType begin end_) ptr).length = f.headerSize + ptr.length := by
  rw [physicalRecord, length_append, length_header]

theorem Written.length_pos {f : Format} {off off' : ℕ} {begin : Bool} {left bytes : Bytes}
    (h : f.Written off begin left bytes off') : 0 < bytes.length := by
  have := f.headerSize_pos
  cases h <;> simp only [length_append, length_physicalRecord] <;> omega

theorem Written.of_start {f : Format} {off off' : ℕ} {begin : Bool} {left bytes : Bytes}
    (h : f.Written 0 begin left bytes off') (ho : off = 0 ∨ off = kBlockSize) :
    f.Written off begin left bytes off' := by
  have hp := f.headerSize_pos
  have hst {pad : Bytes} {o : ℕ} (hs : f.Starts 0 pad o) : f.Starts off pad o := by
    obtain ⟨hlt, -, -⟩ | ⟨-, rfl, rfl⟩ := hs
    · omega
    rcases ho with rfl | rfl
    · exact .inr ⟨Nat.le_of_lt hp.2, rfl, rfl⟩
    refine .inl ⟨?_, ?_, rfl⟩
    · rw [Nat.sub_self]
      exact hp.1
    · rw [Nat.sub_self, replicate_zero]
  cases h with
  | last hs hr => exact .last (hst hs) hr
  | cut hs hn hf hrs => exact .cut (hst hs) hn hf hrs

inductive Layout (f : Format) : ℕ → List Bytes → Bytes → Prop
  | nil (off : ℕ) : Layout f off [] []
  | cons {off off' : ℕ} {record bytes rest : Bytes} {records : List Bytes}
      (hw : f.Written off true record bytes off') (h : Layout f off' records rest) :
      Layout f off (record :: records) (bytes ++ rest)

theorem Layout.eq_nil {f : Format} {rs : List Bytes} (h : f.Layout off rs []) : rs = [] := by
  generalize hb : ([] : Bytes) = bytes at h
  cases h with
  | nil => rfl
  | cons hw _ =>
    have hp := hw.length_pos
    have hl := congrArg List.length hb
    rw [length_nil, length_append] at hl
    omega

end Format

namespace Writer

theorem switchBlock_starts (w : Writer) :
    ∃ pad, w.switchBlock.dest = w.dest ++ pad ∧ w.Starts w.blockOffset pad w.switchBlock.blockOffset := by
  rcases Nat.lt_or_ge (kBlockSize - w.blockOffset) w.headerSize with h | h
  · rw [switchBlock_of_lt h]
    exact ⟨_, rfl, Or.inl ⟨h, rfl, rfl⟩⟩
  · rw [switchBlock_of_le h]
    exact ⟨[], (append_nil _).symm, Or.inr ⟨h, rfl, rfl⟩⟩

theorem addFragment_dest (w : Writer) (left : Bytes) (begin : Bool) :
    ∃ pad, w.Starts w.blockOffset pad w.switchBlock.blockOffset ∧
      (w.addFragment left begin).dest = w.dest ++ (pad ++ w.physicalRecord
        (w.recordType begin (left.length = w.switchBlock.fragmentLength left))
        (left.take (w.switchBlock.fragmentLength left))) := by
  obtain ⟨pad, hd, hs⟩ := w.switchBlock_starts
  refine ⟨pad, hs, ?_⟩
  simp only [addFragment, emitPhysicalRecord, Format.physicalRecord, hd, switchBlock_toFormat, append_assoc]

theorem addRecordLoop_written (w : Writer) (left : Bytes) (begin : Bool) :
    let r := w.addRecordLoop left begin
    r.toFormat = w.toFormat ∧ ∃ bytes, r.dest = w.dest ++ bytes ∧
        w.Written w.blockOffset begin left bytes r.blockOffset := by
  have hr := w.switchBlock_room
  induction w, left, begin using addRecordLoop.induct with
  | case1 w left begin left' hn =>
    have hl : w.switchBlock.fragmentLength left = left.length := by
      have hle := drop_eq_nil_iff.mp hn
      rw [fragmentLength_eq] at *
      omega
    have hft := w.switchBlock.fragmentLength_eq left
    obtain ⟨pad, hs, hd⟩ := w.addFragment_dest left begin
    rw [addRecordLoop, if_pos hn]
    refine ⟨w.addFragment_toFormat left begin, _, hd, ?_⟩
    rw [addFragment_blockOffset, hl, take_length, decide_eq_true rfl]
    rw [hl, switchBlock_toFormat] at hft
    exact .last hs (by omega)
  | case2 w left begin w' left' hne ih =>
    have hlt := Nat.not_le.mp (drop_eq_nil_iff.not.mp hne)
    obtain ⟨pad, hs, hd⟩ := w.addFragment_dest left begin
    obtain ⟨hf, bytes, hb, hw⟩ := ih (switchBlock_room _)
    rw [addFragment_toFormat, addFragment_fills begin hne] at hw
    rw [addRecordLoop, if_neg hne]
    refine ⟨hf.trans (w.addFragment_toFormat left begin),
      pad ++ w.physicalRecord (w.recordType begin false) (left.take (w.switchBlock.fragmentLength left)) ++
        bytes, ?_, ?_⟩
    · change (w'.addRecordLoop left' false).dest = _
      rw [hb, hd, decide_eq_false (Nat.ne_of_gt hlt), append_assoc]
    · refine .cut hs hlt ?_ hw
      rw [← addFragment_blockOffset w left begin, addFragment_fills begin hne]

theorem addRecord_toFormat (w : Writer) (slice : Bytes) : (w.addRecord slice).toFormat = w.toFormat :=
  (w.addRecordLoop_written slice true).1

theorem addRecord_written (w : Writer) (slice : Bytes) : ∃ bytes, (w.addRecord slice).dest = w.dest ++ bytes ∧
      w.Written w.blockOffset true slice bytes (w.addRecord slice).blockOffset :=
  (w.addRecordLoop_written slice true).2

theorem foldl_addRecord_dest (rs : List Bytes) (w : Writer) :
    ∃ bytes, (rs.foldl addRecord w).dest = w.dest ++ bytes := by
  induction rs generalizing w with
  | nil => exact ⟨[], (append_nil _).symm⟩
  | cons record rs ih =>
    obtain ⟨head, hh, -⟩ := w.addRecord_written record
    obtain ⟨tail, ht⟩ := ih (w.addRecord record)
    exact ⟨head ++ tail, by rw [foldl_cons, ht, hh, append_assoc]⟩

theorem addRecords_cons {w : Writer} {record bytes : Bytes} {rs : List Bytes}
    (hb : ((record :: rs).foldl addRecord w).dest = w.dest ++ bytes)
    (ho : off = w.blockOffset ∨ w.blockOffset = 0 ∧ off = kBlockSize) :
    ∃ head tail, bytes = head ++ tail ∧ (w.addRecord record).dest = w.dest ++ head ∧
      (rs.foldl addRecord (w.addRecord record)).dest = (w.addRecord record).dest ++ tail ∧
      w.Written off true record head (w.addRecord record).blockOffset := by
  obtain ⟨head, hh, hw⟩ := w.addRecord_written record
  obtain ⟨tail, ht⟩ := foldl_addRecord_dest rs (w.addRecord record)
  refine ⟨head, tail, ?_, hh, ht, ?_⟩
  · rw [foldl_cons, ht, hh, append_assoc] at hb
    exact (append_cancel_left hb).symm
  · rcases ho with rfl | ⟨hz, he⟩
    · exact hw
    · rw [hz] at hw
      exact hw.of_start (.inr he)

theorem addRecords_layout (rs : List Bytes) (w : Writer) {bytes : Bytes}
    (hb : (rs.foldl addRecord w).dest = w.dest ++ bytes)
    (ho : off = w.blockOffset ∨ w.blockOffset = 0 ∧ off = kBlockSize) : w.Layout off rs bytes := by
  induction rs generalizing w bytes off with
  | nil =>
    obtain rfl : bytes = [] := self_eq_append_right.mp hb
    exact .nil off
  | cons record rs ih =>
    obtain ⟨head, tail, rfl, -, ht, hw⟩ := addRecords_cons hb ho
    have hr := ih (w.addRecord record) ht (.inl rfl)
    rw [w.addRecord_toFormat] at hr
    exact .cons hw hr

end Writer

end ZenFSPlus.Db.Log
