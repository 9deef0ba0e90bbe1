import ZenFSPlus.Db.LogReader

/-!
`log::FragmentBufferedReader`, which reads a log that is still being written. `file` is what is visible and has not
been read; `buffer_` is a window of `backing_store_`, which holds the current block as far as read.
-/

namespace ZenFSPlus.Db.Log

open Util List

def overwrite (store : Bytes) (offset : ℕ) (bytes : Bytes) : Bytes :=
  store.take offset ++ bytes ++ store.drop (offset + bytes.length)

theorem length_overwrite {store : Bytes} {off : ℕ} (h : off ≤ store.length) (bytes : Bytes) :
    off + bytes.length ≤ (overwrite store off bytes).length := by
  simp only [overwrite, length_append, length_take]
  omega

structure Window where
  backingStore : Bytes
  start : ℕ
  size : ℕ
  eof : Bool
  eofOffset : ℕ
  le_length : start + size ≤ backingStore.length
  of_eof : eof = true → start + size = eofOffset ∧ eofOffset < kBlockSize

namespace Window

def empty : Window where
  backingStore := []
  start := 0
  size := 0
  eof := false
  eofOffset := 0
  le_length := Nat.le_refl 0
  of_eof := nofun

def buffer (w : Window) : Bytes := (w.backingStore.drop w.start).take w.size

def removePrefix (w : Window) (n : ℕ) : Window where
  backingStore := w.backingStore
  start := w.start + min n w.size
  size := w.size - n
  eof := w.eof
  eofOffset := w.eofOffset
  le_length := by
    have := w.le_length
    omega
  of_eof := by
    intro h
    have := w.of_eof h
    omega

def clear (w : Window) : Window := w.removePrefix w.size

def readBlock (w : Window) (read : Bytes) : Window where
  backingStore := overwrite w.backingStore 0 read
  start := 0
  size := read.length
  eof := read.length < kBlockSize
  eofOffset := if read.length < kBlockSize then read.length else w.eofOffset
  le_length := length_overwrite (Nat.zero_le _) read
  of_eof := by
    intro h
    have h := of_decide_eq_true h
    rw [if_pos h]
    omega

def unmarkEOF (w : Window) (h : w.eof = true) (remaining : ℕ) (hremaining : remaining = kBlockSize - w.eofOffset)
    (read : Bytes) : Window where
  backingStore := overwrite w.backingStore w.eofOffset read
  start := w.eofOffset - w.size
  size := w.eofOffset + read.length - (w.eofOffset - w.size)
  eof := read.length < remaining
  eofOffset := if read.length < remaining then w.eofOffset + read.length else 0
  le_length := by
    have := w.le_length
    have := w.of_eof h
    have := length_overwrite (show w.eofOffset ≤ w.backingStore.length by omega) read
    omega
  of_eof := by
    intro hlt
    have hlt := of_decide_eq_true hlt
    have := w.of_eof h
    rw [if_pos hlt]
    omega

end Window

structure FragmentBufferedReader where
  file : Bytes
  checksum : Bool
  logNumber : ℕ
  window : Window := .empty
  lastRecordOffset : ℕ := 0
  endOfBufferOffset : ℕ := 0
  recycled : Bool := false
  reports : List (ℕ × String) := []
  fragments : Bytes := []
  inFragmentedRecord : Bool := false

namespace FragmentBufferedReader

def reportCorruption (r : FragmentBufferedReader) (bytes : ℕ) (reason : String) : FragmentBufferedReader :=
  { r with reports := r.reports ++ [(bytes, reason)] }

def reportIf (c : Bool) (r : FragmentBufferedReader) (bytes : ℕ) (reason : String) : FragmentBufferedReader :=
  if c then r.reportCorruption bytes reason else r

/-- Reading succeeds, and so does `TryReadMore`. -/
def tryReadMore (r : FragmentBufferedReader) : FragmentBufferedReader :=
  if h : r.window.eof = true then
    let remaining := kBlockSize - r.window.eofOffset
    let read := r.file.take remaining
    { r with
      file := r.file.drop remaining
      window := r.window.unmarkEOF h remaining rfl read
      endOfBufferOffset := r.endOfBufferOffset + read.length }
  else
    let read := r.file.take kBlockSize
    { r with
      file := r.file.drop kBlockSize
      window := r.window.readBlock read
      endOfBufferOffset := r.endOfBufferOffset + read.length }

def unread (r : FragmentBufferedReader) : ℕ := 2 * r.file.length + if r.window.eof then 0 else 1

theorem unread_tryReadMore {r : FragmentBufferedReader} (h : ¬ r.window.size = r.tryReadMore.window.size) :
    r.tryReadMore.unread < r.unread := by
  unfold tryReadMore at h ⊢
  by_cases he : r.window.eof = true
  · have hw := r.window.of_eof he
    simp only [he, dif_pos, Window.unmarkEOF, unread, length_take, length_drop, if_true, decide_eq_true_eq] at h ⊢
    split <;> omega
  have he : r.window.eof = false := by simpa using he
  simp only [he, Bool.false_eq_true, dif_neg, not_false_eq_true, Window.readBlock, unread, length_take,
    length_drop, if_false, decide_eq_true_eq] at h ⊢
  unfold kBlockSize at *
  split <;> omega

def fill (r : FragmentBufferedReader) (n : ℕ) : FragmentBufferedReader × Bool :=
  if r.window.size < n then
    if r.window.size = r.tryReadMore.window.size then (r.tryReadMore, false) else fill r.tryReadMore n
  else (r, true)
termination_by r.unread
decreasing_by exact unread_tryReadMore ‹_›

def takeFragment (r : FragmentBufferedReader) (header headerSize : ℕ) (type : PhysicalType) (length : ℕ) :
    FragmentBufferedReader × Option Physical :=
  match r.fill (headerSize + length) with
  | (r, false) => (r, none)
  | (r, true) =>
    let store := r.window.backingStore
    if type = .record .zeroType ∧ length = 0 then
      ({ r with window := r.window.clear }, some { type := .badRecord })
    else if r.checksum ∧ Crc32c.value ((store.drop (header + 6)).take (length + headerSize - 6)) ≠
        Crc32c.unmask (.ofNat 32 (decodeFixed32 (store.drop header))) then
      ({ r with window := r.window.clear }, some { type := .badRecordChecksum, dropSize := r.window.size })
    else
      ({ r with window := r.window.removePrefix (headerSize + length) },
        some { type, fragment := (store.drop (header + headerSize)).take length })

def markRecycled (r : FragmentBufferedReader) : FragmentBufferedReader :=
  if r.endOfBufferOffset - r.window.size = 0 then { r with recycled := true } else r

/-- `none` is the result `false`. -/
def tryReadFragment (r : FragmentBufferedReader) : FragmentBufferedReader × Option Physical :=
  match r.fill kHeaderSize with
  | (r, false) => (r, none)
  | (r, true) =>
    let header := r.window.start
    let type := PhysicalType.ofChar (r.window.backingStore.getD (header + 6) 0)
    let length := decodeFixed16 (r.window.backingStore.drop (header + 4))
    if type.isRecyclable then
      match r.markRecycled.fill kRecyclableHeaderSize with
      | (r, false) => (r, none)
      | (r, true) =>
        if decodeFixed32 (r.window.backingStore.drop (header + 7)) ≠ r.logNumber then
          (r, some { type := .oldRecord })
        else r.takeFragment header kRecyclableHeaderSize type length
    else r.takeFragment header kHeaderSize type length

inductive Round
  | next (r : FragmentBufferedReader) (prospectiveRecordOffset : ℕ)
  | done (r : FragmentBufferedReader) (record : Option Bytes)

def skipRecord (r : FragmentBufferedReader) (prospectiveRecordOffset : ℕ) : Round :=
  .next (if r.inFragmentedRecord then
      { r.reportCorruption r.fragments.length "error in middle of record" with
        inFragmentedRecord := false, fragments := [] }
    else r) prospectiveRecordOffset

def unknownType (r : FragmentBufferedReader) (fragment : Bytes) (code prospectiveRecordOffset : ℕ) : Round :=
  .next { r.reportCorruption (fragment.length + if r.inFragmentedRecord then r.fragments.length else 0)
      ("unknown record type " ++ toString code) with inFragmentedRecord := false, fragments := [] }
    prospectiveRecordOffset

def readRecordRound (r : FragmentBufferedReader) (physicalRecordOffset prospectiveRecordOffset : ℕ) : Round :=
  match r.tryReadFragment with
  | (r, none) => .done r none
  | (r, some p) =>
    match p.type with
    | .record .fullType | .record .recyclableFullType =>
      let r := reportIf (r.inFragmentedRecord && !r.fragments.isEmpty) r r.fragments.length
        "partial record without end(1)"
      .done { r with fragments := [], lastRecordOffset := physicalRecordOffset, inFragmentedRecord := false }
        (some p.fragment)
    | .record .firstType | .record .recyclableFirstType =>
      let r := reportIf (r.inFragmentedRecord || !r.fragments.isEmpty) r r.fragments.length
        "partial record without end(2)"
      .next { r with fragments := p.fragment, inFragmentedRecord := true } physicalRecordOffset
    | .record .middleType | .record .recyclableMiddleType =>
      if !r.inFragmentedRecord then
        .next (r.reportCorruption p.fragment.length "missing start of fragmented record(1)") prospectiveRecordOffset
      else .next { r with fragments := r.fragments ++ p.fragment } prospectiveRecordOffset
    | .record .lastType | .record .recyclableLastType =>
      if !r.inFragmentedRecord then
        .next (r.reportCorruption p.fragment.length "missing start of fragmented record(2)") prospectiveRecordOffset
      else
        .done { r with fragments := [], lastRecordOffset := prospectiveRecordOffset, inFragmentedRecord := false }
          (some (r.fragments ++ p.fragment))
    | .badHeader | .badRecord | .eof | .oldRecord => skipRecord r prospectiveRecordOffset
    | .badRecordChecksum =>
      if r.recycled then .done { r with fragments := [] } none
      else skipRecord (r.reportCorruption p.dropSize "checksum mismatch") prospectiveRecordOffset
    | .record .zeroType => unknownType r p.fragment 0 prospectiveRecordOffset
    | .badRecordLen => unknownType r p.fragment 13 prospectiveRecordOffset
    | .unknown code => unknownType r p.fragment code prospectiveRecordOffset

def readRecordLoop (physicalRecordOffset : ℕ) :
    ℕ → FragmentBufferedReader → ℕ → Option (FragmentBufferedReader × Option Bytes)
  | 0, _, _ => none
  | fuel + 1, r, prospectiveRecordOffset =>
    match r.readRecordRound physicalRecordOffset prospectiveRecordOffset with
    | .next r prospectiveRecordOffset => readRecordLoop physicalRecordOffset fuel r prospectiveRecordOffset
    | .done r record => some (r, record)

def readRecord (fuel : ℕ) (r : FragmentBufferedReader) : Option (FragmentBufferedReader × Option Bytes) :=
  readRecordLoop (r.endOfBufferOffset - r.window.size) fuel r 0

def readAll : ℕ → FragmentBufferedReader → Option (FragmentBufferedReader × List Bytes)
  | 0, _ => none
  | fuel + 1, r =>
    match r.readRecord fuel with
    | none => none
    | some (r, none) => some (r, [])
    | some (r, some record) => (readAll fuel r).map fun (r, records) => (r, record :: records)

def follow (fuel : ℕ) : List Bytes → FragmentBufferedReader → Option (FragmentBufferedReader × List Bytes)
  | [], r => some (r, [])
  | chunk :: chunks, r =>
    match readAll fuel { r with file := r.file ++ chunk } with
    | none => none
    | some (r, records) => (follow fuel chunks r).map fun (r, records') => (r, records ++ records')

end FragmentBufferedReader

end ZenFSPlus.Db.Log
