import ZenFSPlus.Lib.Run
import ZenFSPlus.Util.AlignedBuffer

/-!
`WritableFileWriter` on a file whose writes all succeed. A function that returns `none` does not return.
-/

namespace ZenFSPlus.File

open Lib ZenFSPlus.Util List

structure WritableFile where
  content : List UInt8
  positioned : List (ℕ × ℕ)
deriving DecidableEq, Repr

namespace WritableFile

def append (f : WritableFile) (data : List UInt8) : WritableFile := { f with content := f.content ++ data }

def positionedAppend (f : WritableFile) (data : List UInt8) (offset : ℕ) : WritableFile where
  content := f.content.take offset ++ replicate (offset - f.content.length) 0 ++ data ++
    f.content.drop (offset + data.length)
  positioned := f.positioned ++ [(offset, data.length)]

def truncate (f : WritableFile) (size : ℕ) : WritableFile :=
  { f with content := f.content.take size ++ replicate (size - f.content.length) 0 }

end WritableFile

structure RateLimiter (useDirectIo : Bool) (alignment : ℕ) where
  requestToken : ℕ → ℕ → ℕ
  pos : ∀ k bytes, 0 < bytes → 0 < requestToken k bytes
  le : ∀ k bytes, requestToken k bytes ≤ bytes
  dvd : useDirectIo = true → ∀ k bytes, alignment ∣ bytes → alignment ∣ requestToken k bytes

/-- `checksumHandoff` is `perform_data_verification_ && buffered_data_with_checksum_`; `fresh` is what new
memory holds. -/
structure WriterOptions where
  initialCapacity : ℕ
  maxBufferSize : ℕ
  alignment : ℕ
  alignment_pow : ∃ k, alignment = 2 ^ k
  useDirectIo : Bool
  checksumHandoff : Bool
  bytesPerSync : ℕ
  rateLimiter : RateLimiter useDirectIo alignment
  fresh : Mem UInt8

structure WritableFileWriter where
  buf : AlignedBuffer
  filesize : ℕ
  nextWriteOffset : ℕ
  pendingSync : Bool
  lastSyncSize : ℕ
  requests : ℕ
  file : WritableFile

namespace WritableFileWriter

variable (o : WriterOptions) (w : WritableFileWriter)

def new : WritableFileWriter where
  buf := { AlignedBuffer.empty with alignment := o.alignment }.allocateNewBuffer o.fresh o.initialCapacity false 0 0
  filesize := 0
  nextWriteOffset := 0
  pendingSync := false
  lastSyncSize := 0
  requests := 0
  file := ⟨[], []⟩

def writeBufferedLoop (data : List UInt8) (requests : ℕ) (file : WritableFile) : ℕ × WritableFile :=
  if h : data = [] then (requests, file)
  else
    let allowed := o.rateLimiter.requestToken requests data.length
    writeBufferedLoop (data.drop allowed) (requests + 1) (file.append (data.take allowed))
termination_by data.length
decreasing_by
  have hpos := length_pos_iff.mpr h
  have hgrant := o.rateLimiter.pos requests data.length hpos
  rw [length_drop]
  omega

def writeBuffered (data : List UInt8) : WritableFileWriter :=
  let (requests, file) := writeBufferedLoop o data w.requests w.file
  { w with
    buf := w.buf.size 0
    requests := requests
    file := file }

def requestAll (requests dataSize : ℕ) : ℕ :=
  if _h : dataSize = 0 then requests
  else requestAll (requests + 1) (dataSize - o.rateLimiter.requestToken requests dataSize)
termination_by dataSize
decreasing_by
  have hgrant := o.rateLimiter.pos requests dataSize (by omega)
  omega

def writeBufferedWithChecksum (data : List UInt8) : WritableFileWriter :=
  { w with
    buf := w.buf.size 0
    requests := requestAll o w.requests data.length
    file := w.file.append data }

def writeDirectLoop (data : List UInt8) (writeOffset requests : ℕ) (file : WritableFile) : ℕ × WritableFile :=
  if h : data = [] then (requests, file)
  else
    let size := o.rateLimiter.requestToken requests data.length
    writeDirectLoop (data.drop size) (writeOffset + size) (requests + 1)
      (file.positionedAppend (data.take size) writeOffset)
termination_by data.length
decreasing_by
  have hpos := length_pos_iff.mpr h
  have hgrant := o.rateLimiter.pos requests data.length hpos
  rw [length_drop]
  omega

def writeDirectWith (write : List UInt8 → ℕ × WritableFile) : WritableFileWriter :=
  let fileAdvance := truncateToPageBoundary w.buf.alignment w.buf.cursize
  let leftoverTail := w.buf.cursize - fileAdvance
  let buf := w.buf.padToAlignmentWith 0
  let (requests, file) := write buf.bytes
  { w with
    buf := buf.refitTail fileAdvance leftoverTail
    nextWriteOffset := w.nextWriteOffset + fileAdvance
    requests := requests
    file := file }

def writeDirect : WritableFileWriter :=
  w.writeDirectWith fun data => writeDirectLoop o data w.nextWriteOffset w.requests w.file

def writeDirectWithChecksum : WritableFileWriter :=
  w.writeDirectWith fun data =>
    (requestAll o w.requests data.length, w.file.positionedAppend data w.nextWriteOffset)

def rangeSync : WritableFileWriter :=
  if !o.useDirectIo ∧ o.bytesPerSync ≠ 0 ∧ 1024 * 1024 < w.filesize then
    let offsetSyncTo := w.filesize - 1024 * 1024
    let offsetSyncTo := offsetSyncTo - offsetSyncTo % (4 * 1024)
    if 0 < offsetSyncTo ∧ o.bytesPerSync ≤ offsetSyncTo - w.lastSyncSize then
      { w with lastSyncSize := offsetSyncTo }
    else w
  else w

def flushBuffer : WritableFileWriter :=
  if 0 < w.buf.cursize then
    if o.useDirectIo then
      if w.pendingSync then
        if o.checksumHandoff then w.writeDirectWithChecksum o else w.writeDirect o
      else w
    else if o.checksumHandoff then w.writeBufferedWithChecksum o w.buf.bytes
    else w.writeBuffered o w.buf.bytes
  else w

def flush : WritableFileWriter := (w.flushBuffer o).rangeSync o

def desiredCapacity (left cap : ℕ) : Option ℕ :=
  if _h : 0 < cap ∧ cap < o.maxBufferSize then
    let desired := min (cap * 2) o.maxBufferSize
    if left ≤ desired - w.buf.cursize ∨ o.useDirectIo ∧ desired = o.maxBufferSize then some desired
    else desiredCapacity left (cap * 2)
  else none
termination_by o.maxBufferSize - cap
decreasing_by omega

def room : ℕ := w.buf.capacity - w.buf.cursize

def enlarge (left : ℕ) : Option WritableFileWriter :=
  if w.room < left then
    if w.buf.capacity = 0 ∧ 0 < o.maxBufferSize then none
    else
      match desiredCapacity o w left w.buf.capacity with
      | none => some w
      | some desired => some { w with buf := w.buf.allocateNewBuffer o.fresh desired true 0 0 }
  else some w

def appendLoop : ℕ → List UInt8 → WritableFileWriter → Option WritableFileWriter
  | 0, _, _ => none
  | fuel + 1, data, w =>
    if data = [] then some w
    else
      let (buf, appended) := w.buf.append data
      let w := { w with buf := buf }
      if data.drop appended = [] then some w
      else appendLoop fuel (data.drop appended) (w.flush o)

def appendData (data : List UInt8) (hasChecksum : Bool) : Option WritableFileWriter :=
  if o.checksumHandoff ∧ hasChecksum then
    if o.useDirectIo ∨ data.length ≤ w.room then
      if data.length ≤ w.room then some { w with buf := (w.buf.append data).1 }
      else appendLoop o (data.length + 2) data w
    else some (w.writeBufferedWithChecksum o data)
  else if o.useDirectIo ∨ data.length ≤ w.buf.capacity then appendLoop o (data.length + 2) data w
  else if o.checksumHandoff then some (w.writeBufferedWithChecksum o data)
  else some (w.writeBuffered o data)

def append (data : List UInt8) (hasChecksum : Bool) : Option WritableFileWriter := do
  let w := { w with pendingSync := true }
  let w ← enlarge o w data.length
  let w := if !o.useDirectIo ∧ w.room < data.length ∧ 0 < w.buf.cursize then w.flush o else w
  let w ← w.appendData o data hasChecksum
  return { w with filesize := w.filesize + data.length }

def padLoop : ℕ → ℕ → WritableFileWriter → Option WritableFileWriter
  | 0, _, _ => none
  | fuel + 1, left, w =>
    if left = 0 then some w
    else
      let appendBytes := min w.room left
      let w := { w with buf := w.buf.padWith appendBytes 0 }
      let left := left - appendBytes
      padLoop fuel left (if 0 < left then w.flush o else w)

def pad (padBytes : ℕ) : Option WritableFileWriter := do
  let w ← padLoop o (padBytes + 3) padBytes w
  return { w with
    pendingSync := true
    filesize := w.filesize + padBytes }

def sync : WritableFileWriter := { w.flush o with pendingSync := false }

def close : WritableFileWriter :=
  let w := w.flush o
  if o.useDirectIo then { w with file := w.file.truncate w.filesize } else w

inductive Call where
  | append (data : List UInt8) (hasChecksum : Bool)
  | pad (padBytes : ℕ)
  | flush
  | sync
deriving DecidableEq, Repr

def step : Call → Option WritableFileWriter
  | .append data hasChecksum => w.append o data hasChecksum
  | .pad padBytes => w.pad o padBytes
  | .flush => some (w.flush o)
  | .sync => some (w.sync o)

end WritableFileWriter

end ZenFSPlus.File
