import ZenFSPlus.Lib.Run
import ZenFSPlus.Lib.Word
import ZenFSPlus.Util.AlignedBuffer

namespace ZenFSPlus.File

open Lib ZenFSPlus.Util

/-- A file of fixed content. The alignment is a power of two below `2 ^ 64`. -/
structure RandomAccessFile where
  content : List UInt8
  alignment : ℕ
  length_lt : content.length < 18446744073709551616
  alignment_dvd : alignment ∣ 18446744073709551616

/-- How a read goes: its status, and what it leaves in the part of the scratch
space that does not belong to its result. -/
structure ReadOutcome (ε : Type) where
  status : Except ε Unit
  scratch : Mem UInt8

variable {ε : Type}

/-- A read of `n` bytes at `offset` into `buf + d`: the memory after it and the
size of its result. A read that fails may leave anything in its scratch space. -/
def RandomAccessFile.read (file : RandomAccessFile) (out : ReadOutcome ε) (offset n : ℕ) (buf : Mem UInt8)
    (d : ℕ) : Mem UInt8 × ℕ :=
  match out.status with
  | .error _ => (buf.copy d out.scratch 0 n, 0)
  | .ok _ =>
    let size := min n (file.content.length - offset)
    ((buf.copy d out.scratch 0 n).copy d (fun i => file.content.getD i 0) offset size, size)

def kMinNumFileReadsToStartAutoReadahead : ℕ := 2

structure FilePrefetchBuffer where
  buffer : AlignedBuffer
  bufferOffset : ℕ
  readaheadSize : ℕ
  maxReadaheadSize : ℕ
  initialReadaheadSize : ℕ
  minOffsetRead : ℕ
  enable : Bool
  trackMinOffset : Bool
  implicitAutoReadahead : Bool
  prevOffset : ℕ
  prevLen : ℕ
  numFileReads : ℕ

namespace FilePrefetchBuffer

def new (readaheadSize maxReadaheadSize : ℕ) (enable trackMinOffset implicitAutoReadahead : Bool) :
    FilePrefetchBuffer where
  buffer := AlignedBuffer.empty
  bufferOffset := 0
  readaheadSize := readaheadSize
  maxReadaheadSize := maxReadaheadSize
  initialReadaheadSize := readaheadSize
  minOffsetRead := 18446744073709551615
  enable := enable
  trackMinOffset := trackMinOffset
  implicitAutoReadahead := implicitAutoReadahead
  prevOffset := 0
  prevLen := 0
  numFileReads := kMinNumFileReadsToStartAutoReadahead + 1

def bufferEnd (b : FilePrefetchBuffer) : ℕ := b.bufferOffset + b.buffer.cursize

def Starts (b : FilePrefetchBuffer) (offset : ℕ) : Prop :=
  0 < b.buffer.cursize ∧ b.bufferOffset ≤ offset ∧ offset ≤ b.bufferEnd

instance (b : FilePrefetchBuffer) (offset : ℕ) : Decidable (b.Starts offset) :=
  inferInstanceAs (Decidable (_ ∧ _))

section

variable (b : FilePrefetchBuffer) (file : RandomAccessFile) (out : ReadOutcome ε) (offset n : ℕ)

def roundupLen : ℕ :=
  sub64 (u64 (roundup (u64 (offset + n)) file.alignment)) (rounddown offset file.alignment)

def chunkOffsetInBuffer : ℕ :=
  if b.Starts offset then rounddown (offset - b.bufferOffset) file.alignment else 0

def chunkLen : ℕ :=
  if b.Starts offset then b.buffer.cursize - b.chunkOffsetInBuffer file offset else 0

/-- The buffer when the file is read: moved to larger memory, or in place with the
chunk that is kept moved to the front. -/
def makeRoom : AlignedBuffer :=
  if b.buffer.capacity < roundupLen file offset n then
    { b.buffer with alignment := file.alignment }.allocateNewBuffer out.scratch (roundupLen file offset n)
      (decide (0 < b.chunkLen file offset)) (b.chunkOffsetInBuffer file offset) (b.chunkLen file offset)
  else if 0 < b.chunkLen file offset then
    b.buffer.refitTail (b.chunkOffsetInBuffer file offset) (b.chunkLen file offset)
  else b.buffer

def prefetch : Except ε Unit × FilePrefetchBuffer :=
  if !b.enable then (.ok (), b)
  else if b.Starts offset ∧ u64 (offset + n) ≤ b.bufferEnd then (.ok (), b)
  else
    let room := b.makeRoom file out offset n
    let kept := b.chunkLen file offset
    let (buf, size) := file.read out (rounddown offset file.alignment + kept)
      (sub64 (roundupLen file offset n) kept) room.buf kept
    match out.status with
    | .error e => (.error e, { b with buffer := { room with buf := buf } })
    | .ok _ => (.ok (), { b with
        buffer := { room with buf := buf }.size (kept + size)
        bufferOffset := rounddown offset file.alignment })

end

def isBlockSequential (b : FilePrefetchBuffer) (offset : ℕ) : Bool :=
  b.prevLen == 0 || u64 (b.prevOffset + b.prevLen) == offset

def resetValues (b : FilePrefetchBuffer) : FilePrefetchBuffer :=
  { b with
    numFileReads := 1
    readaheadSize := b.initialReadaheadSize }

def defaultDecrement : ℕ := 8 * 1024

def decreaseReadAheadIfEligible (b : FilePrefetchBuffer) (offset size : ℕ) : FilePrefetchBuffer :=
  if b.implicitAutoReadahead ∧ 0 < b.readaheadSize ∧ b.bufferEnd < u64 (offset + size) ∧
      b.isBlockSequential offset ∧ kMinNumFileReadsToStartAutoReadahead < b.numFileReads + 1 then
    { b with readaheadSize := max b.initialReadaheadSize (b.readaheadSize - defaultDecrement) }
  else b

def updateReadPattern (b : FilePrefetchBuffer) (offset len : ℕ) (isAdaptiveReadahead : Bool) :
    FilePrefetchBuffer :=
  let b := if isAdaptiveReadahead then b.decreaseReadAheadIfEligible offset len else b
  { b with
    prevOffset := offset
    prevLen := len }

structure Found (ε : Type) where
  result : Option (List UInt8)
  status : Option ε

def serve (b : FilePrefetchBuffer) (offset n : ℕ) : Found ε × FilePrefetchBuffer :=
  (⟨some (b.buffer.buf.load (offset - b.bufferOffset) n), none⟩, b.updateReadPattern offset n false)

def prefetchAndServe (b : FilePrefetchBuffer) (file : RandomAccessFile) (out : ReadOutcome ε)
    (offset n len : ℕ) : Found ε × FilePrefetchBuffer :=
  match b.prefetch file out offset len with
  | (.error e, b) => (⟨none, some e⟩, b)
  | (.ok _, b) =>
    serve { b with readaheadSize := min b.maxReadaheadSize (u64 (b.readaheadSize * 2)) } offset n

def tryReadFromCache (b : FilePrefetchBuffer) (file : RandomAccessFile) (out : ReadOutcome ε)
    (offset n : ℕ) (forCompaction : Bool) : Found ε × FilePrefetchBuffer :=
  let b := if b.trackMinOffset ∧ offset < b.minOffsetRead then { b with minOffsetRead := offset } else b
  if !b.enable ∨ offset < b.bufferOffset then (⟨none, none⟩, b)
  else if u64 (offset + n) ≤ b.bufferEnd then b.serve offset n
  else if b.readaheadSize = 0 then (⟨none, none⟩, b)
  else if forCompaction then b.prefetchAndServe file out offset n (max n b.readaheadSize)
  else if b.implicitAutoReadahead then
    if !b.isBlockSequential offset then (⟨none, none⟩, (b.updateReadPattern offset n false).resetValues)
    else
      let b := { b with numFileReads := b.numFileReads + 1 }
      if b.numFileReads ≤ kMinNumFileReadsToStartAutoReadahead then
        (⟨none, none⟩, b.updateReadPattern offset n false)
      else b.prefetchAndServe file out offset n (u64 (n + b.readaheadSize))
  else b.prefetchAndServe file out offset n (u64 (n + b.readaheadSize))

inductive Call (ε : Type) where
  | prefetch (offset n : ℕ) (out : ReadOutcome ε)
  | tryReadFromCache (offset n : ℕ) (forCompaction : Bool) (out : ReadOutcome ε)
  | updateReadPattern (offset len : ℕ) (isAdaptiveReadahead : Bool)

def step (file : RandomAccessFile) (b : FilePrefetchBuffer) : Call ε → Option FilePrefetchBuffer
  | .prefetch offset n out => some (b.prefetch file out offset n).2
  | .tryReadFromCache offset n forCompaction out => some (b.tryReadFromCache file out offset n forCompaction).2
  | .updateReadPattern offset len isAdaptive => some (b.updateReadPattern offset len isAdaptive)

end FilePrefetchBuffer

end ZenFSPlus.File
