import ZenFSPlus.Zoad.Controller

/-!
`ZoadFile` of `util/env_zoad.cc`: a file with one write buffer of `bufSize` bytes
and a cached window of `ioSize` bytes for reads. File sizes and offsets, 64 bits
wide in the source, are natural numbers; the 32-bit parameters of `z_load` are not.
-/

namespace ZenFSPlus.ZoadEnv

open Lib ZenFSPlus.Zoad

inductive Fault
  | outOfBounds
  | exit
  | outOfFuel
  deriving DecidableEq

structure Flush where
  payload : Slice UInt8
  short : Bool

/-- `flushes` and `readBufFlushed` are history: the calls of `z_flush` so far, and the bytes flushed when `read_buf_`
was last filled. -/
structure ZoadFile where
  fileSize : ℕ
  buf : Mem UInt8
  bufPos : ℕ
  readBuf : Mem UInt8
  readBufOffset : ℕ
  useReadBuf : Bool
  flushes : List Flush
  readBufFlushed : ℕ

inductive Status
  | ok (result : List UInt8)
  | ioError
  deriving DecidableEq

/-- What a read finds in memory without the file having put it there: the scratch
buffer before the call, what `z_load` stores for bytes that are not flushed, and
the heap behind `read_buf_`. -/
structure ReadEnv where
  scratch : Mem UInt8
  junk : Mem UInt8
  past : Mem UInt8

namespace ZoadFile

def new (buf readBuf : Mem UInt8) : ZoadFile := ⟨0, buf, 0, readBuf, 0, false, [], 0⟩

def flushed (f : ZoadFile) : List UInt8 := Slice.concat (f.flushes.map Flush.payload)

def fill (bufSize : ℕ) (f : ZoadFile) (data : Slice UInt8) (n : ℕ) : Except Fault ZoadFile :=
  if f.bufPos + n ≤ bufSize ∧ n ≤ data.size then
    .ok { f with buf := f.buf.copy f.bufPos data.data 0 n, bufPos := f.bufPos + n }
  else .error .outOfBounds

def flushFileBuffer (bufSize : ℕ) (f : ZoadFile) : Except Fault ZoadFile :=
  let wsize := f.bufPos
  if wsize < bufSize then .ok f
  else if bufSize < wsize then .error .outOfBounds
  else if wsize % ioSize ≠ 0 then
    let rest := wsize % ioSize
    let wsize := wsize - rest
    .ok { f with
      bufPos := rest
      flushes := f.flushes ++ [⟨⟨f.buf, wsize⟩, true⟩]
      buf := f.buf.copy 0 f.buf wsize rest }
  else .ok { f with bufPos := 0, flushes := f.flushes ++ [⟨⟨f.buf, wsize⟩, false⟩] }

def flushIfFull (bufSize : ℕ) (f : ZoadFile) : Except Fault ZoadFile :=
  if bufSize ≤ f.bufPos then f.flushFileBuffer bufSize else .ok f

def writeUnbuffered (bufSize : ℕ) : ℕ → ZoadFile → Slice UInt8 → Except Fault ZoadFile
  | 0, _, _ => .error .outOfFuel
  | fuel + 1, f, data =>
    if data.size = 0 then .ok f
    else do
      let copySize := min data.size (sub64 bufSize f.bufPos)
      let f ← f.fill bufSize data copySize
      let f ← f.flushIfFull bufSize
      writeUnbuffered bufSize fuel f (data.drop copySize)

def append (bufSize : ℕ) (f : ZoadFile) (data : Slice UInt8) : Except Fault ZoadFile := do
  let copySize := min data.size (sub64 bufSize f.bufPos)
  let f ← { f with fileSize := f.fileSize + data.size }.fill bufSize data copySize
  let data := data.drop copySize
  if data.size = 0 then .ok f
  else do
    let f ← f.flushFileBuffer bufSize
    writeUnbuffered bufSize (data.size + 1) f data

def flushBuffer (bufSize : ℕ) (f : ZoadFile) : Except Fault ZoadFile := f.flushFileBuffer bufSize

def sync (bufSize : ℕ) (f : ZoadFile) : Except Fault ZoadFile := f.flushFileBuffer bufSize

def zLoad (f : ZoadFile) (env : ReadEnv) (scratch : Mem UInt8) (d offset size : ℕ) : Mem UInt8 :=
  scratch.copy d (Slice.splice env.junk (f.flushes.map Flush.payload)) (u32 offset) (u32 size)

def ioRound (n : ℕ) : ℕ := n - n % ioSize + if n % ioSize = 0 then 0 else ioSize

def loadWindow (f : ZoadFile) (env : ReadEnv) (scratch : Mem UInt8) (d offset readSize : ℕ) :
    ZoadFile × Mem UInt8 :=
  let scratch := f.zLoad env scratch d offset readSize
  ({ f with
    readBuf := f.readBuf.copy 0 scratch (d + readSize - ioSize) ioSize
    readBufOffset := offset + readSize - ioSize
    readBufFlushed := f.flushed.length
    useReadBuf := true }, scratch)

def readBufMem (f : ZoadFile) (env : ReadEnv) : Mem UInt8 :=
  fun i => if i < ioSize then f.readBuf i else env.past i

def readFlushed (f : ZoadFile) (env : ReadEnv) (offset n : ℕ) : Except Fault (ZoadFile × Mem UInt8) :=
  if f.useReadBuf then
    if f.readBufOffset ≤ offset ∧ offset + n ≤ f.readBufOffset + ioSize then
      .ok (f, env.scratch.copy 0 (f.readBufMem env) (offset - f.readBufOffset) n)
    else if f.readBufOffset + ioSize ≤ offset ∨ offset < f.readBufOffset then
      .ok (f.loadWindow env env.scratch 0 offset (ioRound n))
    else if f.readBufOffset ≤ offset ∧ offset < f.readBufOffset + ioSize ∧
        f.readBufOffset + ioSize < offset + n then
      let bufReadSize := ioSize - offset % ioSize
      let scratch := env.scratch.copy 0 (f.readBufMem env) (offset - f.readBufOffset) bufReadSize
      .ok (f.loadWindow env scratch bufReadSize (offset + bufReadSize) (ioRound n))
    else .error .exit
  else .ok (f.loadWindow env env.scratch 0 offset (ioRound n))

def readBuffered (bufSize : ℕ) (f : ZoadFile) (scratch : Mem UInt8) (d a n : ℕ) :
    Except Fault (ZoadFile × Mem UInt8) :=
  if a + n ≤ bufSize then .ok (f, scratch.copy d f.buf a n) else .error .outOfBounds

def readRange (bufSize : ℕ) (f : ZoadFile) (env : ReadEnv) (offset n : ℕ) :
    Except Fault (ZoadFile × Mem UInt8) :=
  let stored := sub64 f.fileSize f.bufPos
  if f.fileSize = f.bufPos then f.readBuffered bufSize env.scratch 0 offset n
  else if stored ≤ offset then
    if f.fileSize < offset + n then .error .exit
    else f.readBuffered bufSize env.scratch 0 (offset - stored) n
  else if offset + n ≤ stored then f.readFlushed env offset n
  else f.readBuffered bufSize (f.zLoad env env.scratch 0 offset (stored - offset)) (stored - offset)
    0 (offset + n - stored)

def read (bufSize : ℕ) (f : ZoadFile) (env : ReadEnv) (offset n : ℕ) :
    Except Fault (ZoadFile × Status) :=
  if f.fileSize < offset then .ok (f, .ioError)
  else
    let n := min n (f.fileSize - offset)
    if n = 0 then .ok (f, .ok [])
    else do
      let (f, scratch) ← f.readRange bufSize env offset n
      .ok (f, .ok (scratch.load 0 n))

end ZoadFile

inductive Op
  | append (data : Slice UInt8)
  | flushBuffer
  | sync
  | read (env : ReadEnv) (offset n : ℕ)

def Op.appended : Op → List UInt8
  | .append data => data.bytes
  | _ => []

def content (ops : List Op) : List UInt8 := ops.flatMap Op.appended

namespace ZoadFile

def apply (bufSize : ℕ) (f : ZoadFile) : Op → Except Fault ZoadFile
  | .append data => f.append bufSize data
  | .flushBuffer => f.flushBuffer bufSize
  | .sync => f.sync bufSize
  | .read env offset n => (f.read bufSize env offset n).map Prod.fst

def step (bufSize : ℕ) (f : ZoadFile) (op : Op) : Option ZoadFile := (f.apply bufSize op).toOption

end ZoadFile

end ZenFSPlus.ZoadEnv
