import ZenFSPlus.Zoad.Partition
import ZenFSPlus.Zoad.ZoneRead

/-!
`util/zoad/Userdata.cpp`: a file as a list of segments, each striped over zones of its
partition. The functions here are the critical sections under `write_lock`.
-/

namespace ZenFSPlus.Zoad

open Lib

structure Segment where
  id : ℕ
  offset : ℕ
  size : ℕ
  intervals : List Interval

def Segment.getNextOffset (seg : Segment) : ℕ := u32 (seg.offset + seg.size)

structure Userdata where
  partition : ℕ
  nextSegmentId : ℕ
  fileSegment : List Segment
  size : ℕ

def Userdata.new (partition nextSegmentId : ℕ) : Userdata := ⟨partition, nextSegmentId, [], 0⟩

def insertSegment (segs : List Segment) (seg : Segment) : List Segment :=
  segs.takeWhile (fun e => e.offset ≤ seg.offset) ++ seg ::
    segs.dropWhile (fun e => e.offset ≤ seg.offset)

def blocksOfBytes (size : ℕ) : ℕ := ceilDiv size blockSize

namespace System

def zoneSize (s : System) (p : ℕ) : ℕ := (s.partitions p).zoneVector.length

def allocTimes (s : System) (p : ℕ) : ℕ → Except Fault System
  | 0 => .ok s
  | m + 1 =>
    match s.allocZone p with
    | (none, _) => .error .allocZoneFail
    | (some _, s) => s.allocTimes p m

/-- The loop for a partition with some, but fewer than `izg_cnt` zones, whose bound shrinks
with every zone. -/
def allocMissing (p izgCnt : ℕ) : ℕ → ℕ → System → Except Fault System
  | 0, _, _ => .error .outOfFuel
  | fuel + 1, i, s =>
    if i < sub32 izgCnt (s.zoneSize p) then
      match s.allocZone p with
      | (none, _) => .error .allocZoneFail
      | (some _, s) => allocMissing p izgCnt fuel (i + 1) s
    else .ok s

def prepareZones (s : System) (p : ℕ) : Except Fault System :=
  let izgCnt := (s.partitions p).izgCnt
  if s.zoneSize p = 0 then s.allocTimes p izgCnt
  else if s.zoneSize p < izgCnt then allocMissing p izgCnt (izgCnt + 1) 0 s
  else s.allocTimes p
    (((s.partitions p).zoneVector.reverse.take izgCnt).countP fun zone => s.zns.znsFullZone zone)

/-- The loops over the last `target` zones, on the reversed vector: a full zone is left out
and counts twice. -/
def lastZones (z : Zns) (target : ℕ) : ℕ → List ℕ → Except Fault (List ℕ)
  | i, [] => if i < target then .error .outOfBounds else .ok []
  | i, zone :: rest =>
    if i < target then
      if z.znsFullZone zone then lastZones z target (i + 2) rest
      else (lastZones z target (i + 1) rest).map (zone :: ·)
    else .ok []

def growZones (p izgCnt : ℕ) : ℕ → ℤ → List ℕ → ℕ → System → Except Fault (List ℕ × ℕ × System)
  | 0, _, _, _, _ => .error .outOfFuel
  | fuel + 1, targetSize, sizes, targetZoneCnt, s =>
    if 0 < targetSize then do
      let s ← s.allocTimes p izgCnt
      growZones p izgCnt fuel ((fun t => i32 (t - s.zns.znsGetZoneSize))^[izgCnt] targetSize)
        (sizes ++ List.replicate izgCnt s.zns.znsGetZoneSize) (targetZoneCnt + izgCnt) s
    else .ok (sizes, targetZoneCnt, s)

def freeZones (s : System) : ℕ := (s.inactiveIzgQueue.map fun izg => izg.zoneQueue.length).sum

def writeZones (s : System) (p segmentId : ℕ) (past : ℕ → ℕ → ℕ) (buf : Slice UInt8)
    (writeSize : ℕ) : Except Fault (List Interval × System) := do
  let izgCnt := (s.partitions p).izgCnt
  let zones ← lastZones s.zns izgCnt 0 (s.partitions p).zoneVector.reverse
  let free := zones.map s.zns.getFreeSize
  let targetSize := free.foldl (fun t (size : ℕ) => i32 (t - size)) (i32 writeSize)
  let (sizes, targetZoneCnt, s) ← growZones p izgCnt (s.freeZones + 1) targetSize free.reverse izgCnt s
  let zones ← lastZones s.zns targetZoneCnt 0 (s.partitions p).zoneVector.reverse
  let intervals := zones.reverse.map fun zone =>
    ⟨zone, segmentId, s.zns.znsGetWp zone, s.zns.znsGetWp zone⟩
  let w ← izgWrite buf past izgCnt targetZoneCnt writeSize ⟨s.zns, intervals, sizes⟩
  .ok (w.intervals, { s with zns := w.zns })

def write (s : System) (p segmentId : ℕ) (past : ℕ → ℕ → ℕ) (buf : Slice UInt8) (writeSize : ℕ) :
    Except Fault (List Interval × System) := do
  let s ← s.prepareZones p
  s.writeZones p segmentId past buf writeSize

end System

namespace Userdata

def append (s : System) (u : Userdata) (past : ℕ → ℕ → ℕ) (buf : Slice UInt8) :
    Except Fault (System × Userdata) := do
  let writeSize := blocksOfBytes buf.size
  let offset := (u.fileSegment.getLast?.map Segment.getNextOffset).getD 0
  let (intervals, s) ← s.write u.partition u.nextSegmentId past buf writeSize
  .ok (s, { u with
    nextSegmentId := u32 (u.nextSegmentId + 1)
    fileSegment := insertSegment u.fileSegment ⟨u.nextSegmentId, offset, writeSize, intervals⟩
    size := u32 (u.size + writeSize) })

def readSegment (z : Zns) (izgCnt : ℕ) (seg : Segment) (dest : Dest) (off reqSize : ℕ) :
    Except Fault Dest :=
  let targetZoneCnt :=
    if izgCnt ≤ reqSize / ioBlocks then seg.intervals.length
    else if reqSize / ioBlocks = 0 then 1 else reqSize / ioBlocks
  izgRead z dest off izgCnt targetZoneCnt seg.intervals

def readSegments (z : Zns) (izgCnt : ℕ) : List Segment → ℕ → ℕ → Dest → Except Fault Dest
  | [], _, _, dest => .ok dest
  | seg :: segs, readSize, tmpBuf, dest =>
    if readSize = 0 then .ok dest
    else do
      let dest ← readSegment z izgCnt seg dest tmpBuf seg.size
      readSegments z izgCnt segs (sub32 readSize seg.size) (tmpBuf + u32 (seg.size * blockSize)) dest

def readAll (s : System) (u : Userdata) (buf : Mem UInt8) (readSize : ℕ) : Except Fault (Mem UInt8) := do
  let dest ← readSegments s.zns (s.partitions u.partition).izgCnt u.fileSegment
    (blocksOfBytes readSize) 0 ⟨buf, none⟩
  .ok dest.mem

def readSegmentAt (z : Zns) (izgCnt : ℕ) (seg : Segment) (dest : Dest) (off startOffset reqSize : ℕ) :
    Except Fault Dest :=
  izgReadRandom z dest off izgCnt seg.intervals.length seg.intervals startOffset reqSize

structure ReadAt where
  buf : Mem UInt8
  readBuf : Mem UInt8
  oriOffset : ℕ
  oriReadSize : ℕ
  offset : ℕ
  readSize : ℕ
  reqSize : ℕ
  bufOffset : ℕ
  remainBytes : Bool

def ReadAt.head (izgCnt : ℕ) (t : ReadAt) : ℕ :=
  u32 (ioSize * izgCnt) - t.oriOffset % u32 (ioSize * izgCnt)

def ReadAt.copyHead (izgCnt : ℕ) (t : ReadAt) : ReadAt :=
  let start := t.oriOffset % u32 (ioSize * izgCnt)
  let head := t.head izgCnt
  if t.reqSize < u32 (ioBlocks * izgCnt) then
    if t.oriReadSize ≤ head then
      { t with buf := t.buf.copy t.bufOffset t.readBuf start t.oriReadSize }
    else { t with
      buf := t.buf.copy t.bufOffset t.readBuf start head
      oriReadSize := if t.readSize ≠ 0 then t.oriReadSize - head else t.oriReadSize }
  else { t with buf := t.buf.copy t.bufOffset t.readBuf start head }

def ReadAt.remainder (izgCnt : ℕ) (seg : Segment) (t : ReadAt) : ReadAt :=
  if t.head izgCnt < t.oriReadSize ∧ t.readSize = 0 then { t with
    oriReadSize := t.oriReadSize - t.head izgCnt
    offset := seg.getNextOffset
    readSize := blocksOfBytes (t.oriReadSize - t.head izgCnt)
    remainBytes := true }
  else t

def ReadAt.leave (izgCnt : ℕ) (t : ReadAt) : ReadAt :=
  { t with reqSize := 0, bufOffset := u32 (t.bufOffset + t.head izgCnt), oriOffset := 0 }

def ReadAt.bounce (z : Zns) (izgCnt : ℕ) (seg : Segment) (startOffset : ℕ) (t : ReadAt) :
    Except Fault ReadAt := do
  let dest ← readSegmentAt z izgCnt seg ⟨t.readBuf, some (ioSize * izgCnt)⟩ 0 startOffset
    (u32 (ceilDiv t.reqSize ioBlocks * ioSize))
  let t := { t with readBuf := dest.mem }
  if t.remainBytes then
    if ioSize * izgCnt < t.oriReadSize then .error .outOfBounds
    else .ok (ReadAt.leave izgCnt { t with
      buf := t.buf.copy t.bufOffset t.readBuf 0 t.oriReadSize, remainBytes := false })
  else .ok (((t.copyHead izgCnt).remainder izgCnt seg).leave izgCnt)

def ReadAt.direct (z : Zns) (izgCnt : ℕ) (seg : Segment) (startOffset : ℕ) (t : ReadAt) :
    Except Fault ReadAt := do
  let dest ← readSegmentAt z izgCnt seg ⟨t.buf, none⟩ t.bufOffset startOffset t.reqSize
  .ok { t with buf := dest.mem, bufOffset := u32 (t.bufOffset + u32 (t.reqSize * blockSize)) }

def ReadAt.request (seg : Segment) (t : ReadAt) : ℕ × ℕ :=
  if t.offset = seg.offset then (0, if seg.size < t.reqSize then seg.size else t.readSize)
  else
    let startOffset := t.offset - seg.offset
    (startOffset, if seg.size < u32 (startOffset + t.readSize) then sub32 seg.size startOffset
      else t.readSize)

def ReadAt.bounces (izgCnt : ℕ) (t : ReadAt) : Bool :=
  (0 < t.oriOffset && t.oriOffset % u32 (ioSize * izgCnt) ≠ 0) || t.remainBytes ||
    t.reqSize < u32 (ioBlocks * izgCnt)

def ReadAt.turn (z : Zns) (izgCnt : ℕ) (t : ReadAt) (seg : Segment) : Except Fault ReadAt :=
  if t.readSize = 0 ∨ sub32 seg.getNextOffset 1 < t.offset then .ok t
  else if seg.offset ≤ t.offset ∧ t.offset < seg.getNextOffset then
    if izgCnt = 0 then .error .divideByZero
    else
      let (startOffset, reqSize) := t.request seg
      let t := { t with
        reqSize := reqSize
        readSize := sub32 t.readSize reqSize
        offset := u32 (t.offset + reqSize) }
      if t.bounces izgCnt then t.bounce z izgCnt seg startOffset
      else t.direct z izgCnt seg startOffset
  else .ok t

def ReadAt.init (buf readBuf : Mem UInt8) (offset readSize : ℕ) : ReadAt :=
  ⟨buf, readBuf, offset, readSize, offset / blockSize, blocksOfBytes readSize,
    blocksOfBytes readSize, 0, false⟩

def readRange (s : System) (u : Userdata) (buf : Mem UInt8) (offset readSize : ℕ) :
    Except Fault (Mem UInt8 × System) := do
  let part := s.partitions u.partition
  let t ← u.fileSegment.foldlM (ReadAt.turn s.zns part.izgCnt)
    (ReadAt.init buf part.readBuf offset readSize)
  if t.readSize ≠ 0 then .error .readSizeError
  else .ok (t.buf, { s with
    partitions := Function.update s.partitions u.partition { part with readBuf := t.readBuf } })

def read (s : System) (u : Userdata) (buf : Mem UInt8) (offset readSize : ℕ) :
    Except Fault (ℤ × Mem UInt8 × System) :=
  if u.size < offset / blockSize then .ok (-1, buf, s)
  else (u.readRange s buf offset readSize).map fun r => (0, r)

end Userdata

end ZenFSPlus.Zoad
