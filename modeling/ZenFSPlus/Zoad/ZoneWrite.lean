import Mathlib.Algebra.GroupWithZero.Nat
import ZenFSPlus.Zoad.Controller
import Mathlib.Data.List.Sort

/-!
The write half of `util/zoad/Zone.cpp`. The workers of one round touch different
zones and different entries of the vectors; they are run in the order of creation.
-/

namespace ZenFSPlus.Zoad

open Lib

inductive Fault
  | allocZoneFail
  | readSizeError
  | outOfBounds
  | divideByZero
  | outOfFuel
  deriving DecidableEq

def threadPerIzg : ℕ := 8

structure Interval where
  zoneNumber : ℕ
  segmentId : ℕ
  start : ℕ
  stop : ℕ

def Interval.getSize (v : Interval) : ℕ := if v.start = v.stop then 0 else sub32 v.stop v.start

def Zns.getFreeSize (z : Zns) (zone : ℕ) : ℕ :=
  sub32 z.znsGetZoneSize (sub32 (z.znsGetWp zone) (z.znsGetStartLba zone))

structure WriteState where
  zns : Zns
  intervals : List Interval
  writeSize : List ℕ

structure WriteThread extends WriteState where
  off : ℕ
  totalWritten : ℕ

def setZones (value : ZoneAction) (intervals : List Interval) (base count : ℕ) (z : Zns) :
    Except Fault Zns :=
  if base + count ≤ intervals.length then
    .ok (((intervals.drop base).take count).foldl (fun z v => z.znsSetZone v.zoneNumber value) z)
  else .error .outOfBounds

def writeUnit (buf : Slice UInt8) (idx : ℕ) (t : WriteThread) : Except Fault WriteThread :=
  match t.writeSize[idx]? with
  | none => .error .outOfBounds
  | some 0 => .ok t
  | some (left + 1) =>
    match t.intervals[idx]? with
    | none => .error .outOfBounds
    | some v =>
      if t.off + ioSize ≤ buf.size then
        let zns := t.zns.znsWrite buf.data t.off ioSize v.zoneNumber
        .ok {
          zns := zns
          writeSize := t.writeSize.set idx left
          intervals := if left = 0 then t.intervals.set idx { v with stop := zns.znsGetWp v.zoneNumber }
            else t.intervals
          off := t.off + ioSize
          totalWritten := u32 (t.totalWritten + ioSize) }
      else .error .outOfBounds

def writeRow (buf : Slice UInt8) : ℕ → ℕ → WriteThread → Except Fault WriteThread
  | 0, _, t => .ok t
  | count + 1, idx, t => do
    let t ← writeUnit buf idx t
    writeRow buf count (idx + 1) t

/-- `while(cnt == *write_min_size_it)`, on the rest of the sorted vector. `past` is what
the read behind its end returns; the loop is not followed further than that. -/
def skipMin (past cnt : ℕ) : List ℕ → ℕ → Except Fault (List ℕ × ℕ)
  | [], izgCnt => if cnt = past then .error .outOfBounds else .ok ([], izgCnt)
  | m :: rest, izgCnt =>
    if cnt = m then skipMin past cnt rest (sub32 izgCnt 1) else .ok (m :: rest, izgCnt)

def writeRows (buf : Slice UInt8) (past : ℕ → ℕ) (base writeZoneCnt total : ℕ) :
    ℕ → ℕ → List ℕ → ℕ → WriteThread → Except Fault WriteThread
  | 0, _, _, _, _ => .error .outOfFuel
  | fuel + 1, cnt, sorted, izgCnt, t =>
    if t.totalWritten < total then do
      let t ← writeRow buf writeZoneCnt base t
      let (sorted, izgCnt) ← skipMin (past (cnt + 1)) (cnt + 1) sorted izgCnt
      let t := { t with off := t.off + u32 (ioSize * sub32 izgCnt writeZoneCnt) }
      writeRows buf past base writeZoneCnt total fuel (cnt + 1) sorted izgCnt t
    else .ok t

/-- `thread_write` for `writeZoneCnt` zones from index `base` on, with `buf + off` as its
buffer. A row that writes nothing never ends the loop. -/
def threadWrite (buf : Slice UInt8) (past : ℕ → ℕ) (off base writeZoneCnt totalWriteSize : ℕ)
    (sorted : List ℕ) (izgCnt : ℕ) (w : WriteState) : Except Fault WriteState :=
  let total := u32 (totalWriteSize * ioSize)
  if total = 0 then .ok w
  else do
    let zns ← setZones .open w.intervals base writeZoneCnt w.zns
    let t ← writeRows buf past base writeZoneCnt total (total / ioSize + 1) 0 sorted izgCnt
      { w with zns := zns, off := off, totalWritten := 0 }
    let zns ← setZones .close t.intervals base writeZoneCnt t.zns
    .ok { t.toWriteState with zns := zns }

def writeZoneCnt (izgCnt left j : ℕ) : ℕ :=
  let cnt := if izgCnt < left then izgCnt else left
  if threadPerIzg < cnt then
    if izgCnt < threadPerIzg * (j + 1) then sub32 izgCnt threadPerIzg else threadPerIzg
  else cnt

/-- The workers `j, j + 1, ...` of a round. `idx` is the position of `interval_it` and of
`write_size_it`, `off` that of `tmp_buf`, `total` is `total_thread_write_size`. -/
def writeThreads (buf : Slice UInt8) (past : ℕ → ℕ → ℕ) (izgCnt : ℕ) (sorted : List ℕ) :
    ℕ → ℕ → ℕ → ℕ → ℕ → ℕ → WriteState → Except Fault (ℕ × ℕ × ℕ × WriteState)
  | 0, _, idx, left, _, total, w => .ok (idx, left, total, w)
  | threads + 1, j, idx, left, off, total, w =>
    let count := writeZoneCnt izgCnt left j
    if idx + count ≤ w.writeSize.length then do
      let size := u32 ((w.writeSize.drop idx).take count).sum
      let w ← threadWrite buf (past idx) off idx count size sorted sorted.length w
      writeThreads buf past izgCnt sorted threads (j + 1) (idx + count) (sub32 left count)
        (off + u32 (count * ioSize)) (u32 (total + size)) w
    else .error .outOfBounds

def partialSortCopy (src dst : List ℕ) : List ℕ :=
  (src.insertionSort (· ≤ ·)).take dst.length ++ dst.drop src.length

def writeRounds (buf : Slice UInt8) (past : ℕ → ℕ → ℕ) (izgCnt : ℕ) :
    ℕ → List ℕ → ℕ → ℕ → ℕ → WriteState → Except Fault WriteState
  | 0, _, _, _, _, w => .ok w
  | rounds + 1, sorted, idx, left, off, w =>
    let range := if izgCnt < left then left else izgCnt
    if idx + range ≤ w.writeSize.length then do
      let sorted := partialSortCopy ((w.writeSize.drop idx).take range) sorted
      let (idx, left, total, w) ← writeThreads buf past izgCnt sorted
        (ceilDiv izgCnt threadPerIzg) 0 idx left off 0 w
      writeRounds buf past izgCnt rounds [] idx left (off + u32 (total * ioSize)) w
    else .error .outOfBounds

/-- The loop of `izg_write` that turns the vector from free blocks into units: a round
that is not the last fills its zones, the last one spreads what is left evenly. -/
def spreadSizes (izgCnt : ℕ) : ℕ → ℕ → ℕ → List ℕ → Except Fault (List ℕ)
  | 0, _, _, ws => .ok ws
  | rounds + 1, idx, blocks, ws =>
    if idx + izgCnt ≤ ws.length then
      let current := (ws.drop idx).take izgCnt
      if rounds = 0 then
        let each := blocks / u32 (izgCnt * ioBlocks)
        let extra := blocks % u32 (izgCnt * ioBlocks) / ioBlocks
        let units := (List.range izgCnt).map fun j => if j < extra then each + 1 else each
        .ok (ws.take idx ++ units ++ ws.drop (idx + izgCnt))
      else
        spreadSizes izgCnt rounds (idx + izgCnt)
          (current.foldl (fun blocks size => sub32 blocks size) blocks)
          (ws.take idx ++ current.map (· / ioBlocks) ++ ws.drop (idx + izgCnt))
    else .error .outOfBounds

def izgWrite (buf : Slice UInt8) (past : ℕ → ℕ → ℕ) (izgCnt totalTargetZone : ℕ)
    (writeBlocks : ℕ) (w : WriteState) : Except Fault WriteState :=
  if izgCnt = 0 then .error .divideByZero
  else do
    let rounds := ceilDiv totalTargetZone izgCnt
    let sizes ← spreadSizes izgCnt rounds 0 writeBlocks w.writeSize
    writeRounds buf past izgCnt rounds (List.replicate w.writeSize.length 0) 0 w.intervals.length 0
      { w with writeSize := sizes }

end ZenFSPlus.Zoad
