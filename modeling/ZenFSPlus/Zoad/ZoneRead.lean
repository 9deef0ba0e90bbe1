import ZenFSPlus.Zoad.ZoneWrite

/-!
The read half of `util/zoad/Zone.cpp`. The workers of one round fill different parts
of the buffer; they are run in the order of creation.
-/

namespace ZenFSPlus.Zoad

open Lib

structure Dest where
  mem : Mem UInt8
  cap : Option ℕ

def Dest.znsRead (d : Dest) (z : Zns) (off lba : ℕ) : Except Fault Dest :=
  let filled := { d with mem := z.znsRead d.mem off ioSize lba }
  match d.cap with
  | none => .ok filled
  | some cap => if off + ioSize ≤ cap then .ok filled else .error .outOfBounds

/-- `while(cnt == *read_min_size_it)`, on the rest of the sorted vector; it also ends when
`cnt2` has reached the number of zones. -/
def skipReadMin (writeZoneCnt cnt : ℕ) : List ℕ → ℕ → ℕ → Except Fault (List ℕ × ℕ × ℕ)
  | [], _, _ => .error .outOfBounds
  | m :: rest, readZoneCnt, cnt2 =>
    if cnt = m then
      if writeZoneCnt ≤ cnt2 + 1 then .ok (rest, sub32 readZoneCnt 1, cnt2 + 1)
      else skipReadMin writeZoneCnt cnt rest (sub32 readZoneCnt 1) (cnt2 + 1)
    else .ok (m :: rest, readZoneCnt, cnt2)

structure ReadThread where
  dest : Dest
  off : ℕ
  readMinSize : List ℕ
  readZoneCnt : ℕ
  start : ℕ
  totalRead : ℕ
  cnt : ℕ
  cnt2 : ℕ
  actualReadCnt : ℕ

def ReadThread.skip (writeZoneCnt : ℕ) (t : ReadThread) : Except Fault ReadThread := do
  let (rest, readZoneCnt, cnt2) ← skipReadMin writeZoneCnt t.cnt t.readMinSize t.readZoneCnt t.cnt2
  .ok { t with readMinSize := rest, readZoneCnt := readZoneCnt, cnt2 := cnt2 }

def ReadThread.readUnit (z : Zns) (t : ReadThread) : Except Fault ReadThread := do
  let dest ← t.dest.znsRead z t.off t.start
  .ok { t with
    dest := dest
    off := t.off + u32 (ioSize * t.readZoneCnt)
    actualReadCnt := u32 (t.actualReadCnt + 1) }

def ReadThread.next (t : ReadThread) : ReadThread :=
  { t with
    totalRead := u32 (t.totalRead + ioSize)
    start := u32 (t.start + ioBlocks)
    cnt := u32 (t.cnt + 1) }

def readLoop (z : Zns) (writeZoneCnt total stop : ℕ) : ℕ → ReadThread → Except Fault ReadThread
  | 0, _ => .error .outOfFuel
  | fuel + 1, t =>
    if t.totalRead < total then do
      let t ← t.skip writeZoneCnt
      if t.start < stop then do
        let t ← t.readUnit z
        readLoop z writeZoneCnt total stop fuel t.next
      else readLoop z writeZoneCnt total stop fuel t
    else .ok t

def readRandomLoop (z : Zns) (writeZoneCnt total actual offset stop : ℕ) :
    ℕ → ReadThread → Except Fault ReadThread
  | 0, _ => .error .outOfFuel
  | fuel + 1, t =>
    if t.totalRead < total ∧ t.actualReadCnt < actual then do
      let t ← t.skip writeZoneCnt
      if t.start < stop then
        if offset ≤ t.cnt then do
          let t ← t.readUnit z
          readRandomLoop z writeZoneCnt total actual offset stop fuel t.next
        else readRandomLoop z writeZoneCnt total actual offset stop fuel t.next
      else readRandomLoop z writeZoneCnt total actual offset stop fuel t
    else .ok t

/-- A turn of the loop with nothing left to read changes nothing, so the loop ends after as
many turns as there are units, or never. -/
def threadRead (z : Zns) (dest : Dest) (off : ℕ) (v : Interval) (writeZoneCnt size : ℕ)
    (minSizes : List ℕ) : Except Fault Dest :=
  let total := u32 (size * ioSize)
  if total = 0 then .ok dest
  else do
    let t ← readLoop z writeZoneCnt total v.stop (total / ioSize + 1)
      ⟨dest, off, minSizes, writeZoneCnt, v.start, 0, 0, 0, 0⟩
    .ok t.dest

def threadReadRandom (z : Zns) (dest : Dest) (off : ℕ) (v : Interval) (writeZoneCnt offset size : ℕ)
    (minSizes : List ℕ) (actual : ℕ) : Except Fault Dest :=
  let total := u32 (size * ioSize)
  if total = 0 then .ok dest
  else do
    let t ← readRandomLoop z writeZoneCnt total actual offset v.stop (total / ioSize + 1)
      ⟨dest, off, minSizes, writeZoneCnt, v.start, 0, 0, 0, 0⟩
    .ok t.dest

def unitsOf (vs : List Interval) : List ℕ := vs.map fun v => v.getSize / ioBlocks

def blocksOf (vs : List Interval) : ℕ := u32 (vs.map Interval.getSize).sum

def readThreads (z : Zns) (readZoneCnt : ℕ) (minSizes : List ℕ) (tmpBuf : ℕ) :
    ℕ → List Interval → Dest → Except Fault Dest
  | _, [], dest => .ok dest
  | k, v :: vs, dest => do
    let dest ← threadRead z dest (tmpBuf + k * ioSize) v readZoneCnt (v.getSize / ioBlocks) minSizes
    readThreads z readZoneCnt minSizes tmpBuf (k + 1) vs dest

/-- The rounds of `izg_read`, on the intervals that are left; there is a request object
for `threadNum` workers. -/
def readRounds (z : Zns) (izgCnt threadNum : ℕ) : ℕ → ℕ → List Interval → Dest → Except Fault Dest
  | 0, _, _, dest => .ok dest
  | rounds + 1, tmpBuf, left, dest =>
    let readZoneCnt := if izgCnt < left.length then izgCnt else left.length
    let vs := left.take readZoneCnt
    if threadNum < readZoneCnt then .error .outOfBounds
    else do
      let dest ← readThreads z readZoneCnt ((unitsOf vs).insertionSort (· ≤ ·)) tmpBuf 0 vs dest
      readRounds z izgCnt threadNum rounds (tmpBuf + u32 (blocksOf vs * blockSize))
        (left.drop readZoneCnt) dest

def izgReadRounds (izgCnt totalTargetZone : ℕ) : ℕ :=
  let rounds := totalTargetZone / izgCnt
  if totalTargetZone % izgCnt ≠ 0 ∨ rounds = 0 then rounds + 1 else rounds

def threadNum (izgCnt totalTargetZone : ℕ) : ℕ :=
  if izgCnt ≤ totalTargetZone then izgCnt else totalTargetZone

def izgRead (z : Zns) (dest : Dest) (off izgCnt totalTargetZone : ℕ) (intervals : List Interval) :
    Except Fault Dest :=
  if izgCnt = 0 then .error .divideByZero
  else readRounds z izgCnt (threadNum izgCnt totalTargetZone) (izgReadRounds izgCnt totalTargetZone)
    off intervals dest

def spreadOffset (minSize each : ℕ) : ℕ → List ℕ → List ℕ → List ℕ
  | remain, size :: sizes, o :: offsets =>
    if sub32 size minSize ≠ 0 then
      if 0 < remain then u32 (o + each + 1) :: spreadOffset minSize each (remain - 1) sizes offsets
      else u32 (o + each) :: spreadOffset minSize each remain sizes offsets
    else o :: spreadOffset minSize each remain sizes offsets
  | _, _, _ => []

def threadOffsets (offset : ℕ) (sizes : List ℕ) : Except Fault (List ℕ) :=
  match sizes.min? with
  | none => .error .outOfBounds
  | some minSize =>
    let skipped := u32 (minSize * sizes.length)
    let past := skipped < offset / ioBlocks
    let base := if past then minSize else 0
    let rest := if past then offset / ioBlocks - skipped else offset / ioBlocks
    let fullCnt := if past then sizes.countP fun size => sub32 size minSize = 0 else 0
    if sizes.length = fullCnt then .error .divideByZero
    else .ok (spreadOffset minSize (rest / (sizes.length - fullCnt)) (rest % (sizes.length - fullCnt))
      sizes (List.replicate sizes.length base))

/-- `less_skip_zone_cnt[i]` and `offset_min_diff[i]`, from the offsets of zone `i` and of
those after it. -/
def lessSkip (o : ℕ) (after : List ℕ) : ℕ × ℕ :=
  let less := after.filter fun o' => o' < o
  (less.length, (less.map fun o' => o - o').foldl min 99999)

def spreadRead (each : ℕ) : ℕ → List ℕ → List ℕ
  | _, [] => []
  | remain, size :: sizes =>
    if 0 < remain ∧ 0 < size then (each + 1) :: spreadRead each (remain - 1) sizes
    else each :: spreadRead each remain sizes

def readRandomThreads (z : Zns) (readZoneCnt : ℕ) (minSizes : List ℕ) (tmpBuf : ℕ) :
    ℕ → ℕ → List Interval → List ℕ → List ℕ → Dest → Except Fault Dest
  | k, moved, v :: vs, o :: offsets, actual :: actuals, dest =>
    let (less, minDiff) := lessSkip o offsets
    let size := v.getSize / ioBlocks
    if 0 < less then do
      let dest ← threadReadRandom z dest (tmpBuf + u32 (u32 (minDiff * less + moved) * ioSize)) v
        readZoneCnt o size minSizes actual
      readRandomThreads z readZoneCnt minSizes tmpBuf (k + 1) (moved + 1) vs offsets actuals dest
    else do
      let dest ← threadReadRandom z dest (tmpBuf + u32 (sub32 k moved * ioSize)) v
        readZoneCnt o size minSizes actual
      readRandomThreads z readZoneCnt minSizes tmpBuf (k + 1) moved vs offsets actuals dest
  | _, _, _, _, _, dest => .ok dest

def actualSizes (blocks readSize : ℕ) (sizes : List ℕ) : Except Fault (ℕ × List ℕ) :=
  if readSize < blocks then
    if sizes.length = 0 then .error .divideByZero
    else
      let readIo := if readSize / ioBlocks = 0 ∨ readSize % ioBlocks ≠ 0 then readSize / ioBlocks + 1
        else readSize / ioBlocks
      let each := readIo / sizes.length
      let actuals := spreadRead each (readIo - each) sizes
      .ok (u32 (actuals.map fun a => a * ioBlocks).sum, actuals)
  else .ok (blocks, sizes)

def roundOffsets (offset total : ℕ) (sizes : List ℕ) : Except Fault (List ℕ) :=
  if offset < total ∧ 0 < offset then threadOffsets offset sizes
  else .ok (List.replicate sizes.length 0)

def readRandomRounds (z : Zns) (izgCnt threadNum : ℕ) :
    ℕ → ℕ → ℕ → ℕ → ℕ → List Interval → Dest → Except Fault Dest
  | 0, _, _, _, _, _, dest => .ok dest
  | rounds + 1, tmpBuf, total, offset, readSize, left, dest =>
    let readZoneCnt := if izgCnt < left.length then izgCnt else left.length
    let vs := left.take readZoneCnt
    let sizes := unitsOf vs
    let total := u32 (total + blocksOf vs)
    if threadNum < readZoneCnt then .error .outOfBounds
    else do
      let offsets ← roundOffsets offset total sizes
      let blocks := offsets.foldl (fun blocks o => sub32 blocks (u32 (o * ioBlocks))) (blocksOf vs)
      let (blocks, actuals) ← actualSizes blocks readSize sizes
      if offset < total then do
        let dest ← readRandomThreads z readZoneCnt (sizes.insertionSort (· ≤ ·)) tmpBuf 0 0 vs offsets
          actuals dest
        if sub32 readSize blocks = 0 then .ok dest
        else
          readRandomRounds z izgCnt threadNum rounds (tmpBuf + u32 (blocks * blockSize)) total 0
            (sub32 readSize blocks) (left.drop readZoneCnt) dest
      else if readSize = 0 then .ok dest
      else
        readRandomRounds z izgCnt threadNum rounds tmpBuf total offset readSize
          (left.drop readZoneCnt) dest

def izgReadRandom (z : Zns) (dest : Dest) (off izgCnt totalTargetZone : ℕ)
    (intervals : List Interval) (offset readSize : ℕ) : Except Fault Dest :=
  if izgCnt = 0 then .error .divideByZero
  else readRandomRounds z izgCnt (threadNum izgCnt totalTargetZone)
    (izgReadRounds izgCnt totalTargetZone) off 0 offset readSize intervals dest

end ZenFSPlus.Zoad
