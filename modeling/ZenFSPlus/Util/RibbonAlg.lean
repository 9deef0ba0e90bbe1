import ZenFSPlus.Lib.Parity

/-!
The Ribbon algorithm: on-the-fly banding with backtracking, back substitution into interleaved
segments, and the filter query. A failed assertion or an access past the slots is `none`.
-/

namespace ZenFSPlus.Ribbon

open Lib

structure BandingHasher (Key Hash : Type) (r w : ℕ) where
  kFirstCoeffAlwaysOne : Bool
  getHash : Key → Hash
  getStart : Hash → ℕ → ℕ
  getCoeffRow : Hash → BitVec r
  getResultRowFromHash : Hash → BitVec w
  getResultRowFromInput : Key → BitVec w
  getStart_lt : ∀ h {n}, 0 < n → getStart h n < n
  coeffRow_ne_zero : ∀ h, getCoeffRow h ≠ 0
  firstCoeff : kFirstCoeffAlwaysOne = true → ∀ h, (getCoeffRow h).getLsbD 0 = true
  /-- "For filter PHSF, this must return 0." -/
  resultRowFromInput : ∀ key, getResultRowFromInput key = 0

variable {Key Hash : Type} {r w : ℕ}

@[ext]
structure BandingStorage (r w : ℕ) where
  numSlots : ℕ
  coeffRows : ℕ → BitVec r
  resultRows : ℕ → BitVec w

namespace BandingStorage

def empty (numSlots : ℕ) : BandingStorage r w := ⟨numSlots, fun _ => 0, fun _ => 0⟩

variable (bs : BandingStorage r w)

def getNumStarts : ℕ := bs.numSlots - r + 1

/-- `free` are the result rows for unconstrained rows, which the storage may choose for the back
substitution. -/
def loadRow (free : ℕ → BitVec w) (i : ℕ) : BitVec r × BitVec w :=
  (bs.coeffRows i, if bs.coeffRows i = 0 then free i else bs.resultRows i)

def storeRow (i : ℕ) (cr : BitVec r) (rr : BitVec w) : BandingStorage r w :=
  { bs with
    coeffRows := Function.update bs.coeffRows i cr
    resultRows := Function.update bs.resultRows i rr }

end BandingStorage

theorem trailingZeros_pos {a b : BitVec r} (ha : a.getLsbD 0 = true) (hb : b.getLsbD 0 = true)
    (h : a ^^^ b ≠ 0) : 0 < trailingZeros (a ^^^ b) := by
  by_contra hz
  have hbt := (trailingZeros_spec h).1
  rw [Nat.eq_zero_of_not_pos hz, BitVec.getLsbD_xor, ha, hb] at hbt
  cases hbt

/-- The loop of `BandingAdd`: whether the entry was added, the storage, and the slot that was
filled. -/
def bandingAddLoop (bs : BandingStorage r w) (i : ℕ) (rr : BitVec w) (cr : BitVec r) :
    Option (Bool × BandingStorage r w × Option ℕ) :=
  if _hi : i < bs.numSlots then
    if _hcr : cr.getLsbD 0 = true then
      if bs.coeffRows i = 0 then some (true, bs.storeRow i cr rr, some i)
      else if _hat : (bs.coeffRows i).getLsbD 0 = true then
        if _hz : cr ^^^ bs.coeffRows i = 0 then some (decide (rr ^^^ bs.resultRows i = 0), bs, none)
        else
          bandingAddLoop bs (i + trailingZeros (cr ^^^ bs.coeffRows i)) (rr ^^^ bs.resultRows i)
            ((cr ^^^ bs.coeffRows i) >>> trailingZeros (cr ^^^ bs.coeffRows i))
      else none
    else none
  else none
termination_by bs.numSlots - i
decreasing_by
  have := trailingZeros_pos _hcr _hat _hz
  omega

def bandingAdd (kFirstCoeffAlwaysOne : Bool) (bs : BandingStorage r w) (start : ℕ) (rr : BitVec w)
    (cr : BitVec r) : Option (Bool × BandingStorage r w × Option ℕ) :=
  if kFirstCoeffAlwaysOne then bandingAddLoop bs start rr cr
  else bandingAddLoop bs (start + trailingZeros cr) rr (cr >>> trailingZeros cr)

variable (bh : BandingHasher Key Hash r w)

def addSimple (bs : BandingStorage r w) (backtrack : List ℕ) :
    List Key → Option (Bool × BandingStorage r w × List ℕ)
  | [] => some (true, bs, backtrack)
  | cur :: rest =>
    let h := bh.getHash cur
    let start := bh.getStart h bs.getNumStarts
    let rr := bh.getResultRowFromInput cur ||| bh.getResultRowFromHash h
    match bandingAdd bh.kFirstCoeffAlwaysOne bs start rr (bh.getCoeffRow h) with
    | none => none
    | some (false, bs, put) => some (false, bs, put.toList ++ backtrack)
    | some (true, bs, put) => addSimple bs (put.toList ++ backtrack) rest

def addPipelined (bs : BandingStorage r w) (backtrack : List ℕ) (h : Hash) (start : ℕ) (rr : BitVec w) :
    List Key → Option (Bool × BandingStorage r w × List ℕ)
  | [] =>
    match bandingAdd bh.kFirstCoeffAlwaysOne bs start (rr ||| bh.getResultRowFromHash h)
        (bh.getCoeffRow h) with
    | none => none
    | some (ok, bs, put) => some (ok, bs, put.toList ++ backtrack)
  | next :: rest =>
    let nextH := bh.getHash next
    let nextStart := bh.getStart nextH bs.getNumStarts
    let nextRr := bh.getResultRowFromInput next
    match bandingAdd bh.kFirstCoeffAlwaysOne bs start (rr ||| bh.getResultRowFromHash h)
        (bh.getCoeffRow h) with
    | none => none
    | some (false, bs, put) => some (false, bs, put.toList ++ backtrack)
    | some (true, bs, put) => addPipelined bs (put.toList ++ backtrack) nextH nextStart nextRr rest

def bandingAddRange (usePrefetch useBacktrack : Bool) (bs : BandingStorage r w) :
    List Key → Option (Bool × BandingStorage r w)
  | [] => some (true, bs)
  | cur :: rest =>
    let h := bh.getHash cur
    match if usePrefetch then
        addPipelined bh bs [] h (bh.getStart h bs.getNumStarts) (bh.getResultRowFromInput cur) rest
      else addSimple bh bs [] (cur :: rest) with
    | none => none
    | some (true, bs, _) => some (true, bs)
    | some (false, bs, backtrack) =>
      some (false, if useBacktrack then backtrack.foldl (fun bs i => bs.storeRow i 0 0) bs else bs)

def bitParity (x : BitVec r) : Bool := parity x.getLsbD r

def backSubstRow (numColumns : ℕ) (row : BitVec r × BitVec w) (state : ℕ → BitVec r) : ℕ → BitVec r :=
  fun j =>
    if j < numColumns then
      let tmp := state j <<< 1
      let bit := bitParity (tmp &&& row.1) ^^ row.2.getLsbD j
      tmp ||| (BitVec.ofBool bit).setWidth r
    else state j

def backSubstRows (numColumns : ℕ) (bs : BandingStorage r w) (free : ℕ → BitVec w) (startSlot : ℕ) :
    ℕ → (ℕ → BitVec r) → ℕ → BitVec r
  | 0, state => state
  | n + 1, state =>
    backSubstRows numColumns bs free startSlot n
      (backSubstRow numColumns (bs.loadRow free (startSlot + n)) state)

def backSubstBlock (state : ℕ → BitVec r) (numColumns : ℕ) (bs : BandingStorage r w)
    (free : ℕ → BitVec w) (startSlot : ℕ) : ℕ → BitVec r :=
  backSubstRows numColumns bs free startSlot r state

structure InterleavedSolutionStorage (r : ℕ) where
  numStarts : ℕ
  upperNumColumns : ℕ
  upperStartBlock : ℕ
  numSegments : ℕ
  segments : ℕ → BitVec r

def storeSegments (segments : ℕ → BitVec r) (segmentNum : ℕ) (state : ℕ → BitVec r) : ℕ → ℕ → BitVec r
  | 0 => segments
  | n + 1 => Function.update (storeSegments segments segmentNum state n) (segmentNum + n) (state n)

structure BackSubst (r : ℕ) where
  state : ℕ → BitVec r
  segments : ℕ → BitVec r
  segmentNum : ℕ

def backSubstBlocks (bs : BandingStorage r w) (free : ℕ → BitVec w) (numColumns stop : ℕ) :
    ℕ → BackSubst r → BackSubst r
  | 0, s => s
  | n + 1, s =>
    let state := backSubstBlock s.state numColumns bs free ((stop + n) * r)
    let segmentNum := s.segmentNum - numColumns
    backSubstBlocks bs free numColumns stop n
      ⟨state, storeSegments s.segments segmentNum state numColumns, segmentNum⟩

def interleavedBackSubst (iss : InterleavedSolutionStorage r) (bs : BandingStorage r w)
    (free : ℕ → BitVec w) : InterleavedSolutionStorage r :=
  let iss := { iss with numStarts := bs.getNumStarts }
  let numBlocks := (bs.getNumStarts + r - 1) / r
  if iss.upperNumColumns = 0 then iss
  else
    let s := backSubstBlocks bs free iss.upperNumColumns iss.upperStartBlock
      (numBlocks - iss.upperStartBlock) ⟨fun _ => 0, iss.segments, iss.numSegments⟩
    let s := backSubstBlocks bs free (iss.upperNumColumns - 1) 0 iss.upperStartBlock s
    { iss with segments := s.segments }

structure PreparedQuery (Hash : Type) where
  hash : Hash
  segmentNum : ℕ
  numColumns : ℕ
  startBit : ℕ

def interleavedPrepareQuery (iss : InterleavedSolutionStorage r) (key : Key) : PreparedQuery Hash :=
  let hash := bh.getHash key
  let startSlot := bh.getStart hash iss.numStarts
  let startBlockNum := startSlot / r
  { hash := hash
    segmentNum := startBlockNum * iss.upperNumColumns - min startBlockNum iss.upperStartBlock
    numColumns := iss.upperNumColumns - if startBlockNum < iss.upperStartBlock then 1 else 0
    startBit := startSlot % r }

def interleavedFilterQuery (iss : InterleavedSolutionStorage r) (q : PreparedQuery Hash) : Bool :=
  let cr := bh.getCoeffRow q.hash
  let expected := bh.getResultRowFromHash q.hash
  if q.startBit = 0 then
    (List.range q.numColumns).all fun i =>
      bitParity (iss.segments (q.segmentNum + i) &&& cr) == expected.getLsbD i
  else
    let crLeft := cr <<< q.startBit
    let crRight := cr >>> (r - q.startBit)
    (List.range q.numColumns).all fun i =>
      let solnData := (iss.segments (q.segmentNum + i) &&& crLeft) ^^^
        (iss.segments (q.segmentNum + q.numColumns + i) &&& crRight)
      bitParity solnData == expected.getLsbD i

end ZenFSPlus.Ribbon
