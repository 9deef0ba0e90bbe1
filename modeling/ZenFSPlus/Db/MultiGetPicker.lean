import ZenFSPlus.Db.FilePicker

/-!
`FilePickerMultiGet`: the files for a batch of sorted keys, a file at a time, each with the
range of keys to look up in it. A batch has at most 32 keys, so that masks of keys are sets of indices.
-/

namespace ZenFSPlus.Db

structure MultiGetRange where
  start : ℕ
  stop : ℕ
  skipMask : ℕ → Bool

namespace MultiGetRange

variable (valueMask : ℕ → Bool) (r : MultiGetRange)

def masked (i : ℕ) : Bool := valueMask i || r.skipMask i

def stepOver (masked : ℕ → Bool) : ℕ → ℕ → ℕ
  | 0, i => i
  | count + 1, i => if masked i then stepOver masked count (i + 1) else i

def iter (i : ℕ) : ℕ := stepOver (r.masked valueMask) (r.stop - i) i

def next (i : ℕ) : ℕ := r.iter valueMask (i + 1)

def begin : ℕ := r.iter valueMask r.start

def visits (i : ℕ) : Bool := decide (r.start ≤ i) && decide (i < r.stop) && !r.masked valueMask i

end MultiGetRange

structure MultiGetContext (κ : Type) where
  numKeys : ℕ
  userKey : ℕ → κ
  tag : ℕ

def MultiGetContext.ikey {κ : Type} (c : MultiGetContext κ) (i : ℕ) : InternalKey κ := ⟨c.userKey i, c.tag⟩

structure FilePickerContext where
  searchLeftBound : ℤ := 0
  searchRightBound : ℤ := kLevelMaxIndex
  currIndexInCurrLevel : ℕ := 0
  startIndexInCurrLevel : ℕ := 0

namespace FilePickerContext

def resetBounds (x : FilePickerContext) : FilePickerContext :=
  { x with searchLeftBound := 0, searchRightBound := kLevelMaxIndex }

def nextFile (x : FilePickerContext) : FilePickerContext :=
  { x with currIndexInCurrLevel := x.currIndexInCurrLevel + 1 }

end FilePickerContext

structure FilePickerMultiGet where
  currLevel : ℕ
  fpCtxArray : ℕ → FilePickerContext
  batchIter : ℕ
  batchIterPrev : ℕ
  upperKey : ℕ
  maybeRepeatKey : Bool
  currentLevelRange : MultiGetRange
  currentFileRange : MultiGetRange
  searchEnded : Bool

structure FileScan (κ : Type) where
  batchIter : ℕ
  upperKey : ℕ
  fpCtxArray : ℕ → FilePickerContext
  /-- The skip mask of `next_file_range`. -/
  skipMask : ℕ → Bool
  currFileIndex : ℕ
  f : Option (FdWithKeyRange κ)
  fileHit : Bool
  cmpLargest : Ordering

def FileScan.compared {κ : Type} (t : FileScan κ) (f : FdWithKeyRange κ) (x : FilePickerContext) (hit : Bool)
    (largest : Ordering) : FileScan κ :=
  { t with
    f := some f
    fpCtxArray := Function.update t.fpCtxArray t.batchIter x
    skipMask := if hit then t.skipMask else Function.update t.skipMask t.batchIter true
    fileHit := t.fileHit || hit
    cmpLargest := largest }

namespace FilePickerMultiGet

variable {κ : Type} [LinearOrder κ] (c : MultiGetContext κ) (levels : List (List (FdWithKeyRange κ)))
  (valueMask : ℕ → Bool)

def wholeRange : MultiGetRange :=
  ⟨MultiGetRange.begin valueMask ⟨0, c.numKeys, fun _ => false⟩, c.numKeys, fun _ => false⟩

def EmptyBounds (x : FilePickerContext) : Prop :=
  x.searchLeftBound = 0 ∧ (x.searchRightBound = -1 ∨ x.searchRightBound = kLevelMaxIndex)

instance (x : FilePickerContext) : Decidable (EmptyBounds x) := inferInstanceAs (Decidable (_ ∧ _))

/-- The contexts after a level without files; `none` if an assertion fails. -/
def passEmptyLevel (s : FilePickerMultiGet) : Option (ℕ → FilePickerContext) :=
  if ∀ i < s.currentLevelRange.stop, s.currentLevelRange.visits valueMask i → EmptyBounds (s.fpCtxArray i) then
    some fun i => if s.currentLevelRange.visits valueMask i then (s.fpCtxArray i).resetBounds else s.fpCtxArray i
  else none

def searchKey (currLevel : ℕ) (files : List (FdWithKeyRange κ)) (i : ℕ) (x : FilePickerContext) :
    Option FilePickerContext :=
  if currLevel = 0 then some { x with startIndexInCurrLevel := 0, currIndexInCurrLevel := 0 }
  else (searchLevel files (c.ikey i) x.searchLeftBound x.searchRightBound).map fun r =>
    ⟨x.searchLeftBound, r.2, r.1, r.1⟩

def enterLevel (files : List (FdWithKeyRange κ)) (s : FilePickerMultiGet) : FilePickerMultiGet :=
  let range := wholeRange c valueMask
  let found i := searchKey c s.currLevel files i (s.fpCtxArray i)
  { s with
    fpCtxArray := fun i =>
      if range.visits valueMask i then (found i).getD (s.fpCtxArray i).resetBounds else s.fpCtxArray i
    currentLevelRange := { range with skipMask := fun i => range.visits valueMask i && (found i).isNone } }

def toFirstKey (s : FilePickerMultiGet) : FilePickerMultiGet :=
  let first := s.currentLevelRange.begin valueMask
  { s with batchIterPrev := first, upperKey := first, batchIter := first }

def levelContainsKeys (files : List (FdWithKeyRange κ)) (s : FilePickerMultiGet) : Bool :=
  (List.range c.numKeys).any fun i =>
    (wholeRange c valueMask).visits valueMask i && (searchKey c s.currLevel files i (s.fpCtxArray i)).isSome

def prepareLevels : List (List (FdWithKeyRange κ)) → Bool → FilePickerMultiGet → Option FilePickerMultiGet
  | [], _, s => some { s with searchEnded := true }
  | files :: rest, behindEmpty, s =>
    if files = [] then
      if behindEmpty then prepareLevels rest true { s with currLevel := s.currLevel + 1 }
      else
        match passEmptyLevel valueMask s with
        | none => none
        | some fpCtxArray => prepareLevels rest true { s with fpCtxArray, currLevel := s.currLevel + 1 }
    else if levelContainsKeys c valueMask files s then some (toFirstKey valueMask (enterLevel c valueMask files s))
    else prepareLevels rest false { enterLevel c valueMask files s with currLevel := s.currLevel + 1 }

def prepareNextLevel (s : FilePickerMultiGet) : Option FilePickerMultiGet :=
  if s.currLevel = 0 ∧ (s.fpCtxArray (s.currentLevelRange.begin valueMask)).currIndexInCurrLevel <
      (levels.getD 0 []).length then
    some (toFirstKey valueMask s)
  else prepareLevels c valueMask (levels.drop (s.currLevel + 1)) false { s with currLevel := s.currLevel + 1 }

def new : Option FilePickerMultiGet :=
  let range := wholeRange c valueMask
  prepareLevels c valueMask levels false
    ⟨0, fun _ => {}, range.start, range.start, range.start, false, range, range, false⟩

/-- A key and a file: the context with the bounds for the next level, whether the file is hit, and `cmp_largest`;
`none` if an assertion fails. -/
def compareKey (currLevel : ℕ) (k : κ) (f : FdWithKeyRange κ) (x : FilePickerContext) :
    Option (FilePickerContext × Bool × Ordering) :=
  let smallest := cmpSmallest k f
  let largest := cmpLargest k f
  if 1 < levels.length ∨ 3 < (levels.getD currLevel []).length then
    let hit := decide (¬ (smallest = .lt ∨ largest = .gt))
    if currLevel = 0 then some (x, hit, largest)
    else if x.currIndexInCurrLevel = x.startIndexInCurrLevel ∨ smallest ≠ .gt then
      ((updateIndex levels).getNextLevelIndex currLevel x.currIndexInCurrLevel smallest largest).map fun b =>
        ({ x with searchLeftBound := b.1, searchRightBound := b.2 }, hit, largest)
    else none
  else some (x, true, .lt)

def skipDuplicates (range : MultiGetRange) (i : ℕ) : ℕ → ℕ → ℕ
  | 0, upper => upper
  | count + 1, upper =>
    if upper ≠ range.stop ∧ c.userKey i = c.userKey upper then skipDuplicates range i count (range.next valueMask upper)
    else upper

def fileIndexAt (files : List (FdWithKeyRange κ)) (range : MultiGetRange) (fpCtxArray : ℕ → FilePickerContext)
    (i : ℕ) : ℕ :=
  if i ≠ range.stop then (fpCtxArray i).currIndexInCurrLevel else files.length

def passKey (currLevel : ℕ) (range : MultiGetRange) (t : FileScan κ) : FileScan κ :=
  let i := t.batchIter
  let batchIter := range.next valueMask i
  let fpCtxArray := if currLevel = 0 then Function.update t.fpCtxArray i (t.fpCtxArray i).nextFile else t.fpCtxArray
  { t with
    batchIter
    fpCtxArray
    currFileIndex :=
      if t.fileHit then t.currFileIndex else fileIndexAt (levels.getD currLevel []) range fpCtxArray batchIter }

def scanKeys (currLevel : ℕ) (range : MultiGetRange) : ℕ → FileScan κ → Option (FileScan κ)
  | 0, _ => none
  | fuel + 1, t =>
    let i := t.batchIter
    if i ≠ range.stop ∧ ((t.fpCtxArray i).currIndexInCurrLevel = t.currFileIndex ∨ t.fileHit = false) then
      match (levels.getD currLevel [])[(t.fpCtxArray i).currIndexInCurrLevel]? with
      | none => none
      | some f =>
        match compareKey levels currLevel (c.userKey i) f (t.fpCtxArray i) with
        | none => none
        | some (x, hit, largest) =>
          let t := t.compared f x hit largest
          if largest = .eq then
            some { t with upperKey := skipDuplicates c valueMask range i range.stop (range.next valueMask i) }
          else scanKeys currLevel range fuel (passKey levels valueMask currLevel range t)
    else some t

def getNextFileInLevelWithKeys (s : FilePickerMultiGet) (currFileIndex : ℕ) : Option (FileScan κ × Bool) :=
  let range := s.currentLevelRange
  let t : FileScan κ := ⟨s.batchIter, s.upperKey, s.fpCtxArray, range.skipMask, currFileIndex, none, false, .lt⟩
  if (levels.getD s.currLevel []).length ≤ currFileIndex then
    -- the rest are duplicates of a key whose last file is the last of the level
    some ({ t with
      batchIter := range.stop
      fpCtxArray := fun i => if s.batchIter < i ∧ range.visits valueMask i then (s.fpCtxArray i).resetBounds
        else s.fpCtxArray i }, false)
  else
    (scanKeys c levels valueMask s.currLevel range (range.stop + 1 - s.batchIter) t).map fun t =>
      ({ t with upperKey := if t.cmpLargest = .eq then t.upperKey else t.batchIter }, t.fileHit)

def resolveRepeat (s : FilePickerMultiGet) : FilePickerMultiGet :=
  let batchIter := if s.maybeRepeatKey ∧ (valueMask s.batchIter ∨ s.currLevel = 0) then s.upperKey else s.batchIter
  { s with maybeRepeatKey := false, batchIter, batchIterPrev := batchIter }

def returnFile (t : FileScan κ) (s : FilePickerMultiGet) : FilePickerMultiGet :=
  { s with
    batchIter := t.batchIter
    upperKey := t.upperKey
    fpCtxArray :=
      if t.cmpLargest = .eq then fun i =>
        if t.batchIter ≤ i ∧ i < t.upperKey ∧ s.currentLevelRange.masked valueMask i = false then (t.fpCtxArray i).nextFile
        else t.fpCtxArray i
      else t.fpCtxArray
    maybeRepeatKey := if t.cmpLargest = .eq then true else s.maybeRepeatKey
    currentFileRange := ⟨s.batchIterPrev, t.upperKey, t.skipMask⟩ }

def getNextFileLoop : ℕ → FilePickerMultiGet → Option (Option (FdWithKeyRange κ) × FilePickerMultiGet)
  | 0, _ => none
  | fuel + 1, s =>
    if s.searchEnded then some (none, s)
    else if s.batchIter = s.currentLevelRange.stop then (prepareNextLevel c levels valueMask s).bind (getNextFileLoop fuel)
    else
      let s := resolveRepeat valueMask s
      let currFileIndex := fileIndexAt (levels.getD s.currLevel []) s.currentLevelRange s.fpCtxArray s.batchIter
      match getNextFileInLevelWithKeys c levels valueMask s currFileIndex with
      | none => none
      | some (t, false) =>
        (prepareNextLevel c levels valueMask { s with
          batchIter := t.batchIter
          upperKey := t.upperKey
          fpCtxArray := t.fpCtxArray }).bind (getNextFileLoop fuel)
      | some (t, true) => some (t.f, returnFile valueMask t s)

def getNextFile (s : FilePickerMultiGet) : Option (Option (FdWithKeyRange κ) × FilePickerMultiGet) :=
  getNextFileLoop c levels valueMask (levels.length + (levels.getD 0 []).length + 2) s

def looked (s : FilePickerMultiGet) (f : FdWithKeyRange κ) (log : ℕ → List (FdWithKeyRange κ)) :
    ℕ → List (FdWithKeyRange κ) :=
  fun i => if s.currentFileRange.visits valueMask i then log i ++ [f] else log i

def marked (limit : κ → ℕ) (s : FilePickerMultiGet) (log : ℕ → List (FdWithKeyRange κ)) : ℕ → Bool :=
  fun i => valueMask i || (s.currentFileRange.visits valueMask i && decide ((log i).length = limit (c.userKey i) + 1))

/-- The searches of a batch, file by file, until all keys are done. -/
inductive Searches (limit : κ → ℕ) : FilePickerMultiGet → (ℕ → Bool) → (ℕ → List (FdWithKeyRange κ)) →
    (ℕ → List (FdWithKeyRange κ)) → Prop
  | allDone {s : FilePickerMultiGet} {valueMask : ℕ → Bool} {log : ℕ → List (FdWithKeyRange κ)}
    (hdone : ∀ i < c.numKeys, valueMask i = true) : Searches limit s valueMask log log
  | noFile {s s' : FilePickerMultiGet} {valueMask : ℕ → Bool} {log : ℕ → List (FdWithKeyRange κ)}
    (hleft : ¬ ∀ i < c.numKeys, valueMask i = true) (h : getNextFile c levels valueMask s = some (none, s')) :
    Searches limit s valueMask log log
  | lookup {s s' : FilePickerMultiGet} {valueMask : ℕ → Bool} {log final : ℕ → List (FdWithKeyRange κ)}
    {f : FdWithKeyRange κ} (hleft : ¬ ∀ i < c.numKeys, valueMask i = true)
    (h : getNextFile c levels valueMask s = some (some f, s'))
    (hnext : Searches limit s' (marked c valueMask limit s' (looked valueMask s' f log)) (looked valueMask s' f log) final) :
    Searches limit s valueMask log final

end FilePickerMultiGet

end ZenFSPlus.Db
