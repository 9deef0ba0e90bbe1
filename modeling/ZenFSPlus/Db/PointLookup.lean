import ZenFSPlus.Db.RangeTombstoneFragmenter

/-!
Point lookups in table files: `GetContext`, `TableCache` with its row cache, `Version::Get` and `Version::MultiGet`.
-/

namespace ZenFSPlus.Db

inductive EntryType where
  | value
  | deletion
  | singleDeletion
  | merge
deriving DecidableEq, Repr

structure Entry (V : Type) where
  seq : ℕ
  type : EntryType
  value : V

structure LookupConfig (V : Type) where
  fullMerge : Option V → List V → Option V
  shouldMerge : List V → Bool
  isVisible : Option (ℕ → Bool)
  doMerge : Bool

inductive GetState where
  | notFound
  | found
  | deleted
  | corrupt
  | merge
deriving DecidableEq, Repr

abbrev ReplayLog (V : Type) := List (EntryType × V)

structure GetContext (V : Type) where
  state : GetState
  operands : List V
  value : Option V
  maxCoveringTombstoneSeq : ℕ
  replayLog : Option (ReplayLog V)

namespace GetContext

variable {V : Type} (cfg : LookupConfig V)

def checkCallback (seq : ℕ) : Bool :=
  match cfg.isVisible with
  | some isVisible => isVisible seq
  | none => true

def merge (base : Option V) (c : GetContext V) : GetContext V :=
  if cfg.doMerge then
    match cfg.fullMerge base c.operands with
    | some v => { c with state := .found, value := some v }
    | none => { c with state := .corrupt }
  else { c with state := .found }

def push (v : V) (c : GetContext V) : GetContext V := { c with operands := c.operands ++ [v] }

def saveDeletion (c : GetContext V) : GetContext V :=
  match c.state with
  | .notFound => { c with state := .deleted }
  | .merge => c.merge cfg none
  | _ => c

def savePut (v : V) (c : GetContext V) : GetContext V :=
  match c.state with
  | .notFound =>
    if cfg.doMerge then { c with state := .found, value := some v } else { c with state := .found }.push v
  | .merge => if cfg.doMerge then c.merge cfg (some v) else { c with state := .found }.push v
  | _ => c

/-- `SaveValue` for an entry of the key; the flag says to go on to the next entry. The log has the type of the
entry even if a range tombstone covers it. -/
def saveValue (seq : ℕ) (type : EntryType) (v : V) (c : GetContext V) : Bool × GetContext V :=
  if !checkCallback cfg seq then (true, c)
  else
    let c := { c with replayLog := c.replayLog.map fun log => log ++ [(type, v)] }
    if (type = .value ∨ type = .merge) ∧ seq < c.maxCoveringTombstoneSeq then (false, c.saveDeletion cfg)
    else
      match type with
      | .value => (false, c.savePut cfg v)
      | .deletion | .singleDeletion => (false, c.saveDeletion cfg)
      | .merge =>
        let c := { c with state := .merge }.push v
        if cfg.doMerge && cfg.shouldMerge c.operands then (false, c.merge cfg none) else (true, c)

def scan : List (Entry V) → GetContext V → GetContext V
  | [], c => c
  | e :: es, c =>
    match c.saveValue cfg e.seq e.type e.value with
    | (true, c) => scan es c
    | (false, c) => c

/-- `replayGetContextLog`: the sequence numbers are not known. -/
def replay (log : ReplayLog V) (c : GetContext V) : GetContext V :=
  log.foldl (fun c r => (c.saveValue cfg kMaxSequenceNumber r.1 r.2).2) c

end GetContext

structure TableFile (κ V : Type) [LinearOrder κ] where
  number : ℕ
  largestSeqno : ℕ
  entries : κ → List (Entry V)
  tombstones : List (RangeTombstone κ)

def coveringSeqs {κ : Type} [LinearOrder κ] (tombstones : List (RangeTombstone κ)) (k : κ) (seq : ℕ) : List ℕ :=
  (tombstones.filter fun t => t.startKey ≤ k ∧ k < t.endKey ∧ t.seq ≤ seq).map fun t => t.seq

def maxCoveringTombstoneSeqnum {κ : Type} [LinearOrder κ] (tombstones : List (RangeTombstone κ)) (k : κ)
    (seq : ℕ) : ℕ :=
  (coveringSeqs tombstones k seq).foldl max 0

def visible {V : Type} (seq : ℕ) (es : List (Entry V)) : List (Entry V) := es.filter fun e => e.seq ≤ seq

structure LookupKey (κ : Type) where
  key : κ
  seq : ℕ
  snapshot : Option ℕ

/-- A key of `MultiGet` with its context, and whether it is left out of the next files. -/
structure KeyContext (κ V : Type) where
  key : LookupKey κ
  context : GetContext V
  done : Bool

abbrev RowCache (κ V : Type) := ℕ × ℕ × κ → Option (ReplayLog V)

namespace TableCache

variable {κ V : Type} [LinearOrder κ] (cfg : LookupConfig V)

def rowCacheKey (f : TableFile κ V) (k : LookupKey κ) : ℕ × ℕ × κ :=
  match k.snapshot with
  | none => (f.number, 0, k.key)
  | some snapshot =>
    if cfg.isVisible.isSome ∨ snapshot ≤ f.largestSeqno then (f.number, 1 + k.seq, k.key)
    else (f.number, 0, k.key)

def readTable (f : TableFile κ V) (k : LookupKey κ) (c : GetContext V) : GetContext V :=
  let bound := k.snapshot.getD kMaxSequenceNumber
  let covering := max c.maxCoveringTombstoneSeq (maxCoveringTombstoneSeqnum f.tombstones k.key bound)
  { c with maxCoveringTombstoneSeq := covering }.scan cfg (visible k.seq (f.entries k.key))

def recordRow (f : TableFile κ V) (k : LookupKey κ) (c : GetContext V) : ReplayLog V × GetContext V :=
  let c := readTable cfg f k { c with replayLog := some [] }
  (c.replayLog.getD [], { c with replayLog := none })

def insertRow (key : ℕ × ℕ × κ) (log : ReplayLog V) (cache : RowCache κ V) : RowCache κ V :=
  if log.isEmpty then cache else Function.update cache key (some log)

/-- `TableCache::Get`; `needToReadSequence` keeps away from the row cache. -/
def get (needToReadSequence : Bool) (f : TableFile κ V) (k : LookupKey κ) (cache : Option (RowCache κ V))
    (c : GetContext V) : Option (RowCache κ V) × GetContext V :=
  match cache with
  | none => (none, readTable cfg f k c)
  | some rows =>
    if needToReadSequence then (some rows, readTable cfg f k c)
    else
      match rows (rowCacheKey cfg f k) with
      | some log => (some rows, c.replay cfg log)
      | none =>
        let (log, c) := recordRow cfg f k c
        (some (insertRow (rowCacheKey cfg f k) log rows), c)

def getRow (f : TableFile κ V) (k : LookupKey κ) (cache : Option (RowCache κ V)) (c : GetContext V) :
    GetContext V :=
  match cache with
  | none => readTable cfg f k c
  | some rows =>
    match rows (rowCacheKey cfg f k) with
    | some log => c.replay cfg log
    | none => (recordRow cfg f k c).2

def multiGet (f : TableFile κ V) (inFile : KeyContext κ V → Bool) (keys : List (KeyContext κ V))
    (cache : Option (RowCache κ V)) : Option (RowCache κ V) × List (KeyContext κ V) :=
  (cache.map fun rows =>
      (keys.filter fun k => inFile k && (rows (rowCacheKey cfg f k.key)).isNone).foldl (fun cache k =>
        insertRow (rowCacheKey cfg f k.key) (recordRow cfg f k.key k.context).1 cache) rows,
    keys.map fun k => if inFile k then { k with context := getRow cfg f k.key cache k.context } else k)

end TableCache

inductive LookupResult (V : Type) where
  | value (v : Option V)
  | operands (vs : List V)
  | notFound
  | corruption
deriving DecidableEq

namespace Version

variable {κ V : Type} [LinearOrder κ] (cfg : LookupConfig V)

def result (c : GetContext V) : LookupResult V :=
  match c.state with
  | .found => if cfg.doMerge then .value c.value else .operands c.operands
  | .deleted | .notFound => .notFound
  | .corrupt => .corruption
  | .merge =>
    if !cfg.doMerge then .operands c.operands
    else
      match cfg.fullMerge none c.operands with
      | some v => .value (some v)
      | none => .corruption

def searching (c : GetContext V) : Bool := c.state = .notFound || c.state = .merge

def getLoop (needToReadSequence : Bool) (k : LookupKey κ) : List (TableFile κ V) → Option (RowCache κ V) →
    GetContext V → Option (RowCache κ V) × GetContext V
  | [], cache, c => (cache, c)
  | f :: files, cache, c =>
    if 0 < c.maxCoveringTombstoneSeq then (cache, c)
    else
      let (cache, c) := TableCache.get cfg needToReadSequence f k cache c
      if searching c then getLoop needToReadSequence k files cache c else (cache, c)

def settle (k : KeyContext κ V) : KeyContext κ V :=
  { k with done := !searching k.context || 0 < k.context.maxCoveringTombstoneSeq }

def multiGetLoop : List (TableFile κ V × (κ → Bool)) → Option (RowCache κ V) → List (KeyContext κ V) →
    Option (RowCache κ V) × List (KeyContext κ V)
  | [], cache, keys => (cache, keys)
  | (f, inRange) :: files, cache, keys =>
    let inFile (k : KeyContext κ V) : Bool := !k.done && inRange k.key.key
    let (cache, keys) := TableCache.multiGet cfg f inFile keys cache
    multiGetLoop files cache (keys.map fun k => if inFile k then settle k else k)

end Version

inductive LookupCall (κ V : Type) [LinearOrder κ] where
  | get (cfg : LookupConfig V) (needToReadSequence : Bool) (files : List (TableFile κ V)) (k : LookupKey κ)
      (c : GetContext V)
  | multiGet (cfg : LookupConfig V) (files : List (TableFile κ V × (κ → Bool))) (keys : List (KeyContext κ V))
  | evict (row : ℕ × ℕ × κ)

def LookupCall.answer {κ V : Type} [LinearOrder κ] (cache : Option (RowCache κ V)) :
    LookupCall κ V → Option (RowCache κ V) × List (LookupResult V)
  | .get cfg needToReadSequence files k c =>
    let (cache, c) := Version.getLoop cfg needToReadSequence k files cache c
    (cache, [Version.result cfg c])
  | .multiGet cfg files keys =>
    let (cache, keys) := Version.multiGetLoop cfg files cache keys
    (cache, keys.map fun k => Version.result cfg k.context)
  | .evict row => (cache.map fun rows => Function.update rows row none, [])

def LookupCall.answers {κ V : Type} [LinearOrder κ] : Option (RowCache κ V) → List (LookupCall κ V) →
    List (List (LookupResult V))
  | _, [] => []
  | cache, call :: calls => (call.answer cache).2 :: answers (call.answer cache).1 calls

end ZenFSPlus.Db
