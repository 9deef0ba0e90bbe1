import ZenFSPlus.Db.RowCacheReads

/-!
Point lookups that begin in memtables: `Saver`, `MemTable::Get` and `MemTableListVersion::Get`, and `Version::Get`
behind them.
-/

namespace ZenFSPlus.Db

structure MemTableData (κ V : Type) [LinearOrder κ] where
  entries : κ → List (Entry V)
  tombstones : List (RangeTombstone κ)

inductive LookupStatus where
  | ok
  | notFound
  | mergeInProgress
  | corruption
deriving DecidableEq, Repr

structure Saver (V : Type) where
  status : LookupStatus
  value : Option V
  operands : List V
  maxCoveringTombstoneSeq : ℕ
  foundFinalValue : Bool
  mergeInProgress : Bool

namespace Saver

variable {V : Type} (cfg : LookupConfig V)

def fullMerge (base : Option V) (s : Saver V) : Saver V :=
  match cfg.fullMerge base s.operands with
  | some v => { s with status := .ok, value := some v }
  | none => { s with status := .corruption }

def saveDeletion (s : Saver V) : Saver V :=
  if !s.mergeInProgress then { s with status := .notFound, foundFinalValue := true }
  else if cfg.doMerge then { s.fullMerge cfg none with foundFinalValue := true }
  else { s with foundFinalValue := true }

def savePut (v : V) (s : Saver V) : Saver V :=
  if !cfg.doMerge then { s with status := .ok, operands := s.operands ++ [v], foundFinalValue := true }
  else if s.mergeInProgress then { s.fullMerge cfg (some v) with foundFinalValue := true }
  else { s with status := .ok, value := some v, foundFinalValue := true }

def saveValue (e : Entry V) (s : Saver V) : Bool × Saver V :=
  if !GetContext.checkCallback cfg e.seq then (true, s)
  else if (e.type = .value ∨ e.type = .merge) ∧ e.seq < s.maxCoveringTombstoneSeq then (false, s.saveDeletion cfg)
  else
    match e.type with
    | .value => (false, s.savePut cfg e.value)
    | .deletion | .singleDeletion => (false, s.saveDeletion cfg)
    | .merge =>
      let s := { s with mergeInProgress := true, operands := s.operands ++ [e.value] }
      if cfg.doMerge && cfg.shouldMerge s.operands then (false, { s.fullMerge cfg none with foundFinalValue := true })
      else (true, s)

def scan : List (Entry V) → Saver V → Saver V
  | [], s => s
  | e :: es, s =>
    match s.saveValue cfg e with
    | (true, s) => scan es s
    | (false, s) => s

def result (s : Saver V) : LookupResult V :=
  match s.status with
  | .ok => if cfg.doMerge then .value s.value else .operands s.operands
  | .notFound => .notFound
  | .mergeInProgress | .corruption => .corruption

end Saver

variable {κ V : Type} [LinearOrder κ] (cfg : LookupConfig V)

def MemTableData.get (m : MemTableData κ V) (k : LookupKey κ) (s : Saver V) : Saver V :=
  let covering := max s.maxCoveringTombstoneSeq (maxCoveringTombstoneSeqnum m.tombstones k.key k.seq)
  let s := { s with
    maxCoveringTombstoneSeq := covering
    foundFinalValue := false
    mergeInProgress := decide (s.status = LookupStatus.mergeInProgress) }
  let s := s.scan cfg (visible k.seq (m.entries k.key))
  if !s.foundFinalValue && s.mergeInProgress then { s with status := .mergeInProgress } else s

def MemTableListVersion.get (k : LookupKey κ) : List (MemTableData κ V) → Saver V → Bool × Saver V
  | [], s => (false, s)
  | m :: ms, s =>
    let s := m.get cfg k s
    if s.foundFinalValue then (true, s)
    else if s.status = .corruption then (false, s)
    else MemTableListVersion.get k ms s

def Saver.getContext (s : Saver V) : GetContext V :=
  ⟨if s.status = .ok then .notFound else .merge, s.operands, none, s.maxCoveringTombstoneSeq, none⟩

/-- `MemTableListVersion::Get` and, when it is not done, `Version::Get`, without a row cache. -/
def lookup (memtables : List (MemTableData κ V)) (files : List (TableFile κ V)) (k : LookupKey κ) : LookupResult V :=
  match MemTableListVersion.get cfg k memtables ⟨.ok, none, [], 0, false, false⟩ with
  | (true, s) => s.result cfg
  | (false, s) => Version.result cfg (Version.getLoop cfg false k files none s.getContext).2

end ZenFSPlus.Db
