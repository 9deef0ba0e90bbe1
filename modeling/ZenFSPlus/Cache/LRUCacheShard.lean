import ZenFSPlus.Cache.LRUHandleTable
import ZenFSPlus.Lib.Run

/-!
`LRUCacheShard` without a secondary cache.
-/

namespace ZenFSPlus.Cache

structure LRUHandle (κ : Type) where
  key : κ
  hash : UInt32
  charge : ℕ
  -- what the charge policy adds for the allocation of this handle
  metaCharge : ℕ
  refs : UInt32 := 0
  inCache : Bool := false
  isHighPri : Bool := false
  inHighPriPool : Bool := false
  hasHit : Bool := false

def LRUHandle.calcTotalCharge {κ : Type} (h : LRUHandle κ) : ℕ := h.charge + h.metaCharge

def LRUHandle.hasRefs {κ : Type} (h : LRUHandle κ) : Bool := h.refs ≠ 0

structure LRULists (κ : Type) where
  handles : ℕ → LRUHandle κ
  low : List ℕ := []
  high : List ℕ := []
  usage : ℕ := 0
  lruUsage : ℕ := 0
  highPriPoolUsage : ℕ := 0

namespace LRULists

variable {κ : Type} (l : LRULists κ)

def tag (e : ℕ) : κ × UInt32 := ((l.handles e).key, (l.handles e).hash)

def chargeOf (e : ℕ) : ℕ := (l.handles e).calcTotalCharge

def modify (e : ℕ) (f : LRUHandle κ → LRUHandle κ) : LRULists κ :=
  { l with handles := Function.update l.handles e (f (l.handles e)) }

def setInCache (e : ℕ) (b : Bool) : LRULists κ := l.modify e fun h => { h with inCache := b }

def setInHighPriPool (e : ℕ) (b : Bool) : LRULists κ := l.modify e fun h => { h with inHighPriPool := b }

def lruRemove (e : ℕ) : LRULists κ :=
  { l with
    low := l.low.erase e
    high := l.high.erase e
    lruUsage := l.lruUsage - l.chargeOf e
    highPriPoolUsage := if (l.handles e).inHighPriPool then l.highPriPoolUsage - l.chargeOf e
      else l.highPriPoolUsage }

def overflow (e : ℕ) (rest : List ℕ) : LRULists κ :=
  { l.setInHighPriPool e false with
    low := l.low ++ [e], high := rest, highPriPoolUsage := l.highPriPoolUsage - l.chargeOf e }

def maintainLoop (capacity : ℕ) : List ℕ → LRULists κ → LRULists κ
  | [], l => l
  | e :: rest, l => if capacity < l.highPriPoolUsage then maintainLoop capacity rest (l.overflow e rest) else l

def maintainPoolSize (capacity : ℕ) : LRULists κ := maintainLoop capacity l.high l

/-- `LRU_Insert` at the newer end of the high-pri pool, without `MaintainPoolSize`. -/
def pushHigh (e : ℕ) : LRULists κ :=
  { l.setInHighPriPool e true with
    high := l.high ++ [e], highPriPoolUsage := l.highPriPoolUsage + l.chargeOf e }

def pushLow (e : ℕ) : LRULists κ := { l.setInHighPriPool e false with low := l.low ++ [e] }

def lruInsert (ratioPositive : Bool) (capacity : ℕ) (e : ℕ) : LRULists κ :=
  let inserted := if ratioPositive && ((l.handles e).isHighPri || (l.handles e).hasHit)
    then (l.pushHigh e).maintainPoolSize capacity else l.pushLow e
  { inserted with lruUsage := inserted.lruUsage + l.chargeOf e }

def ref (e : ℕ) : LRULists κ := l.modify e fun h => { h with refs := h.refs + 1 }

def setHit (e : ℕ) : LRULists κ := l.modify e fun h => { h with hasHit := true }

def unref (e : ℕ) : LRULists κ := l.modify e fun h => { h with refs := h.refs - 1 }

def leaveTable (old : ℕ) : LRULists κ × List ℕ :=
  let l := l.setInCache old false
  if !(l.handles old).hasRefs then
    let l := l.lruRemove old
    ({ l with usage := l.usage - l.chargeOf old }, [old])
  else (l, [])

end LRULists

structure PoolRatio where
  positive : Bool
  times : ℕ → ℕ

structure LRUCacheShard (κ : Type) where
  lists : LRULists κ
  table : LRUHandleTable
  capacity : ℕ
  strictCapacityLimit : Bool
  highPriPoolRatio : PoolRatio
  highPriPoolCapacity : ℕ
  -- the next allocation
  next : ℕ := 0
  -- the entries whose deleter has run, in this order
  freed : List ℕ := []

namespace LRUCacheShard

variable {κ : Type} [DecidableEq κ] (s : LRUCacheShard κ)

def freeAll (es : List ℕ) : LRUCacheShard κ := { s with freed := s.freed ++ es }

def evict (old : ℕ) : LRUCacheShard κ :=
  let lists := (s.lists.lruRemove old).setInCache old false
  { s with
    lists := { lists with usage := lists.usage - lists.chargeOf old }
    table := (s.table.remove s.lists.tag (s.lists.tag old)).2 }

def evictWhile (more : ℕ → Bool) : ℕ → LRUCacheShard κ → List ℕ → LRUCacheShard κ × List ℕ
  | 0, s, deleted => (s, deleted)
  | fuel + 1, s, deleted =>
    match s.lists.low ++ s.lists.high with
    | [] => (s, deleted)
    | old :: _ =>
      if more s.lists.usage then evictWhile more fuel (s.evict old) (deleted ++ [old]) else (s, deleted)

def evictFromLRU (charge : ℕ) : LRUCacheShard κ × List ℕ :=
  evictWhile (fun usage => s.capacity < usage + charge) (s.lists.low ++ s.lists.high).length s []

def eraseUnRefEntries : LRUCacheShard κ :=
  let (s, deleted) := evictWhile (fun _ => true) (s.lists.low ++ s.lists.high).length s []
  s.freeAll deleted

def setCapacity (capacity : ℕ) : LRUCacheShard κ :=
  let s := { s with capacity, highPriPoolCapacity := s.highPriPoolRatio.times capacity }
  let (s, deleted) := s.evictFromLRU 0
  s.freeAll deleted

def setHighPriorityPoolRatio (ratio : PoolRatio) : LRUCacheShard κ :=
  { s with
    highPriPoolRatio := ratio
    highPriPoolCapacity := ratio.times s.capacity
    lists := s.lists.maintainPoolSize (ratio.times s.capacity) }

def lruInsert (e : ℕ) : LRUCacheShard κ :=
  { s with lists := s.lists.lruInsert s.highPriPoolRatio.positive s.highPriPoolCapacity e }

def place (e : ℕ) : LRUCacheShard κ × List ℕ :=
  let (old, table) := s.table.insert s.lists.tag e
  let lists := { s.lists with usage := s.lists.usage + s.lists.chargeOf e }
  match old with
  | none => ({ s with table, lists }, [])
  | some old => ({ s with table, lists := (lists.leaveTable old).1 }, (lists.leaveTable old).2)

/-- The outcome of `Insert`: the entry with a handle for the caller, without one, or `Incomplete`. -/
inductive Inserted where
  | handle
  | noHandle
  | incomplete
deriving DecidableEq, Repr

def insertItem (e : ℕ) (withHandle : Bool) (deleted : List ℕ) : Inserted × LRUCacheShard κ :=
  let charge := s.lists.chargeOf e
  if s.capacity < s.lists.usage + charge ∧ (s.strictCapacityLimit ∨ !withHandle) then
    let s := { s with lists := s.lists.setInCache e false }
    if withHandle then (.incomplete, s.freeAll deleted) else (.noHandle, s.freeAll (deleted ++ [e]))
  else
    let (s, last) := s.place e
    if withHandle then (.handle, { s with lists := s.lists.ref e }.freeAll (deleted ++ last))
    else (.noHandle, (s.lruInsert e).freeAll (deleted ++ last))

def insert (key : κ) (hash : UInt32) (charge metaCharge : ℕ) (highPri withHandle : Bool) :
    Inserted × LRUCacheShard κ :=
  let e := s.next
  let handle : LRUHandle κ := { key, hash, charge, metaCharge, inCache := true, isHighPri := highPri }
  let s := { s with next := e + 1, lists := s.lists.modify e fun _ => handle }
  let (s, deleted) := s.evictFromLRU (s.lists.chargeOf e)
  s.insertItem e withHandle deleted

def lookup (key : κ) (hash : UInt32) : Option ℕ × LRUCacheShard κ :=
  match s.table.lookup s.lists.tag (key, hash) with
  | none => (none, s)
  | some e =>
    let lists := if !(s.lists.handles e).hasRefs then s.lists.lruRemove e else s.lists
    (some e, { s with lists := (lists.ref e).setHit e })

def ref (e : ℕ) : LRUCacheShard κ := { s with lists := s.lists.ref e }

def dropLast (e : ℕ) : LRUCacheShard κ :=
  { s with lists := { s.lists with usage := s.lists.usage - s.lists.chargeOf e } }.freeAll [e]

def release (e : ℕ) (forceErase : Bool) : LRUCacheShard κ :=
  let s := { s with lists := s.lists.unref e }
  if (s.lists.handles e).hasRefs then s
  else if (s.lists.handles e).inCache then
    if s.capacity < s.lists.usage ∨ forceErase then
      { s with
        table := (s.table.remove s.lists.tag (s.lists.tag e)).2
        lists := s.lists.setInCache e false }.dropLast e
    else s.lruInsert e
  else s.dropLast e

def erase (key : κ) (hash : UInt32) : LRUCacheShard κ :=
  match s.table.remove s.lists.tag (key, hash) with
  | (none, _) => s
  | (some e, table) =>
    let (lists, last) := s.lists.leaveTable e
    { s with table, lists }.freeAll last

end LRUCacheShard

structure CacheClients (κ : Type) where
  shard : LRUCacheShard κ
  accepted : List ℕ := []
  held : List ℕ := []

inductive CacheCall (κ : Type) where
  | insert (key : κ) (hash : UInt32) (charge metaCharge : ℕ) (highPri withHandle : Bool)
  | lookup (key : κ) (hash : UInt32)
  | ref (e : ℕ)
  | release (e : ℕ) (forceErase : Bool)
  | erase (key : κ) (hash : UInt32)
  | eraseUnRefEntries
  | setCapacity (capacity : ℕ)
  | setStrictCapacityLimit (strict : Bool)
  | setHighPriorityPoolRatio (ratio : PoolRatio)

namespace CacheClients

variable {κ : Type} [DecidableEq κ]

def step (c : CacheClients κ) : CacheCall κ → Option (CacheClients κ)
  | .insert key hash charge metaCharge highPri withHandle =>
    let e := c.shard.next
    match c.shard.insert key hash charge metaCharge highPri withHandle with
    | (.handle, shard) => some ⟨shard, e :: c.accepted, e :: c.held⟩
    | (.noHandle, shard) => some ⟨shard, e :: c.accepted, c.held⟩
    | (.incomplete, shard) => some ⟨shard, c.accepted, c.held⟩
  | .lookup key hash =>
    match c.shard.lookup key hash with
    | (none, shard) => some { c with shard }
    | (some e, shard) => some { c with shard, held := e :: c.held }
  | .ref e => if e ∈ c.held then some { c with shard := c.shard.ref e, held := e :: c.held } else none
  | .release e forceErase =>
    if e ∈ c.held then some { c with shard := c.shard.release e forceErase, held := c.held.erase e } else none
  | .erase key hash => some { c with shard := c.shard.erase key hash }
  | .eraseUnRefEntries => some { c with shard := c.shard.eraseUnRefEntries }
  | .setCapacity capacity => some { c with shard := c.shard.setCapacity capacity }
  | .setStrictCapacityLimit strict => some { c with shard := { c.shard with strictCapacityLimit := strict } }
  | .setHighPriorityPoolRatio ratio => some { c with shard := c.shard.setHighPriorityPoolRatio ratio }

/-- The empty shard; `nobody` stands for the handles that are not allocated yet. -/
def empty (nobody : κ) (capacity : ℕ) (strict : Bool) (ratio : PoolRatio) (maxUpperHashBits : ℕ) :
    CacheClients κ where
  shard := {
    lists := { handles := fun _ => { key := nobody, hash := 0, charge := 0, metaCharge := 0 } }
    table := { maxLengthBits := maxUpperHashBits }
    capacity := capacity
    strictCapacityLimit := strict
    highPriPoolRatio := ratio
    highPriPoolCapacity := ratio.times capacity }

end CacheClients

end ZenFSPlus.Cache
