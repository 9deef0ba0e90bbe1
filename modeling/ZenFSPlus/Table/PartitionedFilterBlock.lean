import Mathlib.Data.List.Lex
import ZenFSPlus.Db.KeyShortening
import ZenFSPlus.Lib.Separated

/-!
The builder of partitioned filters, driven by the partitioned index builder as the table builder
drives both, and the choice of a partition by the reader.
-/

namespace ZenFSPlus.Table

open ZenFSPlus.Db Lib List

structure PrefixExtractor (κ : Type) [LinearOrder κ] [Inhabited κ] where
  inDomain : κ → Bool
  transform : κ → κ
  interval : ∀ {a b c}, a ≤ b → b ≤ c → inDomain a = true → inDomain c = true →
    transform a = transform c → inDomain b = true ∧ transform b = transform a
  empty : ∀ {a}, inDomain a = true → transform a = default → ∀ b, inDomain b = true ∧ transform b = default

theorem cons_le_cons {α : Type} [LinearOrder α] {x y : α} {a b : List α} (h : x :: a ≤ y :: b) :
    x < y ∨ x = y ∧ a ≤ b := by
  rw [← not_lt, cons_lt_cons_iff, not_or, not_and, not_lt] at h
  rcases h.1.lt_or_eq with hlt | heq
  · exact .inl hlt
  · exact .inr ⟨heq, not_lt.mp (h.2 heq.symm)⟩

theorem take_eq_of_between {α : Type} [LinearOrder α] {n : ℕ} {a b c : List α} (hab : a ≤ b) (hbc : b ≤ c)
    (ha : n ≤ a.length) (hc : n ≤ c.length) (h : a.take n = c.take n) :
    n ≤ b.length ∧ b.take n = a.take n := by
  induction n generalizing a b c with
  | zero => simp
  | succ n ih =>
    match a, c with
    | [], _ => simp at ha
    | _, [] => simp at hc
    | x :: a, z :: c =>
      obtain ⟨rfl, hr⟩ : x = z ∧ a.take n = c.take n := by simpa using h
      match b with
      | [] => exact absurd hab (by simp)
      | y :: b =>
        have hle := cons_le_cons hbc
        rcases cons_le_cons hab with hlt | ⟨rfl, ht⟩
        · rcases hle with hlt' | ⟨rfl, -⟩
          · exact absurd (hlt.trans hlt') (lt_irrefl _)
          · exact absurd hlt (lt_irrefl _)
        · have ht' : b ≤ c := by simpa using hle
          obtain ⟨hl, htk⟩ := ih ht ht' (Nat.le_of_succ_le_succ ha) (Nat.le_of_succ_le_succ hc) hr
          exact ⟨Nat.succ_le_succ hl, by rw [take_succ_cons, take_succ_cons, htk]⟩

def fixedPrefixTransform {α : Type} [LinearOrder α] (prefixLen : ℕ) : PrefixExtractor (List α) where
  inDomain key := decide (prefixLen ≤ key.length)
  transform key := key.take prefixLen
  interval hab hbc ha hc h := by
    rw [decide_eq_true_eq] at ha hc ⊢
    exact take_eq_of_between hab hbc ha hc h
  empty {a} ha h b := by
    rw [decide_eq_true_eq] at ha ⊢
    have hlen : prefixLen = 0 := by
      have := congrArg List.length h
      rw [length_take, Nat.min_eq_left ha] at this
      exact this
    subst hlen
    exact ⟨Nat.zero_le _, rfl⟩

inductive IndexShorteningMode
  | kNoShortening
  | kShortenSeparators
  | kShortenSeparatorsAndSuccessor
  deriving DecidableEq

structure TableOptions (κ : Type) [LinearOrder κ] [Inhabited κ] where
  comparator : UserComparator κ
  prefixExtractor : PrefixExtractor κ
  wholeKeyFiltering : Bool
  indexShortening : IndexShorteningMode
  formatVersion : ℕ
  keysPerPartition : ℕ

variable {κ : Type} [LinearOrder κ] [Inhabited κ] (o : TableOptions κ)

/-- What the filter builder reads of the partitioned index builder. The sub-index builder is its
`seperator_is_key_plus_seq_`. -/
structure PartitionedIndexBuilder (κ : Type) where
  subIndexBuilder : Option Bool := none
  seperatorIsKeyPlusSeq : Bool := false
  subIndexLastKey : Option (InternalKey κ) := none
  cutFilterBlock : Bool := false
  partitionCutRequested : Bool := false

def shortenedAddIndexEntry (seperatorIsKeyPlusSeq : Bool) (lastKeyInCurrentBlock : InternalKey κ) :
    Option (InternalKey κ) → InternalKey κ × Bool
  | some firstKeyInNextBlock =>
    let sep := if o.indexShortening ≠ .kNoShortening
      then lastKeyInCurrentBlock.findShortestSeparator o.comparator firstKeyInNextBlock
      else lastKeyInCurrentBlock
    (sep, seperatorIsKeyPlusSeq || decide (sep.userKey = firstKeyInNextBlock.userKey))
  | none =>
    (if o.indexShortening = .kShortenSeparatorsAndSuccessor
      then lastKeyInCurrentBlock.findShortSuccessor o.comparator else lastKeyInCurrentBlock,
      seperatorIsKeyPlusSeq)

namespace PartitionedIndexBuilder

variable (x : PartitionedIndexBuilder κ)

def makeNewSubIndexBuilder : PartitionedIndexBuilder κ :=
  { x with
    subIndexBuilder := some (decide (o.formatVersion ≤ 2) || x.seperatorIsKeyPlusSeq)
    partitionCutRequested := false }

def requestPartitionCut : PartitionedIndexBuilder κ := { x with partitionCutRequested := true }

def addToSubIndex (lastKeyInCurrentBlock : InternalKey κ)
    (firstKeyInNextBlock : Option (InternalKey κ)) : PartitionedIndexBuilder κ :=
  let x := if x.subIndexBuilder.isNone then x.makeNewSubIndexBuilder o else x
  let (sep, sub) := shortenedAddIndexEntry o (x.subIndexBuilder.getD false) lastKeyInCurrentBlock
    firstKeyInNextBlock
  { x with
    subIndexBuilder := some sub
    subIndexLastKey := some sep
    seperatorIsKeyPlusSeq := x.seperatorIsKeyPlusSeq || sub }

def addIndexEntry (update : Bool) (lastKeyInCurrentBlock : InternalKey κ) :
    Option (InternalKey κ) → PartitionedIndexBuilder κ
  | none =>
    { x.addToSubIndex o lastKeyInCurrentBlock none with
      subIndexBuilder := none
      cutFilterBlock := true }
  | some firstKeyInNextBlock =>
    let doFlush := x.subIndexBuilder.isSome && (x.partitionCutRequested || update)
    let x := if doFlush then { x with cutFilterBlock := true, subIndexBuilder := none } else x
    x.addToSubIndex o lastKeyInCurrentBlock (some firstKeyInNextBlock)

end PartitionedIndexBuilder

/-- A finished filter partition: its key in the index on the filters, and the keys that were
added to the bits builder. -/
structure FilterEntry (κ : Type) where
  key : Option (InternalKey κ)
  added : List κ

structure PartitionedFilterBlockBuilder (κ : Type) [Inhabited κ] where
  lastWholeKeyRecorded : Bool := false
  lastWholeKeyStr : κ := default
  lastPrefixRecorded : Bool := false
  lastPrefixStr : κ := default
  lastKeyInDomain : Bool := false
  added : List κ := []
  keysAddedToPartition : ℕ := 0
  filters : List (FilterEntry κ) := []

namespace PartitionedFilterBlockBuilder

variable (f : PartitionedFilterBlockBuilder κ)

def addKey (key : κ) : PartitionedFilterBlockBuilder κ :=
  { f with
    added := f.added ++ [key]
    keysAddedToPartition := f.keysAddedToPartition + 1 }

def addPrefix (key : κ) : PartitionedFilterBlockBuilder κ :=
  let pfx := o.prefixExtractor.transform key
  if o.wholeKeyFiltering then
    if !f.lastPrefixRecorded || f.lastPrefixStr ≠ pfx then
      { f.addKey pfx with
        lastPrefixRecorded := true
        lastPrefixStr := pfx }
    else f
  else f.addKey pfx

def reset : PartitionedFilterBlockBuilder κ :=
  { f with
    lastWholeKeyRecorded := false
    lastPrefixRecorded := false }

def addLastPrefix : PartitionedFilterBlockBuilder κ :=
  if !f.lastPrefixRecorded && f.lastKeyInDomain then
    { f.addKey f.lastPrefixStr with lastPrefixRecorded := true }
  else f

def addWholeKey (key : κ) : PartitionedFilterBlockBuilder κ :=
  if o.wholeKeyFiltering then
    if !o.prefixExtractor.inDomain key then f.addKey key
    else if !f.lastWholeKeyRecorded || f.lastWholeKeyStr ≠ key then
      { f.addKey key with
        lastWholeKeyRecorded := true
        lastWholeKeyStr := key }
    else f
  else f

def fullAdd (key : κ) : PartitionedFilterBlockBuilder κ :=
  let f := f.addLastPrefix.addWholeKey o key
  if o.prefixExtractor.inDomain key then { f with lastKeyInDomain := true }.addPrefix o key
  else { f with lastKeyInDomain := false }

def addNextPrefix : Option κ → PartitionedFilterBlockBuilder κ
  | some nextKey =>
    if o.prefixExtractor.inDomain nextKey &&
        decide (o.prefixExtractor.transform nextKey ≠ f.lastPrefixStr) then
      f.addKey (o.prefixExtractor.transform nextKey)
    else f
  | none => f

def cut (indexKey : Option (InternalKey κ)) : PartitionedFilterBlockBuilder κ :=
  reset
    { f with
      filters := f.filters ++ [⟨indexKey, f.added⟩]
      added := []
      keysAddedToPartition := 0 }

def maybeCutAFilterBlock (x : PartitionedIndexBuilder κ) (nextKey : Option κ) :
    PartitionedFilterBlockBuilder κ × PartitionedIndexBuilder κ :=
  let x := if f.keysAddedToPartition = o.keysPerPartition then x.requestPartitionCut else x
  if x.cutFilterBlock then
    ((f.addNextPrefix o nextKey).cut x.subIndexLastKey, { x with cutFilterBlock := false })
  else (f, x)

def add (x : PartitionedIndexBuilder κ) (key : κ) :
    PartitionedFilterBlockBuilder κ × PartitionedIndexBuilder κ :=
  let (f, x) := f.maybeCutAFilterBlock o x (some key)
  (f.fullAdd o key, x)

end PartitionedFilterBlockBuilder

structure FilterTableBuilder (κ : Type) [Inhabited κ] where
  index : PartitionedIndexBuilder κ := {}
  filter : PartitionedFilterBlockBuilder κ := {}
  lastKey : Option (InternalKey κ) := none

/-- A key of the file. With `some update` it starts a data block, and the flush policy of the
index answers `update` for the block before it. -/
structure KeyAdded (κ : Type) where
  key : InternalKey κ
  startsBlock : Option Bool

namespace FilterTableBuilder

variable (b : FilterTableBuilder κ)

def add (a : KeyAdded κ) : FilterTableBuilder κ :=
  let x := match a.startsBlock, b.lastKey with
    | some update, some last => b.index.addIndexEntry o update last (some a.key)
    | _, _ => b.index
  let (f, x) := b.filter.add o x a.key.userKey
  ⟨x, f, some a.key⟩

def finish : FilterTableBuilder κ :=
  match b.lastKey with
  | some last =>
    let x := b.index.addIndexEntry o true last none
    let (f, x) := b.filter.maybeCutAFilterBlock o x none
    { b with
      index := x
      filter := f }
  | none => b

end FilterTableBuilder

def buildFilters (keys : List (KeyAdded κ)) : FilterTableBuilder κ :=
  (keys.foldl (FilterTableBuilder.add o) {}).finish o

structure FilterBits (κ : Type) where
  mayMatch : List κ → κ → Bool
  noFalseNegative : ∀ {added key}, key ∈ added → mayMatch added key = true

/-- The index on the filters is searched for the internal key, or for its user key when the
separators are user keys. -/
def separatorBefore (seperatorIsKeyPlusSeq : Bool) (target : InternalKey κ) (e : FilterEntry κ) : Bool :=
  match e.key with
  | some sep =>
    if seperatorIsKeyPlusSeq then decide (sep < target) else decide (sep.userKey < target.userKey)
  | none => false

def getFilterPartitionHandle (b : FilterTableBuilder κ) (entry : InternalKey κ) : Option (FilterEntry κ) :=
  select (separatorBefore b.index.seperatorIsKeyPlusSeq entry) b.filter.filters

def mayMatch (bits : FilterBits κ) (b : FilterTableBuilder κ) (slice : κ) (ikey : InternalKey κ) : Bool :=
  match getFilterPartitionHandle b ikey with
  | some e => bits.mayMatch e.added slice
  | none => false

end ZenFSPlus.Table
