import Mathlib.Algebra.Group.Nat.Defs
import Mathlib.Data.List.Sort
import Mathlib.Order.Bounds.Basic
import ZenFSPlus.Lib.Sweep

/-!
`FragmentedRangeTombstoneList`: the sweep over the start keys that cuts range tombstones into stacks of
fragments with common ends, and the lookup of the newest tombstone over a key. User keys are any linear
order.
-/

namespace ZenFSPlus.Db

open List
open Lib (Piece Ordered Sweep pieceAt cut reaching)

def kMaxSequenceNumber : ℕ := 2 ^ 56 - 1

structure RangeTombstone (K : Type) [LinearOrder K] where
  startKey : K
  endKey : K
  seq : ℕ
  start_le_end : startKey ≤ endKey
  seq_le : seq ≤ kMaxSequenceNumber

structure RangeTombstoneStack (K : Type) where
  startKey : K
  endKey : K
  seqStartIdx : ℕ
  seqEndIdx : ℕ
deriving DecidableEq

structure FragmentedRangeTombstoneList (K : Type) where
  tombstones : List (RangeTombstoneStack K)
  tombstoneSeqs : List ℕ
deriving DecidableEq

variable {K : Type} [LinearOrder K] {ts : List (RangeTombstone K)}

def internalKeyLt (a b : K × ℕ) : Bool := a.1 < b.1 || (a.1 = b.1 && b.2 < a.2)

def emplace (e : K × ℕ) : List (K × ℕ) → List (K × ℕ)
  | [] => [e]
  | x :: xs =>
    if internalKeyLt e x then e :: x :: xs
    else if internalKeyLt x e then x :: emplace e xs
    else x :: xs

/-- The walk over the descending sequence numbers of a fragment: the first one at or below every
snapshot stays. -/
def preserved (snapshots : List ℕ) : ℕ → List ℕ → List ℕ
  | _, [] => []
  | nextSnapshot, seq :: seqs =>
    if seq ≤ nextSnapshot then
      -- the snapshots below `seq` are what stands before `std::lower_bound`
      match (snapshots.takeWhile (· < seq)).getLast? with
      | none => [seq]
      | some snapshot => seq :: preserved snapshots snapshot seqs
    else preserved snapshots nextSnapshot seqs

def seqnumsToFlush (forCompaction : Bool) (snapshots seqs : List ℕ) : List ℕ :=
  let seqnums := seqs.insertionSort (· ≥ ·)
  if forCompaction then preserved snapshots kMaxSequenceNumber seqnums else seqnums

namespace FragmentedRangeTombstoneList

def empty : FragmentedRangeTombstoneList K := ⟨[], []⟩

def add (l : FragmentedRangeTombstoneList K) (startKey endKey : K) (seqnums : List ℕ) :
    FragmentedRangeTombstoneList K where
  tombstones := l.tombstones ++
    [⟨startKey, endKey, l.tombstoneSeqs.length, l.tombstoneSeqs.length + seqnums.length⟩]
  tombstoneSeqs := l.tombstoneSeqs ++ seqnums

def seqs (l : FragmentedRangeTombstoneList K) (f : RangeTombstoneStack K) : List ℕ :=
  (l.tombstoneSeqs.take f.seqEndIdx).drop f.seqStartIdx

end FragmentedRangeTombstoneList

section

variable (forCompaction : Bool) (snapshots : List ℕ)

def flushLoop (nextStartKey : K) : List (K × ℕ) → K → FragmentedRangeTombstoneList K →
    FragmentedRangeTombstoneList K × List (K × ℕ)
  | [], _, l => (l, [])
  | e :: es, curStartKey, l =>
    let seqnums := seqnumsToFlush forCompaction snapshots ((e :: es).map Prod.snd)
    if curStartKey = e.1 then flushLoop nextStartKey es curStartKey l
    else if nextStartKey ≤ e.1 then (l.add curStartKey nextStartKey seqnums, e :: es)
    else flushLoop nextStartKey es e.1 (l.add curStartKey e.1 seqnums)

structure FragmentState (K : Type) where
  curStartKey : K
  curEndKeys : List (K × ℕ)
  list : FragmentedRangeTombstoneList K

def flushCurrentTombstones (nextStartKey : K) (s : FragmentState K) : FragmentState K :=
  let (list, curEndKeys) := flushLoop forCompaction snapshots nextStartKey s.curEndKeys s.curStartKey s.list
  ⟨nextStartKey, curEndKeys, list⟩

def addTombstone (s : FragmentState K) (t : RangeTombstone K) : FragmentState K :=
  let s := if s.curEndKeys ≠ [] ∧ s.curStartKey ≠ t.startKey
    then flushCurrentTombstones forCompaction snapshots t.startKey s else s
  ⟨t.startKey, emplace (t.endKey, t.seq) s.curEndKeys, s.list⟩

/-- The default key stands for `Slice(nullptr, 0)`. -/
def fragmentTombstones [Inhabited K] (ts : List (RangeTombstone K)) : FragmentedRangeTombstoneList K :=
  let s := ts.foldl (addTombstone forCompaction snapshots) ⟨default, [], .empty⟩
  match s.curEndKeys.getLast? with
  | none => s.list
  | some lastEndKey => (flushCurrentTombstones forCompaction snapshots lastEndKey.1 s).list

end

def isSorted : List (RangeTombstone K) → Bool
  | [] => true
  | [_] => true
  | t :: t' :: ts => !internalKeyLt (t'.startKey, t'.seq) (t.startKey, t.seq) && isSorted (t' :: ts)

structure StdSort (K : Type) [LinearOrder K] where
  sort : List (RangeTombstone K) → List (RangeTombstone K)
  perm : ∀ ts, (sort ts).Perm ts
  sorted : ∀ ts, isSorted (sort ts)

namespace FragmentedRangeTombstoneList

def make [Inhabited K] (std : StdSort K) (forCompaction : Bool) (snapshots : List ℕ)
    (unfragmentedTombstones : List (RangeTombstone K)) : FragmentedRangeTombstoneList K :=
  if isSorted unfragmentedTombstones then
    fragmentTombstones forCompaction snapshots unfragmentedTombstones
  else fragmentTombstones forCompaction snapshots (std.sort unfragmentedTombstones)

/-- `SeekToCoveringTombstone` takes the first stack that ends behind the key, and in it the first sequence
number of the iterator's bound; both are binary searches in what is sorted. -/
def maxCoveringTombstoneSeqnum (l : FragmentedRangeTombstoneList K) (upperBound : ℕ) (targetUserKey : K) :
    ℕ :=
  match l.tombstones.find? fun f => targetUserKey < f.endKey with
  | none => 0
  | some f =>
    match (l.seqs f).find? (· ≤ upperBound) with
    | none => 0
    | some seq => if f.startKey ≤ targetUserKey then seq else 0

def Covers (l : FragmentedRangeTombstoneList K) (k : K) (seq : ℕ) : Prop :=
  ∃ f ∈ l.tombstones, f.startKey ≤ k ∧ k < f.endKey ∧ seq ∈ l.seqs f

end FragmentedRangeTombstoneList

section

variable {a b e : K × ℕ} {es : List (K × ℕ)}

theorem le_of_internalKeyLt (h : internalKeyLt a b) : a.1 ≤ b.1 := by
  simp only [internalKeyLt, Bool.or_eq_true, Bool.and_eq_true, decide_eq_true_eq] at h
  rcases h with h | ⟨h, -⟩
  · exact h.le
  · exact h.le

theorem le_of_not_internalKeyLt (h : internalKeyLt b a = false) : a.1 ≤ b.1 := by
  simp only [internalKeyLt, Bool.or_eq_false_iff, decide_eq_false_iff_not] at h
  exact not_lt.mp h.1

theorem eq_of_not_internalKeyLt (h : internalKeyLt a b = false) (h' : internalKeyLt b a = false) : a = b := by
  have hk : a.1 = b.1 := le_antisymm (le_of_not_internalKeyLt h') (le_of_not_internalKeyLt h)
  apply Prod.ext hk
  simp [internalKeyLt, hk] at h h'
  omega

theorem mem_emplace : a ∈ emplace e es ↔ a = e ∨ a ∈ es := by
  induction es with
  | nil => simp [emplace]
  | cons x xs ih =>
    rw [emplace]
    split
    · simp
    split
    · rw [mem_cons, ih, mem_cons]
      exact or_left_comm
    · rw [eq_of_not_internalKeyLt (Bool.eq_false_iff.mpr ‹¬ internalKeyLt e x = true›) (Bool.eq_false_iff.mpr ‹_›)]
      simp

theorem emplace_sorted (h : es.Pairwise fun e e' => e.1 ≤ e'.1) : (emplace e es).Pairwise fun e e' => e.1 ≤ e'.1 := by
  induction es with
  | nil => simp [emplace]
  | cons x xs ih =>
    obtain ⟨hx, hxs⟩ := pairwise_cons.mp h
    rw [emplace]
    split
    · have hex := le_of_internalKeyLt ‹internalKeyLt e x = true›
      exact pairwise_cons.mpr ⟨forall_mem_cons.mpr ⟨hex, fun y hy => hex.trans (hx y hy)⟩, h⟩
    split
    · refine pairwise_cons.mpr ⟨fun y hy => ?_, ih hxs⟩
      rcases mem_emplace.mp hy with rfl | hy
      · exact le_of_internalKeyLt ‹_›
      · exact hx y hy
    · exact h

end

theorem isSorted_pairwise (h : isSorted ts) : ts.Pairwise fun t t' => t.startKey ≤ t'.startKey := by
  apply isChain_iff_pairwise.mp
  induction ts using isSorted.induct with
  | case1 => exact .nil
  | case2 t => exact .singleton t
  | case3 t t' ts ih =>
    simp only [isSorted, Bool.and_eq_true, Bool.not_eq_true'] at h
    exact .cons_cons (le_of_not_internalKeyLt h.1) (ih h.2)

def notAfter (t t' : RangeTombstone K) : Prop :=
  internalKeyLt (t'.startKey, t'.seq) (t.startKey, t.seq) = false

instance : DecidableRel (notAfter (K := K)) := fun _ _ => inferInstanceAs (Decidable (_ = _))

theorem notAfter_iff {t t' : RangeTombstone K} :
    notAfter t t' ↔ t.startKey < t'.startKey ∨ t.startKey = t'.startKey ∧ t'.seq ≤ t.seq := by
  simp only [notAfter, internalKeyLt, Bool.or_eq_false_iff, Bool.and_eq_false_iff, decide_eq_false_iff_not, not_lt]
  constructor
  · rintro ⟨hle, hs⟩
    rcases hle.lt_or_eq with hlt | heq
    · exact .inl hlt
    · exact .inr ⟨heq, hs.resolve_left fun h => h heq.symm⟩
  · rintro (hlt | ⟨heq, hs⟩)
    · exact ⟨hlt.le, .inl hlt.ne'⟩
    · exact ⟨heq.le, .inr hs⟩

instance : Std.Total (notAfter (K := K)) where
  total t t' := by
    simp only [notAfter_iff]
    rcases lt_trichotomy t.startKey t'.startKey with h | h | h
    · exact .inl (.inl h)
    · rcases Nat.le_total t'.seq t.seq with hs | hs
      · exact .inl (.inr ⟨h, hs⟩)
      · exact .inr (.inr ⟨h.symm, hs⟩)
    · exact .inr (.inl h)

instance : IsTrans (RangeTombstone K) notAfter where
  trans a b c := by
    simp only [notAfter_iff]
    rintro (hab | ⟨hab, hs⟩) (hbc | ⟨hbc, hs'⟩)
    · exact .inl (hab.trans hbc)
    · exact .inl (hbc ▸ hab)
    · exact .inl (hab ▸ hbc)
    · exact .inr ⟨hab.trans hbc, hs'.trans hs⟩

theorem isSorted_of_pairwise (h : ts.Pairwise notAfter) : isSorted ts := by
  induction ts using isSorted.induct with
  | case1 => rfl
  | case2 => rfl
  | case3 t t' ts ih =>
    obtain ⟨hf, hr⟩ := pairwise_cons.mp h
    have ht : notAfter t t' := hf t' (by simp)
    unfold notAfter at ht
    simp [isSorted, ht, ih hr]

def insertionStdSort : StdSort K where
  sort := List.insertionSort notAfter
  perm := perm_insertionSort notAfter
  sorted ts := isSorted_of_pairwise (pairwise_insertionSort notAfter ts)

end ZenFSPlus.Db
