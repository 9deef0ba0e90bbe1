import Mathlib.Data.List.AList

/-!
`old_commit_map_`: for the snapshots behind `max_evicted_seq_`, the prepare sequence numbers of evicted commit entries
that the snapshot does not see.
-/

namespace ZenFSPlus.Transactions

open List

/-- The live snapshots as of the last advance of `max_evicted_seq_`: the first of them in `snapshot_cache_`,
the others in `snapshots_`. -/
structure SnapshotTable where
  snapshotCache : ℕ → ℕ := fun _ => 0
  snapshotsTotal : ℕ := 0
  snapshots : List ℕ := []
  snapshotsAll : List ℕ := []
  snapshotsVersion : ℕ := 0

def SnapshotTable.storeSlot (t : SnapshotTable) (i snapshotSeq : ℕ) : SnapshotTable :=
  { t with snapshotCache := Function.update t.snapshotCache i snapshotSeq }

structure SnapshotTable.Holds (size : ℕ) (t : SnapshotTable) (snapshots : List ℕ) : Prop where
  cached : ∀ j < size, j < snapshots.length → snapshots[j]? = some (t.snapshotCache j)
  total : t.snapshotsTotal = snapshots.length
  larger : t.snapshots = snapshots.drop size
  all : t.snapshotsAll = snapshots

structure OldCommitMap where
  entries : AList (fun _ : ℕ => List ℕ) := ∅
  /-- `old_commit_map_empty_` -/
  empty : Bool := true

def insertUpperBound (vec : List ℕ) (prepSeq : ℕ) : List ℕ :=
  vec.takeWhile (· ≤ prepSeq) ++ prepSeq :: vec.dropWhile (· ≤ prepSeq)

theorem mem_insertUpperBound {vec : List ℕ} {ps x : ℕ} : x ∈ insertUpperBound vec ps ↔ x = ps ∨ x ∈ vec := by
  conv_rhs => rw [← takeWhile_append_dropWhile (p := (· ≤ ps)) (l := vec)]
  simp only [insertUpperBound, mem_append, mem_cons]
  tauto

theorem pairwise_insertUpperBound {vec : List ℕ} (h : vec.Pairwise (· ≤ ·)) (ps : ℕ) :
    (insertUpperBound vec ps).Pairwise (· ≤ ·) := by
  induction vec with
  | nil => exact pairwise_singleton _ _
  | cons x vec ih =>
    obtain ⟨hx, hv⟩ := pairwise_cons.mp h
    by_cases hle : x ≤ ps
    · have hc : insertUpperBound (x :: vec) ps = x :: insertUpperBound vec ps := by
        simp [insertUpperBound, hle]
      rw [hc]
      refine pairwise_cons.mpr ⟨fun y hy => ?_, ih hv⟩
      rcases mem_insertUpperBound.mp hy with rfl | hy
      · exact hle
      · exact hx y hy
    · have hc : insertUpperBound (x :: vec) ps = ps :: x :: vec := by
        simp [insertUpperBound, hle]
      rw [hc]
      refine pairwise_cons.mpr ⟨fun y hy => ?_, h⟩
      rcases mem_cons.mp hy with rfl | hy
      · omega
      · have := hx y hy
        omega

namespace OldCommitMap

def find (m : OldCommitMap) (snapshotSeq : ℕ) : Option (List ℕ) := m.entries.lookup snapshotSeq

def touch (m : OldCommitMap) (snapshotSeq : ℕ) : OldCommitMap :=
  match m.find snapshotSeq with
  | some _ => m
  | none => { m with entries := m.entries.insert snapshotSeq [] }

def add (m : OldCommitMap) (snapshotSeq prepSeq : ℕ) : OldCommitMap where
  entries := m.entries.insert snapshotSeq (insertUpperBound ((m.find snapshotSeq).getD []) prepSeq)
  empty := false

def maybeUpdate (m : OldCommitMap) (prepSeq commitSeq snapshotSeq : ℕ) (nextIsLarger : Bool) :
    OldCommitMap × Bool :=
  if commitSeq ≤ snapshotSeq then (m, !nextIsLarger)
  else if prepSeq ≤ snapshotSeq then (m.add snapshotSeq prepSeq, true)
  else (m, nextIsLarger)

def needGc (m : OldCommitMap) (maxEvictedSeq snapSeq : ℕ) : Bool :=
  decide (snapSeq ≤ maxEvictedSeq) && (m.find snapSeq).isSome

def erase (m : OldCommitMap) (snapSeq : ℕ) : OldCommitMap where
  entries := m.entries.erase snapSeq
  empty := (m.entries.erase snapSeq).entries.isEmpty

def release (m : OldCommitMap) (maxEvictedSeq snapSeq : ℕ) : OldCommitMap :=
  if m.needGc maxEvictedSeq snapSeq then m.erase snapSeq else m

def cleanup (maxEvictedSeq : ℕ) (newSnapshots oldSnapshots : List ℕ) (m : OldCommitMap) : OldCommitMap :=
  match newSnapshots, oldSnapshots with
  | _, [] => m
  | [], oldi :: old => cleanup maxEvictedSeq [] old (m.release maxEvictedSeq oldi)
  | newi :: new, oldi :: old =>
    if newi = oldi then cleanup maxEvictedSeq (new.dropWhile (· = newi)) (old.dropWhile (· = newi)) m
    else cleanup maxEvictedSeq (newi :: new) old (m.release maxEvictedSeq oldi)
termination_by oldSnapshots.length
decreasing_by
  · simp
  · have := (dropWhile_suffix (l := old) (· = newi)).length_le
    simp only [length_cons]
    omega
  · simp

def Recorded (m : OldCommitMap) (snapshotSeq prepSeq : ℕ) : Prop :=
  ∃ vec, m.find snapshotSeq = some vec ∧ prepSeq ∈ vec

theorem find_add (m : OldCommitMap) (sq ps s : ℕ) : (m.add sq ps).find s =
      if s = sq then some (insertUpperBound ((m.find sq).getD []) ps) else m.find s := by
  unfold find add
  split_ifs with h
  · rw [h, AList.lookup_insert]
    rfl
  · exact AList.lookup_insert_ne h

theorem find_touch (m : OldCommitMap) (sq s : ℕ) :
    (m.touch sq).find s = if s = sq then some ((m.find sq).getD []) else m.find s := by
  unfold touch
  split
  · rename_i vec h
    split
    · rename_i hs
      rw [hs, h]
      rfl
    · rfl
  · rename_i h
    split
    · rename_i hs
      rw [hs, h]
      exact AList.lookup_insert _
    · rename_i hs
      exact AList.lookup_insert_ne hs

theorem find_erase_of_ne {s ss : ℕ} (h : s ≠ ss) (m : OldCommitMap) : (m.erase ss).find s = m.find s :=
  AList.lookup_erase_ne h

theorem find_release_of_ne {s ss : ℕ} (h : s ≠ ss) (m : OldCommitMap) (mes : ℕ) :
    (m.release mes ss).find s = m.find s := by
  unfold release
  split
  · exact m.find_erase_of_ne h
  · rfl

theorem recorded_add {m : OldCommitMap} {sq ps s p : ℕ} :
    (m.add sq ps).Recorded s p ↔ s = sq ∧ p = ps ∨ m.Recorded s p := by
  unfold Recorded
  rw [find_add]
  split
  · rename_i h
    subst h
    cases hf : m.find s with
    | none | some _ => simp [mem_insertUpperBound]
  · rename_i h
    simp [h]

theorem recorded_maybeUpdate {m : OldCommitMap} {ps cs sq s p : ℕ} {nl : Bool} :
    (m.maybeUpdate ps cs sq nl).1.Recorded s p ↔ s = sq ∧ p = ps ∧ ps ≤ sq ∧ sq < cs ∨ m.Recorded s p := by
  unfold maybeUpdate
  split
  · rename_i h
    constructor
    · exact .inr
    · rintro (⟨-, -, -, hlt⟩ | h)
      · omega
      · exact h
  · split
    · rw [recorded_add]
      constructor
      · rintro (⟨hs, hp⟩ | h)
        · exact .inl ⟨hs, hp, by assumption, by omega⟩
        · exact .inr h
      · rintro (⟨hs, hp, -, -⟩ | h)
        · exact .inl ⟨hs, hp⟩
        · exact .inr h
    · constructor
      · exact .inr
      · rintro (⟨-, -, hle, -⟩ | h)
        · omega
        · exact h

end OldCommitMap

end ZenFSPlus.Transactions
