import Mathlib.Algebra.Group.Nat.Defs
import ZenFSPlus.Lib.Run
import ZenFSPlus.Transactions.OldCommitMap

/-!
`UpdateSnapshots` and `CheckAgainstSnapshots` as two threads. A step reads or writes one slot of `snapshot_cache_` or
`snapshots_total_`, or is one section under `old_commit_map_mutex_`; `snapshots_mutex_` is held where the code holds
it.
-/

namespace ZenFSPlus.Transactions

open List

namespace SnapshotRace

structure Calls where
  snapshotCacheBits : ℕ
  newSnapshots : List ℕ
  version : ℕ
  maxEvictedSeq : ℕ
  prepSeq : ℕ
  commitSeq : ℕ

def Calls.size (c : Calls) : ℕ := 2 ^ c.snapshotCacheBits

theorem Calls.size_pos (c : Calls) : 0 < c.size := Nat.two_pow_pos _

inductive Update
  | start
  | store (i : ℕ) (it : List ℕ)
  | fillSnapshots (it : List ℕ)
  | storeTotal
  | cleanup (newi oldi : List ℕ)
  | erase (snapSeq : ℕ) (newi oldi : List ℕ)
  | done
  deriving DecidableEq

inductive Check
  | start
  | load (cnt ip1 : ℕ) (searchLargerList : Bool)
  | update (cnt ip1 : ℕ) (searchLargerList : Bool) (snapshotSeq : ℕ)
  | lock
  | loadLocked (i : ℕ)
  | updateLocked (i snapshotSeq : ℕ)
  | larger (rest : List ℕ)
  | done
  deriving DecidableEq

structure State where
  table : SnapshotTable
  oldCommitMap : OldCommitMap
  update : Update := .start
  check : Check := .start

def Update.locked : Update → Bool
  | start | done => false
  | _ => true

def Check.locked : Check → Bool
  | loadLocked _ | updateLocked _ _ | larger _ => true
  | _ => false

inductive Thread
  | update | check
  deriving DecidableEq

variable (c : Calls)

def release (st : State) (snapSeq : ℕ) (newi oldi : List ℕ) : State :=
  { st with update :=
      if st.oldCommitMap.needGc c.maxEvictedSeq snapSeq then .erase snapSeq newi oldi else .cleanup newi oldi }

def updateStep (st : State) : Option State :=
  match st.update with
  | .start =>
    if st.check.locked then none
    else some { st with
      table := { st.table with snapshotsVersion := c.version }
      update := .store 0 c.newSnapshots }
  | .store _ [] => some { st with update := .fillSnapshots [] }
  | .store i (snap :: it) =>
    if i < c.size then some { st with table := st.table.storeSlot i snap, update := .store (i + 1) it }
    else some { st with update := .fillSnapshots (snap :: it) }
  | .fillSnapshots it => some { st with table := { st.table with snapshots := it }, update := .storeTotal }
  | .storeTotal => some { st with
      table := { st.table with snapshotsTotal := c.newSnapshots.length }
      update := .cleanup c.newSnapshots st.table.snapshotsAll }
  | .cleanup _ [] => some { st with
      table := { st.table with snapshotsAll := c.newSnapshots }
      update := .done }
  | .cleanup [] (oldi :: old) => some (release c st oldi [] old)
  | .cleanup (newi :: new) (oldi :: old) =>
    if newi = oldi then some { st with update := .cleanup (new.dropWhile (· = newi)) (old.dropWhile (· = newi)) }
    else some (release c st oldi (newi :: new) old)
  | .erase snapSeq newi oldi => some { st with
      oldCommitMap := st.oldCommitMap.erase snapSeq
      update := .cleanup newi oldi }
  | .done => none

def Check.afterScan (cnt : ℕ) (searchLargerList : Bool) : Check :=
  if c.size < cnt ∧ searchLargerList = true then .lock else .done

def Check.scan (cnt ip1 : ℕ) (searchLargerList : Bool) : Check :=
  if 0 < ip1 then .load cnt ip1 searchLargerList else Check.afterScan c cnt searchLargerList

def checkStep (st : State) : Option State :=
  match st.check with
  | .start =>
    let cnt := st.table.snapshotsTotal
    some { st with check := .scan c cnt (min cnt c.size) false }
  | .load cnt ip1 searchLargerList =>
    let snapshotSeq := st.table.snapshotCache (ip1 - 1)
    let searchLargerList := if ip1 = c.size then decide (snapshotSeq < c.commitSeq) else searchLargerList
    some { st with check := .update cnt ip1 searchLargerList snapshotSeq }
  | .update cnt ip1 searchLargerList snapshotSeq =>
    let r := st.oldCommitMap.maybeUpdate c.prepSeq c.commitSeq snapshotSeq false
    some { st with
      oldCommitMap := r.1
      check := if r.2 then .scan c cnt (ip1 - 1) searchLargerList else .afterScan c cnt searchLargerList }
  | .lock => if st.update.locked then none else some { st with check := .loadLocked 0 }
  | .loadLocked i => some { st with check := .updateLocked i (st.table.snapshotCache i) }
  | .updateLocked i snapshotSeq =>
    let r := st.oldCommitMap.maybeUpdate c.prepSeq c.commitSeq snapshotSeq true
    some { st with
      oldCommitMap := r.1
      check := if r.2 ∧ i + 1 < c.size then .loadLocked (i + 1) else .larger st.table.snapshots }
  | .larger [] => some { st with check := .done }
  | .larger (snapshotSeq :: rest) =>
    let r := st.oldCommitMap.maybeUpdate c.prepSeq c.commitSeq snapshotSeq true
    some { st with oldCommitMap := r.1, check := if r.2 then .larger rest else .done }
  | .done => none

def step (st : State) : Thread → Option State
  | .update => updateStep c st
  | .check => checkStep c st

section

variable (m : ℕ) {c} {st st' : State}

def updateRank (c : Calls) (st : State) : ℕ :=
  match st.update with
  | .start => c.newSnapshots.length + 2 * st.table.snapshotsAll.length + 5
  | .store _ it => it.length + 2 * st.table.snapshotsAll.length + 4
  | .fillSnapshots _ => 2 * st.table.snapshotsAll.length + 3
  | .storeTotal => 2 * st.table.snapshotsAll.length + 2
  | .cleanup _ oldi => 2 * oldi.length + 1
  | .erase _ _ oldi => 2 * oldi.length + 2
  | .done => 0

def checkRank (c : Calls) : Check → ℕ
  | .start => m + 4 * c.size + 7
  | .load _ ip1 _ => m + 2 * c.size + 2 * ip1 + 6
  | .update _ ip1 _ _ => m + 2 * c.size + 2 * ip1 + 5
  | .lock => m + 2 * c.size + 4
  | .loadLocked i => m + 2 * (c.size - i) + 3
  | .updateLocked i _ => m + 2 * (c.size - i) + 2
  | .larger rest => rest.length + 1
  | .done => 0

theorem updateRank_lt (hs : updateStep c st = some st') : updateRank c st' < updateRank c st := by
  obtain ⟨table, ocm, update, check⟩ := st
  have hr (ss : ℕ) (newi oldi newi' oldi' : List ℕ) (hl : oldi.length < oldi'.length) :
      updateRank c (release c ⟨table, ocm, .cleanup newi' oldi', check⟩ ss newi oldi) < 2 * oldi'.length + 1 := by
    unfold release
    simp only
    split <;> simp only [updateRank] <;> omega
  unfold updateStep at hs
  cases update with
  | start =>
    simp only at hs
    split at hs
    · cases hs
    · cases hs
      exact Nat.lt_succ_self _
  | store i it =>
    cases it with
    | nil =>
      cases hs
      simp only [updateRank, length_nil]
      omega
    | cons snap it =>
      simp only at hs
      split at hs
      all_goals
        cases hs
        simp only [updateRank, SnapshotTable.storeSlot, length_cons]
        omega
  | fillSnapshots | storeTotal =>
    cases hs
    exact Nat.lt_succ_self _
  | cleanup newi oldi =>
    cases oldi with
    | nil =>
      cases hs
      exact Nat.succ_pos _
    | cons oldi old =>
      cases newi with
      | nil =>
        cases hs
        exact hr oldi [] old [] (oldi :: old) (Nat.lt_succ_self _)
      | cons newi new =>
        simp only at hs
        split at hs
        · cases hs
          have := (dropWhile_suffix (l := old) (· = newi)).length_le
          simp only [updateRank, length_cons]
          omega
        · cases hs
          exact hr oldi (newi :: new) old (newi :: new) (oldi :: old) (Nat.lt_succ_self _)
  | erase ss newi oldi =>
    cases hs
    exact Nat.lt_succ_self _
  | done => cases hs

theorem checkRank_afterScan (cnt : ℕ) (search : Bool) :
    checkRank m c (.afterScan c cnt search) ≤ m + 2 * c.size + 4 := by
  unfold Check.afterScan
  split
  · exact Nat.le_refl _
  · exact Nat.zero_le _

theorem checkRank_scan (cnt ip1 : ℕ) (search : Bool) : checkRank m c (.scan c cnt ip1 search) ≤ m + 2 * c.size + 4 ∨
      0 < ip1 ∧ checkRank m c (.scan c cnt ip1 search) = m + 2 * c.size + 2 * ip1 + 6 := by
  unfold Check.scan
  split
  · rename_i hp
    exact .inr ⟨hp, rfl⟩
  · exact .inl (checkRank_afterScan m cnt search)

theorem checkRank_lt (hm : st.table.snapshots.length ≤ m) (hs : checkStep c st = some st') :
    checkRank m c st'.check < checkRank m c st.check := by
  obtain ⟨table, ocm, update, check⟩ := st
  cases check with
  | start =>
    cases hs
    have := checkRank_scan m table.snapshotsTotal (min table.snapshotsTotal c.size) false (c := c)
    simp only [checkRank] at this ⊢
    omega
  | load cnt ip1 search =>
    cases hs
    exact Nat.lt_succ_self _
  | update cnt ip1 search sq =>
    cases hs
    have hr : checkRank m c (.update cnt ip1 search sq) = m + 2 * c.size + 2 * ip1 + 5 := rfl
    simp only
    split
    · have := checkRank_scan m cnt (ip1 - 1) search (c := c)
      omega
    · have := checkRank_afterScan m cnt search (c := c)
      omega
  | lock =>
    simp only [checkStep] at hs
    split at hs
    · cases hs
    · cases hs
      exact Nat.lt_succ_self _
  | loadLocked i =>
    cases hs
    exact Nat.lt_succ_self _
  | updateLocked i sq =>
    cases hs
    simp only
    split
    · simp only [checkRank]
      omega
    · simp only [checkRank]
      simp only at hm
      omega
  | larger rest =>
    cases rest with
    | nil =>
      cases hs
      exact Nat.succ_pos _
    | cons sq rest =>
      cases hs
      simp only
      split <;> simp only [checkRank, length_cons] <;> omega
  | done => cases hs

theorem updateStep_eq_none (h : updateStep c st = none) :
    st.update = .done ∨ st.update = .start ∧ st.check.locked = true := by
  obtain ⟨table, ocm, update, check⟩ := st
  unfold updateStep at h
  cases update with
  | start =>
    simp only at h
    split at h
    · rename_i hl
      exact .inr ⟨rfl, hl⟩
    · cases h
  | store i it =>
    cases it with
    | nil => cases h
    | cons snap it =>
      simp only at h
      split at h <;> cases h
  | cleanup newi oldi =>
    cases oldi with
    | nil => cases h
    | cons oldi old =>
      cases newi with
      | nil => cases h
      | cons newi new =>
        simp only at h
        split at h <;> cases h
  | fillSnapshots | storeTotal | erase => cases h
  | done => exact .inl rfl

theorem checkStep_eq_none (h : checkStep c st = none) :
    st.check = .done ∨ st.check = .lock ∧ st.update.locked = true := by
  obtain ⟨table, ocm, update, check⟩ := st
  cases check with
  | start | load | update | loadLocked | updateLocked => cases h
  | lock =>
    simp only [checkStep] at h
    split at h
    · rename_i hl
      exact .inr ⟨rfl, hl⟩
    · cases h
  | larger rest => cases rest <;> cases h
  | done => exact .inl rfl

theorem done_of_stuck (h : ∀ th, step c st th = none) : st.update = .done ∧ st.check = .done := by
  have hup := updateStep_eq_none (h .update)
  have hch := checkStep_eq_none (h .check)
  rcases hup with hu | ⟨hu, hl⟩
  · rcases hch with hc | ⟨-, hl⟩
    · exact ⟨hu, hc⟩
    · rw [hu] at hl
      cases hl
  · rcases hch with hc | ⟨hc, -⟩
    all_goals
      rw [hc] at hl
      cases hl

end

end SnapshotRace

end ZenFSPlus.Transactions
