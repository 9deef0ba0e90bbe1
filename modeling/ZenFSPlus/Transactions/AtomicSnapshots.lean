import ZenFSPlus.Transactions.CommitEntry
import ZenFSPlus.Transactions.SnapshotOverlap

/-!
`UpdateSnapshots` and `CheckAgainstSnapshots` as operations that nothing interrupts. A thread of `SnapshotRace` that
runs alone does the same.
-/

namespace ZenFSPlus.Transactions

open List OldCommitMap

def storeSnapshots (size : ℕ) (t : SnapshotTable) (i : ℕ) : List ℕ → SnapshotTable × List ℕ
  | [] => (t, [])
  | snap :: it => if i < size then storeSnapshots size (t.storeSlot i snap) (i + 1) it else (t, snap :: it)

def updateSnapshots (size maxEvictedSeq : ℕ) (t : SnapshotTable) (m : OldCommitMap) (snapshots : List ℕ)
    (version : ℕ) : SnapshotTable × OldCommitMap :=
  let r := storeSnapshots size { t with snapshotsVersion := version } 0 snapshots
  ({ r.1 with snapshots := r.2, snapshotsTotal := snapshots.length, snapshotsAll := snapshots },
    m.cleanup maxEvictedSeq snapshots t.snapshotsAll)

def scanCache (size : ℕ) (t : SnapshotTable) (evicted : CommitEntry) : ℕ → Bool → OldCommitMap → OldCommitMap × Bool
  | 0, searchLargerList, m => (m, searchLargerList)
  | ip1 + 1, searchLargerList, m =>
    let snapshotSeq := t.snapshotCache ip1
    let searchLargerList := if ip1 + 1 = size then decide (snapshotSeq < evicted.commitSeq) else searchLargerList
    let r := m.maybeUpdate evicted.prepSeq evicted.commitSeq snapshotSeq false
    if r.2 then scanCache size t evicted ip1 searchLargerList r.1 else (r.1, searchLargerList)

def scanLarger (evicted : CommitEntry) : List ℕ → OldCommitMap → OldCommitMap
  | [], m => m
  | snapshotSeq :: rest, m =>
    let r := m.maybeUpdate evicted.prepSeq evicted.commitSeq snapshotSeq true
    if r.2 then scanLarger evicted rest r.1 else r.1

def checkAgainstSnapshots (size : ℕ) (t : SnapshotTable) (evicted : CommitEntry) (m : OldCommitMap) : OldCommitMap :=
  let cnt := t.snapshotsTotal
  let r := scanCache size t evicted (min cnt size) false m
  if size < cnt ∧ r.2 then scanLarger evicted t.snapshots (scanLarger evicted ((range' 0 size).map t.snapshotCache) r.1)
  else r.1

section

variable {size i : ℕ} {t : SnapshotTable}

theorem storeSnapshots_eq (t : SnapshotTable) (i : ℕ) (it : List ℕ) :
    (storeSnapshots size t i it).1 = { t with snapshotCache := (storeSnapshots size t i it).1.snapshotCache } := by
  induction it generalizing t i with
  | nil => rfl
  | cons snap it ih =>
    unfold storeSnapshots
    split
    · rw [ih]
      rfl
    · rfl

theorem storeSnapshots_snd (hi : i ≤ size) (it : List ℕ) : (storeSnapshots size t i it).2 = it.drop (size - i) := by
  induction it generalizing t i with
  | nil => rw [drop_nil]; rfl
  | cons snap it ih =>
    unfold storeSnapshots
    split
    · rename_i hlt
      rw [ih (by omega), show size - i = size - (i + 1) + 1 by omega, drop_succ_cons]
    · rename_i hge
      rw [show size - i = 0 by omega, drop_zero]

theorem storeSnapshots_below {j : ℕ} (hj : j < i) (it : List ℕ) :
    (storeSnapshots size t i it).1.snapshotCache j = t.snapshotCache j := by
  induction it generalizing t i with
  | nil => rfl
  | cons snap it ih =>
    unfold storeSnapshots
    split
    · rw [ih (by omega)]
      exact Function.update_of_ne (Nat.ne_of_lt hj) _ _
    · rfl

theorem storeSnapshots_cached {j : ℕ} (hij : i + j < size) {it : List ℕ} (hj : j < it.length) :
    it[j]? = some ((storeSnapshots size t i it).1.snapshotCache (i + j)) := by
  induction it generalizing t i j with
  | nil => cases hj
  | cons snap it ih =>
    rw [storeSnapshots, if_pos (by omega)]
    cases j with
    | zero =>
      have hb : (storeSnapshots size (t.storeSlot i snap) (i + 1) it).1.snapshotCache i = snap := by
        rw [storeSnapshots_below (Nat.lt_add_one i)]
        simp [SnapshotTable.storeSlot]
      exact (congrArg some hb).symm
    | succ j =>
      rw [List.getElem?_cons_succ, show i + (j + 1) = i + 1 + j by omega]
      exact ih (by omega) (by simpa using hj)

theorem holds_updateSnapshots (size mes : ℕ) (t : SnapshotTable) (m : OldCommitMap) (snaps : List ℕ)
    (version : ℕ) : (updateSnapshots size mes t m snaps version).1.Holds size snaps where
  cached := by
    intro j hj hl
    have hij : 0 + j < size := by omega
    have hc := storeSnapshots_cached (t := { t with snapshotsVersion := version }) hij hl
    rwa [Nat.zero_add] at hc
  total := rfl
  larger := storeSnapshots_snd (Nat.zero_le _) snaps
  all := rfl

theorem cleanup_induction {mes : ℕ} (P : OldCommitMap → Prop)
    (hr : ∀ m ss, P m → P (m.release mes ss)) (newi oldi : List ℕ) {m : OldCommitMap}
    (hm : P m) : P (m.cleanup mes newi oldi) := by
  induction newi, oldi, m using cleanup.induct mes with
  | case1 newi m =>
    unfold cleanup
    exact hm
  | case2 m oldi old ih =>
    unfold cleanup
    exact ih (hr _ _ hm)
  | case3 m newi new old ih =>
    unfold cleanup
    rw [if_pos rfl]
    exact ih hm
  | case4 m newi new oldi old hne ih =>
    unfold cleanup
    rw [if_neg hne]
    exact ih (hr _ _ hm)

theorem find_cleanup {mes s : ℕ} {newi oldi : List ℕ} (h : SnapshotRace.Cleaning s newi oldi)
    (m : OldCommitMap) : (m.cleanup mes newi oldi).find s = m.find s := by
  induction newi, oldi, m using cleanup.induct mes with
  | case1 newi m =>
    unfold cleanup
    rfl
  | case2 m oldi old ih =>
    obtain ⟨hne, hc⟩ := h.release nofun
    unfold cleanup
    rw [ih hc, m.find_release_of_ne hne]
  | case3 m newi new old ih =>
    unfold cleanup
    rw [if_pos rfl, ih h.skip]
  | case4 m newi new oldi old hn ih =>
    obtain ⟨hne, hc⟩ := h.release (h.lt_of_ne hn)
    unfold cleanup
    rw [if_neg hn, ih hc, m.find_release_of_ne hne]

end

namespace SnapshotRace

variable {c : Calls}

def Calls.evicted (c : Calls) : CommitEntry := ⟨c.prepSeq, c.commitSeq⟩

theorem runsAlone_scan (st : State) (cnt ip1 : ℕ) (search : Bool) (m : OldCommitMap) :
    let r := scanCache c.size st.table c.evicted ip1 search m
    Lib.RunsAlone (step c) .check { st with oldCommitMap := m, check := .scan c cnt ip1 search } { st with
        oldCommitMap := r.1
        check := .afterScan c cnt r.2 } := by
  induction ip1 generalizing search m with
  | zero => exact .refl _ _
  | succ ip1 ih =>
    refine .head rfl (.head rfl ?_)
    simp only [scanCache, Calls.evicted, Nat.add_sub_cancel]
    by_cases hn : (m.maybeUpdate c.prepSeq c.commitSeq (st.table.snapshotCache ip1) false).2 = true
    · simp only [hn, if_true]
      exact ih _ _
    · simp only [hn]
      exact .refl _ _

theorem runsAlone_larger (st : State) (rest : List ℕ) (m : OldCommitMap) :
    Lib.RunsAlone (step c) .check { st with oldCommitMap := m, check := .larger rest }
      { st with oldCommitMap := scanLarger c.evicted rest m, check := .done } := by
  induction rest generalizing m with
  | nil => exact .head rfl (.refl _ _)
  | cons sq rest ih =>
    refine .head rfl ?_
    simp only [scanLarger, Calls.evicted]
    by_cases hn : (m.maybeUpdate c.prepSeq c.commitSeq sq true).2 = true
    · simp only [hn, if_true]
      exact ih _
    · simp only [hn]
      exact .refl _ _

theorem runsAlone_locked (st : State) {i n : ℕ} (hs : i + (n + 1) = c.size) (m : OldCommitMap) :
    Lib.RunsAlone (step c) .check { st with oldCommitMap := m, check := .loadLocked i } { st with
        oldCommitMap := scanLarger c.evicted ((range' i (n + 1)).map st.table.snapshotCache) m
        check := .larger st.table.snapshots } := by
  induction n generalizing i m with
  | zero =>
    refine .head rfl (.head rfl ?_)
    have hl : ¬ i + 1 < c.size := by omega
    simp only [hl, and_false, if_false, range'_succ, range'_zero, map_cons, map_nil, scanLarger,
      Calls.evicted, ite_self]
    exact .refl _ _
  | succ n ih =>
    refine .head rfl (.head rfl ?_)
    have hn : i + 1 < c.size := by omega
    rw [range'_succ, map_cons]
    simp only [hn, and_true, scanLarger, Calls.evicted]
    by_cases hm : (m.maybeUpdate c.prepSeq c.commitSeq (st.table.snapshotCache i) true).2 = true
    · simp only [hm, if_true]
      exact ih (by omega) _
    · simp only [hm]
      exact .refl _ _

theorem runsAlone_check (c : Calls) (st : State) (hc : st.check = .start) (hu : st.update.locked = false) :
    Lib.RunsAlone (step c) .check st
      { st with oldCommitMap := checkAgainstSnapshots c.size st.table c.evicted st.oldCommitMap, check := .done } := by
  obtain ⟨table, ocm, update, check⟩ := st
  subst hc
  refine .head rfl ((runsAlone_scan ⟨table, ocm, update, .start⟩ _ _ _ _).trans ?_)
  simp only [checkAgainstSnapshots, Check.afterScan]
  split
  · obtain ⟨n, hn⟩ := Nat.exists_eq_succ_of_ne_zero (Nat.ne_of_gt c.size_pos)
    have hl : step c ⟨table, (scanCache c.size table c.evicted (min table.snapshotsTotal c.size) false ocm).1,
        update, .lock⟩ .check = some ⟨table, (scanCache c.size table c.evicted (min table.snapshotsTotal c.size) false
          ocm).1, update, .loadLocked 0⟩ := by
      simp only [step, checkStep]
      rw [if_neg (by simpa using hu)]
    refine .head hl ((runsAlone_locked ⟨table, ocm, update, .start⟩ (show 0 + (n + 1) = c.size by omega) _).trans ?_)
    rw [show range' 0 c.size = range' 0 (n + 1) by rw [hn]]
    exact runsAlone_larger ⟨table, ocm, update, .start⟩ _ _
  · exact .refl _ _

theorem runsAlone_store (st : State) (i : ℕ) (it : List ℕ) (t : SnapshotTable) :
    let r := storeSnapshots c.size t i it
    Lib.RunsAlone (step c) .update { st with table := t, update := .store i it } { st with
        table := r.1
        update := .fillSnapshots r.2 } := by
  induction it generalizing i t with
  | nil => exact .head rfl (.refl _ _)
  | cons snap it ih =>
    by_cases hi : i < c.size
    · simp only [storeSnapshots, if_pos hi]
      exact .head (if_pos hi) (ih _ _)
    · simp only [storeSnapshots, if_neg hi]
      exact .head (if_neg hi) (.refl _ _)

theorem runsAlone_release (st : State) (ss : ℕ) (newi oldi : List ℕ) (m : OldCommitMap) :
    Lib.RunsAlone (step c) .update (release c { st with oldCommitMap := m } ss newi oldi)
      { st with oldCommitMap := m.release c.maxEvictedSeq ss, update := .cleanup newi oldi } := by
  by_cases hgc : m.needGc c.maxEvictedSeq ss = true
  · simp only [release, OldCommitMap.release, hgc, if_true]
    exact .head rfl (.refl _ _)
  · simp only [release, OldCommitMap.release, hgc]
    exact .refl _ _

theorem runsAlone_cleanup (st : State) (newi oldi : List ℕ) (m : OldCommitMap) :
    Lib.RunsAlone (step c) .update { st with oldCommitMap := m, update := .cleanup newi oldi } { st with
        oldCommitMap := m.cleanup c.maxEvictedSeq newi oldi
        table := { st.table with snapshotsAll := c.newSnapshots }
        update := .done } := by
  induction newi, oldi, m using cleanup.induct c.maxEvictedSeq with
  | case1 newi m =>
    unfold cleanup
    exact .head rfl (.refl _ _)
  | case2 m oldi old ih =>
    unfold cleanup
    exact .head rfl ((runsAlone_release _ _ _ _ m).trans ih)
  | case3 m newi new old ih =>
    unfold cleanup
    rw [if_pos rfl]
    exact .head (if_pos rfl) ih
  | case4 m newi new oldi old hne ih =>
    unfold cleanup
    rw [if_neg hne]
    exact .head (if_neg hne) ((runsAlone_release _ _ _ _ m).trans ih)

theorem runsAlone_update (c : Calls) (st : State) (hup : st.update = .start) (hu : st.check.locked = false) :
    Lib.RunsAlone (step c) .update st { st with
        table := (updateSnapshots c.size c.maxEvictedSeq st.table st.oldCommitMap c.newSnapshots c.version).1
        oldCommitMap := (updateSnapshots c.size c.maxEvictedSeq st.table st.oldCommitMap c.newSnapshots c.version).2
        update := .done } := by
  obtain ⟨table, ocm, update, check⟩ := st
  subst hup
  refine .head (if_neg (by simpa using hu)) ((runsAlone_store _ _ _ _).trans ?_)
  have ha : (storeSnapshots c.size { table with snapshotsVersion := c.version } 0 c.newSnapshots).1.snapshotsAll =
      table.snapshotsAll := by
    rw [storeSnapshots_eq]
  simp only [updateSnapshots]
  generalize storeSnapshots c.size { table with snapshotsVersion := c.version } 0 c.newSnapshots = r at ha ⊢
  refine .head rfl (.head rfl ?_)
  rw [← ha]
  exact runsAlone_cleanup ⟨{ r.1 with snapshots := r.2, snapshotsTotal := c.newSnapshots.length }, ocm,
    .start, check⟩ _ _ _

theorem runsAlone_update_two : ∃ st, Lib.RunsAlone (step ⟨0, [3, 5], 1, 9, 2, 4⟩) .update ⟨{}, {}, .start, .start⟩ st ∧
    st.table.snapshots = [5] :=
  ⟨_, runsAlone_update ⟨0, [3, 5], 1, 9, 2, 4⟩ ⟨{}, {}, .start, .start⟩ rfl rfl, rfl⟩

end SnapshotRace

section

open SnapshotRace

variable {size : ℕ} {t : SnapshotTable} {ev : CommitEntry} {m : OldCommitMap}

theorem checkAgainstSnapshots_induction (P : OldCommitMap → Prop) (hu : ∀ m sq nl, P m →
      P (m.maybeUpdate ev.prepSeq ev.commitSeq sq nl).1) (hm : P m) :
    P (checkAgainstSnapshots size t ev m) := by
  have hc (ip1 : ℕ) : ∀ search m, P m → P (scanCache size t ev ip1 search m).1 := by
    induction ip1 with
    | zero => exact fun _ _ hm => hm
    | succ ip1 ih =>
      intro search m hm
      unfold scanCache
      simp only
      split
      · exact ih _ _ (hu _ _ _ hm)
      · exact hu _ _ _ hm
  have hl (l : List ℕ) : ∀ m, P m → P (scanLarger ev l m) := by
    induction l with
    | nil => exact fun _ hm => hm
    | cons sq rest ih =>
      intro m hm
      unfold scanLarger
      simp only
      split
      · exact ih _ (hu _ _ _ hm)
      · exact hu _ _ _ hm
  unfold checkAgainstSnapshots
  simp only
  split
  · exact hl _ _ (hl _ _ (hc _ _ _ hm))
  · exact hc _ _ _ hm

theorem recorded_checkAgainstSnapshots {bits : ℕ} {snaps : List ℕ} {s : ℕ} (hh : t.Holds (2 ^ bits) snaps)
    (hsr : snaps.Pairwise (· ≤ ·)) (hs : s ∈ snaps) (hp : ev.prepSeq ≤ s)
    (hc : s < ev.commitSeq) : (checkAgainstSnapshots (2 ^ bits) t ev m).Recorded s ev.prepSeq := by
  let c : Calls := ⟨bits, snaps, 0, 0, ev.prepSeq, ev.commitSeq⟩
  have hr : Renews snaps c.newSnapshots := ⟨hsr, hsr, snaps, [], (append_nil _).symm, Sublist.refl _, nofun⟩
  obtain ⟨a, b, ho⟩ := hr.overlap hs hs hp hc
  obtain ⟨n, hrn⟩ := runsAlone_check c { table := t, oldCommitMap := m } rfl rfl
  have hi : Inv snaps c s a b { table := t, oldCommitMap := m } := Inv.init hh rfl rfl
  have hf := Lib.run_invariant (Inv snaps c s a b) (fun st th st' hst h => h.step ho hst) hrn hi
  rcases hf.check with h | h
  · exact h
  · cases h

end

end ZenFSPlus.Transactions
