import ZenFSPlus.Transactions.Eviction

namespace ZenFSPlus.Transactions

open WritePreparedTxnDB List Function CommitEntry64b

structure History where
  db : WritePreparedTxnDB := {}
  prepared : List ℕ := []
  committed : ℕ → Option ℕ := fun _ => none
  removed : List ℕ := []
  lastCommit : ℕ := 0

inductive Op
  | addPrepared (seq : ℕ)
  | addCommitted (prepareSeq commitSeq : ℕ)
  | removePrepared (prepareSeq batchCnt : ℕ)
  | publish (seq : ℕ)
  | getSnapshot (minUncommitted : ℕ)
  | releaseSnapshot (snapshot : SnapshotImpl)

def History.step (o : TransactionDBOptions) (h : History) : Op → Option History
  | .addPrepared seq =>
    if 0 < seq ∧ seq < kMaxSequenceNumber ∧ ∀ p ∈ h.prepared, p < seq then
      some { h with db := h.db.addPrepared seq, prepared := seq :: h.prepared }
    else none
  | .addCommitted prepareSeq commitSeq =>
    if prepareSeq ∈ h.prepared ∧ h.committed prepareSeq = none ∧ prepareSeq ≤ commitSeq ∧
        commitSeq ≤ kMaxSequenceNumber ∧ h.lastCommit ≤ commitSeq then
      match h.db.addCommitted o prepareSeq commitSeq with
      | (db, .ok _) => some { h with
          db
          committed := update h.committed prepareSeq (some commitSeq)
          lastCommit := commitSeq }
      | (db, .error _) => some { h with db }
    else none
  | .removePrepared prepareSeq batchCnt =>
    if ∀ i < batchCnt, (h.committed (prepareSeq + i)).isSome ∧ prepareSeq + i ∉ h.removed then
      some { h with
        db := h.db.removePrepared prepareSeq batchCnt
        removed := (range batchCnt).foldl (fun removed i => (prepareSeq + i) :: removed) h.removed }
    else none
  | .publish seq =>
    if h.db.lastPublishedSequence ≤ seq ∧ seq ≤ kMaxSequenceNumber then
      some { h with db := { h.db with lastPublishedSequence := seq } }
    else none
  | .getSnapshot minUncommitted => (h.db.getSnapshot minUncommitted).map fun db => { h with db }
  | .releaseSnapshot snapshot =>
    if snapshot ∈ h.db.snapshots then some { h with db := h.db.releaseSnapshot snapshot } else none

def History.MinUncommittedCorrect (h : History) (snapshot : SnapshotImpl) : Prop :=
  ∀ p ∈ h.prepared, p < snapshot.minUncommitted → ∃ c, h.committed p = some c ∧ c ≤ snapshot.number

structure HistoryInv (o : TransactionDBOptions) (h : History) : Prop where
  prepared_pos : ∀ p ∈ h.prepared, 0 < p
  committed_prepared : ∀ p c, h.committed p = some c → p ∈ h.prepared
  removed_committed : ∀ p ∈ h.removed, (h.committed p).isSome
  db : DbInv o h.prepared h.removed h.committed h.db

section

variable {o : TransactionDBOptions} {prepared removed : List ℕ} {committed : ℕ → Option ℕ} {db : WritePreparedTxnDB}

theorem commitCacheSize_pos (o : TransactionDBOptions) : 0 < o.commitCacheSize := Nat.two_pow_pos _

theorem Evicted.withCache {p c : ℕ} (h : Evicted db p c) (cache : ℕ → CommitEntry64b) :
    Evicted { db with commitCache := cache } p c :=
  ⟨h.le_max, h.delayed, h.recorded⟩

section

variable (h : DbInv o prepared removed committed db)

include h

theorem DbInv.store {p c : ℕ} {new : CommitEntry64b} (hn : committed p = none) (hps : 0 < p) (hle : p ≤ c)
    (hmx : c ≤ kMaxSequenceNumber) (hnw : ofEntry o.format ⟨p, c⟩ = .ok new)
    (hev : ∀ q c', committed q = some c' → q % o.commitCacheSize = p % o.commitCacheSize → Evicted db q c') :
    DbInv o prepared removed (update committed p (some c))
      { db with commitCache := update db.commitCache (p % o.commitCacheSize) new } := by
  have ho {q c' : ℕ} (hc : committed q = some c') : update committed p (some c) q = some c' := by
    rw [update_of_ne, hc]
    rintro rfl
    rw [hn] at hc
    cases hc
  have hp : new.parse o.format (p % o.commitCacheSize) = some ⟨p, c⟩ := parse_ofEntry hnw hle hmx
  have hs {i : ℕ} (hi : i ≠ p % o.commitCacheSize) :
      getCommitEntry o { db with commitCache := update db.commitCache (p % o.commitCacheSize) new } i =
        db.getCommitEntry o i := by
    simp only [getCommitEntry, update_of_ne hi]
  have hsl : getCommitEntry o { db with commitCache := update db.commitCache (p % o.commitCacheSize) new }
      (p % o.commitCacheSize) = some ⟨p, c⟩ := by
    simp only [getCommitEntry, update_self, hp]
  refine ⟨fun q c' hc => ?_, h.tracked, h.future, h.known, h.map.mono fun q c' => ho, fun q c' hc => ?_,
    fun i hi e he => ?_, fun q c' hc => ?_⟩
  · by_cases hq : q = p
    · subst hq
      rw [update_self] at hc
      cases hc
      exact ⟨hps, hle⟩
    · rw [update_of_ne hq] at hc
      exact h.committed_le q c' hc
  · exact ho (h.delayed_sound q c' hc)
  · by_cases hip : i = p % o.commitCacheSize
    · subst hip
      rw [hsl] at he
      cases he
      exact ⟨update_self _ _ _, rfl⟩
    · rw [hs hip] at he
      obtain ⟨hc, hm⟩ := h.cache_sound i hi e he
      exact ⟨ho hc, hm⟩
  · by_cases hq : q = p
    · subst hq
      rw [update_self] at hc
      cases hc
      exact .inl hsl
    · rw [update_of_ne hq] at hc
      by_cases hm : q % o.commitCacheSize = p % o.commitCacheSize
      · exact .inr ((hev q c' hc hm).withCache _)
      · rcases h.settled q c' hc with hcc | hol
        · exact .inl ((hs hm).trans hcc)
        · exact .inr (hol.withCache _)

theorem DbInv.evictIndexed {i : ℕ} (hi : i < o.commitCacheSize) :
    let r := db.evictIndexed o i
    DbInv o prepared removed committed r ∧ r.commitCache = db.commitCache ∧
      ∀ q c, committed q = some c → q % o.commitCacheSize = i → Evicted r q c := by
  unfold WritePreparedTxnDB.evictIndexed
  split
  · rename_i e hen
    obtain ⟨he, -⟩ := h.cache_sound i hi e hen
    obtain ⟨hiv, hev, hch⟩ := h.evict he
    refine ⟨hiv, hch, fun q c hc hm => ?_⟩
    rcases hiv.settled q c hc with hcc | ho
    · rw [getCommitEntry, hch, ← getCommitEntry, hm, hen] at hcc
      cases hcc
      exact hev
    · exact ho
  · rename_i hen
    refine ⟨h, rfl, fun q c hc hm => ?_⟩
    rcases h.settled q c hc with hcc | hev
    · rw [hm, hen] at hcc
      cases hcc
    · exact hev

theorem DbInv.addCommitted {p c : ℕ} (hnn : committed p = none) (hp : 0 < p) (hle : p ≤ c)
    (hm : c ≤ kMaxSequenceNumber) :
    match db.addCommitted o p c with
    | (db', .ok _) => DbInv o prepared removed (update committed p (some c)) db'
    | (db', .error _) => DbInv o prepared removed committed db' := by
  obtain ⟨hi, hc, he⟩ := h.evictIndexed (Nat.mod_lt p (commitCacheSize_pos o))
  unfold WritePreparedTxnDB.addCommitted addCommittedLoop
  simp only [exchangeCommitEntry]
  cases hn : ofEntry o.format ⟨p, c⟩ with
  | error e => exact hi
  | ok new =>
    simp only [hc, if_true]
    rw [← hc]
    exact hi.store hnn hp hle hm hn he

end

theorem DbInv.removeOne {p : ℕ} (h : DbInv o prepared removed committed db) (hp : p ∈ prepared) (hn : p ∉ removed) :
    DbInv o prepared (p :: removed) committed (db.removeOne p) := by
  obtain ⟨heap, delayed, empty, commits, heq, hi, ho, hs⟩ := removeOne_inv hp hn h.tracked
  rw [heq]
  refine ⟨h.committed_le, hi, h.future, h.known, h.map, fun q c hc => h.delayed_sound q c (hs q c hc),
    h.cache_sound, fun q c hc => ?_⟩
  rcases h.settled q c hc with hcc | he
  · exact .inl hcc
  refine .inr ⟨he.le_max, fun hd => ?_, he.recorded⟩
  obtain ⟨hq, hqn⟩ := (hi.mem_iff q).mp (.inr hd)
  obtain ⟨hqp, hqr⟩ := ne_and_not_mem_of_not_mem_cons hqn
  refine (ho q hqp).trans (he.delayed ?_)
  rcases (h.tracked.mem_iff q).mpr ⟨hq, hqr⟩ with hh | hol
  · have := h.tracked.lt_heap q hh
    have := hi.delayed_le q hd
    omega
  · exact hol

theorem DbInv.removeAll {is : List ℕ} {p : ℕ} (h : DbInv o prepared removed committed db)
    (hp : ∀ i ∈ is, p + i ∈ prepared) (hnt : ∀ i ∈ is, p + i ∉ removed) (hn : is.Nodup) :
    DbInv o prepared (is.foldl (fun removed i => (p + i) :: removed) removed) committed
      (is.foldl (fun db i => db.removeOne (p + i)) db) := by
  induction is generalizing removed db with
  | nil => exact h
  | cons i is ih =>
    obtain ⟨hi, hn⟩ := nodup_cons.mp hn
    have hs := h.removeOne (hp i (mem_cons_self ..)) (hnt i (mem_cons_self ..))
    refine ih hs (fun j hj => hp j (mem_cons_of_mem _ hj)) (fun j hj hm => ?_) hn
    rcases mem_cons.mp hm with heq | hm
    · have : j = i := by omega
      exact hi (this ▸ hj)
    · exact hnt j (mem_cons_of_mem _ hj) hm

theorem mem_foldl_cons {is : List ℕ} {p q : ℕ} :
    q ∈ is.foldl (fun removed i => (p + i) :: removed) removed ↔ q ∈ removed ∨ ∃ i ∈ is, q = p + i := by
  induction is generalizing removed with
  | nil => simp
  | cons i is ih =>
    rw [foldl_cons, ih]
    simp only [mem_cons, exists_eq_or_imp]
    tauto

section

variable (h : DbInv o prepared removed committed db)

include h

theorem DbInv.publish {seq : ℕ} (hle : db.lastPublishedSequence ≤ seq) :
    DbInv o prepared removed committed { db with lastPublishedSequence := seq } := by
  have hk := h.known
  refine ⟨h.committed_le, h.tracked, h.future, ?_, h.map, h.delayed_sound, h.cache_sound, fun p c hc => ?_⟩
  · exact ⟨hk.holds, hk.sorted, hk.le_max, fun x hx => le_trans (hk.le_last x hx) hle, hk.version, hk.live_sorted,
      fun s hs => le_trans (hk.live_le s hs) hle, hk.live_above, hk.live_known⟩
  · rcases h.settled p c hc with hcc | he
    · exact .inl hcc
    · exact .inr ⟨he.le_max, he.delayed, he.recorded⟩

theorem DbInv.getSnapshot {mu : ℕ} {db' : WritePreparedTxnDB}
    (hget : db.getSnapshot mu = some db') : DbInv o prepared removed committed db' := by
  simp only [WritePreparedTxnDB.getSnapshot] at hget
  split at hget
  · cases hget
  rename_i hg
  cases hget
  have hk := h.known
  have ha (hne : db.lastPublishedSequence ≠ 0) : db.maxEvictedSeq < db.lastPublishedSequence := by
    rw [h.future] at hg
    by_contra hle
    exact hg ⟨hne, not_lt.mp hle⟩
  refine ⟨h.committed_le, h.tracked, h.future, ⟨hk.holds, hk.sorted, hk.le_max, hk.le_last, hk.version, ?_, ?_, ?_, ?_⟩,
    h.map, h.delayed_sound, h.cache_sound, fun p c hc => ?_⟩
  · apply pairwise_append.mpr
    refine ⟨hk.live_sorted, pairwise_singleton _ _, fun s hs s' hs' => ?_⟩
    rw [mem_singleton.mp hs']
    exact hk.live_le s hs
  · intro s hs
    rcases mem_append.mp hs with hs | hs
    · exact hk.live_le s hs
    · rw [mem_singleton.mp hs]
  · intro s hs
    rcases mem_append.mp hs with hs | hs
    · exact hk.live_above s hs
    rw [mem_singleton.mp hs]
    by_cases hm : db.lastPublishedSequence ∈ db.table.snapshotsAll
    · exact .inl hm
    right
    intro x hx
    have hle := hk.le_last x hx
    have hne : x ≠ db.lastPublishedSequence := fun heq => hm (heq ▸ hx)
    simp only
    omega
  · intro s hs hne hle
    rcases mem_append.mp hs with hs | hs
    · exact hk.live_known s hs hne hle
    rw [mem_singleton.mp hs] at hne hle
    have := ha hne
    simp only at hle
    omega
  · rcases h.settled p c hc with hcc | he
    · exact .inl hcc
    refine .inr ⟨he.le_max, he.delayed, fun s hs hps hsc => ?_⟩
    rcases mem_append.mp hs with hs | hs
    · exact he.recorded s hs hps hsc
    rw [mem_singleton.mp hs] at hps hsc
    simp only at hps hsc
    have hp := (h.committed_le p c hc).1
    have := ha (by omega)
    have := he.le_max
    omega

theorem DbInv.releaseSnapshot (snap : SnapshotImpl) : DbInv o prepared removed committed (db.releaseSnapshot snap) := by
  have hk := h.known
  have hsb {s : SnapshotImpl} (hs : s ∈ db.snapshots.erase snap) : s ∈ db.snapshots := mem_of_mem_erase hs
  refine ⟨h.committed_le, h.tracked, h.future, ⟨hk.holds, hk.sorted, hk.le_max, hk.le_last, hk.version,
    hk.live_sorted.sublist (erase_sublist ..), fun s hs => hk.live_le s (hsb hs),
    fun s hs => hk.live_above s (hsb hs), fun s hs => hk.live_known s (hsb hs)⟩, h.map, h.delayed_sound, h.cache_sound,
    fun p c hc => ?_⟩
  rcases h.settled p c hc with hcc | he
  · exact .inl hcc
  · exact .inr ⟨he.le_max, he.delayed, fun s hs => he.recorded s (hsb hs)⟩

end

end

theorem DbInv.addPrepared {o : TransactionDBOptions} {prepared removed : List ℕ} {committed : ℕ → Option ℕ}
    {db : WritePreparedTxnDB} {seq : ℕ} (h : DbInv o prepared removed committed db) (hs : ∀ p ∈ prepared, p < seq)
    (hm : seq < kMaxSequenceNumber) (hr : seq ∉ removed) (hnn : committed seq = none) :
    DbInv o (seq :: prepared) removed committed (db.addPrepared seq) := by
  obtain ⟨heap, delayed, empty, heq, hi⟩ := preparedOnly_addPrepared (h.future ▸ h.tracked) hs hm hr
  rw [h.future] at hi
  rw [heq]
  refine ⟨h.committed_le, hi, h.future, h.known, h.map, h.delayed_sound, h.cache_sound, fun p c hc => ?_⟩
  rcases h.settled p c hc with hcc | he
  · exact .inl hcc
  refine .inr ⟨he.le_max, fun hd => he.delayed ?_, he.recorded⟩
  obtain ⟨hp, hn⟩ := (hi.mem_iff p).mp (.inr hd)
  have hne : p ≠ seq := by
    rintro rfl
    rw [hnn] at hc
    cases hc
  rcases (h.tracked.mem_iff p).mpr ⟨mem_of_ne_of_mem hne hp, hn⟩ with hh | ho
  · have := h.tracked.lt_heap p hh
    have := hi.delayed_le p hd
    omega
  · exact ho

section

variable {o : TransactionDBOptions} {h h' : History}

theorem HistoryInv.init (o : TransactionDBOptions) : HistoryInv o {} := by
  refine ⟨by simp, by simp, by simp, by simp, ?_, rfl, ?_, MapInv.init _, by simp, ?_, by simp⟩
  · refine ⟨⟨PreparedHeap.WellFormed.init, by simp, fun p => ?_, by simp, by simp⟩, by simp [PreparedHeap.Mem]⟩
    simp [PreparedHeap.Mem]
  · exact ⟨⟨by simp, rfl, by simp, rfl⟩, Pairwise.nil, by simp, by simp, rfl, Pairwise.nil, by simp, by simp, by simp⟩
  · intro i hi e he
    simp [getCommitEntry, parse] at he

theorem HistoryInv.step {op : Op} (hst : h.step o op = some h') (hiv : HistoryInv o h) : HistoryInv o h' := by
  obtain ⟨hps, hpr, hrm, hdb⟩ := hiv
  cases op with
  | addPrepared seq =>
    simp only [History.step] at hst
    split at hst
    · rename_i hg
      obtain ⟨hsq, hm, hlt⟩ := hg
      cases hst
      have hnw : seq ∉ h.prepared := fun hmm => lt_irrefl _ (hlt seq hmm)
      have hn : h.committed seq = none := by
        cases hc : h.committed seq with
        | none => rfl
        | some c => exact absurd (hpr seq c hc) hnw
      refine ⟨fun p hp => ?_, fun p c hc => mem_cons_of_mem _ (hpr p c hc), hrm,
        hdb.addPrepared hlt hm (fun hmm => ?_) hn⟩
      · rcases mem_cons.mp hp with rfl | hp
        · exact hsq
        · exact hps p hp
      · have hs := hrm seq hmm
        rw [hn] at hs
        cases hs
    · cases hst
  | addCommitted p c =>
    simp only [History.step] at hst
    split at hst
    · rename_i hg
      obtain ⟨hp, hn, hle, hm, -⟩ := hg
      have hcm := hdb.addCommitted hn (hps p hp) hle hm
      cases hr : h.db.addCommitted o p c with
      | mk db r =>
        rw [hr] at hst hcm
        cases r with
        | error e =>
          cases hst
          exact ⟨hps, hpr, hrm, hcm⟩
        | ok u =>
          cases hst
          refine ⟨hps, fun q c' hc => ?_, fun q hq => ?_, hcm⟩
          · by_cases hqp : q = p
            · exact hqp ▸ hp
            · exact hpr q c' ((update_of_ne hqp _ _).symm.trans hc)
          · by_cases hqp : q = p
            · subst hqp
              simp
            · simp only [update_of_ne hqp]
              exact hrm q hq
    · cases hst
  | removePrepared p batchCnt =>
    simp only [History.step] at hst
    split at hst
    · rename_i hg
      cases hst
      refine ⟨hps, hpr, fun q hq => ?_, hdb.removeAll (fun i hi => ?_) (fun i hi => ?_) nodup_range⟩
      · rcases mem_foldl_cons.mp hq with hq | ⟨i, hi, rfl⟩
        · exact hrm q hq
        · exact (hg i (mem_range.mp hi)).1
      · obtain ⟨c, hc⟩ := Option.isSome_iff_exists.mp (hg i (mem_range.mp hi)).1
        exact hpr _ c hc
      · exact (hg i (mem_range.mp hi)).2
    · cases hst
  | publish seq =>
    simp only [History.step] at hst
    split at hst
    · rename_i hg
      cases hst
      exact ⟨hps, hpr, hrm, hdb.publish hg.1⟩
    · cases hst
  | getSnapshot mu =>
    obtain ⟨db, hget, rfl⟩ := Option.map_eq_some_iff.mp hst
    exact ⟨hps, hpr, hrm, hdb.getSnapshot hget⟩
  | releaseSnapshot snap =>
    simp only [History.step] at hst
    split at hst
    · cases hst
      exact ⟨hps, hpr, hrm, hdb.releaseSnapshot snap⟩
    · cases hst

theorem HistoryInv.run {ops : List Op} (hr : Lib.run (History.step o) {} ops = some h) : HistoryInv o h :=
  Lib.run_invariant (HistoryInv o) (fun _ _ _ hs hi => hi.step hs) hr (HistoryInv.init o)

/-- A prepared transaction is in `prepared_txns_` or, once `max_evicted_seq_` has passed it, in `delayed_prepared_`,
until it is removed. -/
theorem prepared_tracked {ops : List Op} (hrun : Lib.run (History.step o) {} ops = some h) (p : ℕ) :
    (h.db.preparedTxns.Mem p ∨ p ∈ h.db.delayedPrepared ↔ p ∈ h.prepared ∧ p ∉ h.removed) ∧
      (h.db.preparedTxns.Mem p → h.db.maxEvictedSeq < p) ∧ (p ∈ h.db.delayedPrepared → p ≤ h.db.maxEvictedSeq) := by
  have ht := (HistoryInv.run hrun).db.tracked
  exact ⟨ht.mem_iff p, ht.lt_heap p, ht.delayed_le p⟩

theorem prepared_tracked_one : ∃ h, Lib.run (History.step ⟨1, 0⟩) {} [.addPrepared 1] = some h ∧
    (h.db.preparedTxns.Mem 1 ∨ 1 ∈ h.db.delayedPrepared) := by
  have hr : Lib.run (History.step ⟨1, 0⟩) {} [.addPrepared 1] = some _ := rfl
  exact ⟨_, hr, (prepared_tracked hr 1).1.mpr (by decide)⟩

/-- A commit that has left the cache is in `old_commit_map_` for exactly the live snapshots that must not see it. -/
theorem evicted_recorded {ops : List Op} (hrun : Lib.run (History.step o) {} ops = some h) {p c : ℕ}
    (hc : h.committed p = some c) (hne : h.db.getCommitEntry o (p % o.commitCacheSize) ≠ some ⟨p, c⟩) :
    c ≤ h.db.maxEvictedSeq ∧
      ∀ s ∈ h.db.snapshots, p ≤ s.number → (h.db.oldCommitMap.Recorded s.number p ↔ s.number < c) := by
  have hi := (HistoryInv.run hrun).db
  obtain he | he := hi.settled p c hc
  · exact absurd he hne
  refine ⟨he.le_max, fun s hs hp => ⟨fun hr => ?_, he.recorded s hs hp⟩⟩
  obtain ⟨c', hc', hl⟩ := hi.map.sound s.number p hr
  cases hc.symm.trans hc'
  exact hl

def evicting : List Op :=
  [.addPrepared 1, .addPrepared 2, .publish 2, .getSnapshot 1, .addCommitted 1 3, .addCommitted 2 4]

theorem evicted_recorded_one : ∃ h, Lib.run (History.step ⟨0, 0⟩) {} evicting = some h ∧
    h.db.oldCommitMap.Recorded 2 1 := by
  obtain ⟨h, hr, hf⟩ : ∃ h, Lib.run (History.step ⟨0, 0⟩) {} evicting = some h ∧
      (h.committed 1, h.db.getCommitEntry ⟨0, 0⟩ 0, h.db.snapshots) = (some 3, some ⟨2, 4⟩, [⟨2, 1⟩]) :=
    Option.map_eq_some_iff.mp (by decide +kernel)
  simp only [Prod.mk.injEq] at hf
  obtain ⟨hc, he, hl⟩ := hf
  have hne : h.db.getCommitEntry ⟨0, 0⟩ 0 ≠ some ⟨1, 3⟩ := by simp [he]
  exact ⟨h, hr, ((evicted_recorded hr hc hne).2 ⟨2, 1⟩ (by simp [hl]) (by decide)).mpr (by decide)⟩

end

section

variable {o : TransactionDBOptions} {h : History} {p : ℕ} {s : SnapshotImpl}

theorem binarySearch_eq {vec : List ℕ} (hv : vec.Pairwise (· ≤ ·)) (x : ℕ) : binarySearch vec x = decide (x ∈ vec) := by
  unfold binarySearch
  induction vec with
  | nil => simp
  | cons y vec ih =>
    obtain ⟨hy, hv⟩ := pairwise_cons.mp hv
    by_cases hlt : y < x
    · rw [dropWhile_cons_of_pos (by simpa using hlt), ih hv]
      have hne : x ≠ y := ne_of_gt hlt
      simp [hne]
    rw [dropWhile_cons_of_neg (by simpa using hlt)]
    rcases eq_or_lt_of_le (not_lt.mp hlt) with rfl | hgt
    · simp
    have hn : x ∉ y :: vec := by
      intro hm
      rcases mem_cons.mp hm with rfl | hm
      · omega
      · have := hy x hm
        omega
    simp [hgt, hn]

def History.Answers (h : History) (p s : ℕ) (r : Bool × Bool) : Prop :=
  (r.1 = true ↔ ∃ c, h.committed p = some c ∧ c ≤ s) ∧ r.2 = false

theorem answers_of_committed {c : ℕ} (hc : h.committed p = some c) (n : ℕ) : h.Answers p n (decide (c ≤ n), false) := by
  refine ⟨?_, rfl⟩
  simp [hc]

theorem answers_false (n : ℕ) (hno : ∀ c, h.committed p = some c → n < c) : h.Answers p n (false, false) := by
  refine ⟨⟨nofun, ?_⟩, rfl⟩
  rintro ⟨c, hc, hle⟩
  have := hno c hc
  omega

theorem HistoryInv.answers_searchOldCommitMap (hi : HistoryInv o h) (hs : s ∈ h.db.snapshots)
    (hm : s.number ≤ h.db.maxEvictedSeq) {c : ℕ} (hc : h.committed p = some c) (hps : p ≤ s.number)
    (hev : Evicted h.db p c) : h.Answers p s.number (h.db.searchOldCommitMap p s.number) := by
  have hpo := (hi.db.committed_le p c hc).1
  obtain ⟨-, hsm⟩ := hi.db.known.live_known s hs (by omega) hm
  obtain ⟨vec, hv⟩ := Option.isSome_iff_exists.mp hsm
  have hne : ¬ h.db.oldCommitMap.empty = true := by
    intro he
    rw [hi.db.map.find_of_empty he] at hv
    cases hv
  unfold searchOldCommitMap
  rw [if_neg hne, hv]
  simp only [binarySearch_eq (hi.db.map.sorted s.number vec hv)]
  refine ⟨?_, rfl⟩
  simp only [Bool.not_eq_true', decide_eq_false_iff_not]
  constructor
  · intro hn
    refine ⟨c, hc, ?_⟩
    by_contra hlt
    obtain ⟨vec', hv', hp⟩ := hev.recorded s hs hps (Nat.lt_of_not_le hlt)
    rw [hv] at hv'
    cases Option.some.inj hv'
    exact hn hp
  · rintro ⟨c', hc', hle⟩ hp
    obtain ⟨c'', hc'', hlt⟩ := hi.db.map.sound s.number p ⟨vec, hv, hp⟩
    rw [hc'] at hc''
    cases Option.some.inj hc''
    omega

theorem HistoryInv.answers_uncached (hi : HistoryInv o h) (hp : p ∈ h.prepared) (hs : s ∈ h.db.snapshots)
    (hps : p ≤ s.number)
    (hu : ∀ c, h.db.getCommitEntry o (p % o.commitCacheSize) ≠ some ⟨p, c⟩) :
    h.Answers p s.number (if h.db.maxEvictedSeq < p then (false, false)
      else if !h.db.delayedPreparedEmpty && decide (p ∈ h.db.delayedPrepared) then
        match h.db.delayedPreparedCommits p with
        | none => (false, false)
        | some cs => (decide (cs ≤ s.number), false)
      else if h.db.maxEvictedSeq < s.number then (true, false)
      else h.db.searchOldCommitMap p s.number) := by
  have he {c : ℕ} (hc : h.committed p = some c) : Evicted h.db p c := by
    rcases hi.db.settled p c hc with hcc | he
    · exact absurd hcc (hu c)
    · exact he
  have ht := hi.db.tracked
  split
  · rename_i hlt
    apply answers_false
    intro c hc
    have := (hi.db.committed_le p c hc).2
    have := (he hc).le_max
    omega
  · rename_i hle
    split
    · rename_i hd
      simp only [Bool.and_eq_true, decide_eq_true_eq] at hd
      cases hcm : h.db.delayedPreparedCommits p with
      | none =>
        apply answers_false
        intro c hc
        have := (he hc).delayed hd.2
        rw [hcm] at this
        cases this
      | some c => exact answers_of_committed (hi.db.delayed_sound p c hcm) s.number
    · rename_i hn
      have hd : p ∉ h.db.delayedPrepared := by
        intro hm
        have hne : ¬ h.db.delayedPreparedEmpty = true := by
          intro hep
          rw [ht.empty_iff.mp hep] at hm
          cases hm
        exact hn (by simp [hne, hm])
      have hr : p ∈ h.removed := by
        by_contra hr
        rcases (ht.mem_iff p).mpr ⟨hp, hr⟩ with hh | hm
        · exact hle (ht.lt_heap p hh)
        · exact hd hm
      obtain ⟨c, hc⟩ := Option.isSome_iff_exists.mp (hi.removed_committed p hr)
      split
      · rename_i ha
        refine ⟨⟨fun _ => ⟨c, hc, ?_⟩, fun _ => rfl⟩, rfl⟩
        have := (he hc).le_max
        omega
      · rename_i hb
        exact hi.answers_searchOldCommitMap hs (not_lt.mp hb) hc hps (he hc)

/-- In every history `IsInSnapshot` says whether a prepared transaction was committed up to a live snapshot. -/
theorem isInSnapshot_iff {ops : List Op} (hrun : Lib.run (History.step o) {} ops = some h) (hs : s ∈ h.db.snapshots)
    (hmin : h.MinUncommittedCorrect s) (hp : p ∈ h.prepared) :
    ((h.db.isInSnapshot o p s.number s.minUncommitted).1 = true ↔ ∃ c, h.committed p = some c ∧ c ≤ s.number) ∧
      (h.db.isInSnapshot o p s.number s.minUncommitted).2 = false := by
  have hiv := HistoryInv.run hrun
  show h.Answers p s.number _
  unfold isInSnapshot
  rw [if_neg (ne_of_gt (hiv.prepared_pos p hp))]
  split
  · rename_i hlt
    apply answers_false
    intro c hc
    have := (hiv.db.committed_le p c hc).2
    omega
  · rename_i hps
    split
    · rename_i hb
      obtain ⟨c, hc, hle⟩ := hmin p hp hb
      exact ⟨⟨fun _ => ⟨c, hc, hle⟩, fun _ => rfl⟩, rfl⟩
    have hi := Nat.mod_lt p (commitCacheSize_pos o)
    cases hen : (h.db.getCommitEntry o (p % o.commitCacheSize)).filter (·.prepSeq = p) with
    | some e =>
      obtain ⟨he, hep⟩ := Option.filter_eq_some_iff.mp hen
      have hc := (hiv.db.cache_sound _ hi e he).1
      rw [of_decide_eq_true hep] at hc
      exact answers_of_committed hc s.number
    | none =>
      apply hiv.answers_uncached hp hs (not_lt.mp hps)
      intro c hcc
      rw [hcc] at hen
      simp at hen

theorem isInSnapshot_evicted :
    let o : TransactionDBOptions := ⟨1, 0⟩
    ∃ h, Lib.run (History.step o) {}
        [.addPrepared 1, .publish 1, .getSnapshot 1, .addCommitted 1 2, .publish 2, .addPrepared 3,
          .addCommitted 3 4] = some h ∧
      h.db.isInSnapshot o 1 1 1 = (false, false) ∧ h.committed 1 = some 2 ∧
      (((h.db.isInSnapshot o 1 1 1).1 = true ↔ ∃ c, h.committed 1 = some c ∧ c ≤ 1) ∧
        (h.db.isInSnapshot o 1 1 1).2 = false) := by
  intro o
  obtain ⟨h, hr, hf⟩ : ∃ h, Lib.run (History.step o) {}
      [.addPrepared 1, .publish 1, .getSnapshot 1, .addCommitted 1 2, .publish 2, .addPrepared 3,
        .addCommitted 3 4] = some h ∧
      (h.db.isInSnapshot o 1 1 1, h.committed 1, h.db.snapshots, h.prepared) =
        ((false, false), some 2, [⟨1, 1⟩], [3, 1]) :=
    Option.map_eq_some_iff.mp (by decide +kernel)
  simp only [Prod.mk.injEq] at hf
  obtain ⟨ha, hc, hl, hpr⟩ := hf
  have hs : ⟨1, 1⟩ ∈ h.db.snapshots := by
    rw [hl]
    exact mem_cons_self ..
  have hm : h.MinUncommittedCorrect ⟨1, 1⟩ := by
    intro p hp hlt
    rw [hpr] at hp
    simp only [mem_cons, not_mem_nil, or_false] at hp
    simp only at hlt
    omega
  have hp : 1 ∈ h.prepared := by
    rw [hpr]
    decide
  exact ⟨h, hr, ha, hc, isInSnapshot_iff hr hs hm hp⟩

end

end ZenFSPlus.Transactions
