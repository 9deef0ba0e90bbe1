import ZenFSPlus.Transactions.PreparedTracking

namespace ZenFSPlus.Transactions

open WritePreparedTxnDB List Function OldCommitMap

section

variable {maxSeq x : ℕ} {ret : List ℕ} {snapshots : List SnapshotImpl}

section

variable (hsr : snapshots.Pairwise fun a b => a.number ≤ b.number)

include hsr

theorem mem_getAllLoop :
    x ∈ getAllLoop maxSeq ret snapshots ↔ x ∈ ret ∨ ∃ s ∈ snapshots, s.number = x ∧ x ≤ maxSeq := by
  induction snapshots generalizing ret with
  | nil => simp [getAllLoop]
  | cons s rest ih =>
    obtain ⟨hle, hr⟩ := pairwise_cons.mp hsr
    unfold getAllLoop
    split
    · rename_i hm
      constructor
      · exact .inl
      · rintro (hx | ⟨s', hs', rfl, hx⟩)
        · exact hx
        · rcases mem_cons.mp hs' with rfl | hs'
          · omega
          · have := hle s' hs'
            omega
    · rename_i hm
      have hrt : x ∈ (if ret.getLast? = some s.number then ret else ret ++ [s.number]) ↔ x ∈ ret ∨ x = s.number := by
        split
        · rename_i hl
          constructor
          · exact .inl
          · rintro (hx | rfl)
            · exact hx
            · exact mem_of_getLast? hl
        · rw [mem_append, mem_singleton]
      rw [ih hr, hrt, or_assoc]
      apply or_congr Iff.rfl
      constructor
      · rintro (rfl | ⟨s', hs', hx⟩)
        · exact ⟨s, mem_cons_self .., rfl, by omega⟩
        · exact ⟨s', mem_cons_of_mem _ hs', hx⟩
      · rintro ⟨s', hs', rfl, hx⟩
        rcases mem_cons.mp hs' with rfl | hs'
        · exact .inl rfl
        · exact .inr ⟨s', hs', rfl, hx⟩

theorem pairwise_getAllLoop (hrt : ret.Pairwise (· ≤ ·)) (hle : ∀ y ∈ ret, ∀ s ∈ snapshots, y ≤ s.number) :
    (getAllLoop maxSeq ret snapshots).Pairwise (· ≤ ·) := by
  induction snapshots generalizing ret with
  | nil => exact hrt
  | cons s rest ih =>
    obtain ⟨hs, hr⟩ := pairwise_cons.mp hsr
    unfold getAllLoop
    split
    · exact hrt
    apply ih hr
    · split
      · exact hrt
      apply pairwise_append.mpr
      refine ⟨hrt, pairwise_singleton _ _, fun y hy z hz => ?_⟩
      rw [mem_singleton.mp hz]
      exact hle y hy s (mem_cons_self ..)
    · intro y hy s' hs'
      split at hy
      · exact hle y hy s' (mem_cons_of_mem _ hs')
      rcases mem_append.mp hy with hy | hy
      · exact hle y hy s' (mem_cons_of_mem _ hs')
      · rw [mem_singleton.mp hy]
        exact hs s' hs'

theorem mem_getAll : x ∈ getAll maxSeq snapshots ↔ ∃ s ∈ snapshots, s.number = x ∧ x ≤ maxSeq := by
  rw [getAll, mem_getAllLoop hsr]
  simp

theorem pairwise_getAll : (getAll maxSeq snapshots).Pairwise (· ≤ ·) := pairwise_getAllLoop hsr Pairwise.nil nofun

end

end

structure MapInv (committed : ℕ → Option ℕ) (m : OldCommitMap) : Prop where
  sound : ∀ s p, m.Recorded s p → ∃ c, committed p = some c ∧ s < c
  sorted : ∀ s vec, m.find s = some vec → vec.Pairwise (· ≤ ·)
  find_of_empty : m.empty = true → ∀ s, m.find s = none

theorem find_foldl_touch (snapshots : List ℕ) (m : OldCommitMap) (s : ℕ) : (snapshots.foldl touch m).find s =
      if s ∈ snapshots then some ((m.find s).getD []) else m.find s := by
  induction snapshots generalizing m with
  | nil => rfl
  | cons snap snapshots ih =>
    rw [foldl_cons, ih, find_touch]
    by_cases hs : s = snap
    · subst hs
      simp
    · simp [hs]

theorem find_touchAll (m : OldCommitMap) (snapshots : List ℕ) (s : ℕ) :
    (touchAll m snapshots).find s = if s ∈ snapshots then some ((m.find s).getD []) else m.find s := by
  unfold touchAll
  split
  · rename_i he
    rw [List.isEmpty_iff] at he
    simp [he]
  · exact find_foldl_touch snapshots m s

namespace MapInv

variable {com : ℕ → Option ℕ} {m : OldCommitMap}

theorem init (com : ℕ → Option ℕ) : MapInv com {} := by
  have hf (s : ℕ) : ({} : OldCommitMap).find s = none := rfl
  refine ⟨?_, ?_, fun _ => hf⟩
  · rintro s p ⟨vec, hv, -⟩
    cases hv
  · intro s vec hv
    cases hv

section

variable (h : MapInv com m)

include h

theorem mono {committed' : ℕ → Option ℕ} (hm : ∀ p c, com p = some c → committed' p = some c) :
    MapInv committed' m := by
  refine ⟨fun s p hr => ?_, h.sorted, h.find_of_empty⟩
  obtain ⟨c, hc, hlt⟩ := h.sound s p hr
  exact ⟨c, hm p c hc, hlt⟩

theorem add {ps cs s : ℕ} (hc : com ps = some cs) (hs : s < cs) : MapInv com (m.add s ps) := by
  refine ⟨fun s' p hr => ?_, fun s' vec hv => ?_, nofun⟩
  · rcases recorded_add.mp hr with ⟨rfl, rfl⟩ | hr
    · exact ⟨cs, hc, hs⟩
    · exact h.sound s' p hr
  · rw [find_add] at hv
    split at hv
    · cases hv
      apply pairwise_insertUpperBound
      cases hf : m.find s with
      | none => exact Pairwise.nil
      | some vec => exact h.sorted s vec hf
    · exact h.sorted s' vec hv

theorem maybeUpdate {ps cs : ℕ} (hc : com ps = some cs) (sq : ℕ) (nl : Bool) :
    MapInv com (m.maybeUpdate ps cs sq nl).1 := by
  unfold OldCommitMap.maybeUpdate
  split
  · exact h
  rename_i hlt
  split
  · exact h.add hc (Nat.lt_of_not_le hlt)
  · exact h

theorem release (mes ss : ℕ) : MapInv com (m.release mes ss) := by
  unfold OldCommitMap.release
  split
  · have hf {s : ℕ} {vec : List ℕ} (hv : (m.erase ss).find s = some vec) : m.find s = some vec := by
      by_cases hs : s = ss
      · rw [hs, find, erase, AList.lookup_erase] at hv
        cases hv
      · rwa [m.find_erase_of_ne hs] at hv
    refine ⟨?_, fun s vec hv => h.sorted s vec (hf hv), fun he s => ?_⟩
    · rintro s p ⟨vec, hv, hp⟩
      exact h.sound s p ⟨vec, hf hv, hp⟩
    · have hn : (m.entries.erase ss).entries = [] := List.isEmpty_iff.mp he
      unfold find erase AList.lookup
      rw [hn]
      rfl
  · exact h

theorem touchAll (snapshots : List ℕ) : MapInv com (touchAll m snapshots) := by
  have hf {s : ℕ} {vec : List ℕ} (hv : (WritePreparedTxnDB.touchAll m snapshots).find s = some vec) :
      m.find s = some vec ∨ vec = [] := by
    rw [find_touchAll] at hv
    split at hv
    · cases hm : m.find s with
      | none =>
        rw [hm] at hv
        exact .inr (Option.some.inj hv).symm
      | some vec' =>
        rw [hm] at hv
        exact .inl hv
    · exact .inl hv
  refine ⟨?_, fun s vec hv => ?_, ?_⟩
  · rintro s p ⟨vec, hv, hp⟩
    rcases hf hv with hv | rfl
    · exact h.sound s p ⟨vec, hv, hp⟩
    · cases hp
  · rcases hf hv with hv | rfl
    · exact h.sorted s vec hv
    · exact Pairwise.nil
  · unfold WritePreparedTxnDB.touchAll
    split
    · exact h.find_of_empty
    · nofun

end

end MapInv

structure SnapshotInv (size max last : ℕ) (snapshots : List SnapshotImpl) (table : SnapshotTable) (m : OldCommitMap) :
    Prop where
  holds : table.Holds size table.snapshotsAll
  sorted : table.snapshotsAll.Pairwise (· ≤ ·)
  le_max : ∀ x ∈ table.snapshotsAll, x ≤ max
  le_last : ∀ x ∈ table.snapshotsAll, x ≤ last
  version : table.snapshotsVersion = max
  live_sorted : snapshots.Pairwise fun a b => a.number ≤ b.number
  live_le : ∀ s ∈ snapshots, s.number ≤ last
  live_above : ∀ s ∈ snapshots, s.number ∈ table.snapshotsAll ∨ ∀ x ∈ table.snapshotsAll, x < s.number
  live_known : ∀ s ∈ snapshots, s.number ≠ 0 → s.number ≤ max →
    s.number ∈ table.snapshotsAll ∧ (m.find s.number).isSome

section

variable {o : TransactionDBOptions} {com : ℕ → Option ℕ} {prepared removed : List ℕ} {db : WritePreparedTxnDB}
  {nm : ℕ}

theorem SnapshotInv.cleaning {size max last : ℕ} {snapshots : List SnapshotImpl} {table : SnapshotTable}
    {m : OldCommitMap} (h : SnapshotInv size max last snapshots table m) (hle : max ≤ nm) {s : SnapshotImpl}
    (hs : s ∈ snapshots) : SnapshotRace.Cleaning s.number (getAll nm snapshots) table.snapshotsAll where
  new_sorted := pairwise_getAll h.live_sorted
  old_sorted := h.sorted
  mem := by
    intro hm
    exact (mem_getAll h.live_sorted).mpr ⟨s, hs, rfl, le_trans (h.le_max _ hm) hle⟩
  appended := by
    intro n hn
    obtain ⟨s', hs', rfl, -⟩ := (mem_getAll h.live_sorted).mp hn
    exact h.live_above s' hs'

def SnapshotsOnly (o : TransactionDBOptions) (committed : ℕ → Option ℕ) (max : ℕ) (db db' : WritePreparedTxnDB) : Prop :=
  ∃ table m, db' = { db with table := table, oldCommitMap := m } ∧
    SnapshotInv o.snapshotCacheSize max db.lastPublishedSequence db.snapshots table m ∧ MapInv committed m ∧
    ∀ s ∈ db.snapshots, ∀ p, db.oldCommitMap.Recorded s.number p → m.Recorded s.number p

theorem snapshotsOnly_fetchSnapshots {max : ℕ} (db : WritePreparedTxnDB)
    (h : SnapshotInv o.snapshotCacheSize max db.lastPublishedSequence db.snapshots db.table db.oldCommitMap)
    (hm : MapInv com db.oldCommitMap) (hlt : max < nm) :
    SnapshotsOnly o com nm db (db.fetchSnapshots o nm) := by
  have hl {x : ℕ} : x ∈ getAll nm db.snapshots ↔ ∃ s ∈ db.snapshots, s.number = x ∧ x ≤ nm := mem_getAll h.live_sorted
  unfold fetchSnapshots
  rw [if_pos (by rw [h.version]; exact hlt)]
  refine ⟨_, _, rfl, ?_, ?_, ?_⟩
  · have hh := holds_updateSnapshots o.snapshotCacheSize db.maxEvictedSeq db.table db.oldCommitMap
      (getAll nm db.snapshots) nm
    refine ⟨hh, pairwise_getAll h.live_sorted, fun x hx => ?_, fun x hx => ?_,
      by simp only [updateSnapshots]; rw [storeSnapshots_eq], h.live_sorted, h.live_le, fun s hs => ?_, fun s hs hne hle => ?_⟩
    · obtain ⟨s, -, -, hle⟩ := hl.mp hx
      exact hle
    · obtain ⟨s, hs, rfl, -⟩ := hl.mp hx
      exact h.live_le s hs
    · rcases lt_or_ge nm s.number with hgt | hle
      · right
        intro x hx
        obtain ⟨-, -, -, hle⟩ := hl.mp hx
        exact lt_of_le_of_lt hle hgt
      · exact .inl (hl.mpr ⟨s, hs, rfl, hle⟩)
    · have hmm := hl.mpr ⟨s, hs, rfl, hle⟩
      refine ⟨hmm, ?_⟩
      rw [find_touchAll, if_pos hmm]
      rfl
  · apply MapInv.touchAll
    exact cleanup_induction (MapInv com) (fun m ss hm => hm.release _ ss) _ _ hm
  · rintro s hs p ⟨vec, hf, hp⟩
    refine ⟨vec, ?_, hp⟩
    rw [find_touchAll]
    have hc : (updateSnapshots o.snapshotCacheSize db.maxEvictedSeq db.table db.oldCommitMap
        (getAll nm db.snapshots) nm).2.find s.number = some vec := by
      rw [← hf]
      exact find_cleanup (h.cleaning (le_of_lt hlt) hs) db.oldCommitMap
    rw [hc]
    simp

end

structure Evicted (db : WritePreparedTxnDB) (p c : ℕ) : Prop where
  le_max : c ≤ db.maxEvictedSeq
  delayed : p ∈ db.delayedPrepared → db.delayedPreparedCommits p = some c
  recorded : ∀ s ∈ db.snapshots, p ≤ s.number → s.number < c → db.oldCommitMap.Recorded s.number p

structure DbInv (o : TransactionDBOptions) (prepared removed : List ℕ) (committed : ℕ → Option ℕ)
    (db : WritePreparedTxnDB) : Prop where
  committed_le : ∀ p c, committed p = some c → 0 < p ∧ p ≤ c
  tracked : PreparedInv prepared removed db.maxEvictedSeq db.preparedTxns db.delayedPrepared db.delayedPreparedEmpty
  future : db.futureMaxEvictedSeq = db.maxEvictedSeq
  known : SnapshotInv o.snapshotCacheSize db.maxEvictedSeq db.lastPublishedSequence db.snapshots db.table db.oldCommitMap
  map : MapInv committed db.oldCommitMap
  delayed_sound : ∀ p c, db.delayedPreparedCommits p = some c → committed p = some c
  cache_sound : ∀ i < o.commitCacheSize, ∀ e, db.getCommitEntry o i = some e →
    committed e.prepSeq = some e.commitSeq ∧ e.prepSeq % o.commitCacheSize = i
  settled : ∀ p c, committed p = some c →
    db.getCommitEntry o (p % o.commitCacheSize) = some ⟨p, c⟩ ∨ Evicted db p c

namespace DbInv

variable {o : TransactionDBOptions} {com : ℕ → Option ℕ} {prepared removed : List ℕ} {db : WritePreparedTxnDB}
  {e : CommitEntry}

section

variable (h : DbInv o prepared removed com db)

include h

theorem advance {nm : ℕ} (hlt : db.maxEvictedSeq < nm) :
    let db' := db.advanceMaxEvictedSeq o db.maxEvictedSeq nm
    DbInv o prepared removed com db' ∧ db'.maxEvictedSeq = nm ∧ db'.commitCache = db.commitCache := by
  have hf : raise db.futureMaxEvictedSeq db.maxEvictedSeq nm = nm := by
    rw [raise, if_pos hlt, h.future]
    omega
  have hm : raise db.maxEvictedSeq db.maxEvictedSeq nm = nm := by
    rw [raise, if_pos hlt]
    omega
  obtain ⟨heap, delayed, empty, heq, hpr⟩ := preparedOnly_checkPreparedAgainstMax
    { db with futureMaxEvictedSeq := nm } (h.tracked.toTracked.mono (le_of_lt hlt))
  obtain ⟨table, m, hft, hk, hmp, hr⟩ := snapshotsOnly_fetchSnapshots { db with
      futureMaxEvictedSeq := nm
      preparedTxns := heap
      delayedPrepared := delayed
      delayedPreparedEmpty := empty } h.known h.map hlt
  simp only [advanceMaxEvictedSeq, hf, heq, hft, hm]
  refine ⟨⟨h.committed_le, hpr, rfl, hk, hmp, h.delayed_sound, h.cache_sound, fun p c hc => ?_⟩, trivial, trivial⟩
  rcases h.settled p c hc with hcc | he
  · exact .inl hcc
  right
  have hle := (h.committed_le p c hc).2
  refine ⟨le_trans he.le_max (le_of_lt hlt), fun hp => ?_, fun s hs hps hsc => ?_⟩
  · apply he.delayed
    rcases (h.tracked.mem_iff p).mpr ((hpr.mem_iff p).mp (.inr hp)) with hh | hd
    · have := h.tracked.lt_heap p hh
      have := he.le_max
      omega
    · exact hd
  · exact hr s hs p (he.recorded s hs hps hsc)

theorem advanceBehind (e : CommitEntry) :
    let r := db.advanceBehind o e
    DbInv o prepared removed com r ∧ e.commitSeq ≤ r.maxEvictedSeq ∧ r.commitCache = db.commitCache := by
  unfold WritePreparedTxnDB.advanceBehind
  simp only
  split
  · rename_i hlt
    have hn : e.commitSeq ≤ db.newMaxEvictedSeq o e := by
      unfold newMaxEvictedSeq
      split_ifs with hl
      · omega
      · exact le_rfl
    obtain ⟨hi, hm, hc⟩ := h.advance (lt_of_lt_of_le hlt hn)
    exact ⟨hi, by rw [hm]; exact hn, hc⟩
  · rename_i hle
    exact ⟨h, not_lt.mp hle, rfl⟩

theorem keepDelayedCommit (he : com e.prepSeq = some e.commitSeq) :
    let db' := db.keepDelayedCommit e
    DbInv o prepared removed com db' ∧ (e.prepSeq ∈ db'.delayedPrepared →
        db'.delayedPreparedCommits e.prepSeq = some e.commitSeq) ∧
      db'.maxEvictedSeq = db.maxEvictedSeq ∧
      db'.commitCache = db.commitCache := by
  unfold WritePreparedTxnDB.keepDelayedCommit
  split_ifs with hno
  · refine ⟨⟨h.committed_le, h.tracked, h.future, h.known, h.map, fun p c hc => ?_, h.cache_sound, fun p c hc => ?_⟩,
      fun _ => update_self _ _ _, rfl, rfl⟩
    · by_cases hp : p = e.prepSeq
      · subst hp
        rw [he, ← hc]
        exact (update_self e.prepSeq (some e.commitSeq) db.delayedPreparedCommits).symm
      · exact h.delayed_sound p c ((update_of_ne hp _ _).symm.trans hc)
    · rcases h.settled p c hc with hcc | hev
      · exact .inl hcc
      refine .inr ⟨hev.le_max, fun hd => ?_, hev.recorded⟩
      by_cases hp : p = e.prepSeq
      · subst hp
        rw [he] at hc
        rw [← hc]
        exact update_self _ _ _
      · exact (update_of_ne hp _ _).trans (hev.delayed hd)
  · refine ⟨h, fun hd => ?_, rfl, rfl⟩
    have hne : ¬ db.delayedPreparedEmpty = true := by
      intro hep
      rw [h.tracked.empty_iff.mp hep] at hd
      cases hd
    exact absurd (by simp [hne, hd]) hno

theorem evict (he : com e.prepSeq = some e.commitSeq) :
    DbInv o prepared removed com (db.evict o e) ∧ Evicted (db.evict o e) e.prepSeq e.commitSeq ∧
      (db.evict o e).commitCache = db.commitCache := by
  obtain ⟨h1, hle, hcc1⟩ := h.advanceBehind e
  obtain ⟨h2, hd, hmx2, hcc2⟩ := h1.keepDelayedCommit he
  unfold WritePreparedTxnDB.evict
  simp only
  rw [← hcc1, ← hcc2]
  rw [← hmx2] at hle
  generalize (db.advanceBehind o e).keepDelayedCommit e = db2 at h2 hd hle ⊢
  have hrc {s p : ℕ} (hr : db2.oldCommitMap.Recorded s p) :
      (checkAgainstSnapshots o.snapshotCacheSize db2.table e db2.oldCommitMap).Recorded s p := by
    apply checkAgainstSnapshots_induction (fun m => m.Recorded s p) _ hr
    intro m sq nl hm
    exact recorded_maybeUpdate.mpr (.inr hm)
  refine ⟨⟨h2.committed_le, h2.tracked, h2.future, ?_, ?_, h2.delayed_sound, h2.cache_sound, fun p c hc => ?_⟩,
    ⟨hle, hd, fun s hs hps hsc => ?_⟩, rfl⟩
  · have hk := h2.known
    refine ⟨hk.holds, hk.sorted, hk.le_max, hk.le_last, hk.version, hk.live_sorted, hk.live_le, hk.live_above,
      fun s hs hne hle => ?_⟩
    obtain ⟨hmm, hsm⟩ := hk.live_known s hs hne hle
    refine ⟨hmm, ?_⟩
    apply checkAgainstSnapshots_induction (fun m => (m.find s.number).isSome) _ hsm
    intro m sq nl hm
    unfold OldCommitMap.maybeUpdate
    split
    · exact hm
    split
    · simp only
      rw [find_add]
      split
      · rfl
      · exact hm
    · exact hm
  · apply checkAgainstSnapshots_induction (MapInv com) _ h2.map
    intro m sq nl hm
    exact hm.maybeUpdate he sq nl
  · rcases h2.settled p c hc with hch | hev
    · exact .inl hch
    · exact .inr ⟨hev.le_max, hev.delayed, fun s hs hps hsc => hrc (hev.recorded s hs hps hsc)⟩
  · have hp := (h2.committed_le _ _ he).1
    obtain ⟨hmm, -⟩ := h2.known.live_known s hs (by omega) (by omega)
    exact recorded_checkAgainstSnapshots h2.known.holds h2.known.sorted hmm hps hsc

end

end DbInv

end ZenFSPlus.Transactions
