import ZenFSPlus.Db.FlushInstall

namespace ZenFSPlus.Db.Flush

open Lib List

def succeeds : Action → Bool
  | .rollbackMemtableFlush _ | .logAndApply .failed | .logAndApply .dropped => false
  | _ => true

structure OldestFirst (s : State) : Prop where
  started : ∀ m ∈ s.memlist, ∀ m' ∈ s.memlist, m.id ≤ m'.id → m'.flushInProgress = true → m.flushInProgress = true
  below : ∀ job ∈ s.jobs ++ s.written, ∀ id ∈ job.mems, id < s.nextId ∧
    ∀ m ∈ s.memlist, m.flushInProgress = false → id < m.id
  apart : ∀ a ∈ s.jobs ++ s.written, ∀ b ∈ s.jobs ++ s.written, a ≠ b →
    (∀ x ∈ a.mems, ∀ y ∈ b.mems, x < y) ∨ ∀ x ∈ a.mems, ∀ y ∈ b.mems, y < x

variable {s s' : State}

theorem mem_takeWhile_id {l : List MemTable} {m : MemTable} {max : ℕ} (hl : l.Pairwise fun a b => a.id < b.id)
    (hm : m ∈ l) (hle : m.id ≤ max) : m ∈ l.takeWhile fun m => m.id ≤ max := by
  induction l with
  | nil => cases hm
  | cons a l ih =>
    obtain ⟨ha, hl⟩ := pairwise_cons.mp hl
    have hmx : a.id ≤ max := by
      rcases mem_cons.mp hm with rfl | hm
      · exact hle
      · exact (ha m hm).le.trans hle
    rw [takeWhile_cons, if_pos (by simpa using hmx)]
    rcases mem_cons.mp hm with rfl | hm
    · exact mem_cons_self
    · exact mem_cons_of_mem _ (ih hl hm)

theorem Lists.mem_picked (h : Lists s) {max id : ℕ} :
    id ∈ s.picked max ↔ id ≤ max ∧ ∃ m ∈ s.memlist, m.flushInProgress = false ∧ m.id = id := by
  rw [State.picked, mem_map]
  constructor
  · rintro ⟨m, hm, rfl⟩
    obtain ⟨ht, hp⟩ := mem_filter.mp hm
    exact ⟨by simpa using mem_takeWhile_imp ht, m, (takeWhile_sublist _).subset ht, by simpa using hp, rfl⟩
  · rintro ⟨hle, m, hm, hp, rfl⟩
    exact ⟨m, mem_filter.mpr ⟨mem_takeWhile_id h.pairwise hm hle, by rw [hp]; rfl⟩, rfl⟩

theorem Lists.id_lt (h : Lists s) {m : MemTable} (hm : m ∈ s.memlist) : m.id < s.nextId := by
  have hin : m.id ∈ s.removed ++ s.memlist.map MemTable.id := mem_append_right _ (mem_map_of_mem hm)
  rw [h.ids] at hin
  exact mem_range.mp hin

namespace OldestFirst

variable (h : OldestFirst s) (hlists : Lists s)

include h

theorem of_subset (hmm : ∀ m ∈ s'.memlist, ∃ m' ∈ s.memlist, m'.id = m.id ∧ m'.flushInProgress = m.flushInProgress)
    (hjb : ∀ job ∈ s'.jobs ++ s'.written, job ∈ s.jobs ++ s.written) (hid : s'.nextId = s.nextId) :
    OldestFirst s' where
  started := fun m hm m' hm' => by
    obtain ⟨x, hx, hxd, hxp⟩ := hmm m hm
    obtain ⟨y, hy, hyd, hyp⟩ := hmm m' hm'
    rw [← hxd, ← hyd, ← hxp, ← hyp]
    exact h.started x hx y hy
  below := fun job hj id hin => by
    obtain ⟨hlt, ho⟩ := h.below job (hjb job hj) id hin
    refine ⟨hid ▸ hlt, fun m hm => ?_⟩
    obtain ⟨x, hx, hxd, hxp⟩ := hmm m hm
    rw [← hxd, ← hxp]
    exact ho x hx
  apart := fun a ha b hb => h.apart a (hjb a ha) b (hjb b hb)

theorem setCommit (commit : Commit) : OldestFirst { s with commit := commit } := ⟨h.started, h.below, h.apart⟩

theorem commitLoop : OldestFirst s.commitLoop := by
  obtain ⟨commit, heq⟩ := commitLoop_eq s
  rw [heq]
  exact h.setCommit commit

include hlists

theorem add : OldestFirst s.add where
  started := fun m hm m' hm' hle hp => by
    rcases mem_append.mp hm' with hm' | hm'
    · rcases mem_append.mp hm with hm | hm
      · exact h.started m hm m' hm' hle hp
      · rw [mem_singleton.mp hm] at hle
        exact absurd (hlists.id_lt hm') (Nat.not_lt.mpr hle)
    · rw [mem_singleton.mp hm'] at hp
      cases hp
  below := fun job hj id hin => by
    obtain ⟨hlt, ho⟩ := h.below job hj id hin
    refine ⟨Nat.lt_succ_of_lt hlt, fun m hm hp => ?_⟩
    rcases mem_append.mp hm with hm | hm
    · exact ho m hm hp
    · rw [mem_singleton.mp hm]
      exact hlt
  apart := h.apart

theorem pick (max fileNumber nf : ℕ) {jobs : List FlushJob}
    (hjb : ∀ job ∈ jobs, job ∈ s.jobs ∨ job = ⟨s.picked max, fileNumber⟩) :
    OldestFirst { s with
      memlist := setMems (s.picked max) (fun m => { m with flushInProgress := true }) s.memlist
      jobs := jobs
      nextFileNumber := nf } := by
  -- a memtable that is still not in progress is younger than those the job takes
  have hyn : ∀ m ∈ s.memlist, m.id ∉ s.picked max → m.flushInProgress = false → ∀ id ∈ s.picked max, id < m.id := by
    intro m hm ho hp id hid
    have hle := (hlists.mem_picked.mp hid).1
    rw [hlists.mem_picked] at ho
    by_contra hlt
    exact ho ⟨by omega, m, hm, hp, rfl⟩
  have hjb' : ∀ job ∈ jobs ++ s.written, job ∈ s.jobs ++ s.written ∨ job = ⟨s.picked max, fileNumber⟩ := by
    intro job hj
    rcases mem_append.mp hj with hj | hj
    · exact (hjb job hj).imp_left (mem_append_left _)
    · exact .inl (mem_append_right _ hj)
  have hol : ∀ job ∈ s.jobs ++ s.written, ∀ x ∈ job.mems, ∀ y ∈ s.picked max, x < y := by
    intro job hj x hx y hy
    obtain ⟨-, m, hm, hp, rfl⟩ := hlists.mem_picked.mp hy
    exact (h.below job hj x hx).2 m hm hp
  refine ⟨fun m hm m' hm' hle hp => ?_, fun job hj id hid => ⟨?_, fun m hm hp => ?_⟩, fun a ha b hb hab => ?_⟩
  · rcases mem_setMems_cases hm with ⟨hm, ho⟩ | ⟨x, -, -, rfl⟩
    · rcases mem_setMems_cases hm' with ⟨hm', -⟩ | ⟨y, hy, hin, rfl⟩
      · exact h.started m hm m' hm' hle hp
      · by_contra hn
        have := hyn m hm ho (by simpa using hn) y.id hin
        exact absurd hle (Nat.not_le.mpr this)
    · rfl
  · rcases hjb' job hj with hj | rfl
    · exact (h.below job hj id hid).1
    · obtain ⟨-, m, hm, -, rfl⟩ := hlists.mem_picked.mp hid
      exact hlists.id_lt hm
  · rcases mem_setMems_cases hm with ⟨hm, ho⟩ | ⟨x, -, -, rfl⟩
    · rcases hjb' job hj with hj | rfl
      · exact (h.below job hj id hid).2 m hm hp
      · exact hyn m hm ho hp id hid
    · cases hp
  · rcases hjb' a ha with ha | rfl
    · rcases hjb' b hb with hb | rfl
      · exact h.apart a ha b hb hab
      · exact .inl (hol a ha)
    · rcases hjb' b hb with hb | rfl
      · exact .inr fun x hx y hy => hol b hb y hy x hx
      · exact absurd rfl hab

theorem pickMemtablesToFlush (max : ℕ) : OldestFirst (s.pickMemtablesToFlush max) := by
  unfold State.pickMemtablesToFlush
  dsimp only
  split
  · exact h.pick hlists max 0 _ fun _ => .inl
  · exact h.pick hlists max _ _ fun _ hj => (mem_cons.mp hj).symm

end OldestFirst

theorem oldestFirst_step {a : Action} (hlists : Lists s) (h : OldestFirst s) (hs : step s a = some s') :
    succeeds a = true → OldestFirst s' := by
  refine step_elim hs (P := fun a s' => succeeds a = true → OldestFirst s') (fun _ => h.add hlists)
    (fun n _ => h.pickMemtablesToFlush hlists n) nofun ?_ ?_ (fun _ => h.commitLoop) (fun _ => h.setCommit _)
  · intro job hj _
    have hi : OldestFirst { s with
        memlist := installed job s.memlist, jobs := s.jobs.erase job, written := job :: s.written } := by
      refine h.of_subset (fun m hm => ?_) (fun x hx => ?_) rfl
      · rcases mem_installed_cases hm with ⟨hm, -⟩ | ⟨m', hm', -, hid, hp, -⟩
        · exact ⟨m, hm, rfl, rfl⟩
        · exact ⟨m', hm', hid.symm, hp.symm⟩
      · rcases mem_append.mp hx with hx | hx
        · exact mem_append_left _ (mem_of_mem_erase hx)
        · rcases mem_cons.mp hx with rfl | hx
          · exact mem_append_left _ hj
          · exact mem_append_right _ hx
    unfold State.tryInstallMemtableFlushResults
    split
    · exact hi.commitLoop
    · exact hi
  · intro out n el _ hok
    cases out with
    | applied => exact h.of_subset (fun m hm => ⟨m, mem_of_mem_drop hm, rfl, rfl⟩) (fun _ hj => hj) rfl
    | failed | dropped => cases hok
    | notLogged => exact h.setCommit _

/-- While no flush and no commit fails, a job takes memtables that are consecutive in age, and the sequence numbers of
the files of two jobs do not interleave. -/
theorem flush_in_order {actions : List Action} (hok : ∀ a ∈ actions, succeeds a = true)
    (hrun : run step {} actions = some s) (first last : ℕ → ℕ) (hseq : ∀ i j, i < j → last i < first j) :
    (∀ max, ∀ x ∈ s.picked max, ∀ y ∈ s.picked max, ∀ m ∈ s.memlist, x ≤ m.id → m.id ≤ y → m.id ∈ s.picked max) ∧
    ∀ a ∈ s.jobs ++ s.written, ∀ b ∈ s.jobs ++ s.written, a ≠ b →
      (∀ x ∈ a.mems, ∀ y ∈ b.mems, last x < first y) ∨ ∀ x ∈ a.mems, ∀ y ∈ b.mems, last y < first x := by
  have hi : (Lists s ∧ Batched s) ∧ OldestFirst s :=
    run_invariant_along (fun _ a => succeeds a = true) (fun s => (Lists s ∧ Batched s) ∧ OldestFirst s)
      (fun _ _ _ hok hs h => ⟨lists_step h.1 hs, oldestFirst_step h.1.1 h.2 hs hok⟩) hrun
      (along_of_forall _ hok _)
      ⟨⟨Lists.init, batched_of_ne nofun⟩, by constructor <;> simp⟩
  obtain ⟨⟨hlists, -⟩, h⟩ := hi
  refine ⟨fun max x hx y hy m hm hxm hmy => ?_, fun a ha b hb hab => ?_⟩
  · obtain ⟨-, m', hm', hp, rfl⟩ := hlists.mem_picked.mp hx
    refine hlists.mem_picked.mpr ⟨hmy.trans (hlists.mem_picked.mp hy).1, m, hm, ?_, rfl⟩
    by_contra hn
    rw [h.started m' hm' m hm hxm (by simpa using hn)] at hp
    cases hp
  · exact (h.apart a ha b hb hab).imp (fun hlt x hx y hy => hseq x y (hlt x hx y hy))
      fun hlt x hx y hy => hseq y x (hlt x hx y hy)

def overlappingFlushes : List Action :=
  [.add, .pickMemtablesToFlush 0, .add, .pickMemtablesToFlush 1, .add, .pickMemtablesToFlush 2]

theorem flush_in_order_overlapping : ∃ s, run step {} overlappingFlushes = some s ∧
    s.jobs.map FlushJob.mems = [[2], [1], [0]] ∧ ∀ a ∈ s.jobs ++ s.written, ∀ b ∈ s.jobs ++ s.written, a ≠ b →
      (∀ x ∈ a.mems, ∀ y ∈ b.mems, 10 * x + 9 < 10 * y) ∨ ∀ x ∈ a.mems, ∀ y ∈ b.mems, 10 * y + 9 < 10 * x :=
  ⟨_, rfl, rfl, (@flush_in_order _ overlappingFlushes (by decide) rfl (10 * ·) (10 * · + 9) (by omega)).2⟩

theorem pick_around_running_job : ∃ s, run step {} [.add, .pickMemtablesToFlush 0, .add, .pickMemtablesToFlush 1,
      .rollbackMemtableFlush ⟨[0], 1⟩, .add] = some s ∧
    s.memlist.map MemTable.id = [0, 1, 2] ∧ s.picked 2 = [0, 2] ∧ s.jobs = [⟨[1], 2⟩] :=
  ⟨_, rfl, rfl, rfl, rfl⟩

end ZenFSPlus.Db.Flush
