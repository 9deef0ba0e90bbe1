import Mathlib.Data.List.Nodup
import Mathlib.Data.List.TakeWhile
import ZenFSPlus.Db.MemTableList

namespace ZenFSPlus.Db.Flush

open Lib List

section

variable {mems : List ℕ} {f : MemTable → MemTable} {l : List MemTable} {m : MemTable} {job : FlushJob} {a : Action}

theorem mem_setMems : m ∈ setMems mems f l ↔ ∃ m' ∈ l, (if m'.id ∈ mems then f m' else m') = m := mem_map

theorem mem_setMems_cases (hm : m ∈ setMems mems f l) : (m ∈ l ∧ m.id ∉ mems) ∨ ∃ m' ∈ l, m'.id ∈ mems ∧ m = f m' := by
  obtain ⟨m', hm', rfl⟩ := mem_setMems.mp hm
  by_cases hid : m'.id ∈ mems
  · rw [if_pos hid]
    exact .inr ⟨m', hm', hid, rfl⟩
  · rw [if_neg hid]
    exact .inl ⟨hm', hid⟩

theorem map_id_setMems (hf : ∀ m, (f m).id = m.id) : (setMems mems f l).map MemTable.id = l.map MemTable.id := by
  rw [setMems, map_map]
  apply map_congr_left
  intro m _
  rw [Function.comp_apply]
  split
  · exact hf m
  · rfl

theorem mem_setMems_of_notMem (hm : m ∈ l) (hid : m.id ∉ mems) : m ∈ setMems mems f l :=
  mem_setMems.mpr ⟨m, hm, if_neg hid⟩

theorem take_setMems {n : ℕ} (hid : ∀ m ∈ l.take n, m.id ∉ mems) : (setMems mems f l).take n = l.take n := by
  rw [setMems, ← map_take]
  calc (l.take n).map (fun m => if m.id ∈ mems then f m else m) = (l.take n).map fun m => m :=
        map_congr_left fun m hm => if_neg (hid m hm)
    _ = l.take n := map_id' _

theorem mem_editLoop {h : MemTable} {bfn : Option ℕ} (hl : l.Pairwise fun a b => a.id < b.id) (hh : h ∈ l)
    (hb : bfn ≠ some h.fileNumber) (hls : ∀ m ∈ l, m.fileNumber = h.fileNumber → h.id ≤ m.id) :
    h.id ∈ State.editLoop bfn l := by
  induction l generalizing bfn with
  | nil => cases hh
  | cons m l ih =>
    obtain ⟨hm, hl⟩ := pairwise_cons.mp hl
    rw [State.editLoop]
    rcases mem_cons.mp hh with rfl | hh
    · rw [if_neg hb]
      exact mem_cons_self
    have hls' : ∀ x ∈ l, x.fileNumber = h.fileNumber → h.id ≤ x.id := fun x hx => hls x (mem_cons_of_mem _ hx)
    have hne : some m.fileNumber ≠ some h.fileNumber := by
      intro heq
      have := hls m mem_cons_self (Option.some.inj heq)
      have := hm h hh
      omega
    split
    · exact ih hl hh hb hls'
    · exact mem_cons_of_mem _ (ih hl hh hne hls')

end

variable {s s' : State} {m : MemTable} {job : FlushJob} {f : MemTable → MemTable}

structure Lists (s : State) : Prop where
  ids : s.removed ++ s.memlist.map MemTable.id = range s.nextId
  positive : 0 < s.nextFileNumber
  numbers : ∀ job ∈ s.jobs ++ s.written, 0 < job.fileNumber ∧ job.fileNumber < s.nextFileNumber
  distinct : ((s.jobs ++ s.written).map FlushJob.fileNumber).Nodup
  mems : ∀ job ∈ s.jobs, job.mems ≠ [] ∧ job.mems.Pairwise (· < ·)
  running : ∀ job ∈ s.jobs, ∀ id ∈ job.mems, ∃ m ∈ s.memlist, m.id = id ∧ m.flushInProgress = true ∧
    m.flushCompleted = false
  disjoint : ∀ a ∈ s.jobs, ∀ b ∈ s.jobs, a ≠ b → ∀ id ∈ a.mems, id ∉ b.mems
  unflushed : ∀ m ∈ s.memlist, m.flushCompleted = false → m.edit = [] ∧ m.fileNumber = 0
  completed : ∀ m ∈ s.memlist, m.flushCompleted = true → m.flushInProgress = true ∧
    ∃ job ∈ s.written, job.fileNumber = m.fileNumber ∧ m.id ∈ job.mems

def Batched (s : State) : Prop := ∀ batchCount editList, s.commit = .logAndApply batchCount editList →
  batchCount ≤ s.memlist.length ∧ (∀ m ∈ s.memlist.take batchCount, m.flushCompleted = true) ∧
    editList = State.editLoop none (s.memlist.take batchCount)

structure Backed (s : State) : Prop where
  source : ∀ m ∈ s.memlist, m.flushCompleted = true → m.fileNumber ∈ s.applied ∨
    ∃ h ∈ s.memlist, h.flushCompleted = true ∧ h.fileNumber = m.fileNumber ∧ h.fileNumber ∈ h.edit ∧
      ∀ m' ∈ s.memlist, m'.fileNumber = m.fileNumber → h.id ≤ m'.id
  done : ∀ id ∈ s.removed, ∃ job ∈ s.written, id ∈ job.mems ∧ job.fileNumber ∈ s.applied

theorem commitLoop_eq (s : State) : ∃ commit, s.commitLoop = { s with commit := commit } := by
  unfold State.commitLoop
  dsimp only
  split
  · exact ⟨_, rfl⟩
  · exact ⟨_, rfl⟩

namespace Lists

theorem init : Lists {} := by
  constructor <;> simp

theorem pairwise (h : Lists s) : s.memlist.Pairwise fun a b => a.id < b.id := by
  have hr := pairwise_lt_range (n := s.nextId)
  rw [← h.ids, pairwise_append] at hr
  exact pairwise_map.mp hr.2.1

theorem eq_of_id (h : Lists s) {m m' : MemTable} (hm : m ∈ s.memlist) (hm' : m' ∈ s.memlist) (hid : m.id = m'.id) :
    m = m' := by
  have hn : (s.memlist.map MemTable.id).Nodup := pairwise_map.mpr (h.pairwise.imp fun hlt => Nat.ne_of_lt hlt)
  exact inj_on_of_nodup_map hn hm hm' hid

section

variable (h : Lists s)

include h

theorem notMem_job (hj : job ∈ s.jobs) (hm : m ∈ s.memlist) (hc : m.flushCompleted = true) : m.id ∉ job.mems := by
  intro hid
  obtain ⟨m', hm', heq, -, hc'⟩ := h.running job hj m.id hid
  rw [h.eq_of_id hm' hm heq, hc] at hc'
  cases hc'

theorem notMem_picked {mid : ℕ} (hm : m ∈ s.memlist) (hp : m.flushInProgress = true) : m.id ∉ s.picked mid := by
  intro hid
  obtain ⟨m', hm', heq⟩ := mem_map.mp hid
  obtain ⟨ht, hp'⟩ := mem_filter.mp hm'
  rw [h.eq_of_id ((takeWhile_sublist _).subset ht) hm heq, hp] at hp'
  cases hp'

theorem nodup_jobs : s.jobs.Nodup := by
  have := h.distinct
  rw [map_append, nodup_append] at this
  exact Nodup.of_map _ this.1

theorem fileNumber_ne (hj : job ∈ s.jobs) (hm : m ∈ s.memlist) : m.fileNumber ≠ job.fileNumber := by
  cases hc : m.flushCompleted with
  | false =>
    rw [(h.unflushed m hm hc).2]
    exact Nat.ne_of_lt (h.numbers job (mem_append_left _ hj)).1
  | true =>
    obtain ⟨-, job', hj', heq, -⟩ := h.completed m hm hc
    have hd := h.distinct
    rw [map_append, nodup_append] at hd
    intro heq'
    exact hd.2.2 _ (mem_map.mpr ⟨job, hj, rfl⟩) _ (mem_map.mpr ⟨job', hj', rfl⟩) (heq.trans heq').symm

theorem fileNumber_pos (hm : m ∈ s.memlist) (hc : m.flushCompleted = true) : 0 < m.fileNumber := by
  obtain ⟨-, job, hj, heq, -⟩ := h.completed m hm hc
  rw [← heq]
  exact (h.numbers job (mem_append_right _ hj)).1

theorem add : Lists s.add where
  __ := h
  ids := by
    change s.removed ++ (s.memlist ++ [(⟨s.nextId, false, false, 0, []⟩ : MemTable)]).map MemTable.id =
      range (s.nextId + 1)
    rw [map_append, ← append_assoc, h.ids, range_succ]
    rfl
  running := fun job hj id hid => by
    obtain ⟨m, hm, hs⟩ := h.running job hj id hid
    exact ⟨m, mem_append_left _ hm, hs⟩
  unflushed := fun m hm hc => by
    rcases mem_append.mp hm with hm | hm
    · exact h.unflushed m hm hc
    · rw [mem_singleton.mp hm]
      exact ⟨rfl, rfl⟩
  completed := fun m hm hc => by
    rcases mem_append.mp hm with hm | hm
    · exact h.completed m hm hc
    · rw [mem_singleton.mp hm] at hc
      cases hc

theorem pairwise_picked (mid : ℕ) : (s.picked mid).Pairwise (· < ·) :=
  pairwise_map.mpr ((h.pairwise.sublist (takeWhile_sublist _)).filter _)

theorem pickMemlist (mid : ℕ) :
    Lists { s with memlist := setMems (s.picked mid) (fun m => { m with flushInProgress := true }) s.memlist } where
  __ := h
  ids := by
    rw [map_id_setMems]
    · exact h.ids
    · exact fun _ => rfl
  running := fun job hj id hid => by
    obtain ⟨m, hm, hmd, hp, hc⟩ := h.running job hj id hid
    exact ⟨m, mem_setMems_of_notMem hm (h.notMem_picked hm hp), hmd, hp, hc⟩
  unflushed := fun m hm hc => by
    rcases mem_setMems_cases hm with ⟨hm, -⟩ | ⟨m', hm', -, rfl⟩
    · exact h.unflushed m hm hc
    · exact h.unflushed m' hm' hc
  completed := fun m hm hc => by
    rcases mem_setMems_cases hm with ⟨hm, -⟩ | ⟨m', hm', -, rfl⟩
    · exact h.completed m hm hc
    · exact ⟨rfl, (h.completed m' hm' hc).2⟩

theorem pickMemtablesToFlush (mid : ℕ) : Lists (s.pickMemtablesToFlush mid) := by
  have hl := h.pickMemlist mid
  unfold State.pickMemtablesToFlush
  dsimp only
  split
  · exact hl
  rename_i hne
  have hmm : ∀ id ∈ s.picked mid, ∃ m ∈ s.memlist, m.id = id ∧ m.flushInProgress = false := by
    intro id hid
    obtain ⟨m, hm, rfl⟩ := mem_map.mp hid
    obtain ⟨ht, hp⟩ := mem_filter.mp hm
    exact ⟨m, (takeWhile_sublist _).subset ht, rfl, by simpa using hp⟩
  have hap : ∀ job ∈ s.jobs, ∀ id ∈ s.picked mid, id ∉ job.mems := by
    intro job hj id hid hid'
    obtain ⟨m, hm, hmd, hp, -⟩ := h.running job hj id hid'
    exact h.notMem_picked hm hp (hmd ▸ hid)
  refine ⟨hl.ids, Nat.succ_pos _, ?_, ?_, ?_, ?_, ?_, hl.unflushed, hl.completed⟩
  · intro job hj
    rcases mem_cons.mp hj with rfl | hj
    · exact ⟨h.positive, Nat.lt_succ_self _⟩
    · have := h.numbers job hj
      exact ⟨this.1, Nat.lt_succ_of_lt this.2⟩
  · refine nodup_cons.mpr ⟨?_, h.distinct⟩
    intro hin
    obtain ⟨job, hj, heq⟩ := mem_map.mp hin
    have := (h.numbers job hj).2
    dsimp only at heq
    omega
  · intro job hj
    rcases mem_cons.mp hj with rfl | hj
    · exact ⟨hne, h.pairwise_picked mid⟩
    · exact h.mems job hj
  · intro job hj id hid
    rcases mem_cons.mp hj with rfl | hj
    · obtain ⟨m, hm, hmd, hp⟩ := hmm id hid
      refine ⟨{ m with flushInProgress := true }, mem_setMems.mpr ⟨m, hm, if_pos (hmd ▸ hid)⟩, hmd, rfl, ?_⟩
      cases hc : m.flushCompleted with
      | false => rfl
      | true =>
        rw [(h.completed m hm hc).1] at hp
        cases hp
    · exact hl.running job hj id hid
  · intro a ha b hb hab id hi hib
    rcases mem_cons.mp ha with rfl | ha
    · rcases mem_cons.mp hb with rfl | hb
      · exact hab rfl
      · exact hap b hb id hi hib
    · rcases mem_cons.mp hb with rfl | hb
      · exact hap a ha id hib hi
      · exact h.disjoint a ha b hb hab id hi hib

theorem mem_erase {job job' : FlushJob} : job' ∈ s.jobs.erase job ↔ job' ≠ job ∧ job' ∈ s.jobs :=
  h.nodup_jobs.mem_erase_iff

theorem running_erase (hj : job ∈ s.jobs) {ms : List MemTable} (hms : ∀ m ∈ s.memlist, m.id ∉ job.mems → m ∈ ms) :
    ∀ job' ∈ s.jobs.erase job, ∀ id ∈ job'.mems, ∃ m ∈ ms,
      m.id = id ∧ m.flushInProgress = true ∧ m.flushCompleted = false := by
  intro job' hj' id hid
  obtain ⟨hne, hj'⟩ := h.mem_erase.mp hj'
  obtain ⟨m, hm, hmd, hs⟩ := h.running job' hj' id hid
  have ho : m.id ∉ job.mems := by
    rw [hmd]
    exact h.disjoint job' hj' job hj hne id hid
  exact ⟨m, hms m hm ho, hmd, hs⟩

theorem rollbackMemtableFlush (hj : job ∈ s.jobs) : Lists (s.rollbackMemtableFlush job) where
  ids := by
    unfold State.rollbackMemtableFlush
    rw [map_id_setMems]
    · exact h.ids
    · exact fun _ => rfl
  positive := h.positive
  numbers := fun job' hj' => h.numbers job' (by
    rcases mem_append.mp hj' with hj' | hj'
    · exact mem_append_left _ (mem_of_mem_erase hj')
    · exact mem_append_right _ hj')
  distinct := h.distinct.sublist (((erase_sublist).append_right _).map _)
  mems := fun job' hj' => h.mems job' (mem_of_mem_erase hj')
  running := h.running_erase hj fun _ => mem_setMems_of_notMem
  disjoint := fun a ha b hb => h.disjoint a (mem_of_mem_erase ha) b (mem_of_mem_erase hb)
  unflushed := fun m hm hc => by
    rcases mem_setMems_cases hm with ⟨hm, -⟩ | ⟨m', hm', hid, rfl⟩
    · exact h.unflushed m hm hc
    refine ⟨rfl, ?_⟩
    cases hc' : m'.flushCompleted with
    | false => exact (h.unflushed m' hm' hc').2
    | true => exact absurd hid (h.notMem_job hj hm' hc')
  completed := fun m hm hc => by
    rcases mem_setMems_cases hm with ⟨hm, -⟩ | ⟨m', -, -, rfl⟩
    · exact h.completed m hm hc
    · cases hc

end

end Lists

def installed (job : FlushJob) (l : List MemTable) : List MemTable :=
  setMems job.mems (fun m => { m with flushCompleted := true, fileNumber := job.fileNumber })
    (setMems (job.mems.take 1) (fun m => { m with edit := m.edit ++ [job.fileNumber] }) l)

variable {l : List MemTable}

theorem mem_installed_cases (hm : m ∈ installed job l) :
    (m ∈ l ∧ m.id ∉ job.mems) ∨ ∃ m' ∈ l, m'.id ∈ job.mems ∧ m.id = m'.id ∧
      m.flushInProgress = m'.flushInProgress ∧ m.flushCompleted = true ∧ m.fileNumber = job.fileNumber := by
  rcases mem_setMems_cases hm with ⟨hm, hid⟩ | ⟨m1, hm1, hid, rfl⟩
  · rcases mem_setMems_cases hm with ⟨hm, -⟩ | ⟨m', hm', hid', rfl⟩
    · exact .inl ⟨hm, hid⟩
    · exact absurd (mem_of_mem_take hid') hid
  · rcases mem_setMems_cases hm1 with ⟨hm1, -⟩ | ⟨m', hm', -, rfl⟩
    · exact .inr ⟨m1, hm1, hid, rfl, rfl, rfl, rfl⟩
    · exact .inr ⟨m', hm', hid, rfl, rfl, rfl, rfl⟩

theorem mem_installed_of_notMem (hm : m ∈ l) (hid : m.id ∉ job.mems) : m ∈ installed job l :=
  mem_setMems_of_notMem (mem_setMems_of_notMem hm fun hin => hid (mem_of_mem_take hin)) hid

theorem mem_installed_head (hm : m ∈ l)
    (hh : job.mems.head? = some m.id) : ∃ h ∈ installed job l, h.id = m.id ∧ h.flushCompleted = true ∧
      h.fileNumber = job.fileNumber ∧ h.fileNumber ∈ h.edit := by
  obtain ⟨rest, hmm⟩ := head?_eq_some_iff.mp hh
  refine ⟨{ m with flushCompleted := true, fileNumber := job.fileNumber, edit := m.edit ++ [job.fileNumber] }, ?_, rfl,
    rfl, rfl, mem_append_right _ mem_cons_self⟩
  refine mem_setMems.mpr ⟨{ m with edit := m.edit ++ [job.fileNumber] }, mem_setMems.mpr ⟨m, hm, if_pos ?_⟩, if_pos ?_⟩
  · rw [hmm]
    exact mem_cons_self
  · rw [hmm]
    exact mem_cons_self

namespace Lists

section

variable (h : Lists s)

include h

theorem install (hj : job ∈ s.jobs) (commit : Commit) : Lists { s with
      memlist := installed job s.memlist
      jobs := s.jobs.erase job
      written := job :: s.written
      commit := commit } where
  ids := by
    rw [installed, map_id_setMems, map_id_setMems]
    · exact h.ids
    · exact fun _ => rfl
    · exact fun _ => rfl
  positive := h.positive
  numbers := fun job' hj' => h.numbers job' (by
    rcases mem_append.mp hj' with hj' | hj'
    · exact mem_append_left _ (mem_of_mem_erase hj')
    · rcases mem_cons.mp hj' with rfl | hj'
      · exact mem_append_left _ hj
      · exact mem_append_right _ hj')
  distinct := by
    refine (Perm.nodup_iff ?_).mp h.distinct
    apply Perm.map
    exact ((perm_cons_erase hj).append_right _).trans perm_middle.symm
  mems := fun job' hj' => h.mems job' (mem_of_mem_erase hj')
  running := h.running_erase hj fun _ => mem_installed_of_notMem
  disjoint := fun a ha b hb => h.disjoint a (mem_of_mem_erase ha) b (mem_of_mem_erase hb)
  unflushed := fun m hm hc => by
    rcases mem_installed_cases hm with ⟨hm, -⟩ | ⟨m', -, -, -, -, hc', -⟩
    · exact h.unflushed m hm hc
    · rw [hc'] at hc
      cases hc
  completed := fun m hm hc => by
    rcases mem_installed_cases hm with ⟨hm, -⟩ | ⟨m', hm', hid, heq, hp, -, hf⟩
    · obtain ⟨hp, job', hj', hs⟩ := h.completed m hm hc
      exact ⟨hp, job', mem_cons_of_mem _ hj', hs⟩
    · obtain ⟨m'', hm'', heq', hp', -⟩ := h.running job hj m'.id hid
      rw [h.eq_of_id hm'' hm' heq'] at hp'
      exact ⟨hp.trans hp', job, mem_cons_self, hf.symm, heq ▸ hid⟩

theorem running_drop {n : ℕ} (hc : ∀ m ∈ s.memlist.take n, m.flushCompleted = true) :
    ∀ job ∈ s.jobs, ∀ id ∈ job.mems, ∃ m ∈ s.memlist.drop n,
      m.id = id ∧ m.flushInProgress = true ∧ m.flushCompleted = false := by
  intro job hj id hid
  obtain ⟨m, hm, hmd, hp, hn⟩ := h.running job hj id hid
  refine ⟨m, ?_, hmd, hp, hn⟩
  rw [← take_append_drop n s.memlist] at hm
  rcases mem_append.mp hm with hm | hm
  · rw [hc m hm] at hn
    cases hn
  · exact hm

theorem remove (n : ℕ) (applied : List ℕ) (commit : Commit) (hc : ∀ m ∈ s.memlist.take n, m.flushCompleted = true) :
    Lists { s with
      memlist := s.memlist.drop n
      removed := s.removed ++ (s.memlist.take n).map MemTable.id
      applied := applied
      commit := commit } where
  __ := h
  ids := by
    rw [append_assoc, ← map_append, take_append_drop]
    exact h.ids
  running := h.running_drop hc
  unflushed := fun m hm => h.unflushed m (mem_of_mem_drop hm)
  completed := fun m hm => h.completed m (mem_of_mem_drop hm)

theorem restore (n : ℕ) (commit : Commit) (hc : ∀ m ∈ s.memlist.take n, m.flushCompleted = true) : Lists { s with
      memlist := (s.memlist.take n).map State.restoreFlags ++ s.memlist.drop n
      commit := commit } where
  __ := h
  ids := by
    rw [map_append, map_map, show MemTable.id ∘ State.restoreFlags = MemTable.id from rfl, ← map_append,
      take_append_drop]
    exact h.ids
  running := fun job hj id hid => by
    obtain ⟨m, hm, hs⟩ := h.running_drop hc job hj id hid
    exact ⟨m, mem_append_right _ hm, hs⟩
  unflushed := fun m hm hn => by
    rcases mem_append.mp hm with hm | hm
    · obtain ⟨m', -, rfl⟩ := mem_map.mp hm
      exact ⟨rfl, rfl⟩
    · exact h.unflushed m (mem_of_mem_drop hm) hn
  completed := fun m hm hc => by
    rcases mem_append.mp hm with hm | hm
    · obtain ⟨m', -, rfl⟩ := mem_map.mp hm
      cases hc
    · exact h.completed m (mem_of_mem_drop hm) hc

theorem setCommit (commit : Commit) : Lists { s with commit := commit } := by
  obtain ⟨h1, h2, h3, h4, h5, h6, h7, h8, h9⟩ := h
  exact ⟨h1, h2, h3, h4, h5, h6, h7, h8, h9⟩

theorem commitLoop : Lists s.commitLoop := by
  obtain ⟨commit, heq⟩ := commitLoop_eq s
  rw [heq]
  exact h.setCommit commit

end

end Lists

theorem batched_commitLoop (s : State) : Batched s.commitLoop := by
  intro batchCount el hcm
  unfold State.commitLoop at hcm ⊢
  dsimp only at hcm ⊢
  split at hcm
  · cases hcm
  cases hcm
  rename_i hne
  rw [if_neg hne]
  rw [← prefix_iff_eq_take.mp ( takeWhile_prefix _)]
  exact ⟨(takeWhile_sublist _).length_le, fun m hm => mem_takeWhile_imp hm, rfl⟩

theorem batched_of_ne (h : ∀ n el, s.commit ≠ .logAndApply n el) : Batched s := fun n el hc => absurd hc (h n el)

section

variable (h : Batched s) (hcm : s'.commit = s.commit)

include h hcm

theorem Batched.of_take (hl : s.memlist.length ≤ s'.memlist.length)
    (ht : ∀ n el, s.commit = .logAndApply n el → s'.memlist.take n = s.memlist.take n) :
    Batched s' := by
  intro n el hc
  rw [hcm] at hc
  obtain ⟨hn, hs⟩ := h n el hc
  rw [ht n el hc]
  exact ⟨hn.trans hl, hs⟩

theorem Batched.setMems {mems : List ℕ} (hl : s'.memlist = setMems mems f s.memlist)
    (ho : ∀ m ∈ s.memlist, m.flushCompleted = true → m.id ∉ mems) : Batched s' := by
  apply h.of_take hcm
  · rw [hl, Flush.setMems, length_map]
  · intro n el hc
    rw [hl, take_setMems]
    exact fun m hm => ho m (mem_of_mem_take hm) ((h n el hc).2.1 m hm)

theorem Batched.installed (hl : s'.memlist = installed job s.memlist)
    (ho : ∀ m ∈ s.memlist, m.flushCompleted = true → m.id ∉ job.mems) : Batched s' := by
  have hf : Batched { s with
      memlist := Flush.setMems (job.mems.take 1) (fun m => { m with edit := m.edit ++ [job.fileNumber] }) s.memlist } :=
    h.setMems rfl rfl fun m hm hc hin => ho m hm hc (mem_of_mem_take hin)
  refine hf.setMems hcm hl ?_
  intro m hm hc
  rcases mem_setMems_cases hm with ⟨hm, -⟩ | ⟨m', hm', -, rfl⟩
  · exact ho m hm hc
  · exact ho m' hm' hc

end

namespace Backed

theorem init : Backed {} := ⟨fun _ hm => (nomatch hm), fun _ hid => (nomatch hid)⟩

theorem setCommit (h : Backed s) (commit : Commit) : Backed { s with commit := commit } := ⟨h.source, h.done⟩

theorem commitLoop (h : Backed s) : Backed s.commitLoop := by
  obtain ⟨commit, heq⟩ := commitLoop_eq s
  rw [heq]
  exact h.setCommit commit

theorem add (h : Backed s) (hli : Lists s) : Backed s.add := by
  refine ⟨fun m hm hc => ?_, h.done⟩
  rcases mem_append.mp hm with hm | hm
  · have hp := hli.fileNumber_pos hm hc
    rcases h.source m hm hc with ha | ⟨x, hx, hxc, hf, he, hl⟩
    · exact .inl ha
    refine .inr ⟨x, mem_append_left _ hx, hxc, hf, he, fun m' hm' heq => ?_⟩
    rcases mem_append.mp hm' with hm' | hm'
    · exact hl m' hm' heq
    · rw [mem_singleton.mp hm'] at heq
      dsimp only at heq
      omega
  · rw [mem_singleton.mp hm] at hc
    cases hc

theorem setMems (h : Backed s) {mems : List ℕ} {jobs : List FlushJob} {nf : ℕ}
    (hid : ∀ m, (f m).id = m.id) (hf : ∀ m, (f m).fileNumber = m.fileNumber)
    (hn : ∀ m, m.flushCompleted = false → (f m).flushCompleted = false)
    (ho : ∀ m ∈ s.memlist, m.flushCompleted = true → m.id ∉ mems) :
    Backed { s with memlist := Flush.setMems mems f s.memlist, jobs := jobs, nextFileNumber := nf } := by
  refine ⟨fun m hm hc => ?_, h.done⟩
  have hm' : m ∈ s.memlist := by
    rcases mem_setMems_cases hm with ⟨hm, -⟩ | ⟨m', hm', hin, rfl⟩
    · exact hm
    cases hc' : m'.flushCompleted with
    | false =>
      rw [hn m' hc'] at hc
      cases hc
    | true => exact absurd hin (ho m' hm' hc')
  rcases h.source m hm' hc with ha | ⟨x, hx, hxc, hxf, he, hl⟩
  · exact .inl ha
  refine .inr ⟨x, mem_setMems_of_notMem hx (ho x hx hxc), hxc, hxf, he, fun y hy heq => ?_⟩
  rcases mem_setMems_cases hy with ⟨hy, -⟩ | ⟨y', hy', -, rfl⟩
  · exact hl y hy heq
  · rw [hid]
    exact hl y' hy' ((hf y').symm.trans heq)

section

variable (h : Backed s) (hli : Lists s)

include h hli

theorem pickMemtablesToFlush (mid : ℕ) : Backed (s.pickMemtablesToFlush mid) := by
  have ho : ∀ m ∈ s.memlist, m.flushCompleted = true → m.id ∉ s.picked mid :=
    fun m hm hc => hli.notMem_picked hm (hli.completed m hm hc).1
  unfold State.pickMemtablesToFlush
  dsimp only
  split
  · exact h.setMems (fun _ => rfl) (fun _ => rfl) (fun _ hc => hc) ho
  · exact h.setMems (fun _ => rfl) (fun _ => rfl) (fun _ hc => hc) ho

theorem rollbackMemtableFlush (hj : job ∈ s.jobs) : Backed (s.rollbackMemtableFlush job) :=
  h.setMems (fun _ => rfl) (fun _ => rfl) (fun _ _ => rfl) fun _ hm hc => hli.notMem_job hj hm hc

theorem install (hj : job ∈ s.jobs) (commit : Commit) : Backed { s with
      memlist := installed job s.memlist
      jobs := s.jobs.erase job
      written := job :: s.written
      commit := commit } := by
  have ho : ∀ m ∈ s.memlist, m.flushCompleted = true → m.id ∉ job.mems := fun m hm hc => hli.notMem_job hj hm hc
  refine ⟨fun m hm hc => ?_, fun id hid => ?_⟩
  · rcases mem_installed_cases hm with ⟨hm, -⟩ | ⟨m', hm', hin, -, -, -, hf⟩
    · rcases h.source m hm hc with ha | ⟨x, hx, hxc, hxf, he, hl⟩
      · exact .inl ha
      refine .inr ⟨x, mem_installed_of_notMem hx (ho x hx hxc), hxc, hxf, he, fun y hy heq => ?_⟩
      rcases mem_installed_cases hy with ⟨hy, -⟩ | ⟨y', -, -, -, -, -, hyf⟩
      · exact hl y hy heq
      · exact absurd (heq.symm.trans hyf) (hli.fileNumber_ne hj hm)
    · -- the first memtable of the job carries the edit of all of them
      obtain ⟨hne, hs⟩ := hli.mems job hj
      obtain ⟨first, rest, hmm⟩ := exists_cons_of_ne_nil hne
      obtain ⟨m0, hm0, hid0, -⟩ := hli.running job hj first (hmm ▸ mem_cons_self)
      obtain ⟨x, hx, hxd, hxc, hxf, he⟩ := mem_installed_head hm0 (by rw [hmm, hid0]; rfl)
      refine .inr ⟨x, hx, hxc, hxf.trans hf.symm, he, fun y hy heq => ?_⟩
      rcases mem_installed_cases hy with ⟨hy, -⟩ | ⟨y', -, hyn, hyd, -⟩
      · exact absurd (heq.trans hf) (hli.fileNumber_ne hj hy)
      rw [hxd, hid0, hyd]
      rw [hmm] at hyn hs
      rcases mem_cons.mp hyn with heq' | hin'
      · rw [heq']
      · exact ((pairwise_cons.mp hs).1 _ hin').le
  · obtain ⟨job', hj', hsp⟩ := h.done id hid
    exact ⟨job', mem_cons_of_mem _ hj', hsp⟩

theorem mem_applied {n : ℕ} (hm : m ∈ s.memlist.take n) (hc : m.flushCompleted = true) : m.fileNumber ∈ s.applied ++
      (s.memlist.filter fun m => m.id ∈ State.editLoop none (s.memlist.take n)).flatMap MemTable.edit := by
  rcases h.source m (mem_of_mem_take hm) hc with ha | ⟨x, hx, -, hxf, he, hl⟩
  · exact mem_append_left _ ha
  -- the memtable with the edit is not younger, so it is in the batch too
  have hxt : x ∈ s.memlist.take n := by
    have hle := hl m (mem_of_mem_take hm) rfl
    have hs := hli.pairwise
    rw [← take_append_drop n s.memlist] at hx hs
    rcases mem_append.mp hx with hx | hx
    · exact hx
    · have := (pairwise_append.mp hs).2.2 m hm x hx
      omega
  have hls : x.id ∈ State.editLoop none (s.memlist.take n) :=
    mem_editLoop (hli.pairwise.sublist (take_sublist n _)) hxt nofun fun y hy heq =>
      hl y (mem_of_mem_take hy) (heq.trans hxf)
  refine mem_append_right _ (mem_flatMap.mpr ⟨x, mem_filter.mpr ⟨hx, by simpa using hls⟩, ?_⟩)
  exact hxf ▸ he

theorem remove (n : ℕ) (commit : Commit) (hc : ∀ m ∈ s.memlist.take n, m.flushCompleted = true) : Backed { s with
      memlist := s.memlist.drop n
      removed := s.removed ++ (s.memlist.take n).map MemTable.id
      applied := s.applied ++
        (s.memlist.filter fun m => m.id ∈ State.editLoop none (s.memlist.take n)).flatMap MemTable.edit
      commit := commit } := by
  refine ⟨fun m hm hmc => ?_, fun id hid => ?_⟩
  · rcases h.source m (mem_of_mem_drop hm) hmc with ha | ⟨x, hx, hxc, hxf, he, hl⟩
    · exact .inl (mem_append_left _ ha)
    rw [← take_append_drop n s.memlist] at hx
    rcases mem_append.mp hx with hx | hx
    · exact .inl (hxf ▸ h.mem_applied hli hx hxc)
    · exact .inr ⟨x, hx, hxc, hxf, he, fun y hy => hl y (mem_of_mem_drop hy)⟩
  · rcases mem_append.mp hid with hid | hid
    · obtain ⟨job, hj, hin, hf⟩ := h.done id hid
      exact ⟨job, hj, hin, mem_append_left _ hf⟩
    · obtain ⟨m, hm, rfl⟩ := mem_map.mp hid
      obtain ⟨-, job, hj, hf, hin⟩ := hli.completed m (mem_of_mem_take hm) (hc m hm)
      exact ⟨job, hj, hin, hf ▸ h.mem_applied hli hm (hc m hm)⟩

theorem restore (n : ℕ) (commit : Commit)
    (hw : ∀ m ∈ s.memlist.drop n, m.flushCompleted = true → ∀ m' ∈ s.memlist.take n, m'.fileNumber ≠ m.fileNumber) :
    Backed { s with
      memlist := (s.memlist.take n).map State.restoreFlags ++ s.memlist.drop n
      commit := commit } := by
  refine ⟨fun m hm hmc => ?_, h.done⟩
  rcases mem_append.mp hm with hm | hm
  · obtain ⟨m', -, rfl⟩ := mem_map.mp hm
    cases hmc
  have hm' := mem_of_mem_drop hm
  rcases h.source m hm' hmc with ha | ⟨x, hx, hxc, hxf, he, hl⟩
  · exact .inl ha
  rw [← take_append_drop n s.memlist] at hx
  rcases mem_append.mp hx with hx | hx
  · exact absurd hxf (hw m hm hmc x hx)
  refine .inr ⟨x, mem_append_right _ hx, hxc, hxf, he, fun y hy heq => ?_⟩
  rcases mem_append.mp hy with hy | hy
  · obtain ⟨y', -, rfl⟩ := mem_map.mp hy
    have := hli.fileNumber_pos hm' hmc
    change 0 = m.fileNumber at heq
    omega
  · exact hl y (mem_of_mem_drop hy) heq

end

end Backed

def WholeBatch (memlist : List MemTable) : Commit → Prop
  | .logAndApply batchCount _ => ∀ m ∈ memlist.drop batchCount, m.flushCompleted = true →
    ∀ m' ∈ memlist.take batchCount, m'.fileNumber ≠ m.fileNumber
  | _ => True

instance (memlist : List MemTable) : (commit : Commit) → Decidable (WholeBatch memlist commit)
  | .logAndApply batchCount _ => inferInstanceAs (Decidable (∀ m ∈ memlist.drop batchCount, m.flushCompleted = true →
    ∀ m' ∈ memlist.take batchCount, m'.fileNumber ≠ m.fileNumber))
  | .idle | .returned _ => inferInstanceAs (Decidable True)

def Whole (s : State) : Action → Prop
  | .logAndApply .failed => WholeBatch s.memlist s.commit
  | .logAndApply .dropped => WholeBatch s.memlist s.commit
  | _ => True

instance (s : State) : (a : Action) → Decidable (Whole s a)
  | .logAndApply .failed | .logAndApply .dropped => inferInstanceAs (Decidable (WholeBatch s.memlist s.commit))
  | .logAndApply .applied | .logAndApply .notLogged | .add | .pickMemtablesToFlush _ | .rollbackMemtableFlush _
  | .tryInstallMemtableFlushResults _ | .resume => inferInstanceAs (Decidable True)

theorem pickMemtablesToFlush_fields (s : State) (mid : ℕ) :
    let r := s.pickMemtablesToFlush mid
    r.memlist = setMems (s.picked mid) (fun m => { m with flushInProgress := true }) s.memlist ∧
      r.commit = s.commit := by
  unfold State.pickMemtablesToFlush
  dsimp only
  split
  · exact ⟨rfl, rfl⟩
  · exact ⟨rfl, rfl⟩

theorem step_elim (hs : step s a = some s') {P : Action → State → Prop} (ha : P .add s.add)
    (hp : ∀ n, P (.pickMemtablesToFlush n) (s.pickMemtablesToFlush n))
    (hr : ∀ job ∈ s.jobs, P (.rollbackMemtableFlush job) (s.rollbackMemtableFlush job))
    (hi : ∀ job ∈ s.jobs, P (.tryInstallMemtableFlushResults job) (s.tryInstallMemtableFlushResults job))
    (hl : ∀ out n el, s.commit = .logAndApply n el → P (.logAndApply out) (s.logAndApply out n el))
    (hrs : P .resume s.commitLoop) (hil : P .resume { s with commit := .idle }) : P a s' := by
  cases a with
  | add =>
    cases hs
    exact ha
  | pickMemtablesToFlush n =>
    cases hs
    exact hp n
  | rollbackMemtableFlush job =>
    rw [step] at hs
    split at hs
    · next hj =>
      cases hs
      exact hr job hj
    · cases hs
  | tryInstallMemtableFlushResults job =>
    rw [step] at hs
    split at hs
    · next hj =>
      cases hs
      exact hi job hj
    · cases hs
  | logAndApply out =>
    rw [step] at hs
    split at hs
    · next hcm =>
      cases hs
      exact hl out _ _ hcm
    · cases hs
  | resume =>
    rw [step] at hs
    split at hs
    · cases hs
      exact hrs
    · cases hs
      exact hil
    · cases hs

theorem lists_step (h : Lists s ∧ Batched s) (hs : step s a = some s') : Lists s' ∧ Batched s' := by
  obtain ⟨hli, hb⟩ := h
  refine step_elim hs (P := fun _ s' => Lists s' ∧ Batched s') ?_ ?_ ?_ ?_ ?_ ⟨hli.commitLoop, batched_commitLoop _⟩
    ⟨hli.setCommit _, batched_of_ne nofun⟩
  · refine ⟨hli.add, hb.of_take rfl ?_ ?_⟩
    · simp [State.add]
    · exact fun n el hc => take_append_of_le_length (hb n el hc).1
  · intro n
    obtain ⟨hmm, hcm⟩ := pickMemtablesToFlush_fields s n
    exact ⟨hli.pickMemtablesToFlush n, hb.setMems hcm hmm fun m hm hc => hli.notMem_picked hm (hli.completed m hm hc).1⟩
  · exact fun job hj =>
      ⟨hli.rollbackMemtableFlush hj, hb.setMems rfl rfl fun m hm hc => hli.notMem_job hj hm hc⟩
  · intro job hj
    unfold State.tryInstallMemtableFlushResults
    split
    · exact ⟨(hli.install hj s.commit).commitLoop, batched_commitLoop _⟩
    · exact ⟨hli.install hj s.commit, hb.installed rfl rfl fun m hm hc => hli.notMem_job hj hm hc⟩
  · intro out n el hcm
    obtain ⟨-, hc, -⟩ := hb n el hcm
    cases out with
    | applied => exact ⟨hli.remove n _ _ hc, batched_of_ne nofun⟩
    | failed | dropped => exact ⟨hli.restore n _ hc, batched_of_ne nofun⟩
    | notLogged => exact ⟨hli.setCommit _, batched_of_ne nofun⟩

theorem backed_step (hli : Lists s) (hb : Batched s) (h : Backed s) (hs : step s a = some s') :
    Whole s a → Backed s' := by
  refine step_elim hs (P := fun a s' => Whole s a → Backed s') (fun _ => h.add hli)
    (fun n _ => h.pickMemtablesToFlush hli n) (fun _ hj _ => h.rollbackMemtableFlush hli hj) ?_ ?_
    (fun _ => h.commitLoop) (fun _ => h.setCommit _)
  · intro job hj _
    unfold State.tryInstallMemtableFlushResults
    split
    · exact (h.install hli hj s.commit).commitLoop
    · exact h.install hli hj s.commit
  · intro out n el hcm hw
    obtain ⟨-, hc, rfl⟩ := hb n el hcm
    cases out with
    | applied => exact h.remove hli n _ hc
    | failed | dropped =>
      rw [Whole, hcm] at hw
      exact h.restore hli n _ hw
    | notLogged => exact h.setCommit _

/-- Memtables leave the list oldest first, each after its file was added, unless a failed commit restores a part of the
memtables of a file. -/
theorem flush_keeps_data {actions : List Action} (hrun : run step {} actions = some s) :
    s.removed ++ s.memlist.map MemTable.id = range s.nextId ∧
    (Along step Whole {} actions →
      ∀ id ∈ s.removed, ∃ job ∈ s.written, id ∈ job.mems ∧ job.fileNumber ∈ s.applied) := by
  have hi : Lists {} ∧ Batched {} := ⟨Lists.init, batched_of_ne nofun⟩
  refine ⟨(run_invariant (fun s => Lists s ∧ Batched s) (fun _ _ _ hs h => lists_step h hs) hrun hi).1.ids, ?_⟩
  intro hwh
  have hiv : (Lists s ∧ Batched s) ∧ Backed s := run_invariant_along Whole (fun s => (Lists s ∧ Batched s) ∧ Backed s)
      (fun _ _ _ hw hs h => ⟨lists_step h.1 hs, backed_step h.1.1 h.1.2 h.2 hs hw⟩) hrun hwh ⟨hi, Backed.init⟩
  exact hiv.2.done

def retriedFlush : List Action :=
  [.add, .add, .pickMemtablesToFlush 1, .tryInstallMemtableFlushResults ⟨[0, 1], 1⟩, .logAndApply .failed, .resume,
    .pickMemtablesToFlush 1, .tryInstallMemtableFlushResults ⟨[0, 1], 2⟩, .logAndApply .applied]

theorem flush_keeps_data_retriedFlush : ∃ s, run step {} retriedFlush = some s ∧ s.removed = [0, 1] ∧
    ∀ id ∈ s.removed, ∃ job ∈ s.written, id ∈ job.mems ∧ job.fileNumber ∈ s.applied :=
  ⟨_, rfl, rfl, (@flush_keeps_data _ retriedFlush rfl).2 (by decide)⟩

def splitFlush : List Action :=
  [.add, .pickMemtablesToFlush 0, .add, .pickMemtablesToFlush 1, .rollbackMemtableFlush ⟨[0], 1⟩, .add,
    .pickMemtablesToFlush 2, .tryInstallMemtableFlushResults ⟨[0, 2], 3⟩, .logAndApply .failed, .resume,
    .pickMemtablesToFlush 2, .tryInstallMemtableFlushResults ⟨[1], 2⟩, .tryInstallMemtableFlushResults ⟨[0], 4⟩,
    .logAndApply .applied]

theorem splitFlush_loses_memtable : ∃ s, run step {} splitFlush = some s ∧ s.removed = [0, 1, 2] ∧ s.applied = [4, 2] ∧
    ∀ job ∈ s.written, 2 ∈ job.mems → job.fileNumber ∉ s.applied :=
  ⟨_, rfl, rfl, rfl, by decide⟩

/-- Whatever fails, no two jobs flush one memtable at a time, and every job has a file of its own. -/
theorem jobs_disjoint {actions : List Action} (hrun : run step {} actions = some s) :
    (∀ a ∈ s.jobs, ∀ b ∈ s.jobs, a ≠ b → ∀ id ∈ a.mems, id ∉ b.mems) ∧
    (∀ job ∈ s.jobs, ∀ id ∈ job.mems, ∃ m ∈ s.memlist, m.id = id ∧ m.flushInProgress ∧ !m.flushCompleted) ∧
    ((s.jobs ++ s.written).map FlushJob.fileNumber).Nodup := by
  have h := (run_invariant (fun s => Lists s ∧ Batched s) (fun _ _ _ hs h => lists_step h hs) hrun
    ⟨Lists.init, batched_of_ne nofun⟩).1
  exact ⟨h.disjoint, by simpa using h.running, h.distinct⟩

theorem jobs_disjoint_two : ∃ s, run step {} [.add, .pickMemtablesToFlush 0, .add, .pickMemtablesToFlush 1] = some s ∧
    s.jobs = [⟨[1], 2⟩, ⟨[0], 1⟩] ∧ ((s.jobs ++ s.written).map FlushJob.fileNumber).Nodup :=
  ⟨_, rfl, rfl, (@jobs_disjoint _ [.add, .pickMemtablesToFlush 0, .add, .pickMemtablesToFlush 1] rfl).2.2⟩

end ZenFSPlus.Db.Flush
