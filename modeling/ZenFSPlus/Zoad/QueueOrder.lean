import ZenFSPlus.Zoad.Lifetime

namespace ZenFSPlus.Zoad

open Lib List

def Pc.promises : Pc → Bool
  | .checked _ ret | .push _ _ _ ret => ret = 0
  | _ => false

theorem Pc.inside_of_promises {pc : Pc} (h : pc.promises = true) : pc.inside = true := by
  cases pc <;> simp_all [Pc.promises, Pc.inside]

def WorkerPc.draining : WorkerPc → Bool
  | .test drain | .run _ drain | .busy _ drain | .free _ drain => drain
  | .status => false
  | .ended => true

namespace Protocol

namespace State

variable {s s' : State} {t : ℕ} {a : Action} {past : ℕ → ℕ → ℕ}

def Promised (s : State) : Prop := ∀ t, (s.threads t).promises = true → s.closed = false

theorem Promised.thread (h : s.Promised) (hl : s.Locked) (hm : s.ThreadMove t s') : s'.Promised := by
  have hg {pc : Pc} (hpc : pc.promises = true → s.closed = false) :
      ∀ t', ((s.goto t pc).threads t').promises = true → s.closed = false :=
    forall_goto (fun _ pc => pc.promises = true → s.closed = false) hpc h
  have ht := h t
  cases hm
  case closeAgain | loadExit | syncEnd | freed => exact h
  case close hpc _ =>
    -- a call with a promise holds the lock that this thread holds
    refine forall_goto_of_ne (fun _ pc => pc.promises = true → true = false) (by simp [Pc.promises]) ?_
    intro t' hne ht'
    have ho := hl.outside (by rw [hpc]; rfl) hne
    rwa [Pc.inside_of_promises ht'] at ho
  case check op hpc _ =>
    refine hg fun hp => ?_
    by_cases hc : s.closed = true
    · simp [Pc.promises, hc] at hp
    · exact Bool.not_eq_true _ ▸ hc
  case flushOld hpc _ | flushNew hpc _ | delFound hpc _ =>
    rw [hpc] at ht
    exact hg ht
  case lock | loadFound | syncFound | notFound | push | pushed | unlock | loadUnlock | loadShort |
      loadSize | loadLock | loadRead | syncUnlock | syncGet | syncLock | syncWait | syncClear =>
    exact hg fun hp => absurd hp (by simp [Pc.promises])

theorem ThreadMove.closed (hm : s.ThreadMove t s') : s.closed = true → s'.closed = true := by
  cases hm
  case close => exact fun _ => rfl
  all_goals exact id

theorem ThreadMove.worker (hm : s.ThreadMove t s') : s'.worker = s.worker := by
  cases hm <;> rfl

theorem ThreadMove.executed (hm : s.ThreadMove t s') : s'.executed = s.executed := by
  cases hm <;> rfl

def AllDone (s : State) : Prop :=
  (∀ a ∈ s.acked, a.req ∈ s.executed) ∧
    ∀ t name req, s.threads t = .pushed name req 0 → req ∈ s.executed

structure Served (s : State) : Prop where
  queued : s.Queued
  locked : s.Locked
  promised : s.Promised
  drained : s.worker.draining = true → s.closed = true
  ended : s.worker = .ended → s.AllDone

theorem Served.allDone_thread (h : s.Served) (hw : s.worker = .ended) (hm : s.ThreadMove t s') : s'.AllDone := by
  have hc : s.closed = true := h.drained (by rw [hw]; rfl)
  obtain ⟨hac, hp⟩ := h.ended hw
  rcases hm.requests with ⟨name, rw, data, ret, hpc, rfl⟩ | ⟨name, req, ret, hpc, rfl⟩ | hq
  · refine ⟨hac, ?_⟩
    refine forall_goto (fun _ pc => ∀ name req, pc = .pushed name req 0 → req ∈ s.executed) ?_ hp
    rintro _ _ ⟨⟩
    -- the partition was found open by this call, but the worker has seen it closed
    have ho := h.promised t (by rw [hpc]; rfl)
    rw [ho] at hc
    cases hc
  · refine ⟨?_, fun t' name' req' ht =>
      hp t' name' req' (Quiet.goto (by simp) t' name' req' 0 ht)⟩
    intro a ha
    split at ha
    · rename_i hr
      subst hr
      rcases mem_append.mp ha with ha | ha
      · exact hac a ha
      · rw [mem_singleton.mp ha]
        exact hp t name req hpc
    · exact hac a ha
  · refine ⟨fun a ha => ?_, fun t' name req ht => ?_⟩
    · rw [hq.executed]
      exact hac a (hq.acked ▸ ha)
    · rw [hq.executed]
      exact hp t' name req (hq.pushed t' name req 0 ht)

theorem draining_worker (hm : s.WorkerMove past s') (h : s.worker.draining = true → s.closed = true) :
    s'.worker.draining = true → s.closed = true := by
  cases hm with
  | empty hpc hq => exact fun hd => by cases hd
  | ended hpc hq => exact fun _ => h (by rw [hpc]; rfl)
  | pop drain req rest hpc hq => exact fun hd => h (by rw [hpc]; exact hd)
  | start req drain hpc _ | deleted req drain hpc _ => exact fun hd => h (by rw [hpc]; exact hd)
  | append req drain buf sys u hpc _ _ =>
    intro hd
    refine h ?_
    rw [hpc]
    cases drain with
    | false => cases hd
    | true => rfl
  | appendExit => exact h
  | free req drain hpc =>
    intro hd
    refine h ?_
    rw [hpc]
    cases drain with
    | false => cases hd
    | true => rfl
  | status hpc => exact id
  | freed => exact h

theorem WorkerMove.ended_cases (hm : s.WorkerMove past s') (hw : s'.worker = .ended) :
    s'.executed = s.executed ∧ s.worker = .test true ∧ s.ioQueue = [] := by
  cases hm with
  | ended hpc hq => exact ⟨rfl, hpc, hq⟩
  | append req drain | free req drain => cases drain <;> cases hw
  | appendExit req drain buf fault hpc => cases hpc.symm.trans hw
  | freed req hr =>
    have hw : s.worker = .ended := hw
    simp [hw] at hr
  | _ => cases hw

theorem Served.step (h : s.Served) (hs : s.step a = some s') : s'.Served := by
  have hqd := h.queued.step hs
  have hl := h.locked.step hs
  cases move_of_step hs with
  | call t op lock hpc =>
    refine ⟨hqd, hl, ?_, h.drained, fun hw => ⟨(h.ended hw).1, fun t' name req ht =>
      (h.ended hw).2 t' name req (Quiet.goto (by simp) t' name req 0 ht)⟩⟩
    exact forall_goto (fun _ pc => pc.promises = true → s.closed = false) (by simp [Pc.promises]) h.promised
  | thread t hm =>
    refine ⟨hqd, hl, h.promised.thread h.locked hm, fun hd => ?_, fun hw => ?_⟩
    · rw [hm.worker] at hd
      exact hm.closed (h.drained hd)
    · exact h.allDone_thread (hm.worker ▸ hw) hm
  | worker past hm =>
    obtain ⟨hth, -, hc, -, hen, hac, -⟩ := hm.frame
    refine ⟨hqd, hl, ?_, ?_, fun hw => ?_⟩
    · intro t ht
      rw [hc]
      exact h.promised t (hth ▸ ht)
    · rw [hc]
      exact draining_worker hm h.drained
    · -- the last test has found the queue empty
      have hal : s'.executed = s'.enqueued := by
        obtain ⟨he, hpc, hq⟩ := hm.ended_cases hw
        have ho := h.queued.order
        rw [hpc, hq] at ho
        rw [he, hen, ← ho]
        simp
      exact ⟨fun a ha => hal ▸ hqd.acked a ha, fun t name req ht => hal ▸ hqd.pushed t name req 0 ht⟩

theorem Opened.served (h : s.Opened) : s.Served where
  queued := ⟨by simp [h.executed, h.worker, h.ioQueue, h.enqueued], by simp [h.enqueued],
    fun t _ _ _ ht => by simp [h.threads] at ht, fun a ha => by simp [h.acked] at ha⟩
  locked t ht := by simp [h.threads, Pc.inside] at ht
  promised t ht := by simp [h.threads, Pc.promises] at ht
  drained hd := by simp [h.worker, WorkerPc.draining] at hd
  ended hw := by simp [h.worker] at hw

def stepsLeft : WorkerPc → ℕ
  | .status => 5
  | .test _ => 4
  | .run _ _ => 3
  | .busy _ _ => 2
  | .free _ _ => 1
  | .ended => 0

def rank (s : State) (i : ℕ) : ℕ := 5 * (i - s.executed.length) + stepsLeft s.worker

theorem stepsLeft_le (pc : WorkerPc) : stepsLeft pc ≤ 5 := by
  cases pc <;> simp [stepsLeft]

theorem Queued.getElem_id (h : s.Queued) (i : ℕ) (hi : i < s.enqueued.length) : s.enqueued[i].id = i := by
  have hg : (s.enqueued.map IORequest.id)[i]? = (range s.enqueued.length)[i]? := by rw [h.ids]
  simpa [hi] using hg

theorem Queued.id_lt (h : s.Queued) {req : IORequest} (hr : req ∈ s.enqueued) : req.id < s.enqueued.length := by
  obtain ⟨i, hi, rfl⟩ := getElem_of_mem hr
  rwa [h.getElem_id]

theorem Queued.executed_prefix (h : s.Queued) : s.executed <+: s.enqueued :=
  ⟨s.worker.hand ++ s.ioQueue, by rw [← h.order, append_assoc]⟩

theorem Queued.mem_executed (h : s.Queued) {req : IORequest} (hr : req ∈ s.enqueued) :
    req ∈ s.executed ↔ req.id < s.executed.length := by
  have hp := h.executed_prefix
  constructor
  · intro hm
    obtain ⟨i, hi, rfl⟩ := getElem_of_mem hm
    rw [hp.getElem hi, h.getElem_id]
    exact hi
  · intro hlt
    obtain ⟨i, hi, rfl⟩ := getElem_of_mem hr
    rw [h.getElem_id] at hlt
    rw [← hp.getElem hlt]
    exact getElem_mem hlt

theorem Queued.rank_worker (h : s.Queued) (hm : s.WorkerMove past s') (hh : s'.halted = none) {i : ℕ}
    (hi : s.executed.length ≤ i) (hlt : i < s.enqueued.length) :
    i < s'.executed.length ∨ s'.rank i < s.rank i := by
  have hn (hpc : s.worker.hand = []) (hq : s.ioQueue = []) : False := by
    have ho := congrArg List.length h.order
    simp only [hpc, hq, append_nil] at ho
    omega
  have hf (req : IORequest) (drain : Bool) (hl : 0 < stepsLeft s.worker) : i < (s.executed ++ [req]).length ∨
        5 * (i - (s.executed ++ [req]).length) + stepsLeft (afterRequest drain) < s.rank i := by
    have hle := stepsLeft_le (afterRequest drain)
    rw [length_append, length_singleton, rank]
    omega
  cases hm with
  | empty hpc hq | ended hpc hq => exact (hn (by rw [hpc]; rfl) hq).elim
  | pop drain req rest hpc hq => right; simp [rank, hpc, stepsLeft]
  | start req drain hpc _ => right; simp [rank, hpc, stepsLeft, setRemainWriteReq, setWriteLock]
  | append req drain buf sys u hpc _ _ => exact hf req drain (by rw [hpc]; exact Nat.succ_pos _)
  | appendExit => cases hh
  | deleted req drain hpc _ => right; simp [rank, hpc, stepsLeft, setRemainWriteReq, setWriteLock]
  | free req drain hpc => exact hf req drain (by rw [hpc]; exact Nat.succ_pos _)
  | status hpc => right; simp [rank, hpc, stepsLeft]
  | freed => cases hh

theorem halted_of_run {as : List Action} (hr : run step s as = some s') (hh : s'.halted = none) : s.halted = none := by
  cases as with
  | nil =>
    cases hr
    exact hh
  | cons a as =>
    obtain ⟨u, hu, -⟩ := run_cons.mp hr
    unfold step at hu
    split at hu
    · cases hu
    · assumption

theorem acked_step (hs : s.step a = some s') {x : Ack} (hx : x ∈ s.acked) : x ∈ s'.acked := by
  cases move_of_step hs with
  | call => exact hx
  | thread t hm =>
    rcases hm.requests with ⟨name, rw, data, ret, -, rfl⟩ | ⟨name, req, ret, -, rfl⟩ | hq
    · exact hx
    · split
      · exact mem_append_left _ hx
      · exact hx
    · exact hq.acked ▸ hx
  | worker past hm =>
    obtain ⟨-, -, -, -, -, ha, -⟩ := hm.frame
    exact ha ▸ hx

theorem executed_step (hs : s.step a = some s') : s.executed <+: s'.executed := by
  cases move_of_step hs with
  | call => exact prefix_rfl
  | thread t hm => exact hm.executed ▸ prefix_rfl
  | worker past hm => exact hm.requests.2

end State

def Action.isWorker : Action → Bool
  | .worker _ => true
  | _ => false

namespace State

variable {s s' : State} {t : ℕ} {a : Action}

theorem Served.executed_of_run (h : s.Served) {x : Ack} (hx : x ∈ s.acked) {as : List Action}
    (hr : run State.step s as = some s') (hh : s'.halted = none)
    (hc : s.rank x.req.id ≤ as.countP Action.isWorker) : x.req ∈ s'.executed := by
  induction as generalizing s with
  | nil =>
    have hs : s = s' := Option.some.inj hr
    subst hs
    by_cases hen : s.worker = .ended
    · exact (h.ended hen).1 x hx
    have hl : 0 < stepsLeft s.worker := by
      cases hw : s.worker <;> simp_all [stepsLeft]
    simp only [rank, countP_nil] at hc
    omega
  | cons a as ih =>
    obtain ⟨u, hu, hrs⟩ := run_cons.mp hr
    have hu' := h.step hu
    have hxu := acked_step hu hx
    by_cases hd : x.req ∈ u.executed
    · exact run_invariant (fun t => x.req ∈ t.executed) (fun _ _ _ ht hmm => (executed_step ht).subset hmm) hrs hd
    have hrq := h.queued.acked x hx
    have hi : u.executed.length ≤ x.req.id := by
      rw [hu'.queued.mem_executed (hu'.queued.acked x hxu)] at hd
      omega
    refine ih hu' hxu hrs ?_
    have hsame (he : u.executed = s.executed) (hw : u.worker = s.worker) : u.rank x.req.id = s.rank x.req.id := by
      rw [rank, rank, he, hw]
    cases move_of_step hu with
    | call t op lock hpc =>
      rw [countP_cons_of_neg (by simp [Action.isWorker])] at hc
      exact hc
    | thread t hm =>
      rw [countP_cons_of_neg (by simp [Action.isWorker])] at hc
      rwa [hsame hm.executed hm.worker]
    | worker past hm =>
      rw [countP_cons_of_pos (by rfl)] at hc
      have hlt := h.queued.id_lt hrq
      have hle := hm.requests.2.length_le
      have hst := h.queued.rank_worker hm (halted_of_run hrs hh) (by omega) hlt
      omega

theorem WriteLocked.worker_holds (h : s.WriteLocked) (hw : ∀ t, (s.threads t).Within Writer) {data : ℕ}
    (hl : s.writeLock data = true) : s.worker.holds = some data := by
  rcases h data hl with hwr | ⟨t, ht⟩
  · exact hwr
  · have hpc := hw t
    cases hth : s.threads t <;> simp_all [Pc.holds, Pc.Within, Writer]

theorem workerStep_ne_none (h : s.WriteLocked) (ht : ∀ t, (s.threads t).Within Writer)
    (hw : s.worker ≠ .ended) (past : ℕ → ℕ → ℕ) :
    s.workerStep past ≠ none := by
  unfold workerStep deref
  cases hpc : s.worker with
  | test drain =>
    cases s.ioQueue <;> simp
  | run req drain =>
    have hf : s.writeLock req.data = false := by
      by_contra hl
      have hh := h.worker_holds ht (Bool.not_eq_false _ ▸ hl)
      simp [hpc, WorkerPc.holds] at hh
    dsimp only
    split <;> simp [hf]
  | busy req drain =>
    dsimp only
    split
    · simp
    · split
      · split <;> simp
      · simp
  | free req drain =>
    dsimp only
    split <;> simp
  | status => simp
  | ended => exact absurd hpc hw

structure Progressing (s : State) : Prop where
  served : s.Served
  within : ∀ t, (s.threads t).Within Writer
  locks : s.WriteLocked

theorem Progressing.step (h : s.Progressing) (ha : a.Within Writer) (hs : s.step a = some s') : s'.Progressing :=
  ⟨h.served.step hs, within_step h.within ha hs, h.locks.step hs⟩

/-- In every interleaving of `z_flush`, `z_del` and `z_closelp` with the worker, requests are executed in the order of
the pushes and once each; the worker ends only when the acknowledged ones are executed, and until then it has a step to
take. -/
theorem requests_served {s0 : State} (h0 : s0.Opened) {as : List Action}
    (hops : ∀ a ∈ as, a.Within Writer) (hr : run State.step s0 as = some s) :
    s.executed <+: s.enqueued ∧ s.enqueued.map IORequest.id = range s.enqueued.length ∧
      (∀ x ∈ s.acked, x.req ∈ s.enqueued) ∧
      (s.worker = .ended → ∀ x ∈ s.acked, x.req ∈ s.executed) ∧
      (∀ x ∈ s.acked, x.req ∉ s.executed → s.halted = none → ∀ past, ∃ s', s.step (.worker past) = some s') ∧
      (∀ x ∈ s.acked, ∀ bs s', run State.step s bs = some s' → s'.halted = none →
        5 * (s.enqueued.length - s.executed.length) ≤ bs.countP Action.isWorker → x.req ∈ s'.executed) ∧
      ∀ halt, s.halted = some halt → (∃ fault, halt = .exit fault) ∨ halt = .alreadyClosed := by
  have hst : s0.Progressing := ⟨h0.served, h0.within Writer, fun data hl => by simp [h0.writeLock data] at hl⟩
  have h : s.Progressing :=
    run_invariant_along (fun _ a => a.Within Writer) Progressing (fun _ _ _ ha hs h => h.step ha hs) hr
      (along_of_forall _ hops s0) hst
  refine ⟨h.served.queued.executed_prefix, h.served.queued.ids, h.served.queued.acked,
    fun hw => (h.served.ended hw).1, ?_, ?_, ?_⟩
  · intro x hx hn hh past
    have hw : s.worker ≠ .ended := fun hw => hn ((h.served.ended hw).1 x hx)
    have hsp := workerStep_ne_none h.locks h.within hw past
    obtain ⟨s', hs'⟩ := Option.ne_none_iff_exists'.mp hsp
    exact ⟨s', by rw [State.step, hh]; exact hs'⟩
  · intro x hx bs s' hr' hh hc
    by_cases hd : x.req ∈ s.executed
    · exact run_invariant (fun t => x.req ∈ t.executed) (fun _ _ _ ht hm => (executed_step ht).subset hm) hr' hd
    refine h.served.executed_of_run hx hr' hh ?_
    have hrq := h.served.queued.acked x hx
    have hlt := h.served.queued.id_lt hrq
    rw [h.served.queued.mem_executed hrq] at hd
    have hlf := stepsLeft_le s.worker
    rw [rank]
    omega
  · intro halt hh
    have hal := (h0.alive_of_run hr (h0.guarded_of_writer hops)).halted
    rw [hh] at hal
    cases halt with
    | exit fault => exact .inl ⟨fault, rfl⟩
    | alreadyClosed => exact .inr rfl
    | useAfterFree => exact absurd rfl hal.1
    | endIterator => exact absurd rfl hal.2

theorem requests_served_flush_del_close :
    let as := calls 0 (.zFlush "a" ⟨fun _ => 7, ioSize⟩) 5 ++ calls 1 (.zDel "a") 5 ++ calls 2 .zCloselp 3 ++ works 9
    ∃ s, run State.step (fresh (System.single 384 32 1) 1) as = some s ∧ s.worker = .ended ∧
      s.acked.length = 2 ∧ ∀ x ∈ s.acked, x.req ∈ s.executed := by
  intro as
  have ha : ((run State.step (fresh (System.single 384 32 1) 1) as).any fun s =>
      (match s.worker with | .ended => true | _ => false) && s.acked.length == 2) = true := by
    decide +kernel
  obtain ⟨s, hr, hs⟩ := (Option.any_eq_true _ _).mp ha
  rw [Bool.and_eq_true, beq_iff_eq] at hs
  have hended : s.worker = .ended := by
    cases hw : s.worker <;> simp_all
  have hsr := requests_served (opened_fresh (System.single 384 32 1) 1)
    (by simp [as, calls, works, Action.Within, Writer]) hr
  exact ⟨s, hr, hended, hs.2, hsr.2.2.2.1 hended⟩

end State

end Protocol

end ZenFSPlus.Zoad
