import ZenFSPlus.Zoad.ProtocolStep

namespace ZenFSPlus.Zoad

open Lib List Function

def Pc.inside : Pc → Bool
  | .locked _ | .checked _ _ | .push _ _ _ _ | .pushed _ _ _ | .unlock _ => true
  | .loadUnlock _ _ _ | .syncUnlock _ _ => true
  | _ => false

def Pc.holds : Pc → Option ℕ
  | .loadRead _ data _ | .syncWait _ data _ | .syncClear _ data _ => some data
  | _ => none

def WorkerPc.holds : WorkerPc → Option ℕ
  | .busy req _ => some req.data
  | _ => none

def Pc.Within (allowed : Op → Prop) : Pc → Prop
  | .idle | .unlock _ => True
  | .enter op | .locked op | .checked op _ => allowed op
  | .push name (.write buf) _ _ | .pushed name ⟨.write buf, _, _⟩ _ => allowed (.zFlush name buf)
  | .push name .delete _ _ | .pushed name ⟨.delete, _, _⟩ _ => allowed (.zDel name)
  | .loadUnlock args _ _ | .loadSize args _ _ | .loadLock args _ _ | .loadRead args _ _ =>
    allowed (.zLoad args)
  | .syncUnlock name _ | .syncGet name _ | .syncLock name _ _ | .syncWait name _ _ |
    .syncClear name _ _ => allowed (.zSync name)

variable {pc : Pc}

theorem Pc.Within.mono {allowed allowed' : Op → Prop} (h : pc.Within allowed)
    (hop : ∀ op, allowed op → allowed' op) : pc.Within allowed' := by
  cases pc
  case push name rw data ret => cases rw <;> exact hop _ h
  case pushed name req ret =>
    obtain ⟨rw, data, id⟩ := req
    cases rw <;> exact hop _ h
  case idle | unlock => trivial
  all_goals exact hop _ h

def Pc.Named (map : String → Option ℕ) : Pc → Prop
  | .push name _ data _ | .pushed name ⟨_, data, _⟩ _ => map name = some data
  | .loadUnlock ⟨name, _, _, _⟩ data _ | .loadSize ⟨name, _, _, _⟩ data _ |
    .loadLock ⟨name, _, _, _⟩ data _ | .loadRead ⟨name, _, _, _⟩ data _ => map name = some data
  | .syncLock name data _ | .syncWait name data _ | .syncClear name data _ => map name = some data
  | _ => True

theorem Pc.Named.mono {map map' : String → Option ℕ} (h : pc.Named map)
    (hm : ∀ name data, map name = some data → map' name = some data) : pc.Named map' := by
  cases pc
  case push | pushed | loadUnlock | loadSize | loadLock | loadRead | syncLock | syncWait | syncClear =>
    exact hm _ _ h
  all_goals trivial

namespace Protocol

def Action.Within (allowed : Op → Prop) : Action → Prop
  | .call _ op => allowed op
  | _ => True

namespace State

variable {s s' : State} {t : ℕ} {a : Action} {past : ℕ → ℕ → ℕ}

theorem threads_goto (s : State) (t : ℕ) (pc : Pc) : (s.goto t pc).threads t = pc := by
  simp only [goto, update_self]

theorem threads_goto_of_ne (s : State) {t t' : ℕ} (h : t' ≠ t) (pc : Pc) : (s.goto t pc).threads t' = s.threads t' := by
  simp only [goto, update_of_ne h]

theorem forall_goto_of_ne (P : ℕ → Pc → Prop) (h : P t pc)
    (hs : ∀ t', t' ≠ t → P t' (s.threads t')) : ∀ t', P t' ((s.goto t pc).threads t') := by
  intro t'
  by_cases ht : t' = t
  · rw [ht, threads_goto]
    exact h
  · rw [threads_goto_of_ne s ht]
    exact hs t' ht

theorem forall_goto (P : ℕ → Pc → Prop) (h : P t pc) (hs : ∀ t', P t' (s.threads t')) :
    ∀ t', P t' ((s.goto t pc).threads t') :=
  forall_goto_of_ne P h fun t' _ => hs t'

def Locked (s : State) : Prop := ∀ t, (s.threads t).inside = true → s.partitionLock = some t

theorem Locked.outside (h : s.Locked) {t' : ℕ} (hin : (s.threads t).inside = true) (ht : t' ≠ t) :
    (s.threads t').inside = false := by
  by_contra hin'
  cases (h t' (Bool.not_eq_false _ ▸ hin')).symm.trans (h t hin)
  exact ht rfl

theorem Locked.goto (h : s.Locked) (hpc : pc.inside = true → s.partitionLock = some t) :
    ∀ t', ((s.goto t pc).threads t').inside = true → s.partitionLock = some t' :=
  forall_goto (fun t' pc => pc.inside = true → s.partitionLock = some t') hpc h

theorem Locked.release (h : s.Locked) (hin : (s.threads t).inside = true) (hpc : pc.inside = false) :
    ∀ t', ((s.goto t pc).threads t').inside = true → none = some t' := by
  refine forall_goto_of_ne (fun t' pc => pc.inside = true → none = some t') ?_ fun t' ht ht' => ?_
  · simp [hpc]
  · simp [h.outside hin ht] at ht'

theorem Locked.acquire (h : s.Locked) (hf : s.partitionLock = none) (pc : Pc) :
    ∀ t', ((s.goto t pc).threads t').inside = true → some t = some t' := by
  refine forall_goto (fun t' pc => pc.inside = true → some t = some t') (fun _ => rfl) ?_
  intro t' ht'
  cases hf.symm.trans (h t' ht')

theorem Locked.thread (h : s.Locked) (hm : s.ThreadMove t s') : s'.Locked := by
  cases hm
  case closeAgain | loadExit | syncEnd | freed => exact h
  case lock hf => exact h.acquire hf _
  case close hpc _ | check hpc _ | flushOld hpc _ | flushNew hpc _ | loadFound hpc _ | syncFound hpc _ |
      delFound hpc _ | notFound hpc | push hpc =>
    exact h.goto fun _ => h t (by rw [hpc]; rfl)
  case pushed hpc | unlock hpc | loadUnlock hpc | syncUnlock hpc =>
    exact h.release (by rw [hpc]; rfl) rfl
  case loadShort | loadSize | loadLock | loadRead | syncGet | syncLock | syncWait | syncClear =>
    exact h.goto (by simp [Pc.inside])

theorem WorkerMove.frame (hm : s.WorkerMove past s') :
    s'.threads = s.threads ∧ s'.partitionLock = s.partitionLock ∧ s'.closed = s.closed ∧
      s'.userdataMap = s.userdataMap ∧ s'.enqueued = s.enqueued ∧ s'.acked = s.acked ∧
      s'.called = s.called ∧ s'.synced = s.synced ∧ s'.loaded = s.loaded ∧
      s'.nextData = s.nextData ∧ s'.partition = s.partition := by
  cases hm <;> exact ⟨rfl, rfl, rfl, rfl, rfl, rfl, rfl, rfl, rfl, rfl, rfl⟩

theorem Locked.step (h : s.Locked) (hs : s.step a = some s') : s'.Locked := by
  cases move_of_step hs with
  | call t op lock hpc => exact h.goto (by simp [Pc.inside])
  | thread t hm => exact h.thread hm
  | worker past hm =>
    obtain ⟨hth, hl, -⟩ := hm.frame
    intro t ht
    rw [hl]
    exact h t (hth ▸ ht)

def Held (s : State) : Prop := ∀ t, s.partitionLock = some t → (s.threads t).inside = true

theorem Held.goto (h : s.Held) (hpc : (s.threads t).inside = true → pc.inside = true) :
    ∀ t', s.partitionLock = some t' → ((s.goto t pc).threads t').inside = true :=
  forall_goto_of_ne (fun t' pc => s.partitionLock = some t' → pc.inside = true)
    (fun ht => hpc (h t ht)) fun t' _ => h t'

theorem Held.thread (h : s.Held) (hm : s.ThreadMove t s') : s'.Held := by
  cases hm
  case closeAgain | loadExit | syncEnd | freed => exact h
  case lock op hpc hf =>
    rintro _ ⟨⟩
    exact congrArg Pc.inside (threads_goto s t (.locked op))
  case pushed | unlock | loadUnlock | syncUnlock => exact nofun
  case close | check | flushOld | flushNew | loadFound | syncFound | delFound | notFound | push =>
    exact h.goto fun _ => rfl
  case loadShort hpc _ _ | loadSize hpc _ | loadLock hpc _ | loadRead hpc _ | syncGet hpc _ |
      syncLock hpc _ | syncWait hpc _ | syncClear hpc =>
    exact h.goto fun hin => by simp [hpc, Pc.inside] at hin

theorem Held.step (h : s.Held) (hs : s.step a = some s') : s'.Held := by
  cases move_of_step hs with
  | call t op lock hpc => exact h.goto fun hin => by simp [hpc, Pc.inside] at hin
  | thread t hm => exact h.thread hm
  | worker past hm =>
    obtain ⟨hth, hl, -⟩ := hm.frame
    intro t ht
    rw [hth]
    exact h t (hl ▸ ht)

def WriteLocked (s : State) : Prop := ∀ data, s.writeLock data = true →
  s.worker.holds = some data ∨ ∃ t, (s.threads t).holds = some data

theorem WriteLocked.move (h : s.WriteLocked) (ht : s'.threads = (s.goto t pc).threads)
    (hwr : s'.worker = s.worker) (hl : ∀ data, s'.writeLock data = true →
      pc.holds = some data ∨ s.writeLock data = true ∧ (s.threads t).holds ≠ some data) :
    s'.WriteLocked := by
  intro data hd
  rw [hwr, ht]
  rcases hl data hd with hpc | ⟨ho, hne⟩
  · exact .inr ⟨t, by rw [threads_goto, hpc]⟩
  rcases h data ho with hw | ⟨t', ht'⟩
  · exact .inl hw
  have htt : t' ≠ t := by
    rintro rfl
    exact hne ht'
  exact .inr ⟨t', by rw [threads_goto_of_ne s htt, ht']⟩

theorem WriteLocked.thread (h : s.WriteLocked) (hm : s.ThreadMove t s') : s'.WriteLocked := by
  cases hm
  case closeAgain | loadExit | syncEnd | freed => exact h
  case lock hpc _ | close hpc _ | check hpc _ | flushOld hpc _ | loadFound hpc _ | syncFound hpc _ |
      delFound hpc _ | notFound hpc | push hpc | pushed hpc | unlock hpc | loadUnlock hpc |
      loadShort hpc _ _ | loadSize hpc _ | syncUnlock hpc | syncGet hpc _ =>
    exact h.move rfl rfl fun data hdt => .inr ⟨hdt, by simp [hpc, Pc.holds]⟩
  case flushNew name buf ret hpc _ =>
    refine h.move rfl rfl fun data hdt => .inr ⟨?_, by simp [hpc, Pc.holds]⟩
    by_cases hd : data = s.nextData
    · simp [newUserdata, State.goto, hd] at hdt
    · simpa [newUserdata, State.goto, update_of_ne hd] using hdt
  case loadLock data ret hpc hf | syncLock data ret hpc hf =>
    refine h.move rfl rfl fun data' hdt => ?_
    by_cases hd : data' = data
    · exact .inl (by rw [hd]; rfl)
    · exact .inr ⟨by simpa [setWriteLock, State.goto, update_of_ne hd] using hdt, by simp [hpc, Pc.holds]⟩
  case loadRead data ret buf sys hpc _ | syncClear data ret hpc =>
    refine h.move rfl rfl fun data' hdt => ?_
    by_cases hd : data' = data
    · simp [setWriteLock, State.goto, loadReturn, hd] at hdt
    · exact .inr ⟨by
        simpa [setWriteLock, State.goto, loadReturn, update_of_ne hd] using hdt,
        by simpa [hpc, Pc.holds] using Ne.symm hd⟩
  case syncWait name data ret hpc _ =>
    refine h.move rfl rfl fun data' hdt => ?_
    by_cases hd : data' = data
    · exact .inl (by rw [hd]; rfl)
    · exact .inr ⟨hdt, by simpa [hpc, Pc.holds] using Ne.symm hd⟩

theorem WriteLocked.worker (h : s.WriteLocked) (hm : s.WorkerMove past s') : s'.WriteLocked := by
  -- the lock of the request is free afterwards, and the others are the threads'
  have hc {req : IORequest} {drain : Bool} (hpc : s.worker = .busy req drain) (data : ℕ)
      (hdt : update s.writeLock req.data false data = true) :
      ∃ t, (s.threads t).holds = some data := by
    have hd : data ≠ req.data := by
      rintro rfl
      simp at hdt
    rw [update_of_ne hd] at hdt
    rcases h data hdt with hw | ht
    · rw [hpc] at hw
      exact absurd (Option.some.inj hw).symm hd
    · exact ht
  have hk (hpc : s.worker.holds = none) (data : ℕ) (hdt : s.writeLock data = true) :
      ∃ t, (s.threads t).holds = some data := by
    rcases h data hdt with hw | ht
    · cases hpc.symm.trans hw
    · exact ht
  cases hm with
  | empty hpc | ended hpc | status hpc | free _ _ hpc | pop _ _ _ hpc =>
    exact fun data hdt => .inr (hk (by rw [hpc]; rfl) data hdt)
  | start req drain hpc _ =>
    intro data hdt
    by_cases hd : data = req.data
    · exact .inl (by rw [hd]; rfl)
    · have hdt : update s.writeLock req.data true data = true := hdt
      rw [update_of_ne hd] at hdt
      exact .inr (hk (by rw [hpc]; rfl) data hdt)
  | append req drain buf sys u hpc => exact fun data hdt => .inr (hc hpc data hdt)
  | deleted req drain hpc => exact fun data hdt => .inr (hc hpc data hdt)
  | appendExit => exact h
  | freed => exact h

theorem WriteLocked.step (h : s.WriteLocked) (hs : s.step a = some s') : s'.WriteLocked := by
  cases move_of_step hs with
  | call t op lock hpc => exact h.move rfl rfl fun data hd => .inr ⟨hd, by simp [hpc, Pc.holds]⟩
  | thread t hm => exact h.thread hm
  | worker past hm => exact h.worker hm

structure Quiet (s s' : State) : Prop where
  ioQueue : s'.ioQueue = s.ioQueue
  worker : s'.worker = s.worker
  enqueued : s'.enqueued = s.enqueued
  executed : s'.executed = s.executed
  acked : s'.acked = s.acked
  pushed : ∀ t name req ret, s'.threads t = .pushed name req ret → s.threads t = .pushed name req ret

theorem Quiet.goto (hpc : ∀ name req ret, pc ≠ .pushed name req ret) :
    ∀ t' name req ret, (s.goto t pc).threads t' = .pushed name req ret → s.threads t' = .pushed name req ret := by
  intro t' name req ret ht'
  by_cases ht : t' = t
  · subst ht
    simp only [State.goto, update_self] at ht'
    exact absurd ht' (hpc name req ret)
  · simpa only [State.goto, update_of_ne ht] using ht'

theorem ThreadMove.requests (hm : s.ThreadMove t s') : (∃ name rw data ret, s.threads t = .push name rw data ret ∧
      s' = (s.pushRequest ⟨rw, data, s.enqueued.length⟩).goto t (.pushed name ⟨rw, data, s.enqueued.length⟩ ret)) ∨
    (∃ name req ret, s.threads t = .pushed name req ret ∧ s' = { s.goto t .idle with
      partitionLock := none
      acked := if ret = 0 then s.acked ++ [⟨name, req⟩] else s.acked }) ∨ s.Quiet s' := by
  cases hm with
  | push name rw data ret hpc => exact .inl ⟨name, rw, data, ret, hpc, rfl⟩
  | pushed name req ret hpc => exact .inr (.inl ⟨name, req, ret, hpc, rfl⟩)
  | _ => exact .inr (.inr ⟨rfl, rfl, rfl, rfl, rfl, by
      first
      | exact fun _ _ _ _ h => h
      | exact Quiet.goto (by simp)⟩)

structure Queued (s : State) : Prop where
  order : s.executed ++ s.worker.hand ++ s.ioQueue = s.enqueued
  ids : s.enqueued.map IORequest.id = range s.enqueued.length
  pushed : ∀ t name req ret, s.threads t = .pushed name req ret → req ∈ s.enqueued
  acked : ∀ a ∈ s.acked, a.req ∈ s.enqueued

theorem Quiet.queued (hq : s.Quiet s') (h : s.Queued) : s'.Queued where
  order := by rw [hq.executed, hq.worker, hq.ioQueue, hq.enqueued, h.order]
  ids := by rw [hq.enqueued, h.ids]
  pushed t name req ret ht := by
    rw [hq.enqueued]
    exact h.pushed t name req ret (hq.pushed t name req ret ht)
  acked a ha := by
    rw [hq.enqueued]
    exact h.acked a (hq.acked ▸ ha)

theorem Queued.push (h : s.Queued) (name : String) (rw : Rw) (data : ℕ) (ret : ℤ) :
    ((s.pushRequest ⟨rw, data, s.enqueued.length⟩).goto t (.pushed name ⟨rw, data, s.enqueued.length⟩ ret)).Queued where
  order := by
    change s.executed ++ s.worker.hand ++ (s.ioQueue ++ [_]) = s.enqueued ++ [_]
    rw [← append_assoc, h.order]
  ids := by
    change (s.enqueued ++ [_]).map IORequest.id = range (s.enqueued ++ [_]).length
    rw [map_append, h.ids, length_append, length_singleton, range_succ]
    rfl
  pushed := by
    refine forall_goto (fun _ pc => ∀ name' req ret', pc = .pushed name' req ret' →
      req ∈ s.enqueued ++ [⟨rw, data, s.enqueued.length⟩]) ?_ ?_
    · rintro _ _ _ ⟨⟩
      simp
    · intro t' name' req ret' ht
      exact mem_append_left _ (h.pushed t' name' req ret' ht)
  acked a ha := mem_append_left _ (h.acked a ha)

theorem Queued.ack (h : s.Queued) {name : String} {req : IORequest} {ret : ℤ}
    (hpc : s.threads t = .pushed name req ret) :
    Queued { s.goto t .idle with
      partitionLock := none
      acked := if ret = 0 then s.acked ++ [⟨name, req⟩] else s.acked } where
  __ := h
  pushed := fun t' name' req' ret' ht =>
    h.pushed t' name' req' ret' (Quiet.goto (by simp) t' name' req' ret' ht)
  acked := by
    intro a ha
    dsimp only at ha
    split at ha
    · rcases mem_append.mp ha with ha | ha
      · exact h.acked a ha
      · rw [mem_singleton.mp ha]
        exact h.pushed t name req ret hpc
    · exact h.acked a ha

theorem Queued.thread (h : s.Queued) (hm : s.ThreadMove t s') : s'.Queued := by
  rcases hm.requests with ⟨name, rw, data, ret, -, rfl⟩ | ⟨name, req, ret, hpc, rfl⟩ | hq
  · exact h.push name rw data ret
  · exact h.ack hpc
  · exact hq.queued h

theorem WorkerMove.requests (hm : s.WorkerMove past s') :
    s'.executed ++ s'.worker.hand ++ s'.ioQueue = s.executed ++ s.worker.hand ++ s.ioQueue ∧
      s.executed <+: s'.executed := by
  cases hm with
  | empty hpc hq | ended hpc hq => simp [hpc]
  | pop drain req rest hpc hq => simp [hpc, hq]
  | start req drain hpc _ | deleted req drain hpc _ => simp [hpc, setRemainWriteReq, setWriteLock]
  | append req drain buf sys u hpc _ _ =>
    simp [hpc, finish, setRemainWriteReq, setWriteLock]
  | appendExit | freed => exact ⟨rfl, prefix_rfl⟩
  | free req drain hpc => simp [hpc, finish]
  | status hpc => simp [hpc]

theorem WorkerMove.pending_subset (hm : s.WorkerMove past s') :
    s'.worker.hand ++ s'.ioQueue ⊆ s.worker.hand ++ s.ioQueue := by
  obtain ⟨ho, rest, hr⟩ := hm.requests
  rw [← hr, append_assoc, append_assoc, append_assoc, append_cancel_left_eq] at ho
  rw [← ho]
  exact subset_append_right _ _

theorem Queued.step (h : s.Queued) (hs : s.step a = some s') : s'.Queued := by
  cases move_of_step hs with
  | call t op lock hpc =>
    exact ⟨h.order, h.ids, fun t' name req ret ht =>
      h.pushed t' name req ret (Quiet.goto (by simp) t' name req ret ht), h.acked⟩
  | thread t hm => exact h.thread hm
  | worker past hm =>
    obtain ⟨hth, -, -, -, he, hac, -⟩ := hm.frame
    refine ⟨by rw [hm.requests.1, he, h.order], by rw [he, h.ids], ?_, ?_⟩
    · intro t name req ret ht
      rw [he]
      exact h.pushed t name req ret (hth ▸ ht)
    · intro a ha
      rw [he]
      exact h.acked a (hac ▸ ha)

variable {allowed : Op → Prop}

theorem within_thread (h : ∀ t, (s.threads t).Within allowed) (hm : s.ThreadMove t s') :
    ∀ t, (s'.threads t).Within allowed := by
  have ht := h t
  cases hm
  case closeAgain | loadExit | syncEnd | freed => exact h
  case close | notFound | pushed | unlock | loadShort | loadRead | syncClear =>
    exact forall_goto (fun _ pc => pc.Within allowed) trivial h
  case push name rw data ret hpc =>
    rw [hpc] at ht
    cases rw <;> exact forall_goto (fun _ pc => pc.Within allowed) ht h
  case lock hpc _ | check hpc _ | flushOld hpc _ | flushNew hpc _ | loadFound hpc _ | syncFound hpc _ |
      delFound hpc _ | loadUnlock hpc | loadSize hpc _ | loadLock hpc _ | syncUnlock hpc |
      syncGet hpc _ | syncLock hpc _ | syncWait hpc _ =>
    rw [hpc] at ht
    exact forall_goto (fun _ pc => pc.Within allowed) ht h

theorem within_step (h : ∀ t, (s.threads t).Within allowed) (ha : a.Within allowed)
    (hs : s.step a = some s') : ∀ t, (s'.threads t).Within allowed := by
  cases move_of_step hs with
  | call t op lock hpc => exact forall_goto (fun _ pc => pc.Within allowed) ha h
  | thread t hm => exact within_thread h hm
  | worker past hm => exact hm.frame.1 ▸ h

def NoDel (op : Op) : Prop := ∀ name, op ≠ .zDel name

theorem map_thread (hw : (s.threads t).Within NoDel) (hm : s.ThreadMove t s') {name : String}
    {data : ℕ} (hmp : s.userdataMap name = some data) : s'.userdataMap name = some data := by
  cases hm
  case flushNew name' buf ret hpc hn =>
    have hne : name ≠ name' := by
      rintro rfl
      cases hn.symm.trans hmp
    exact (update_of_ne hne _ _).trans hmp
  case delFound hpc _ =>
    rw [hpc] at hw
    exact absurd rfl (hw _)
  all_goals exact hmp

structure Named (s : State) : Prop where
  threads : ∀ t, (s.threads t).Named s.userdataMap
  acked : ∀ x ∈ s.acked, s.userdataMap x.name = some x.req.data
  called : ∀ t, s.called t ⊆ s.acked

theorem Named.goto (h : s.Named) (hpc : pc.Named s.userdataMap) :
    ∀ t', ((s.goto t pc).threads t').Named s.userdataMap :=
  forall_goto (fun _ pc => pc.Named s.userdataMap) hpc h.threads

theorem Named.thread (h : s.Named) (hw : (s.threads t).Within NoDel) (hm : s.ThreadMove t s') : s'.Named := by
  have ht := h.threads t
  cases hm
  case closeAgain | loadExit | syncEnd | freed => exact ⟨h.threads, h.acked, h.called⟩
  case lock | close | check | syncFound | notFound | unlock | loadShort | loadRead | syncUnlock |
      syncClear =>
    exact ⟨h.goto trivial, h.acked, h.called⟩
  case flushOld hmp | loadFound hmp | syncGet hmp => exact ⟨h.goto hmp, h.acked, h.called⟩
  case push hpc | loadUnlock hpc | loadSize hpc _ | loadLock hpc _ | syncLock hpc _ | syncWait hpc _ =>
    rw [hpc] at ht
    exact ⟨h.goto ht, h.acked, h.called⟩
  case delFound hpc _ =>
    rw [hpc] at hw
    exact absurd rfl (hw _)
  case flushNew name buf ret hpc hn =>
    have hmn (name' : String) (data : ℕ) (hmp : s.userdataMap name' = some data) :=
      map_thread hw (.flushNew name buf ret hpc hn) hmp
    refine ⟨?_, fun x hx => hmn _ _ (h.acked x hx), h.called⟩
    exact forall_goto (fun _ pc => pc.Named _) (update_self _ _ _) fun t' =>
      (h.threads t').mono hmn
  case pushed name req ret hpc =>
    rw [hpc] at ht
    refine ⟨h.goto trivial, ?_, ?_⟩
    · intro x hx
      dsimp only at hx
      split at hx
      · rcases mem_append.mp hx with hx | hx
        · exact h.acked x hx
        · rw [mem_singleton.mp hx]
          exact ht
      · exact h.acked x hx
    · intro t' x hx
      dsimp only
      split
      · exact mem_append_left _ (h.called t' hx)
      · exact h.called t' hx

theorem Named.step (h : s.Named) (hw : ∀ t, (s.threads t).Within NoDel) (hs : s.step a = some s') : s'.Named := by
  cases move_of_step hs with
  | call t op lock hpc =>
    refine ⟨h.goto trivial, h.acked, fun t' => ?_⟩
    change update s.called t s.acked t' ⊆ s.acked
    by_cases ht : t' = t
    · rw [ht, update_self]
      exact List.Subset.refl _
    · rw [update_of_ne ht]
      exact h.called t'
  | thread t hm => exact h.thread (hw t) hm
  | worker past hm =>
    obtain ⟨hth, -, -, hmp, -, ha, hc, -⟩ := hm.frame
    exact ⟨by rw [hth, hmp]; exact h.threads, by rw [ha, hmp]; exact h.acked, by rw [hc, ha]; exact h.called⟩

end State

end Protocol

end ZenFSPlus.Zoad
