import ZenFSPlus.Zoad.QueueOrder

namespace ZenFSPlus.Zoad

open Lib List

def Pc.locking : Pc → Option ℕ
  | .syncLock _ data _ => some data
  | _ => none

def Pc.syncing : Pc → Option String
  | .syncWait name _ _ | .syncClear name _ _ => some name
  | _ => none

namespace Protocol.State

variable {s s' : State} {t : ℕ} {a : Action} {past : ℕ → ℕ → ℕ}

def Syncer : Op → Prop
  | .zFlush _ _ | .zSync _ => True
  | .zLoad _ | .zDel _ | .zCloselp => False

def Drained (s : State) : Action → Prop
  | .thread t => ∀ data ∈ (s.threads t).locking, ∀ req ∈ s.worker.hand ++ s.ioQueue, req.data ≠ data
  | _ => True

instance (s : State) : (a : Action) → Decidable (s.Drained a)
  | .call _ _ | .worker _ => inferInstanceAs (Decidable True)
  | .thread t => inferInstanceAs (Decidable (∀ data ∈ (s.threads t).locking, _))

structure Syncing (s : State) : Prop where
  within : ∀ t, (s.threads t).Within Syncer
  queued : s.Queued
  named : s.Named
  waited : ∀ t name, (s.threads t).syncing = some name →
    ∀ x ∈ s.called t, x.name = name → x.req ∈ s.executed
  synced : ∀ y ∈ s.synced, y.before ⊆ s.acked ∧
    ∀ x ∈ y.before, x.name = y.name → x.req ∈ y.executed

theorem Syncing.goto (h : s.Syncing) {pc : Pc}
    (hpc : ∀ name, pc.syncing = some name → ∀ x ∈ s.called t, x.name = name → x.req ∈ s.executed) :
    ∀ t' name, ((s.goto t pc).threads t').syncing = some name → ∀ x ∈ s.called t', x.name = name → x.req ∈ s.executed :=
  forall_goto (fun t' pc => ∀ name, pc.syncing = some name →
    ∀ x ∈ s.called t', x.name = name → x.req ∈ s.executed) hpc h.waited

theorem Syncing.waited_thread (h : s.Syncing) (hg : s.Drained (.thread t)) (hm : s.ThreadMove t s') :
    ∀ t' name, (s'.threads t').syncing = some name → ∀ x ∈ s'.called t', x.name = name → x.req ∈ s'.executed := by
  have ht := h.waited t
  cases hm
  case closeAgain | loadExit | syncEnd | freed => exact h.waited
  case syncLock name data ret hpc _ =>
    refine h.goto ?_
    rintro _ ⟨⟩ x hx rfl
    -- the request is of this object, so that it is neither queued nor in the hands of the worker
    have hd : data = x.req.data := by
      have hmp := h.named.threads t
      rw [hpc] at hmp
      exact Option.some.inj (hmp.symm.trans (h.named.acked x (h.named.called t hx)))
    have hmm := h.queued.acked x (h.named.called t hx)
    rw [← h.queued.order, append_assoc] at hmm
    rcases mem_append.mp hmm with hmm | hmm
    · exact hmm
    · exact absurd hd.symm (hg data (by rw [hpc]; rfl) x.req hmm)
  case syncWait hpc _ =>
    rw [hpc] at ht
    exact h.goto ht
  case lock | close | check | flushOld | flushNew | loadFound | syncFound | delFound | notFound | push |
      pushed | unlock | loadUnlock | loadShort | loadSize | loadLock | loadRead | syncUnlock | syncGet |
      syncClear =>
    exact h.goto (by simp [Pc.syncing])

theorem ThreadMove.synced (hm : s.ThreadMove t s') : s'.synced = s.synced ∨
    ∃ name data ret, s.threads t = .syncClear name data ret ∧
      s'.synced = s.synced ++ [⟨name, ret, s.called t, s.executed⟩] := by
  cases hm
  case syncClear name data ret hpc => exact .inr ⟨name, data, ret, hpc, rfl⟩
  all_goals exact .inl rfl

theorem Syncing.step (h : s.Syncing) (ha : a.Within Syncer) (hg : s.Drained a)
    (hs : s.step a = some s') : s'.Syncing := by
  have hw := within_step h.within ha hs
  have hq := h.queued.step hs
  have hn := h.named.step (fun t => (h.within t).mono fun op hop => by cases op <;> simp_all [Syncer, NoDel]) hs
  have hac : s.acked ⊆ s'.acked := fun _ hx => acked_step hs hx
  have ho : ∀ y ∈ s.synced, y.before ⊆ s'.acked ∧ ∀ x ∈ y.before, x.name = y.name → x.req ∈ y.executed :=
    fun y hy => ⟨List.Subset.trans (h.synced y hy).1 hac, (h.synced y hy).2⟩
  cases move_of_step hs with
  | call t op lock hpc =>
    refine ⟨hw, hq, hn, ?_, h.synced⟩
    refine forall_goto_of_ne (fun t' pc => ∀ name, pc.syncing = some name →
      ∀ x ∈ Function.update s.called t s.acked t', x.name = name → x.req ∈ s.executed)
      (by simp [Pc.syncing]) fun t' ht => ?_
    rw [Function.update_of_ne ht]
    exact h.waited t'
  | thread t hm =>
    refine ⟨hw, hq, hn, h.waited_thread hg hm, ?_⟩
    rcases hm.synced with hsy | ⟨name, data, ret, hpc, hsy⟩
    · rw [hsy]
      exact ho
    · rw [hsy, forall_mem_append, forall_mem_singleton]
      exact ⟨ho, List.Subset.trans (h.named.called t) hac, h.waited t name (by rw [hpc]; rfl)⟩
  | worker past hm =>
    obtain ⟨hth, -, -, -, -, -, hc, hsy, -⟩ := hm.frame
    refine ⟨hw, hq, hn, fun t name hpc x hx hnm => ?_, hsy ▸ ho⟩
    exact hm.requests.2.subset (h.waited t name (hth ▸ hpc) x (hc ▸ hx) hnm)

theorem Opened.syncing (h : s.Opened) : s.Syncing where
  within := h.within Syncer
  queued := h.served.queued
  named := ⟨fun t => by rw [h.threads t]; trivial, by simp [h.acked], by simp [h.called]⟩
  waited t name hpc := by simp [h.threads, Pc.syncing] at hpc
  synced := by simp [h.synced]

end Protocol.State

end ZenFSPlus.Zoad
