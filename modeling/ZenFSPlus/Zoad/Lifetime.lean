import ZenFSPlus.Zoad.ProtocolInvariants

namespace ZenFSPlus.Zoad

open Lib List Function

structure Refs where
  map : String → Option ℕ
  freed : ℕ → Bool
  next : ℕ
  pending : List IORequest

namespace Refs

structure Ok (h : Refs) : Prop where
  map_lt : ∀ name data, h.map name = some data → data < h.next
  map_inj : ∀ name name' data, h.map name = some data → h.map name' = some data → name = name'
  map_live : ∀ name data, h.map name = some data → h.freed data = false
  fresh : ∀ data, h.next ≤ data → h.freed data = false
  pending_lt : ∀ r ∈ h.pending, r.data < h.next
  pending_live : ∀ r ∈ h.pending, h.freed r.data = false
  last : h.pending.Pairwise fun r r' => r.rw = .delete → r'.data ≠ r.data
  gone : ∀ r ∈ h.pending, r.rw = .delete → ∀ name, h.map name ≠ some r.data

variable {h : Refs} {name : String} {data : ℕ} {r : IORequest}

def create (h : Refs) (name : String) : Refs :=
  { h with map := update h.map name (some h.next), next := h.next + 1 }

def erase (h : Refs) (name : String) : Refs := { h with map := update h.map name none }

def push (h : Refs) (r : IORequest) : Refs := { h with pending := h.pending ++ [r] }

def shift (h : Refs) : Refs := { h with pending := h.pending.tail }

def release (h : Refs) (data : ℕ) : Refs := { h with freed := update h.freed data true }

theorem create_map_eq {name' : String} (hd : (h.create name).map name' = some data) :
    (name' = name ∧ data = h.next) ∨ h.map name' = some data := by
  by_cases hn : name' = name
  · subst hn
    simp only [create, update_self, Option.some.injEq] at hd
    exact .inl ⟨rfl, hd.symm⟩
  · simp only [create, update_of_ne hn] at hd
    exact .inr hd

theorem Ok.create (hok : h.Ok) (name : String) : (h.create name).Ok where
  __ := hok
  map_lt name' data hd := by
    rcases create_map_eq hd with ⟨-, rfl⟩ | hd
    · exact Nat.lt_succ_self _
    · exact Nat.lt_succ_of_lt (hok.map_lt name' data hd)
  map_inj name1 name2 data h1 h2 := by
    rcases create_map_eq h1 with ⟨hn1, hd1⟩ | h1 <;> rcases create_map_eq h2 with ⟨hn2, hd2⟩ | h2
    · rw [hn1, hn2]
    · exact absurd (hok.map_lt _ _ h2) (hd1 ▸ Nat.lt_irrefl _)
    · exact absurd (hok.map_lt _ _ h1) (hd2 ▸ Nat.lt_irrefl _)
    · exact hok.map_inj _ _ _ h1 h2
  map_live name' data hd := by
    rcases create_map_eq hd with ⟨-, rfl⟩ | hd
    · exact hok.fresh _ (Nat.le_refl _)
    · exact hok.map_live name' data hd
  fresh data hd := hok.fresh data (Nat.le_of_succ_le hd)
  pending_lt r hr := Nat.lt_succ_of_lt (hok.pending_lt r hr)
  gone r hr hdl name' hd := by
    rcases create_map_eq hd with ⟨-, hd⟩ | hd
    · exact absurd (hok.pending_lt r hr) (hd ▸ Nat.lt_irrefl _)
    · exact hok.gone r hr hdl name' hd

theorem erase_map_eq {name' : String} (hd : (h.erase name).map name' = some data) :
    name' ≠ name ∧ h.map name' = some data := by
  by_cases hn : name' = name
  · simp [erase, hn] at hd
  · exact ⟨hn, by simpa only [erase, update_of_ne hn] using hd⟩

theorem Ok.erase (hok : h.Ok) (name : String) : (h.erase name).Ok where
  __ := hok
  map_lt name' data hd := hok.map_lt name' data (erase_map_eq hd).2
  map_inj _ _ _ h1 h2 := hok.map_inj _ _ _ (erase_map_eq h1).2 (erase_map_eq h2).2
  map_live name' data hd := hok.map_live name' data (erase_map_eq hd).2
  gone r hr hdl name' hd := hok.gone r hr hdl name' (erase_map_eq hd).2

theorem Ok.push (hok : h.Ok) (hlt : r.data < h.next) (hl : h.freed r.data = false)
    (hls : ∀ r' ∈ h.pending, r'.rw = .delete → r.data ≠ r'.data)
    (hg : r.rw = .delete → ∀ name, h.map name ≠ some r.data) : (h.push r).Ok where
  __ := hok
  pending_lt := by
    simp only [Refs.push, forall_mem_append, forall_mem_singleton]
    exact ⟨hok.pending_lt, hlt⟩
  pending_live := by
    simp only [Refs.push, forall_mem_append, forall_mem_singleton]
    exact ⟨hok.pending_live, hl⟩
  last := by
    simp only [Refs.push, pairwise_append, pairwise_singleton, forall_mem_singleton]
    exact ⟨hok.last, trivial, hls⟩
  gone := by
    simp only [Refs.push, forall_mem_append, forall_mem_singleton]
    exact ⟨hok.gone, hg⟩

theorem Ok.shift (hok : h.Ok) : h.shift.Ok where
  __ := hok
  pending_lt r hr := hok.pending_lt r (mem_of_mem_tail hr)
  pending_live r hr := hok.pending_live r (mem_of_mem_tail hr)
  last := hok.last.tail
  gone r hr := hok.gone r (mem_of_mem_tail hr)

theorem Ok.release (hok : h.Ok) {rest : List IORequest} (hp : h.pending = r :: rest)
    (hr : r.rw = .delete) : (h.shift.release r.data).Ok := by
  have hne (name : String) (data : ℕ) (hd : h.map name = some data) : data ≠ r.data := by
    rintro rfl
    exact hok.gone r (by simp [hp]) hr name hd
  have hrs (r' : IORequest) (hr' : r' ∈ rest) : r'.data ≠ r.data := by
    have hl := hok.last
    rw [hp, pairwise_cons] at hl
    exact hl.1 r' hr' hr
  have hlt := hok.pending_lt r (by simp [hp])
  refine ⟨hok.map_lt, hok.map_inj, fun name data hd => ?_, fun data hd => ?_, hok.shift.pending_lt,
    fun r' hr' => ?_, hok.shift.last, hok.shift.gone⟩
  · exact (update_of_ne (hne name data hd) _ _).trans (hok.map_live name data hd)
  · have hd' : data ≠ r.data := by
      rintro rfl
      exact absurd hd (Nat.not_le.mpr hlt)
    exact (update_of_ne hd' _ _).trans (hok.fresh data hd)
  · have hr'' : r' ∈ rest := by simpa [Refs.shift, Refs.release, hp] using hr'
    exact (update_of_ne (hrs r' hr'') _ _).trans (hok.pending_live r' (by simp [hp, hr'']))

end Refs

def Pc.Safe (h : Refs) : Pc → Prop
  | .push name (.write _) data _ => h.map name = some data
  | .push _ .delete data _ => data < h.next ∧ h.freed data = false ∧
    (∀ r ∈ h.pending, r.rw = .delete → data ≠ r.data) ∧ ∀ name, h.map name ≠ some data
  | .loadUnlock _ data _ | .loadSize _ data _ | .loadLock _ data _ | .loadRead _ data _ |
    .syncLock _ data _ | .syncWait _ data _ | .syncClear _ data _ =>
    data < h.next ∧ h.freed data = false
  | .syncUnlock name _ | .syncGet name _ => h.map name ≠ none
  | _ => True

namespace Pc.Safe

variable {h : Refs} {pc : Pc} {name : String} {r : IORequest}

section

variable (hpc : pc.Safe h)

include hpc

theorem live_of_pointer {data : ℕ} (hp : pc.pointer = some data) : h.freed data = false := by
  cases pc <;> cases hp <;> exact hpc.2

theorem create (hnm : h.map name = none) : pc.Safe (h.create name) := by
  have ho (name' : String) (hn : h.map name' ≠ none) : (h.create name).map name' = h.map name' := by
    refine update_of_ne ?_ _ _
    rintro rfl
    exact hn hnm
  cases pc
  case push name' rw data ret =>
    cases rw with
    | write buf => exact (ho name' (by rw [show h.map name' = some data from hpc]; simp)).trans hpc
    | delete =>
      refine ⟨Nat.lt_succ_of_lt hpc.1, hpc.2.1, hpc.2.2.1, fun name' hd => ?_⟩
      rcases Refs.create_map_eq hd with ⟨-, rfl⟩ | hd
      · exact Nat.lt_irrefl _ hpc.1
      · exact hpc.2.2.2 name' hd
  case syncUnlock name' ret | syncGet name' ret => exact (ho name' hpc).trans_ne hpc
  case loadUnlock | loadSize | loadLock | loadRead | syncLock | syncWait | syncClear =>
    exact ⟨Nat.lt_succ_of_lt hpc.1, hpc.2⟩
  all_goals trivial

theorem erase (hin : pc.inside = false) (hg : ∀ ret, pc ≠ .syncGet name ret) : pc.Safe (h.erase name) := by
  cases pc
  case syncGet name' ret =>
    have hne : name' ≠ name := by
      rintro rfl
      exact hg ret rfl
    have ho : (h.erase name).map name' = h.map name' := update_of_ne hne _ _
    exact ho.trans_ne hpc
  all_goals first
    | exact hpc
    | cases hin

theorem push (hin : pc.inside = false) : pc.Safe (h.push r) := by
  cases pc
  all_goals first
    | exact hpc
    | cases hin

theorem shift : pc.Safe h.shift := by
  cases pc
  case push name rw data ret =>
    cases rw with
    | write buf => exact hpc
    | delete => exact ⟨hpc.1, hpc.2.1, fun r hr => hpc.2.2.1 r (mem_of_mem_tail hr), hpc.2.2.2⟩
  all_goals exact hpc

theorem release (hr : r ∈ h.pending) (hdl : r.rw = .delete) (hp : pc.pointer ≠ some r.data) :
    pc.Safe (h.release r.data) := by
  have ho (data : ℕ) (hd : data ≠ r.data) : (h.release r.data).freed data = h.freed data := update_of_ne hd _ _
  cases pc
  case push name rw data ret =>
    cases rw with
    | write buf => exact hpc
    | delete => exact ⟨hpc.1, (ho data (hpc.2.2.1 r hr hdl)).trans hpc.2.1, hpc.2.2⟩
  case loadUnlock | loadSize | loadLock | loadRead | syncLock | syncWait | syncClear =>
    refine ⟨hpc.1, (ho _ ?_).trans hpc.2⟩
    rintro rfl
    exact hp rfl
  all_goals exact hpc

end

end Pc.Safe

namespace Protocol.State

variable {s s' : State} {t : ℕ} {a : Action} {past : ℕ → ℕ → ℕ}

def refs (s : State) : Refs := ⟨s.userdataMap, s.freed, s.nextData, s.worker.hand ++ s.ioQueue⟩

structure Alive (s : State) : Prop where
  ok : s.refs.Ok
  safe : ∀ t, (s.threads t).Safe s.refs
  deleting : ∀ req drain, s.worker = .free req drain → req.rw = .delete
  halted : s.halted ≠ some .useAfterFree ∧ s.halted ≠ some .endIterator

/-- The worker frees no object that a thread still uses, and `z_del` removes no name that a `z_sync`
has found and will look up again. -/
def Guarded (s : State) : Action → Prop
  | .call _ _ => True
  | .thread t => ∀ name ret, s.threads t = .checked (.zDel name) ret →
    ∀ t' ret', s.threads t' ≠ .syncGet name ret'
  | .worker _ => ∀ req drain, s.worker = .free req drain → ∀ t, (s.threads t).pointer ≠ some req.data

theorem Alive.goto (h : s.Alive) {pc : Pc} (hpc : pc.Safe s.refs) : ∀ t', ((s.goto t pc).threads t').Safe s.refs :=
  forall_goto (fun _ pc => pc.Safe s.refs) hpc h.safe

theorem Alive.thread (h : s.Alive) (hl : s.Locked) (hg : s.Guarded (.thread t))
    (hm : s.ThreadMove t s') : s'.Alive := by
  have ht := h.safe t
  cases hm
  case closeAgain | loadExit => exact ⟨h.ok, h.safe, h.deleting, by simp [halt]⟩
  case lock | close | check | notFound | pushed | unlock | loadShort | loadRead | syncClear =>
    exact ⟨h.ok, h.goto trivial, h.deleting, h.halted⟩
  case flushOld hmp => exact ⟨h.ok, h.goto hmp, h.deleting, h.halted⟩
  case loadFound hmp | syncGet hmp =>
    exact ⟨h.ok, h.goto ⟨h.ok.map_lt _ _ hmp, h.ok.map_live _ _ hmp⟩, h.deleting, h.halted⟩
  case syncFound hmp => exact ⟨h.ok, h.goto hmp, h.deleting, h.halted⟩
  case loadUnlock hpc | loadSize hpc _ | loadLock hpc _ | syncUnlock hpc | syncLock hpc _ |
      syncWait hpc _ =>
    rw [hpc] at ht
    exact ⟨h.ok, h.goto ht, h.deleting, h.halted⟩
  case syncEnd hpc hmp =>
    rw [hpc] at ht
    exact absurd hmp ht
  case freed hpc hf =>
    exact absurd ((ht.live_of_pointer hpc).symm.trans hf) Bool.false_ne_true
  case flushNew name buf ret hpc hmp =>
    refine ⟨h.ok.create name, ?_, h.deleting, h.halted⟩
    exact forall_goto (fun _ pc => pc.Safe (s.refs.create name)) (update_self _ _ _) fun t' => (h.safe t').create hmp
  case delFound name ret data hpc hmp =>
    refine ⟨h.ok.erase name, ?_, h.deleting, h.halted⟩
    refine forall_goto_of_ne (fun _ pc => pc.Safe (s.refs.erase name)) ?_ fun t' hne =>
      (h.safe t').erase (hl.outside (by rw [hpc]; rfl) hne) (hg name ret hpc t')
    refine ⟨h.ok.map_lt _ _ hmp, h.ok.map_live _ _ hmp, fun r hr hdl hd => ?_, fun name' hd => ?_⟩
    · exact h.ok.gone r hr hdl name (hd ▸ hmp)
    · obtain ⟨hne, hd⟩ := Refs.erase_map_eq hd
      exact hne (h.ok.map_inj _ _ _ hd hmp)
  case push name rw data ret hpc =>
    have hrf : ((s.pushRequest ⟨rw, data, s.enqueued.length⟩).goto t
        (.pushed name ⟨rw, data, s.enqueued.length⟩ ret)).refs =
        s.refs.push ⟨rw, data, s.enqueued.length⟩ := by
      simp [refs, Refs.push, pushRequest, State.goto, append_assoc]
    refine ⟨hrf ▸ ?_, hrf ▸ ?_, h.deleting, h.halted⟩
    · rw [hpc] at ht
      cases rw with
      | write buf =>
        exact h.ok.push (h.ok.map_lt _ _ ht) (h.ok.map_live _ _ ht)
          (fun r hr hdl hd => h.ok.gone r hr hdl name (hd ▸ ht)) (fun hdl => by cases hdl)
      | delete => exact h.ok.push ht.1 ht.2.1 ht.2.2.1 fun _ => ht.2.2.2
    · exact forall_goto_of_ne (fun _ pc => pc.Safe (s.refs.push ⟨rw, data, s.enqueued.length⟩)) trivial
        fun t' hne => (h.safe t').push (hl.outside (by rw [hpc]; rfl) hne)

theorem Alive.worker (h : s.Alive) (hg : s.Guarded (.worker past)) (hm : s.WorkerMove past s') : s'.Alive := by
  -- a step that leaves the references alone
  have hsame (s' : State) (hr : s'.refs = s.refs) (ht : s'.threads = s.threads) (hh : s'.halted = s.halted)
      (hd : ∀ req drain, s'.worker = .free req drain → req.rw = .delete) : s'.Alive :=
    ⟨hr ▸ h.ok, by rw [hr, ht]; exact h.safe, hd, hh ▸ h.halted⟩
  have hs (req : IORequest) (drain : Bool) (hw : s.worker.hand = [req]) : (s.finish req drain).refs = s.refs.shift := by
    simp [refs, Refs.shift, finish, hw]
  have ha (drain : Bool) (req : IORequest) (drain' : Bool) : afterRequest drain ≠ .free req drain' := by
    cases drain <;> simp [afterRequest]
  cases hm with
  | empty hpc _ | ended hpc _ | status hpc =>
    exact hsame _ (by simp [refs, hpc]) rfl rfl (by simp)
  | pop drain req rest hpc hq => exact hsame _ (by simp [refs, hpc, hq]) rfl rfl (by simp)
  | start req drain hpc _ =>
    exact hsame _ (by simp [refs, hpc, setRemainWriteReq, setWriteLock]) rfl rfl (by simp)
  | deleted req drain hpc hrw =>
    refine hsame _ (by simp [refs, hpc, setRemainWriteReq, setWriteLock]) rfl rfl ?_
    rintro _ _ ⟨⟩
    exact hrw
  | appendExit => exact ⟨h.ok, h.safe, h.deleting, by simp [halt]⟩
  | freed req hrq hf =>
    have hl := h.ok.pending_live req (mem_append_left _ hrq)
    exact absurd (hl.symm.trans hf) Bool.false_ne_true
  | append req drain buf sys u hpc _ _ =>
    have hr := hs req drain (by rw [hpc]; rfl)
    exact ⟨(hr ▸ h.ok.shift :), fun t => (hr ▸ (h.safe t).shift :), fun _ _ hw => absurd hw (ha drain _ _), h.halted⟩
  | free req drain hpc =>
    have hd := h.deleting req drain hpc
    have hr := hs req drain (by rw [hpc]; rfl)
    have hp : s.refs.pending = req :: s.ioQueue := by simp [refs, hpc]
    have hok := h.ok.release hp hd
    have hsf (t : ℕ) : (s.threads t).Safe (s.refs.shift.release req.data) :=
      ((h.safe t).release (by simp [hp]) hd (hg req drain hpc t)).shift
    rw [← hr] at hok hsf
    exact ⟨hok, hsf, fun _ _ hw => absurd hw (ha drain _ _), h.halted⟩

theorem Alive.step (h : s.Alive) (hl : s.Locked) (hg : s.Guarded a) (hs : s.step a = some s') : s'.Alive := by
  cases move_of_step hs with
  | call t op lock hpc => exact ⟨h.ok, h.goto trivial, h.deleting, h.halted⟩
  | thread t hm => exact h.thread hl hg hm
  | worker past hm => exact h.worker hg hm

theorem Opened.alive (h : s.Opened) : s.Alive where
  ok := {
    map_lt := h.map_lt
    map_inj := h.map_inj
    map_live := fun _ data _ => h.freed data
    fresh := fun data _ => h.freed data
    pending_lt := by simp [refs, h.worker, h.ioQueue]
    pending_live := by simp [refs, h.worker, h.ioQueue]
    last := by simp [refs, h.worker, h.ioQueue]
    gone := by simp [refs, h.worker, h.ioQueue] }
  safe t := by
    rw [h.threads t]
    trivial
  deleting := by simp [h.worker]
  halted := by simp [h.halted]

def Writer : Op → Prop
  | .zFlush _ _ | .zDel _ | .zCloselp => True
  | .zLoad _ | .zSync _ => False

theorem guarded_of_writer (h : ∀ t, (s.threads t).Within Writer) (a : Action) : s.Guarded a := by
  have hp {pc : Pc} (hpc : pc.Within Writer) (data : ℕ) : pc.pointer ≠ some data := by
    cases pc <;> simp_all [Pc.Within, Pc.pointer, Writer]
  cases a with
  | call => trivial
  | thread t =>
    intro name ret _ t' ret' ht'
    have hw := h t'
    rw [ht'] at hw
    exact hw
  | worker past => exact fun req _ _ t => hp (h t) req.data

theorem Opened.within (h : s.Opened) (allowed : Op → Prop) (t : ℕ) : (s.threads t).Within allowed := by
  rw [h.threads t]
  trivial

theorem Opened.guarded_of_writer (h : s.Opened) {as : List Action}
    (ho : ∀ a ∈ as, a.Within Writer) : Along State.step Guarded s as :=
  along_of_invariant (Action.Within Writer) (fun s => ∀ t, (s.threads t).Within Writer)
    (fun _ a _ hw => State.guarded_of_writer hw a) (fun _ _ _ ha hs hw => within_step hw ha hs) ho
    (h.within Writer)

theorem Opened.locked (h : s.Opened) : s.Locked := by
  intro t ht
  simp [h.threads, Pc.inside] at ht

theorem Opened.alive_of_run {s0 : State} (h0 : s0.Opened) {as : List Action}
    (hr : run State.step s0 as = some s) (hg : Along State.step Guarded s0 as) : s.Alive :=
  (run_invariant_along Guarded (fun s => s.Alive ∧ s.Locked)
    (fun _ _ _ hg hs h => ⟨h.1.step h.2 hg hs, h.2.step hs⟩) hr hg ⟨h0.alive, h0.locked⟩).1

/-- Unless the worker frees a `Userdata` that a thread still uses, or `z_del` removes a name that a `z_sync` will look
up again, nobody follows a freed pointer or the end iterator. -/
theorem no_dangling_pointer {s0 : State} (h0 : s0.Opened) {as : List Action}
    (hr : run State.step s0 as = some s) (hg : Along State.step Guarded s0 as) :
    s.halted ≠ some .useAfterFree ∧ s.halted ≠ some .endIterator :=
  (h0.alive_of_run hr hg).halted

def calls (t : ℕ) (op : Op) (n : ℕ) : List Action := .call t op :: replicate n (.thread t)

def works (n : ℕ) : List Action := replicate n (.worker fun _ cnt => cnt + 1)

theorem no_dangling_pointer_delete :
    let as := calls 0 (.zFlush "a" ⟨fun _ => 7, ioSize⟩) 5 ++ calls 1 (.zDel "a") 5 ++ works 8
    ∃ s, run State.step (fresh (System.single 384 32 1) 1) as = some s ∧ s.freed 0 = true ∧
      s.halted ≠ some .useAfterFree ∧ s.halted ≠ some .endIterator := by
  intro as
  obtain ⟨s, hr, hf⟩ : ∃ s, run State.step (fresh (System.single 384 32 1) 1) as = some s ∧ s.freed 0 = true :=
    exists_some_of_check (by decide +kernel)
  have ho := opened_fresh (System.single 384 32 1) 1
  refine ⟨s, hr, hf, no_dangling_pointer ho hr (ho.guarded_of_writer ?_)⟩
  simp [as, calls, works, Action.Within, Writer]

/-- `_z_load` uses the object after it has let the partition go, so that the worker can free it first; `_z_sync` looks
the name up again, so that a `_z_del` can remove it first. -/
theorem dangling_pointer :
    let s0 := fresh (System.single 384 32 1) 1
    let flush := calls 0 (.zFlush "a" ⟨fun _ => 7, ioSize⟩) 5
    s0.Opened ∧ (run State.step s0 (flush ++ calls 0 (.zLoad ⟨"a", fun _ => 0, some 0, 1⟩) 4 ++
        calls 1 (.zDel "a") 5 ++ works 8 ++ [.thread 0])).bind State.halted = some .useAfterFree ∧
      (run State.step s0 (flush ++ calls 0 (.zSync "a") 4 ++ calls 1 (.zDel "a") 5 ++
        [.thread 0])).bind State.halted = some .endIterator :=
  ⟨opened_fresh _ _, by decide +kernel, by decide +kernel⟩

end Protocol.State

end ZenFSPlus.Zoad
