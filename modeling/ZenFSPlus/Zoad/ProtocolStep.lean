import ZenFSPlus.Zoad.Protocol

namespace ZenFSPlus.Zoad

open Lib Function

def Pc.pointer : Pc → Option ℕ
  | .loadUnlock _ data _ | .loadSize _ data _ | .loadLock _ data _ | .loadRead _ data _ => some data
  | .syncLock _ data _ | .syncWait _ data _ | .syncClear _ data _ => some data
  | _ => none

def WorkerPc.hand : WorkerPc → List IORequest
  | .run req _ | .busy req _ | .free req _ => [req]
  | _ => []

@[simp] theorem WorkerPc.hand_test (drain : Bool) : (WorkerPc.test drain).hand = [] := rfl

@[simp] theorem WorkerPc.hand_run (req : IORequest) (drain : Bool) : (WorkerPc.run req drain).hand = [req] := rfl

@[simp] theorem WorkerPc.hand_busy (req : IORequest) (drain : Bool) : (WorkerPc.busy req drain).hand = [req] := rfl

@[simp] theorem WorkerPc.hand_free (req : IORequest) (drain : Bool) : (WorkerPc.free req drain).hand = [req] := rfl

@[simp] theorem WorkerPc.hand_status : WorkerPc.status.hand = [] := rfl

@[simp] theorem WorkerPc.hand_ended : WorkerPc.ended.hand = [] := rfl

@[simp] theorem hand_afterRequest (drain : Bool) : (Protocol.State.afterRequest drain).hand = [] := by
  cases drain <;> rfl

namespace Protocol.State

inductive ThreadMove (s : State) (t : ℕ) : State → Prop
  | lock (op : Op) (hpc : s.threads t = .enter op) (hfree : s.partitionLock = none) :
    ThreadMove s t { s.goto t (.locked op) with partitionLock := some t }
  | close (hpc : s.threads t = .locked .zCloselp) (hopen : s.closed = false) :
    ThreadMove s t { s.goto t (.unlock s.partition) with closed := true }
  | closeAgain (hpc : s.threads t = .locked .zCloselp) : ThreadMove s t (s.halt .alreadyClosed)
  | check (op : Op) (hpc : s.threads t = .locked op) (hop : op ≠ .zCloselp) :
    ThreadMove s t (s.goto t (.checked op (if s.closed then -1 else 0)))
  | flushOld (name : String) (buf : Slice UInt8) (ret : ℤ) (data : ℕ)
    (hpc : s.threads t = .checked (.zFlush name buf) ret) (hmap : s.userdataMap name = some data) :
    ThreadMove s t (s.goto t (.push name (.write buf) data ret))
  | flushNew (name : String) (buf : Slice UInt8) (ret : ℤ)
    (hpc : s.threads t = .checked (.zFlush name buf) ret) (hmap : s.userdataMap name = none) :
    ThreadMove s t ((s.newUserdata name).goto t (.push name (.write buf) s.nextData ret))
  | loadFound (args : LoadArgs) (ret : ℤ) (data : ℕ)
    (hpc : s.threads t = .checked (.zLoad args) ret) (hmap : s.userdataMap args.name = some data) :
    ThreadMove s t (s.goto t (.loadUnlock args data ret))
  | syncFound (name : String) (ret : ℤ) (hpc : s.threads t = .checked (.zSync name) ret)
    (hmap : s.userdataMap name ≠ none) : ThreadMove s t (s.goto t (.syncUnlock name ret))
  | delFound (name : String) (ret : ℤ) (data : ℕ)
    (hpc : s.threads t = .checked (.zDel name) ret) (hmap : s.userdataMap name = some data) :
    ThreadMove s t { s.goto t (.push name .delete data ret) with
      userdataMap := update s.userdataMap name none }
  | notFound (op : Op) (ret : ℤ) (hpc : s.threads t = .checked op ret) :
    ThreadMove s t (s.goto t (.unlock (-1)))
  | push (name : String) (rw : Rw) (data : ℕ) (ret : ℤ) (hpc : s.threads t = .push name rw data ret) :
    ThreadMove s t ((s.pushRequest ⟨rw, data, s.enqueued.length⟩).goto t
      (.pushed name ⟨rw, data, s.enqueued.length⟩ ret))
  | pushed (name : String) (req : IORequest) (ret : ℤ) (hpc : s.threads t = .pushed name req ret) :
    ThreadMove s t { s.goto t .idle with
      partitionLock := none
      acked := if ret = 0 then s.acked ++ [⟨name, req⟩] else s.acked }
  | unlock (ret : ℤ) (hpc : s.threads t = .unlock ret) :
    ThreadMove s t { s.goto t .idle with
      partitionLock := none
      globalLock := if s.globalLock = some t then none else s.globalLock }
  | loadUnlock (args : LoadArgs) (data : ℕ) (ret : ℤ) (hpc : s.threads t = .loadUnlock args data ret) :
    ThreadMove s t { s.goto t (.loadSize args data ret) with partitionLock := none }
  | loadShort (args : LoadArgs) (data : ℕ) (ret : ℤ) (offset : ℕ)
    (hpc : s.threads t = .loadSize args data ret) (hoff : args.offset = some offset)
    (hsize : (s.data data).size < offset / blockSize) :
    ThreadMove s t (s.loadReturn t args ret args.buf)
  | loadSize (args : LoadArgs) (data : ℕ) (ret : ℤ) (hpc : s.threads t = .loadSize args data ret)
    (hsize : ∀ offset, args.offset = some offset → offset / blockSize ≤ (s.data data).size) :
    ThreadMove s t (s.goto t (.loadLock args data ret))
  | loadLock (args : LoadArgs) (data : ℕ) (ret : ℤ) (hpc : s.threads t = .loadLock args data ret)
    (hfree : s.writeLock data = false) :
    ThreadMove s t ((s.setWriteLock data true).goto t (.loadRead args data ret))
  | loadRead (args : LoadArgs) (data : ℕ) (ret : ℤ) (buf : Mem UInt8) (sys : System)
    (hpc : s.threads t = .loadRead args data ret) (hread : s.read data args = .ok (buf, sys)) :
    ThreadMove s t { (s.setWriteLock data false).loadReturn t args ret buf with sys := sys }
  | loadExit (args : LoadArgs) (data : ℕ) (ret : ℤ) (fault : Fault)
    (hpc : s.threads t = .loadRead args data ret) (hread : s.read data args = .error fault) :
    ThreadMove s t (s.halt (.exit fault))
  | syncUnlock (name : String) (ret : ℤ) (hpc : s.threads t = .syncUnlock name ret) :
    ThreadMove s t { s.goto t (.syncGet name ret) with partitionLock := none }
  | syncGet (name : String) (ret : ℤ) (data : ℕ) (hpc : s.threads t = .syncGet name ret)
    (hmap : s.userdataMap name = some data) : ThreadMove s t (s.goto t (.syncLock name data ret))
  | syncEnd (name : String) (ret : ℤ) (hpc : s.threads t = .syncGet name ret)
    (hmap : s.userdataMap name = none) : ThreadMove s t (s.halt .endIterator)
  | syncLock (name : String) (data : ℕ) (ret : ℤ) (hpc : s.threads t = .syncLock name data ret)
    (hfree : s.writeLock data = false) :
    ThreadMove s t ((s.setWriteLock data true).goto t (.syncWait name data ret))
  | syncWait (name : String) (data : ℕ) (ret : ℤ) (hpc : s.threads t = .syncWait name data ret)
    (hremain : s.remainWriteReq data = 0) :
    ThreadMove s t (s.goto t (.syncClear name data ret))
  | syncClear (name : String) (data : ℕ) (ret : ℤ) (hpc : s.threads t = .syncClear name data ret) :
    ThreadMove s t { (s.setWriteLock data false).goto t .idle with
      synced := s.synced ++ [⟨name, ret, s.called t, s.executed⟩] }
  | freed (data : ℕ) (hpc : (s.threads t).pointer = some data) (hfreed : s.freed data = true) :
    ThreadMove s t (s.halt .useAfterFree)

inductive WorkerMove (s : State) (past : ℕ → ℕ → ℕ) : State → Prop
  | empty (hpc : s.worker = .test false) (hq : s.ioQueue = []) :
    WorkerMove s past { s with worker := .status }
  | ended (hpc : s.worker = .test true) (hq : s.ioQueue = []) :
    WorkerMove s past { s with worker := .ended }
  | pop (drain : Bool) (req : IORequest) (rest : List IORequest) (hpc : s.worker = .test drain)
    (hq : s.ioQueue = req :: rest) :
    WorkerMove s past { s with ioQueue := rest, worker := .run req drain }
  | start (req : IORequest) (drain : Bool) (hpc : s.worker = .run req drain)
    (hfree : s.writeLock req.data = false) :
    WorkerMove s past { (s.setWriteLock req.data true).setRemainWriteReq req.data
      (u32 (s.remainWriteReq req.data + 1)) with worker := .busy req drain }
  | append (req : IORequest) (drain : Bool) (buf : Slice UInt8) (sys : System) (u : Userdata)
    (hpc : s.worker = .busy req drain) (hrw : req.rw = .write buf)
    (hrun : (s.data req.data).append s.sys past buf = .ok (sys, u)) :
    WorkerMove s past { ((s.setRemainWriteReq req.data
        (sub32 (s.remainWriteReq req.data) 1)).setWriteLock req.data false).finish req drain with
      sys := sys, data := update s.data req.data u }
  | appendExit (req : IORequest) (drain : Bool) (buf : Slice UInt8) (fault : Fault)
    (hpc : s.worker = .busy req drain) (hrw : req.rw = .write buf)
    (hrun : (s.data req.data).append s.sys past buf = .error fault) :
    WorkerMove s past (s.halt (.exit fault))
  | deleted (req : IORequest) (drain : Bool) (hpc : s.worker = .busy req drain)
    (hrw : req.rw = .delete) :
    WorkerMove s past { (s.setRemainWriteReq req.data
      (sub32 (s.remainWriteReq req.data) 1)).setWriteLock req.data false with worker := .free req drain }
  | free (req : IORequest) (drain : Bool) (hpc : s.worker = .free req drain) :
    WorkerMove s past { s.finish req drain with freed := update s.freed req.data true }
  | status (hpc : s.worker = .status) : WorkerMove s past { s with worker := .test s.closed }
  | freed (req : IORequest) (hreq : req ∈ s.worker.hand) (hfreed : s.freed req.data = true) :
    WorkerMove s past (s.halt .useAfterFree)

variable {s s' : State}

theorem of_deref {M : State → Prop} {data : ℕ} {next : Option State} (h : s.deref data next = some s')
    (hf : s.freed data = true → M (s.halt .useAfterFree)) (hn : next = some s' → M s') : M s' := by
  unfold deref at h
  split at h
  · exact Option.some.inj h ▸ hf ‹_›
  · exact hn h

theorem threadMove_of_step {t : ℕ} (h : s.threadStep t = some s') : s.ThreadMove t s' := by
  unfold threadStep at h
  cases hpc : s.threads t with
  | idle => simp [hpc] at h
  | enter op =>
    simp only [hpc] at h
    split at h
    · cases h
      exact .lock op hpc ‹_›
    · cases h
  | locked op =>
    by_cases hop : op = .zCloselp
    · subst hop
      simp only [hpc] at h
      split at h
      · cases h
        exact .closeAgain hpc
      · cases h
        exact .close hpc (Bool.not_eq_true _ ▸ ‹_›)
    · have hn : s' = s.goto t (.checked op (if s.closed then -1 else 0)) := by
        cases op <;> simp_all
      exact hn ▸ .check op hpc hop
  | checked op ret =>
    cases op with
    | zFlush name buf =>
      simp only [hpc] at h
      split at h
      · cases h
        exact .flushOld name buf ret _ hpc ‹_›
      · cases h
        exact .flushNew name buf ret hpc ‹_›
    | zLoad args =>
      simp only [hpc] at h
      split at h
      · cases h
        exact .loadFound args ret _ hpc ‹_›
      · cases h
        exact .notFound _ ret hpc
    | zSync name =>
      simp only [hpc] at h
      split at h
      · cases h
        exact .syncFound name ret hpc (Option.isSome_iff_ne_none.mp ‹_›)
      · cases h
        exact .notFound _ ret hpc
    | zDel name =>
      simp only [hpc] at h
      split at h
      · cases h
        exact .delFound name ret _ hpc ‹_›
      · cases h
        exact .notFound _ ret hpc
    | zCloselp => simp [hpc] at h
  | push name rw data ret =>
    simp only [hpc, Option.some.injEq] at h
    exact h ▸ .push name rw data ret hpc
  | pushed name req ret =>
    simp only [hpc, Option.some.injEq] at h
    exact h ▸ .pushed name req ret hpc
  | unlock ret =>
    simp only [hpc, Option.some.injEq] at h
    exact h ▸ .unlock ret hpc
  | loadUnlock args data ret =>
    simp only [hpc, Option.some.injEq] at h
    exact h ▸ .loadUnlock args data ret hpc
  | loadSize args data ret =>
    simp only [hpc] at h
    split at h
    · rename_i offset hoff
      refine of_deref h (.freed data (by rw [hpc]; rfl)) fun h => ?_
      split at h
      · cases h
        exact .loadShort args data ret offset hpc hoff ‹_›
      cases h
      refine .loadSize args data ret hpc fun o ho => ?_
      cases hoff.symm.trans ho
      omega
    · rename_i hoff
      cases h
      refine .loadSize args data ret hpc fun o ho => ?_
      cases hoff.symm.trans ho
  | loadLock args data ret =>
    simp only [hpc] at h
    refine of_deref h (.freed data (by rw [hpc]; rfl)) fun h => ?_
    split at h
    · cases h
    · cases h
      exact .loadLock args data ret hpc (Bool.not_eq_true _ ▸ ‹_›)
  | loadRead args data ret =>
    simp only [hpc] at h
    refine of_deref h (.freed data (by rw [hpc]; rfl)) fun h => ?_
    split at h
    · cases h
      exact .loadExit args data ret _ hpc ‹_›
    · cases h
      exact .loadRead args data ret _ _ hpc ‹_›
  | syncUnlock name ret =>
    simp only [hpc, Option.some.injEq] at h
    exact h ▸ .syncUnlock name ret hpc
  | syncGet name ret =>
    simp only [hpc] at h
    split at h
    · cases h
      exact .syncGet name ret _ hpc ‹_›
    · cases h
      exact .syncEnd name ret hpc ‹_›
  | syncLock name data ret =>
    simp only [hpc] at h
    refine of_deref h (.freed data (by rw [hpc]; rfl)) fun h => ?_
    split at h
    · cases h
    · cases h
      exact .syncLock name data ret hpc (Bool.not_eq_true _ ▸ ‹_›)
  | syncWait name data ret =>
    simp only [hpc] at h
    refine of_deref h (.freed data (by rw [hpc]; rfl)) fun h => ?_
    split at h
    · cases h
      exact .syncWait name data ret hpc ‹_›
    · cases h
  | syncClear name data ret =>
    simp only [hpc] at h
    refine of_deref h (.freed data (by rw [hpc]; rfl)) fun h => ?_
    cases h
    exact .syncClear name data ret hpc

theorem workerMove_of_step {past : ℕ → ℕ → ℕ} (h : s.workerStep past = some s') : s.WorkerMove past s' := by
  unfold workerStep at h
  cases hpc : s.worker with
  | test drain =>
    simp only [hpc] at h
    split at h
    · cases drain with
      | false => exact Option.some.inj h ▸ .empty hpc ‹_›
      | true => exact Option.some.inj h ▸ .ended hpc ‹_›
    · cases h
      exact .pop drain _ _ hpc ‹_›
  | run req drain =>
    simp only [hpc] at h
    refine of_deref h (.freed req (by simp [hpc])) fun h => ?_
    split at h
    · cases h
    · cases h
      exact .start req drain hpc (Bool.not_eq_true _ ▸ ‹_›)
  | busy req drain =>
    simp only [hpc] at h
    refine of_deref h (.freed req (by simp [hpc])) fun h => ?_
    split at h
    · split at h
      · cases h
        exact .appendExit req drain _ _ hpc ‹_› ‹_›
      · cases h
        exact .append req drain _ _ _ hpc ‹_› ‹_›
    · cases h
      exact .deleted req drain hpc ‹_›
  | free req drain =>
    simp only [hpc] at h
    refine of_deref h (.freed req (by simp [hpc])) fun h => ?_
    cases h
    exact .free req drain hpc
  | status =>
    simp only [hpc, Option.some.injEq] at h
    exact h ▸ .status hpc
  | ended => simp [hpc] at h

theorem call_cases {t : ℕ} {op : Op} (h : s.call t op = some s') :
    s.threads t = .idle ∧ ∃ lock, s' = { s.goto t (.enter op) with
      globalLock := lock, called := update s.called t s.acked } := by
  unfold call at h
  split at h
  · split at h
    · exact ⟨‹_›, _, (Option.some.inj h).symm⟩
    · cases h
  · cases h

inductive Move (s : State) : Action → State → Prop
  | call (t : ℕ) (op : Op) (lock : Option ℕ) (hpc : s.threads t = .idle) :
    Move s (.call t op) { s.goto t (.enter op) with
      globalLock := lock, called := update s.called t s.acked }
  | thread (t : ℕ) {s' : State} (h : s.ThreadMove t s') : Move s (.thread t) s'
  | worker (past : ℕ → ℕ → ℕ) {s' : State} (h : s.WorkerMove past s') : Move s (.worker past) s'

theorem move_of_step {a : Action} (h : s.step a = some s') : s.Move a s' := by
  unfold step at h
  split at h
  · cases h
  cases a with
  | call t op =>
    obtain ⟨hpc, lock, rfl⟩ := call_cases h
    exact .call t op lock hpc
  | thread t => exact .thread t (threadMove_of_step h)
  | worker past => exact .worker past (workerMove_of_step h)

end Protocol.State

end ZenFSPlus.Zoad
