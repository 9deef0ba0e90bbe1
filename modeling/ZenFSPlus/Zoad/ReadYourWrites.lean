import ZenFSPlus.Zoad.QueueOrder
import ZenFSPlus.Zoad.RandomRead

namespace ZenFSPlus.Zoad

open Lib List Function

def Rw.buf : Rw → Option (Slice UInt8)
  | .write buf => some buf
  | .delete => none

def writes (reqs : List IORequest) (data : ℕ) : List (Slice UInt8) :=
  (reqs.filter fun r => r.data = data).filterMap fun r => r.rw.buf

def written (acks : List Ack) (name : String) : List (Slice UInt8) :=
  (acks.filter fun x => x.name = name).filterMap fun x => x.req.rw.buf

theorem writes_append (reqs reqs' : List IORequest) (data : ℕ) :
    writes (reqs ++ reqs') data = writes reqs data ++ writes reqs' data := by
  simp [writes]

variable {data : ℕ} {o size : ℕ}

theorem writes_eq_nil {reqs : List IORequest} (h : ∀ r ∈ reqs, r.data ≠ data) : writes reqs data = [] := by
  have hnl : reqs.filter (fun r => r.data = data) = [] := by
    rw [filter_eq_nil_iff]
    intro r hr
    simpa using h r hr
  rw [writes, hnl]
  rfl

def Pc.ret : Pc → ℤ
  | .checked _ ret | .push _ _ _ ret | .pushed _ _ ret => ret
  | .loadUnlock _ _ ret | .loadSize _ _ ret | .loadLock _ _ ret | .loadRead _ _ ret => ret
  | _ => 0

def Pc.unacked : Pc → List IORequest
  | .pushed _ req _ => [req]
  | _ => []

def Pc.loading : Pc → Option (LoadArgs × ℕ)
  | .loadSize args data _ => some (args, data)
  | _ => none

def Pc.reading : Pc → Option (LoadArgs × ℕ)
  | .loadLock args data _ | .loadRead args data _ => some (args, data)
  | _ => none

def Pc.stepsLeft : Pc → ℕ
  | .idle => 0
  | .pushed _ _ _ | .unlock _ => 1
  | .push _ _ _ _ => 2
  | .syncClear _ _ _ => 3
  | .loadRead _ _ _ | .syncWait _ _ _ => 4
  | .loadLock _ _ _ | .syncLock _ _ _ => 5
  | .loadSize _ _ _ | .syncGet _ _ => 6
  | .loadUnlock _ _ _ | .syncUnlock _ _ => 7
  | .checked _ _ => 8
  | .locked _ => 9
  | .enter _ => 10

namespace Protocol

def Client (n : ℕ) : Op → Prop
  | .zFlush _ buf => buf.size = n * ioSize
  | .zLoad args => args.offset ≠ none
  | _ => False

def Action.Solo (n : ℕ) : Action → Prop
  | .call t op => t = 0 ∧ Client n op
  | .thread _ => True
  | .worker past => ∀ i cnt, past i cnt ≠ cnt

namespace State

variable {s s' : State} {t n : ℕ} {a : Action} {past : ℕ → ℕ → ℕ}

theorem ThreadMove.ne_idle (hm : s.ThreadMove t s') : s.threads t ≠ .idle := by
  intro hi
  cases hm
  case freed hpc _ => simp [hi, Pc.pointer] at hpc
  all_goals simp_all

structure Solo (n : ℕ) (s : State) : Prop where
  alone : ∀ t, t ≠ 0 → s.threads t = .idle
  within : (s.threads 0).Within (Client n)
  opened : s.closed = false
  ret : (s.threads 0).ret = 0
  enqueued : ∀ r ∈ s.enqueued, ∃ buf, r.rw = .write buf ∧ buf.size = n * ioSize
  acked : s.acked.map Ack.req ++ (s.threads 0).unacked = s.enqueued

theorem Solo.thread_zero (h : s.Solo n) (hm : s.ThreadMove t s') : t = 0 := by
  by_contra ht
  exact hm.ne_idle (h.alone t ht)

theorem Solo.move (h : s.Solo n) {pc : Pc} (hth : s'.threads = (s.goto 0 pc).threads)
    (hc : s'.closed = s.closed) (hw : pc.Within (Client n)) (hr : pc.ret = 0)
    (he : ∀ r ∈ s'.enqueued, ∃ buf, r.rw = .write buf ∧ buf.size = n * ioSize)
    (hac : s'.acked.map Ack.req ++ pc.unacked = s'.enqueued) : s'.Solo n := by
  have hpc : s'.threads 0 = pc := by rw [hth, threads_goto]
  refine ⟨fun t ht => ?_, hpc ▸ hw, hc.trans h.opened, hpc ▸ hr, he, hpc ▸ hac⟩
  rw [hth, threads_goto_of_ne s ht, h.alone t ht]

theorem Solo.thread (h : s.Solo n) (hm : s.ThreadMove 0 s') : s'.Solo n := by
  have hw := h.within
  have hr := h.ret
  have hac := h.acked
  cases hm
  case closeAgain hpc | close hpc _ | syncFound hpc _ | delFound hpc _ | syncUnlock hpc |
      syncGet hpc _ | syncEnd hpc _ | syncLock hpc _ | syncWait hpc _ | syncClear hpc =>
    rw [hpc] at hw
    exact hw.elim
  case loadExit | freed => exact ⟨h.alone, h.within, h.opened, h.ret, h.enqueued, h.acked⟩
  case lock hpc _ | flushOld hpc _ | flushNew hpc _ | loadFound hpc _ | loadUnlock hpc |
      loadSize hpc _ | loadLock hpc _ =>
    rw [hpc] at hw hr hac
    exact h.move rfl rfl hw hr h.enqueued hac
  case check op hpc _ =>
    rw [hpc] at hw hac
    exact h.move rfl rfl hw (by simp [Pc.ret, h.opened]) h.enqueued hac
  case notFound hpc | unlock hpc | loadShort hpc _ _ | loadRead hpc _ =>
    rw [hpc] at hac
    exact h.move rfl rfl trivial rfl h.enqueued hac
  case push name rw data ret hpc =>
    rw [hpc] at hw hr hac
    have hb : ∃ buf, rw = .write buf ∧ buf.size = n * ioSize := by
      cases rw with
      | write buf => exact ⟨buf, rfl, hw⟩
      | delete => exact hw.elim
    refine h.move rfl rfl ?_ hr (forall_mem_append.mpr ⟨h.enqueued, by simpa using hb⟩) ?_
    · cases rw <;> exact hw
    · simp only [Pc.unacked, append_nil] at hac
      exact congrArg (· ++ _) hac
  case pushed name req ret hpc =>
    rw [hpc] at hr hac
    refine h.move rfl rfl trivial rfl h.enqueued ?_
    simp only [Pc.ret] at hr
    simpa [hr, Pc.unacked, State.goto] using hac

theorem Solo.step (h : s.Solo n) (ha : a.Solo n) (hs : s.step a = some s') : s'.Solo n := by
  cases move_of_step hs with
  | call t op lock hpc =>
    obtain ⟨rfl, hop⟩ := ha
    have hac := h.acked
    rw [hpc] at hac
    exact h.move rfl rfl hop rfl h.enqueued hac
  | thread t hm =>
    cases h.thread_zero hm
    exact h.thread hm
  | worker past hm =>
    obtain ⟨ht, -, hc, -, he, hac, -⟩ := hm.frame
    exact ⟨ht ▸ h.alone, ht ▸ h.within, hc.trans h.opened, ht ▸ h.ret,
      he ▸ h.enqueued, by rw [ht, hac, he]; exact h.acked⟩

theorem Solo.guarded (h : s.Solo n) (hq : s.Queued) (hl : s.Alive) : s.Guarded a := by
  cases a with
  | call => trivial
  | thread t =>
    intro name ret hpc t' ret' hpc'
    by_cases ht : t = 0
    · subst ht
      have hw := h.within
      rw [hpc] at hw
      exact hw
    · cases (h.alone t ht).symm.trans hpc
  | worker past =>
    intro req drain hpc
    have hm : req ∈ s.enqueued := by
      rw [← hq.order, hpc]
      simp
    obtain ⟨buf, hrw, -⟩ := h.enqueued req hm
    cases hrw.symm.trans (hl.deleting req drain hpc)

variable {p bound units k : ℕ}

structure Stored (p n bound units k : ℕ) (s : State) : Prop where
  partition : s.partition = p
  progress : ∃ i c, Volume.Progress ⟨s.sys, s.data⟩ p n bound units k i c
  holds : Volume.Holds ⟨s.sys, s.data⟩ p n bound (writes s.executed)
  data_lt : ∀ r ∈ s.enqueued, r.data < s.nextData

theorem readRange_same {sys sys' : System} {u : Userdata} {buf m : Mem UInt8}
    (h : u.readRange sys buf o size = .ok (m, sys')) : Volume.SameZones sys sys' := by
  obtain ⟨r, -, hr⟩ := bind_eq_ok.mp h
  split at hr
  · cases hr
  cases hr
  have hp (f : Partition → ℕ) (g : Partition → List ℕ) (hf : ∀ part rb, f { part with readBuf := rb } = f part)
      (hg : ∀ part rb, g { part with readBuf := rb } = g part) (q : ℕ) :
      f (update sys.partitions u.partition
        { sys.partitions u.partition with readBuf := r.readBuf } q) = f (sys.partitions q) ∧
      g (update sys.partitions u.partition
        { sys.partitions u.partition with readBuf := r.readBuf } q) = g (sys.partitions q) := by
    by_cases hq : q = u.partition
    · rw [hq, update_self]
      exact ⟨hf _ _, hg _ _⟩
    · rw [update_of_ne hq]
      exact ⟨rfl, rfl⟩
  have hsame := hp Partition.izgCnt Partition.zoneVector (fun _ _ => rfl) fun _ _ => rfl
  exact ⟨rfl, rfl, fun q => (hsame q).1, fun q => (hsame q).2⟩

theorem Stored.thread (h : s.Stored p n bound units k) (hs : s.Solo n) (hq : s.Queued) (hl : s.Alive)
    (hm : s.ThreadMove 0 s') : s'.Stored p n bound units k := by
  have hw := hs.within
  cases hm
  case flushNew name buf ret hpc hmp =>
    refine ⟨h.partition, ?_, fun f => ?_, fun r hr => Nat.lt_succ_of_lt (h.data_lt r hr)⟩
    · obtain ⟨i, c, hp⟩ := h.progress
      exact ⟨i, c, hp.ready, hp.zones⟩
    · by_cases hf : f = s.nextData
      · -- no request is of the new object yet
        have hnl : writes s.executed s.nextData = [] := writes_eq_nil fun r hr =>
            Nat.ne_of_lt (h.data_lt r (hq.executed_prefix.subset hr))
        subst hf
        simp only [newUserdata, State.goto, update_self, hnl, h.partition]
        exact ⟨rfl, ⟨.nil, rfl⟩, Nat.zero_le _⟩
      · simp only [newUserdata, State.goto, update_of_ne hf]
        exact h.holds f
  case push name rw data ret hpc =>
    refine ⟨h.partition, h.progress, h.holds, forall_mem_append.mpr ⟨h.data_lt, ?_⟩⟩
    have hsf := hl.safe 0
    rw [hpc] at hw hsf
    cases rw with
    | write buf => exact forall_mem_singleton.mpr (hl.ok.map_lt _ _ hsf)
    | delete => exact hw.elim
  case loadRead args data ret buf sys hpc hrd =>
    have hsame : Volume.SameZones s.sys sys := by
      rw [hpc] at hw
      unfold State.read at hrd
      split at hrd
      · exact readRange_same hrd
      · exact absurd ‹_› hw
    obtain ⟨i, c, hp⟩ := h.progress
    exact ⟨h.partition, ⟨i, c, hp.same hsame⟩, h.holds.same hsame, h.data_lt⟩
  all_goals exact ⟨h.partition, h.progress, h.holds, h.data_lt⟩

theorem writes_finish (reqs : List IORequest) (req : IORequest) {buf : Slice UInt8} (hrw : req.rw = .write buf) :
    update (writes reqs) req.data (writes reqs req.data ++ [buf]) = writes (reqs ++ [req]) := by
  funext d
  by_cases hd : d = req.data
  · subst hd
    simp [writes, hrw, Rw.buf]
  · have hnl : writes [req] d = [] := writes_eq_nil (by simpa using Ne.symm hd)
    rw [update_of_ne hd, writes_append, hnl, append_nil]

theorem Stored.worker (h : s.Stored p n bound units k) (hn : n * ioSize < 4294967296) (hs : s.Solo n)
    (hq : s.Queued) (hl : s.Alive) (hps : ∀ i cnt, past i cnt ≠ cnt) (hm : s.WorkerMove past s') :
    s'.Stored p n bound units k ∧ (s'.halted = s.halted ∨ s'.halted = some (.exit .allocZoneFail)) := by
  have hb (req : IORequest) (hr : req ∈ s.worker.hand) : ∃ buf, req.rw = .write buf ∧ buf.size = n * ioSize := by
    refine hs.enqueued req ?_
    rw [← hq.order]
    simp [hr]
  cases hm with
  | append req drain buf sys u hpc hrw hrn =>
    obtain ⟨buf', hrw', hsz⟩ := hb req (by simp [hpc])
    cases hrw.symm.trans hrw'
    obtain ⟨i, c, hp⟩ := h.progress
    have hap : Volume.append ⟨s.sys, s.data⟩ ⟨req.data, buf, past⟩ =
        .ok ⟨sys, update s.data req.data u⟩ := bind_of_ok hrn _
    rcases hp.append ⟨req.data, buf, past⟩ hn hsz hps h.holds with
      ⟨hfl, -⟩ | ⟨v', c', hok, hp', hv'⟩
    · rw [hap] at hfl
      cases hfl
    · cases hap.symm.trans hok
      rw [writes_finish _ _ hrw] at hv'
      exact ⟨⟨h.partition, ⟨_, c', hp'⟩, hv', h.data_lt⟩, .inl rfl⟩
  | appendExit req drain buf fault hpc hrw hrn =>
    obtain ⟨buf', hrw', hsz⟩ := hb req (by simp [hpc])
    cases hrw.symm.trans hrw'
    obtain ⟨i, c, hp⟩ := h.progress
    have hap : Volume.append ⟨s.sys, s.data⟩ ⟨req.data, buf, past⟩ = .error fault := by
      rw [Volume.append, hrn]
      rfl
    rcases hp.append ⟨req.data, buf, past⟩ hn hsz hps h.holds with
      ⟨hfl, -⟩ | ⟨v', c', hok, -⟩
    · cases hap.symm.trans hfl
      exact ⟨⟨h.partition, h.progress, h.holds, h.data_lt⟩, .inr rfl⟩
    · rw [hap] at hok
      cases hok
  | deleted req drain hpc hrw =>
    obtain ⟨buf, hrw', -⟩ := hb req (by simp [hpc])
    cases hrw.symm.trans hrw'
  | free req drain hpc =>
    obtain ⟨buf, hrw, -⟩ := hb req (by simp [hpc])
    cases hrw.symm.trans (hl.deleting req drain hpc)
  | freed req hr hf =>
    have hlv := hl.ok.pending_live req (mem_append_left _ hr)
    exact absurd (hlv.symm.trans hf) Bool.false_ne_true
  | _ => exact ⟨⟨h.partition, h.progress, h.holds, h.data_lt⟩, .inl rfl⟩

theorem Solo.writes_eq (h : s.Solo n) (hq : s.Queued) (hl : s.Alive) (hnm : s.Named)
    (hi : (s.threads 0).unacked = []) {name : String} (hm : s.userdataMap name = some data)
    (hnn : ∀ req ∈ s.worker.hand ++ s.ioQueue, req.data ≠ data) :
    writes s.executed data = written s.acked name := by
  have hal : writes s.enqueued data = writes s.executed data := by
    rw [← hq.order, append_assoc, writes_append, writes_eq_nil hnn, append_nil]
  have hr : s.acked.map Ack.req = s.enqueued := by
    rw [← h.acked, hi, append_nil]
  have hsame (x : Ack) (hx : x ∈ s.acked) : x.req.data = data ↔ x.name = name := by
    have hm' := hnm.acked x hx
    constructor
    · rintro rfl
      exact hl.ok.map_inj _ _ _ hm' hm
    · rintro rfl
      exact Option.some.inj (hm'.symm.trans hm)
  rw [← hal, ← hr, writes, written, filter_map, filterMap_map]
  congr 1
  apply filter_congr
  intro x hx
  simp [hsame x hx]

def InRange (n : ℕ) (bs : List (Slice UInt8)) (o size : ℕ) : Prop :=
  1 ≤ size ∧ size < 4294967296 ∧ o + size ≤ (bs.map Slice.size).sum ∧
    Userdata.InReach n (bs.map Slice.size).sum o size

instance (n : ℕ) (bs : List (Slice UInt8)) (o size : ℕ) : Decidable (InRange n bs o size) :=
  inferInstanceAs (Decidable (_ ∧ _))

/-- When a thread enters `Read`, no request of that `Userdata` is pending, and the range lies within
what has been acknowledged and within reach. -/
def Settled (n : ℕ) (s : State) : Action → Prop
  | .thread t => ∀ x ∈ (s.threads t).loading,
    (∀ req ∈ s.worker.hand ++ s.ioQueue, req.data ≠ x.2) ∧
      ∀ o ∈ x.1.offset, InRange n (written s.acked x.1.name) o x.1.size
  | _ => True

instance (n : ℕ) (s : State) : (a : Action) → Decidable (Settled n s a)
  | .call _ _ | .worker _ => inferInstanceAs (Decidable True)
  | .thread t => inferInstanceAs (Decidable (∀ x ∈ (s.threads t).loading, _))

def Right (y : Loaded) : Prop :=
  y.ret = 0 ∧ ∃ o ∈ y.args.offset, y.buf.load 0 y.args.size =
    ((Slice.concat (written y.before y.args.name)).drop o).take y.args.size

structure Loads (n : ℕ) (s : State) : Prop where
  called : s.threads 0 ≠ .idle → s.called 0 = s.acked
  reading : ∀ x ∈ (s.threads 0).reading, (∀ req ∈ s.worker.hand ++ s.ioQueue, req.data ≠ x.2) ∧
    ∀ o ∈ x.1.offset, InRange n (written s.acked x.1.name) o x.1.size
  loaded : ∀ y ∈ s.loaded, Right y
  halted : s.halted = none ∨ s.halted = some (.exit .allocZoneFail)

theorem Loads.move (h : s.Loads n) {pc : Pc} (ht : s'.threads = (s.goto 0 pc).threads)
    (hc : pc ≠ .idle → s'.called 0 = s'.acked)
    (hr : ∀ x ∈ pc.reading, (∀ req ∈ s'.worker.hand ++ s'.ioQueue, req.data ≠ x.2) ∧
      ∀ o ∈ x.1.offset, InRange n (written s'.acked x.1.name) o x.1.size)
    (hl : ∀ y ∈ s'.loaded, Right y) (hh : s'.halted = s.halted) : s'.Loads n := by
  have hpc : s'.threads 0 = pc := by rw [ht, threads_goto]
  exact ⟨hpc ▸ hc, hpc ▸ hr, hl, hh ▸ h.halted⟩

theorem delivers_readRange {sys : System} {u : Userdata} {bs : List (Slice UInt8)}
    (h : u.Delivers sys bs o size) (buf : Mem UInt8) :
    o / blockSize ≤ u.size ∧ ∃ m sys', u.readRange sys buf o size = .ok (m, sys') ∧
      m.load 0 size = ((Slice.concat bs).drop o).take size := by
  obtain ⟨m, sys', hrd, hm⟩ := h buf
  rw [Userdata.read] at hrd
  split at hrd
  · cases hrd
  refine ⟨by omega, ?_⟩
  cases hr : u.readRange sys buf o size with
  | error e =>
    rw [hr] at hrd
    cases hrd
  | ok r =>
    rw [hr] at hrd
    cases hrd
    exact ⟨m, sys', rfl, hm⟩

theorem Solo.delivers (h : s.Solo n) (hq : s.Queued) (hl : s.Alive) (hnm : s.Named)
    (hst : s.Stored p n bound units k) (hn : n ≤ 512) (hi : (s.threads 0).unacked = [])
    {name : String} (hm : s.userdataMap name = some data)
    (hnn : ∀ req ∈ s.worker.hand ++ s.ioQueue, req.data ≠ data)
    (hr : InRange n (written s.acked name) o size) :
    (s.data data).Delivers s.sys (written s.acked name) o size := by
  have heq := h.writes_eq hq hl hnm hi hm hnn
  obtain ⟨hps, hsz, hin, hrc⟩ := hr
  have hln : (Slice.concat (written s.acked name)).length = ((written s.acked name).map Slice.size).sum := by
    simp [Slice.concat, length_flatMap]
  obtain ⟨i, c, hp⟩ := hst.progress
  rw [← hln] at hin hrc
  rw [← heq] at hin hrc ⊢
  refine (hst.holds.delivers_iff hp.ready hn hps hsz hin fun bs1 b bs2 hbs _ _ => ?_).mpr hrc
  have hb : b ∈ writes s.executed data := by simp [hbs]
  obtain ⟨r, hr, hrb⟩ := mem_filterMap.mp hb
  obtain ⟨buf, hrw, hbf⟩ := h.enqueued r (hq.executed_prefix.subset (mem_filter.mp hr).1)
  rw [hrw] at hrb
  cases hrb
  exact hbf

structure Single (p n bound units k : ℕ) (s : State) : Prop where
  solo : s.Solo n
  queued : s.Queued
  locked : s.Locked
  held : s.Held
  writeLocked : s.WriteLocked
  alive : s.Alive
  named : s.Named
  stored : s.Stored p n bound units k
  loads : s.Loads n

section

variable (h : s.Single p n bound units k) (hn : n ≤ 512)

include h hn

theorem Single.read (hi : (s.threads 0).unacked = []) {args : LoadArgs}
    (hm : s.userdataMap args.name = some data) (hos : args.offset ≠ none)
    (hst : (∀ req ∈ s.worker.hand ++ s.ioQueue, req.data ≠ data) ∧
      ∀ o ∈ args.offset, InRange n (written s.acked args.name) o args.size) :
    (∀ o ∈ args.offset, o / blockSize ≤ (s.data data).size) ∧
      ∃ buf sys, s.read data args = .ok (buf, sys) ∧ ∃ o ∈ args.offset, buf.load 0 args.size =
        ((Slice.concat (written s.acked args.name)).drop o).take args.size := by
  obtain ⟨o, ho⟩ := Option.ne_none_iff_exists'.mp hos
  have hd := h.solo.delivers h.queued h.alive h.named h.stored hn hi hm hst.1 (hst.2 o ho)
  obtain ⟨hsz, buf, sys, hr, hb⟩ := delivers_readRange hd args.buf
  refine ⟨fun o' ho' => ?_, buf, sys, ?_, o, ho, hb⟩
  · cases ho.symm.trans ho'
    exact hsz
  · simp only [State.read, ho]
    exact hr

theorem Single.loads_thread (hg : s.Settled n (.thread 0)) (hm : s.ThreadMove 0 s') : s'.Loads n := by
  have hc := h.loads.called hm.ne_idle
  have hw := h.solo.within
  have hnm := h.named.threads 0
  have hrt := h.solo.ret
  cases hm
  case closeAgain hpc | close hpc _ | syncFound hpc _ | delFound hpc _ | syncUnlock hpc |
      syncGet hpc _ | syncEnd hpc _ | syncLock hpc _ | syncWait hpc _ | syncClear hpc =>
    rw [hpc] at hw
    exact hw.elim
  case lock | check | flushOld | flushNew | loadFound | notFound | push | unlock | loadUnlock =>
    exact h.loads.move rfl (fun _ => hc) nofun h.loads.loaded rfl
  case pushed => exact h.loads.move rfl (fun hne => absurd rfl hne) nofun h.loads.loaded rfl
  case freed data hpc hf =>
    exact absurd (((h.alive.safe 0).live_of_pointer hpc).symm.trans hf) Bool.false_ne_true
  case loadShort args data ret offset hpc ho hsz =>
    rw [hpc] at hw hnm
    have hst := hg (args, data) (by rw [hpc]; rfl)
    have hle := (h.read hn (by rw [hpc]; rfl) hnm hw hst).1 offset ho
    exact absurd hsz (Nat.not_lt.mpr hle)
  case loadExit args data ret fault hpc hr =>
    rw [hpc] at hw hnm
    have hst := h.loads.reading (args, data) (by rw [hpc]; rfl)
    obtain ⟨-, buf, sys, hok, -⟩ := h.read hn (by rw [hpc]; rfl) hnm hw hst
    cases hr.symm.trans hok
  case loadSize args data ret hpc hsz =>
    refine h.loads.move rfl (fun _ => hc) ?_ h.loads.loaded rfl
    rintro x ⟨⟩
    exact hg (args, data) (by rw [hpc]; rfl)
  case loadLock args data ret hpc hfr =>
    refine h.loads.move rfl (fun _ => hc) ?_ h.loads.loaded rfl
    rintro x ⟨⟩
    exact h.loads.reading (args, data) (by rw [hpc]; rfl)
  case loadRead args data ret buf sys hpc hr =>
    rw [hpc] at hw hnm hrt
    have hst := h.loads.reading (args, data) (by rw [hpc]; rfl)
    obtain ⟨-, buf', sys', hok, hb⟩ := h.read hn (by rw [hpc]; rfl) hnm hw hst
    cases hr.symm.trans hok
    refine h.loads.move rfl (fun hne => absurd rfl hne) nofun ?_ rfl
    refine forall_mem_append.mpr ⟨h.loads.loaded, forall_mem_singleton.mpr ⟨hrt, ?_⟩⟩
    dsimp only [setWriteLock]
    rwa [hc]

section

variable (hlt : n * ioSize < 4294967296) (ha : a.Solo n) (hg : s.Settled n a) (hs : s.step a = some s')

include hlt ha hg hs

theorem Single.loads_step : s'.Loads n := by
  cases move_of_step hs with
  | call t op lock hpc =>
    obtain ⟨rfl, -⟩ := ha
    exact h.loads.move rfl (fun _ => update_self 0 s.acked s.called) nofun h.loads.loaded rfl
  | thread t hm =>
    cases h.solo.thread_zero hm
    exact h.loads_thread hn hg hm
  | worker past hm =>
    obtain ⟨ht, -, -, -, -, hac, hc, -, hl, -⟩ := hm.frame
    obtain ⟨-, hh⟩ := h.stored.worker hlt h.solo h.queued h.alive ha hm
    refine ⟨?_, ?_, hl ▸ h.loads.loaded, ?_⟩
    · rw [ht, hc, hac]
      exact h.loads.called
    · intro x hx
      obtain ⟨hnn, hr⟩ := h.loads.reading x (ht ▸ hx)
      rw [hac]
      refine ⟨fun req hrq => hnn req ?_, hr⟩
      exact hm.pending_subset hrq
    · rcases hh with hh | hh
      · rw [hh]
        exact h.loads.halted
      · exact .inr hh

theorem Single.step : s'.Single p n bound units k := by
  have hw (t : ℕ) : (s.threads t).Within NoDel := by
    by_cases ht : t = 0
    · subst ht
      exact h.solo.within.mono fun op hop name hd => by subst hd; exact hop
    · rw [h.solo.alone t ht]
      trivial
  refine ⟨h.solo.step ha hs, h.queued.step hs, h.locked.step hs, h.held.step hs, h.writeLocked.step hs,
    h.alive.step h.locked (h.solo.guarded h.queued h.alive) hs, h.named.step hw hs, ?_,
    h.loads_step hn hlt ha hg hs⟩
  cases move_of_step hs with
  | call t op lock hpc =>
    exact ⟨h.stored.partition, h.stored.progress, h.stored.holds, h.stored.data_lt⟩
  | thread t hm =>
    cases h.solo.thread_zero hm
    exact h.stored.thread h.solo h.queued h.alive hm
  | worker past hm => exact (h.stored.worker hlt h.solo h.queued h.alive ha hm).1

end

end

theorem single_fresh {sys : System} (h : sys.Ready p n bound units k)
    (hz : (sys.partitions p).zoneVector = []) : (fresh sys p).Single p n bound units k where
  solo := ⟨fun _ _ => rfl, trivial, rfl, rfl, by simp [fresh], by simp [fresh, Pc.unacked]⟩
  queued := (opened_fresh sys p).served.queued
  locked := (opened_fresh sys p).locked
  held := nofun
  writeLocked := by simp [WriteLocked, fresh]
  alive := (opened_fresh sys p).alive
  named := ⟨fun _ => trivial, by simp [fresh], by simp [fresh]⟩
  stored := ⟨rfl, ⟨0, 0, h, .inl ⟨rfl, rfl, hz⟩⟩, Volume.Holds.new fun _ => ⟨0, rfl⟩, by simp [fresh]⟩
  loads := ⟨fun hne => absurd rfl hne, by simp [fresh, Pc.reading], by simp [fresh], .inl rfl⟩

theorem ThreadMove.stepsLeft_lt (hm : s.ThreadMove t s') :
    (s'.threads t).stepsLeft < (s.threads t).stepsLeft ∨ ∃ h, s'.halted = some h := by
  have hlt {pc pc' : Pc} (hpc : s.threads t = pc) (hpc' : s'.threads t = pc')
      (h : pc'.stepsLeft < pc.stepsLeft) : (s'.threads t).stepsLeft < (s.threads t).stepsLeft := by
    rw [hpc, hpc']
    exact h
  cases hm
  case closeAgain | loadExit | syncEnd | freed => exact .inr ⟨_, rfl⟩
  case lock hpc _ | close hpc _ | check hpc _ | flushOld hpc _ | flushNew hpc _ | loadFound hpc _ |
      syncFound hpc _ | delFound hpc _ | notFound hpc | push hpc | pushed hpc | unlock hpc |
      loadUnlock hpc | loadShort hpc _ _ | loadSize hpc _ | loadLock hpc _ | loadRead hpc _ |
      syncUnlock hpc | syncGet hpc _ | syncLock hpc _ | syncWait hpc _ | syncClear hpc =>
    exact .inl (hlt hpc (threads_goto ..) (by simp [Pc.stepsLeft]))

theorem Single.threadStep_ne_none (h : s.Single p n bound units k) (hb : s.threads 0 ≠ .idle) :
    s.threadStep 0 ≠ none := by
  have hwt := h.solo.within
  have hst := h.loads.reading
  unfold threadStep deref
  cases hpc : s.threads 0 with
  | idle => exact absurd hpc hb
  | enter op =>
    have hf : s.partitionLock = none := by
      cases hlc : s.partitionLock with
      | none => rfl
      | some t =>
        have hin := h.held t hlc
        by_cases ht : t = 0
        · simp [ht, hpc, Pc.inside] at hin
        · simp [h.solo.alone t ht, Pc.inside] at hin
    simp [hf]
  | locked op =>
    cases op with
    | zCloselp =>
      dsimp only
      split <;> simp
    | _ => simp
  | checked op ret =>
    rw [hpc] at hwt
    cases op with
    | zFlush | zLoad =>
      dsimp only
      split <;> simp
    | _ => exact hwt.elim
  | loadSize args data ret =>
    dsimp only
    split
    · split
      · simp
      · split <;> simp
    · simp
  | loadLock args data ret =>
    -- the worker would hold the lock for a request of this object
    have hf : s.writeLock data = false := by
      by_contra hl
      rcases h.writeLocked data (Bool.not_eq_false _ ▸ hl) with hw | ⟨t, ht⟩
      · cases hwr : s.worker with
        | busy req drain =>
          rw [hwr] at hw
          exact (hst (args, data) (by rw [hpc]; rfl)).1 req (by simp [hwr]) (Option.some.inj hw)
        | _ => simp [hwr, WorkerPc.holds] at hw
      · by_cases ht0 : t = 0
        · simp [ht0, hpc, Pc.holds] at ht
        · simp [h.solo.alone t ht0, Pc.holds] at ht
    dsimp only
    split <;> simp [hf]
  | loadRead args data ret =>
    dsimp only
    split
    · simp
    · split <;> simp
  | push | pushed | unlock | loadUnlock => simp
  | syncUnlock | syncGet | syncLock | syncWait | syncClear =>
    rw [hpc] at hwt
    exact hwt.elim

/-- One thread that appends stripes and reads ranges, and the worker. If no request of the `Userdata` is pending
whenever the thread enters `Read`, every `z_load` within reach returns 0 with the bytes that were flushed. -/
theorem read_your_writes {sys : System} (h : sys.Ready p n bound units k)
    (hz : (sys.partitions p).zoneVector = []) (hn : n ≤ 512) {as : List Action}
    (hops : ∀ a ∈ as, a.Solo n) (hr : run State.step (fresh sys p) as = some s)
    (hg : Along State.step (Settled n) (fresh sys p) as) :
    (∀ y ∈ s.loaded, Right y) ∧ (s.halted = none ∨ s.halted = some (.exit .allocZoneFail)) ∧
      (s.halted = none → s.threads 0 ≠ .idle → ∃ s', s.step (.thread 0) = some s' ∧
        ((s'.threads 0).stepsLeft < (s.threads 0).stepsLeft ∨ ∃ h, s'.halted = some h)) := by
  have hlt : n * ioSize < 4294967296 := Nat.lt_of_le_of_lt (Nat.mul_le_mul_right ioSize hn) (by decide)
  have hs : s.Single p n bound units k :=
    run_invariant_along (fun s a => a.Solo n ∧ Settled n s a) (Single p n bound units k)
      (fun _ _ _ ha hs h => h.step hn hlt ha.1 ha.2 hs) hr ((along_of_forall _ hops _).and hg)
      (single_fresh h hz)
  refine ⟨hs.loads.loaded, hs.loads.halted, fun hh hb => ?_⟩
  obtain ⟨s', hs'⟩ := Option.ne_none_iff_exists'.mp (hs.threadStep_ne_none hb)
  exact ⟨s', by rw [State.step, hh]; exact hs', (threadMove_of_step hs').stepsLeft_lt⟩

theorem read_your_writes_seven_bytes :
    let as := calls 0 (.zFlush "a" ⟨fun i => i.toUInt8, ioSize⟩) 5 ++ works 3 ++
      calls 0 (.zLoad ⟨"a", fun _ => 0, some 5, 7⟩) 7
    ∃ s, run State.step (fresh (System.single 384 32 1) 1) as = some s ∧ s.loaded ≠ [] ∧ ∀ y ∈ s.loaded, Right y := by
  intro as
  obtain ⟨s, hr, hs⟩ : ∃ s, run State.step (fresh (System.single 384 32 1) 1) as = some s ∧ s.loaded ≠ [] :=
    exists_some_of_check (by decide +kernel)
  have ho : ∀ a ∈ as, a.Solo 1 := by
    simp [as, calls, works, Action.Solo, Client]
  refine ⟨s, hr, hs, ?_⟩
  exact (read_your_writes Volume.single_ready rfl (by decide) ho hr (by decide +kernel)).1

/-- A `z_load` that overtakes the request of the `z_flush` before it ends the program, or returns 0 and leaves the
buffer as it was. -/
theorem read_overtakes_write :
    let flush := calls 0 (.zFlush "a" ⟨fun _ => 7, ioSize⟩) 5
    (run State.step (fresh (System.single 384 32 1) 1)
      (flush ++ calls 0 (.zLoad ⟨"a", fun _ => 0, some 0, 1⟩) 7)).bind State.halted = some (.exit .readSizeError) ∧
    ((run State.step (fresh (System.single 384 32 1) 1)
      (flush ++ calls 0 (.zLoad ⟨"a", fun _ => 0, some 512, 1⟩) 5)).any fun s =>
        s.loaded.any fun y => y.ret = 0 ∧ y.buf 0 = 0) = true :=
  ⟨by decide +kernel, by decide +kernel⟩

end State

end Protocol

end ZenFSPlus.Zoad
