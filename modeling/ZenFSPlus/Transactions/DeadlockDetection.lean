import Mathlib.Data.List.Perm.Basic
import ZenFSPlus.Lib.Acyclic
import ZenFSPlus.Lib.Run
import ZenFSPlus.Transactions.PointLockManager

namespace ZenFSPlus.Transactions

open Lib List Function

namespace PointLockManager

def entryOf (n : ℕ) : Option ℕ := if n = 0 then none else some n

def Counts (rev : TransactionID → Option ℕ) (c : TransactionID → ℕ) : Prop := ∀ x, rev x = entryOf (c x)

variable {rev rev' : TransactionID → Option ℕ} {c : TransactionID → ℕ}

theorem Counts.unique (h : Counts rev c) (h' : Counts rev' c) : rev' = rev := by
  funext x
  rw [h x, h' x]

theorem Counts.increment (h : Counts rev c) (waitId : TransactionID) :
    Counts (incrementRev rev waitId) fun x => c x + [waitId].count x := by
  intro x
  by_cases hx : x = waitId
  · subst hx
    have hw := h x
    unfold entryOf at hw
    by_cases hc : c x = 0
    · rw [if_pos hc] at hw
      simp [incrementRev, hw, hc, entryOf]
    · rw [if_neg hc] at hw
      simp [incrementRev, hw, entryOf]
  · have hcn : [waitId].count x = 0 := count_eq_zero.mpr (by simpa using hx)
    dsimp only
    rw [hcn, Nat.add_zero, ← h x]
    unfold incrementRev
    cases rev waitId with
    | some _ | none => exact update_of_ne hx _ _

theorem Counts.decrement {waitId : TransactionID} (h : Counts rev fun x => c x + [waitId].count x) :
    ∃ rev', decrementRev rev waitId = some rev' ∧ Counts rev' c := by
  have hw := h waitId
  dsimp only at hw
  rw [count_singleton_self, entryOf, if_neg (Nat.succ_ne_zero _)] at hw
  unfold decrementRev
  rw [hw]
  refine ⟨_, rfl, fun x => ?_⟩
  by_cases hx : x = waitId
  · rw [hx, update_self, Nat.add_sub_cancel]
    rfl
  have hc : [waitId].count x = 0 := count_eq_zero.mpr (by simpa using hx)
  rw [update_of_ne hx, h x]
  dsimp only
  rw [hc, Nat.add_zero]

theorem Counts.foldl (h : Counts rev c) (waitIds : List TransactionID) :
    Counts (waitIds.foldl incrementRev rev) fun x => c x + waitIds.count x := by
  induction waitIds generalizing rev c with
  | nil => exact h
  | cons w waitIds ih =>
    have hc : (fun x => c x + (w :: waitIds).count x) = fun x => c x + [w].count x + waitIds.count x := by
      funext x
      rw [count_cons, count_singleton]
      omega
    rw [hc, foldl_cons]
    exact ih (h.increment w)

theorem Counts.foldlM {waitIds : List TransactionID} (h : Counts rev fun x => c x + waitIds.count x) :
    ∃ rev', waitIds.foldlM decrementRev rev = some rev' ∧ Counts rev' c := by
  induction waitIds generalizing rev with
  | nil => exact ⟨rev, rfl, h⟩
  | cons w waitIds ih =>
    have hc : (fun x => c x + (w :: waitIds).count x) = fun x => c x + waitIds.count x + [w].count x := by
      funext x
      rw [count_cons, count_singleton]
      omega
    rw [hc] at h
    obtain ⟨rev1, hr1, h1⟩ := h.decrement
    obtain ⟨rev', hr', h'⟩ := ih h1
    refine ⟨rev', ?_, h'⟩
    rw [foldlM_cons, hr1]
    exact hr'

def WaitsFor (waitTxnMap : TransactionID → Option TrackedTrxInfo) (a b : TransactionID) : Prop :=
  ∃ info, waitTxnMap a = some info ∧ b ∈ info.neighbors

section

variable {wtm : TransactionID → Option TrackedTrxInfo} {id : TransactionID} {depth : ℕ}

structure Explored (waitTxnMap : TransactionID → Option TrackedTrxInfo) (id : TransactionID) (depth head : ℕ)
    (queue : List Queued) : Prop where
  length_lt : queue.length < depth
  ne_id : ∀ (j : ℕ) (q : Queued), head ≤ j → queue[j]? = some q → q.value ≠ id
  closed : ∀ (j : ℕ) (q : Queued) (info : TrackedTrxInfo), head ≤ j → queue[j]? = some q → waitTxnMap q.value = some info →
    ∀ x ∈ info.neighbors, x ∈ queue.map Queued.value

theorem mem_push (queue : List Queued) {q' : List Queued} (nids : Option (List TransactionID)) (parent : Option ℕ)
    (hp : queue ++ ((nids.getD []).take (depth - queue.length)).map (⟨·, parent⟩) <+: q')
    (hlt : q'.length < depth) : ∀ ids ∈ nids, ∀ x ∈ ids, x ∈ q'.map Queued.value := by
  intro ids hi x hx
  cases hi
  have hl := hp.length_le
  rw [length_append, length_map, length_take, Option.getD_some] at hl
  have ha : ids.take (depth - queue.length) = ids := take_of_length_le (by omega)
  rw [Option.getD_some, ha] at hp
  apply (hp.map Queued.value).subset
  rw [map_append, map_map]
  exact mem_append_right _ (mem_map.mpr ⟨x, hx, rfl⟩)

variable {queue : List Queued} {parent : Option ℕ} {fuel head : ℕ}

theorem searchLoop_noDeadlock {nids : Option (List TransactionID)} (hf : fuel + head = depth)
    (h : searchLoop wtm id depth fuel head queue nids parent = .noDeadlock) :
    ∃ q', queue <+: q' ∧ (∀ ids ∈ nids, ∀ x ∈ ids, x ∈ q'.map Queued.value) ∧ Explored wtm id depth head q' := by
  induction fuel generalizing head queue nids parent with
  | zero => cases h
  | succ fuel ih =>
    rw [searchLoop] at h
    have hp := prefix_append queue (((nids.getD []).take (depth - queue.length)).map (⟨·, parent⟩))
    have hm {q' : List Queued} := @mem_push depth queue q' nids parent
    generalize queue ++ _ = pushed at h hp hm
    cases hnx : pushed[head]? with
    | none =>
      have hl := List.getElem?_eq_none_iff.mp hnx
      refine ⟨pushed, hp, hm prefix_rfl (by omega), by omega, ?_, ?_⟩
      · intro j q hj hq
        rw [List.getElem?_eq_none (by omega)] at hq
        cases hq
      · intro j q info hj hq
        rw [List.getElem?_eq_none (by omega)] at hq
        cases hq
    | some next =>
      rw [hnx] at h
      dsimp only at h
      by_cases hid : next.value = id
      · rw [if_pos hid] at h
        cases h
      rw [if_neg hid] at h
      -- in both cases the rest of the search has looked at everything behind `head`
      obtain ⟨q', hpr, hn, he⟩ : ∃ q', pushed <+: q' ∧
          (∀ info, wtm next.value = some info → ∀ x ∈ info.neighbors, x ∈ q'.map Queued.value) ∧
          Explored wtm id depth (head + 1) q' := by
        cases hi : wtm next.value with
        | none =>
          rw [hi] at h
          obtain ⟨q', hq, -, he⟩ := ih (by omega) h
          exact ⟨q', hq, nofun, he⟩
        | some info =>
          rw [hi] at h
          obtain ⟨q', hq, hids, he⟩ := ih (by omega) h
          refine ⟨q', hq, ?_, he⟩
          intro info' hi'
          cases hi'
          exact hids _ rfl
      have hh : q'[head]? = some next := by
        obtain ⟨rest, rfl⟩ := hpr
        rw [List.getElem?_append_left (List.getElem?_eq_some_iff.mp hnx).1, hnx]
      refine ⟨q', hp.trans hpr, hm hpr he.length_lt, he.length_lt, ?_, ?_⟩
      · intro j q hj hq
        rcases Nat.lt_or_eq_of_le hj with hj | rfl
        · exact he.ne_id j q hj hq
        · cases hh.symm.trans hq
          exact hid
      · intro j q info hj hq hi
        rcases Nat.lt_or_eq_of_le hj with hj | rfl
        · exact he.closed j q info hj hq hi
        · cases hh.symm.trans hq
          exact hn info hi

def Parents (waitTxnMap : TransactionID → Option TrackedTrxInfo) (queue : List Queued) : Prop :=
  ∀ (j : ℕ) (q : Queued) (p : ℕ), queue[j]? = some q → q.parent = some p →
    p < j ∧ ∃ (q' : Queued) (info : TrackedTrxInfo), queue[p]? = some q' ∧ waitTxnMap q'.value = some info

theorem Parents.push (h : Parents wtm queue)
    (hpr : ∀ p ∈ parent, ∃ (q : Queued) (info : TrackedTrxInfo), queue[p]? = some q ∧ wtm q.value = some info)
    (ids : List TransactionID) : Parents wtm (queue ++ ids.map (⟨·, parent⟩)) := by
  intro j q p hq hp
  have hl {i : ℕ} {q' : Queued} (hq' : queue[i]? = some q') : (queue ++ ids.map (⟨·, parent⟩))[i]? = some q' := by
    rw [List.getElem?_append_left (List.getElem?_eq_some_iff.mp hq').1, hq']
  by_cases hj : j < queue.length
  · rw [List.getElem?_append_left hj] at hq
    obtain ⟨hlt, q', info, hq', hi⟩ := h j q p hq hp
    exact ⟨hlt, q', info, hl hq', hi⟩
  rw [List.getElem?_append_right (Nat.not_lt.mp hj), List.getElem?_map, Option.map_eq_some_iff] at hq
  obtain ⟨x, -, rfl⟩ := hq
  obtain ⟨q', info, hq', hi⟩ := hpr p hp
  have hlt := (List.getElem?_eq_some_iff.mp hq').1
  exact ⟨by omega, q', info, hl hq', hi⟩

theorem searchLoop_deadlock {nids : Option (List TransactionID)} (hqu : Parents wtm queue)
    (hpr : ∀ p ∈ parent, ∃ (q : Queued) (info : TrackedTrxInfo), queue[p]? = some q ∧ wtm q.value = some info)
    {q' : List Queued} {head' : ℕ}
    (h : searchLoop wtm id depth fuel head queue nids parent = .deadlock q' head') :
    Parents wtm q' ∧ ∃ q, q'[head']? = some q ∧ q.value = id := by
  induction fuel generalizing head queue nids parent with
  | zero => cases h
  | succ fuel ih =>
    rw [searchLoop] at h
    have hps := hqu.push hpr ((nids.getD []).take (depth - queue.length))
    have hk : ∀ p ∈ parent, ∃ (q : Queued) (info : TrackedTrxInfo),
        (queue ++ ((nids.getD []).take (depth - queue.length)).map (⟨·, parent⟩))[p]? = some q ∧
          wtm q.value = some info := by
      intro p hp
      obtain ⟨q, info, hq, hi⟩ := hpr p hp
      exact ⟨q, info, by rw [List.getElem?_append_left (List.getElem?_eq_some_iff.mp hq).1, hq], hi⟩
    generalize queue ++ _ = pushed at h hps hk
    cases hn : pushed[head]? with
    | none =>
      rw [hn] at h
      cases h
    | some next =>
      rw [hn] at h
      dsimp only at h
      by_cases hid : next.value = id
      · rw [if_pos hid] at h
        cases h
        exact ⟨hps, next, hn, hid⟩
      rw [if_neg hid] at h
      cases hi : wtm next.value with
      | none =>
        rw [hi] at h
        exact ih hps hk h
      | some info =>
        rw [hi] at h
        refine ih hps ?_ h
        intro p hp
        cases hp
        exact ⟨next, info, hn, hi⟩

theorem searchLoop_sound {nids : Option (List TransactionID)} {q' : List Queued} {head' : ℕ}
    (hr : ∀ x ∈ queue.map Queued.value ++ nids.getD [], Relation.TransGen (WaitsFor wtm) id x)
    (h : searchLoop wtm id depth fuel head queue nids parent = .deadlock q' head') :
    Relation.TransGen (WaitsFor wtm) id id := by
  induction fuel generalizing head queue nids parent with
  | zero => cases h
  | succ fuel ih =>
    rw [searchLoop] at h
    have hps : ∀ q ∈ queue ++ ((nids.getD []).take (depth - queue.length)).map (⟨·, parent⟩),
        Relation.TransGen (WaitsFor wtm) id q.value := by
      simp only [mem_append, mem_map] at hr ⊢
      rintro q (hq | ⟨x, hx, rfl⟩)
      · exact hr _ (.inl ⟨q, hq, rfl⟩)
      · exact hr x (.inr (mem_of_mem_take hx))
    generalize queue ++ _ = pushed at h hps
    split at h
    · cases h
    rename_i next hn
    have hx := hps next (mem_of_getElem? hn)
    split at h
    · rename_i heq
      exact heq ▸ hx
    split at h
    · exact ih (by simpa using hps) h
    · rename_i info hi
      refine ih (forall_mem_append.mpr ⟨forall_mem_map.mpr hps, fun y hy => ?_⟩) h
      exact hx.tail ⟨info, hi, hy⟩

theorem parentPath_none (queue : List Queued) (fuel : ℕ) : parentPath wtm queue fuel none = some [] := by
  cases fuel with
  | zero => rfl
  | succ fuel => rfl

theorem parentPath_isSome (hqu : Parents wtm queue) (hf : head < fuel)
    {q : Queued} {info : TrackedTrxInfo} (hq : queue[head]? = some q) (hi : wtm q.value = some info) :
    ∃ path, parentPath wtm queue fuel (some head) = some path := by
  induction fuel generalizing head q info with
  | zero => exact absurd hf (Nat.not_lt_zero _)
  | succ fuel ih =>
    rw [parentPath, hq, Option.bind_eq_bind, Option.bind_some, hi, Option.bind_eq_bind, Option.bind_some]
    cases hp : q.parent with
    | none =>
      rw [parentPath_none]
      exact ⟨_, rfl⟩
    | some p =>
      obtain ⟨hlt, q', info', hq', hi'⟩ := hqu head q p hq hp
      obtain ⟨path, hpt⟩ := ih (by omega) hq' hi'
      rw [hpt]
      exact ⟨_, rfl⟩

end

variable {m : PointLockManager} {id : TransactionID} {waitIds : List TransactionID}

theorem decrementWaitersImpl_counts (hid : (m.waitTxnMap id).isSome)
    (h : Counts m.revWaitTxnMap fun x => c x + waitIds.count x) :
    ∃ m', m.decrementWaitersImpl id waitIds = some m' ∧
      m'.waitTxnMap = update m.waitTxnMap id none ∧ Counts m'.revWaitTxnMap c := by
  obtain ⟨rev', hr', hc⟩ := h.foldlM
  refine ⟨{ m with waitTxnMap := update m.waitTxnMap id none, revWaitTxnMap := rev' }, ?_, rfl, hc⟩
  rw [decrementWaitersImpl, if_pos hid, hr', Option.map_some]

theorem not_transGen_of_noDeadlock {txn : PessimisticTransaction} {info : TrackedTrxInfo}
    {wtm : TransactionID → Option TrackedTrxInfo} (hi : wtm txn.id = some info)
    (h : searchLoop wtm txn.id txn.deadlockDetectDepth txn.deadlockDetectDepth 0 [] (some info.neighbors) none =
      .noDeadlock) : ¬ Relation.TransGen (WaitsFor wtm) txn.id txn.id := by
  obtain ⟨queue, -, hn, he⟩ := searchLoop_noDeadlock (Nat.add_zero _) h
  apply not_transGen_self_of_closed (fun x => x ∈ queue.map Queued.value)
  · intro hm
    obtain ⟨q, hq, hid⟩ := mem_map.mp hm
    obtain ⟨j, hj⟩ := mem_iff_getElem?.mp hq
    exact he.ne_id j q (Nat.zero_le _) hj hid
  · rintro a ⟨info', hi', ha⟩
    cases hi.symm.trans hi'
    exact hn _ rfl a ha
  · rintro a b ha ⟨info', hi', hb⟩
    obtain ⟨q, hq, rfl⟩ := mem_map.mp ha
    obtain ⟨j, hj⟩ := mem_iff_getElem?.mp hq
    exact he.closed j q info' (Nat.zero_le _) hj hi' b hb

theorem incrementWaiters_spec (txn : PessimisticTransaction) (info : TrackedTrxInfo) (dt : ℕ)
    (hid : m.waitTxnMap txn.id = none) (hcn : Counts m.revWaitTxnMap c)
    (hw : ∀ a, WaitsFor m.waitTxnMap a txn.id → 0 < c txn.id) :
    ∃ deadlock m', m.incrementWaiters txn info dt = some (deadlock, m') ∧
      if deadlock then m'.waitTxnMap = m.waitTxnMap ∧ m'.revWaitTxnMap = m.revWaitTxnMap
      else m'.waitTxnMap = update m.waitTxnMap txn.id (some info) ∧
        (Counts m'.revWaitTxnMap fun x => c x + info.neighbors.count x) ∧
        ¬ Relation.TransGen (WaitsFor m'.waitTxnMap) txn.id txn.id := by
  have hsl : update m.waitTxnMap txn.id (some info) txn.id = some info := update_self ..
  have hcn' := hcn.foldl info.neighbors
  -- giving up the wait restores the maps
  have hu (dlb : List DeadlockPath) : ∃ m', decrementWaitersImpl
      ⟨update m.waitTxnMap txn.id (some info), info.neighbors.foldl incrementRev m.revWaitTxnMap, dlb⟩
        txn.id info.neighbors = some m' ∧ m'.waitTxnMap = m.waitTxnMap ∧ m'.revWaitTxnMap = m.revWaitTxnMap := by
    obtain ⟨m', hm', hmp, hr⟩ := @decrementWaitersImpl_counts _
      ⟨update m.waitTxnMap txn.id (some info), info.neighbors.foldl incrementRev m.revWaitTxnMap,
        dlb⟩ txn.id _ (Option.isSome_iff_exists.mpr ⟨info, hsl⟩) hcn'
    refine ⟨m', hm', ?_, hcn.unique hr⟩
    rw [hmp, update_idem, ← hid, update_eq_self]
  unfold incrementWaiters
  rw [hid]
  dsimp only
  rw [if_neg (by simp)]
  by_cases hn : (info.neighbors.foldl incrementRev m.revWaitTxnMap txn.id).isNone
  · rw [if_pos hn]
    refine ⟨false, _, rfl, ?_⟩
    rw [if_neg Bool.false_ne_true]
    refine ⟨rfl, hcn', ?_⟩
    -- the last edge of a cycle would be counted
    intro hc
    have hz : c txn.id + info.neighbors.count txn.id = 0 := by
      have hnn := Option.isNone_iff_eq_none.mp hn
      rw [hcn' txn.id, entryOf] at hnn
      by_contra hne
      rw [if_neg hne] at hnn
      cases hnn
    obtain ⟨a, -, info', ha, hm⟩ := Relation.TransGen.tail'_iff.mp hc
    by_cases hai : a = txn.id
    · subst hai
      cases hsl.symm.trans ha
      exact absurd hm (count_eq_zero.mp (by omega))
    · dsimp only at ha
      rw [update_of_ne hai] at ha
      have := hw a ⟨info', ha, hm⟩
      omega
  · rw [if_neg hn]
    cases hs : searchLoop (update m.waitTxnMap txn.id (some info)) txn.id txn.deadlockDetectDepth
        txn.deadlockDetectDepth 0 [] (some info.neighbors) none with
    | noDeadlock =>
      refine ⟨false, _, rfl, ?_⟩
      rw [if_neg Bool.false_ne_true]
      exact ⟨rfl, hcn', not_transGen_of_noDeadlock hsl hs⟩
    | deadlock queue head =>
      obtain ⟨hpr, q, hq, hqd⟩ := searchLoop_deadlock (by intro j q p hj; cases hj) (by intro p hp; cases hp) hs
      obtain ⟨path, hpt⟩ := parentPath_isSome hpr (Nat.lt_succ_self head) hq ((congrArg _ hqd).trans hsl)
      obtain ⟨m', hm', hsame⟩ := hu (m.dlockBuffer ++ [⟨path.reverse, false, dt⟩])
      refine ⟨true, m', ?_, ?_⟩
      · simp [hpt, hm']
      · rw [if_pos rfl]
        exact hsame
    | limitExceeded =>
      obtain ⟨m', hm', hsame⟩ := hu (m.dlockBuffer ++ [⟨[], true, dt⟩])
      refine ⟨true, m', ?_, ?_⟩
      · simp [hm']
      · rw [if_pos rfl]
        exact hsame

theorem decrementWaitersImpl_dlockBuffer {m' : PointLockManager} (h : m.decrementWaitersImpl id waitIds = some m') :
    m'.dlockBuffer = m.dlockBuffer := by
  rw [decrementWaitersImpl] at h
  split at h
  · obtain ⟨rev, -, rfl⟩ := Option.map_eq_some_iff.mp h
    rfl
  · cases h

/-- A wait that is refused closes a cycle of waits, unless the recorded path says that the search was cut off. -/
theorem deadlock_is_cycle {txn : PessimisticTransaction} {info : TrackedTrxInfo} {dt : ℕ} {m' : PointLockManager}
    (h : m.incrementWaiters txn info dt = some (true, m')) :
    ∃ path limit, m'.dlockBuffer = m.dlockBuffer ++ [⟨path, limit, dt⟩] ∧ (limit = false →
      Relation.TransGen (WaitsFor (update m.waitTxnMap txn.id (some info))) txn.id txn.id) := by
  rw [incrementWaiters] at h
  split at h
  · cases h
  dsimp only at h
  split at h
  · cases h
  split at h
  · cases h
  · rename_i hs
    obtain ⟨path, -, h⟩ := Option.bind_eq_some_iff.mp h
    obtain ⟨w, hw, h⟩ := Option.bind_eq_some_iff.mp h
    cases h
    refine ⟨_, _, decrementWaitersImpl_dlockBuffer hw, fun _ => searchLoop_sound (fun x hx => ?_) hs⟩
    exact .single ⟨info, update_self .., hx⟩
  · obtain ⟨w, hw, h⟩ := Option.bind_eq_some_iff.mp h
    cases h
    exact ⟨_, _, decrementWaitersImpl_dlockBuffer hw, nofun⟩

theorem deadlock_is_cycle_self : ∃ m', incrementWaiters {} ⟨1, 5⟩ ⟨[1], 0, true, "a"⟩ 0 = some (true, m') ∧
    m'.dlockBuffer ≠ [] := by
  obtain ⟨m', h⟩ : ∃ m', incrementWaiters {} ⟨1, 5⟩ ⟨[1], 0, true, "a"⟩ 0 = some (true, m') := ⟨_, rfl⟩
  obtain ⟨path, limit, hb, -⟩ := deadlock_is_cycle h
  exact ⟨m', h, by simp [hb]⟩

end PointLockManager

namespace Waiters

open PointLockManager

variable {s s' : Waiters}

def inDegree (s : Waiters) (x : TransactionID) : ℕ := (s.waiting.flatMap Prod.snd).count x

structure Inv (s : Waiters) : Prop where
  nodup : (s.waiting.map Prod.fst).Nodup
  tracked : ∀ id waitIds, (∃ info, s.manager.waitTxnMap id = some info ∧ info.neighbors = waitIds) ↔
    (id, waitIds) ∈ s.waiting
  counts : Counts s.manager.revWaitTxnMap s.inDegree
  acyclic : Acyclic (WaitsFor s.manager.waitTxnMap)

theorem Inv.init : Inv {} where
  nodup := nodup_nil
  tracked := fun id waitIds => ⟨fun ⟨_, h, _⟩ => (nomatch h), fun h => (nomatch h)⟩
  counts := fun _ => rfl
  acyclic := by
    intro a ha
    obtain ⟨b, ⟨_, h, _⟩, -⟩ := Relation.TransGen.head'_iff.mp ha
    cases h

theorem Inv.not_waiting (h : Inv s) {id : TransactionID} (hid : id ∉ s.waiting.map Prod.fst) :
    s.manager.waitTxnMap id = none := by
  cases hi : s.manager.waitTxnMap id with
  | none => rfl
  | some info => exact absurd (mem_map.mpr ⟨_, (h.tracked id _).mp ⟨info, hi, rfl⟩, rfl⟩) hid

theorem Inv.incrementWaiters (h : Inv s) (txn : PessimisticTransaction) (info : TrackedTrxInfo) (dt : ℕ)
    (hid : txn.id ∉ s.waiting.map Prod.fst) :
    ∃ deadlock m', s.manager.incrementWaiters txn info dt = some (deadlock, m') ∧
      (deadlock = true → m'.waitTxnMap = s.manager.waitTxnMap ∧ m'.revWaitTxnMap = s.manager.revWaitTxnMap) ∧
      Inv ⟨m', if deadlock then s.waiting else (txn.id, info.neighbors) :: s.waiting⟩ := by
  have hn := h.not_waiting hid
  obtain ⟨deadlock, m', hm', hs⟩ := incrementWaiters_spec txn info dt hn h.counts (by
    rintro a ⟨info', hi', hmm⟩
    exact count_pos_iff.mpr (mem_flatMap.mpr ⟨_, (h.tracked a _).mp ⟨info', hi', rfl⟩, hmm⟩))
  refine ⟨deadlock, m', hm', ?_⟩
  cases deadlock with
  | true =>
    rw [if_pos rfl] at hs
    obtain ⟨hm, hr⟩ := hs
    refine ⟨fun _ => ⟨hm, hr⟩, h.nodup, ?_, ?_, ?_⟩
    · rw [hm]
      exact h.tracked
    · rw [hr]
      exact h.counts
    · rw [hm]
      exact h.acyclic
  | false =>
    rw [if_neg Bool.false_ne_true] at hs
    obtain ⟨hm, hr, hc⟩ := hs
    refine ⟨nofun, nodup_cons.mpr ⟨hid, h.nodup⟩, ?_, ?_, ?_⟩
    · intro id waitIds
      change _ ↔ (id, waitIds) ∈ (txn.id, info.neighbors) :: s.waiting
      rw [hm, mem_cons, ← h.tracked]
      by_cases heq : id = txn.id
      · subst heq
        rw [update_self, hn]
        simp [eq_comm]
      · rw [update_of_ne heq]
        simp [heq]
    · have hcn : (inDegree ⟨m', (txn.id, info.neighbors) :: s.waiting⟩) =
          fun x => s.inDegree x + info.neighbors.count x := by
        funext x
        rw [inDegree, flatMap_cons, List.count_append, Nat.add_comm]
        rfl
      change Counts m'.revWaitTxnMap (inDegree ⟨m', (txn.id, info.neighbors) :: s.waiting⟩)
      rw [hcn]
      exact hr
    · refine h.acyclic.extend ?_ hc
      rintro a b ⟨info', hi', hb⟩
      by_cases heq : a = txn.id
      · exact .inl heq
      · rw [hm, update_of_ne heq] at hi'
        exact .inr ⟨info', hi', hb⟩

theorem Inv.decrementWaiters (h : Inv s) {id : TransactionID} {waitIds : List TransactionID}
    (hmm : (id, waitIds) ∈ s.waiting) :
    ∃ m', s.manager.decrementWaitersImpl id waitIds = some m' ∧ Inv ⟨m', s.waiting.erase (id, waitIds)⟩ := by
  obtain ⟨info, hi, hng⟩ := (h.tracked id waitIds).mpr hmm
  have hp := perm_cons_erase hmm
  have hcn : s.inDegree = fun x => (inDegree ⟨s.manager, s.waiting.erase (id, waitIds)⟩) x + waitIds.count x := by
    funext x
    rw [inDegree, (hp.flatMap_right Prod.snd).count_eq, flatMap_cons, List.count_append, Nat.add_comm]
    rfl
  have hc := h.counts
  rw [hcn] at hc
  obtain ⟨m', hm', hm, hr⟩ := decrementWaitersImpl_counts (by rw [hi]; rfl) hc
  have hn := (hp.map Prod.fst).nodup_iff.mp h.nodup
  rw [map_cons, nodup_cons] at hn
  refine ⟨m', hm', hn.2, ?_, hr, ?_⟩
  · intro id' waitIds'
    change _ ↔ (id', waitIds') ∈ s.waiting.erase (id, waitIds)
    rw [hm]
    by_cases heq : id' = id
    · subst heq
      rw [update_self]
      refine ⟨fun ⟨_, h, _⟩ => (nomatch h), fun hin => ?_⟩
      exact absurd (mem_map.mpr ⟨_, hin, rfl⟩) hn.1
    · rw [update_of_ne heq, h.tracked, mem_erase_of_ne]
      intro hpr
      exact heq (congrArg Prod.fst hpr)
  · apply h.acyclic.mono
    rintro a b ⟨info', hi', hb⟩
    change m'.waitTxnMap a = some info' at hi'
    rw [hm] at hi'
    by_cases heq : a = id
    · rw [heq, update_self] at hi'
      cases hi'
    · rw [update_of_ne heq] at hi'
      exact ⟨info', hi', hb⟩

theorem Inv.step (h : Inv s) {call : WaitersCall} (hs : s.step call = some s') : Inv s' := by
  cases call with
  | incrementWaiters txn info dt =>
    rw [Waiters.step] at hs
    split at hs
    · cases hs
    rename_i hid
    obtain ⟨deadlock, m', hm', -, hi⟩ := h.incrementWaiters txn info dt hid
    rw [hm'] at hs
    cases hs
    exact hi
  | decrementWaiters id waitIds =>
    rw [Waiters.step] at hs
    split at hs
    · rename_i hm
      obtain ⟨m', hm', hi⟩ := h.decrementWaiters hm
      rw [hm'] at hs
      cases hs
      exact hi
    · cases hs

theorem Inv.run {calls : List WaitersCall} (hr : Lib.run Waiters.step {} calls = some s) : Inv s :=
  run_invariant Inv (fun _ _ _ hs h => h.step hs) hr Inv.init

/-- After any calls the transactions that wait form no cycle, the counts are how often each is waited for, and a
deadlock leaves the maps as they were. -/
theorem no_cycle_missed {calls : List WaitersCall} (hrun : Lib.run Waiters.step {} calls = some s) :
    (∀ id, ¬ Relation.TransGen (WaitsFor s.manager.waitTxnMap) id id) ∧
    ((s.waiting.map Prod.fst).Nodup ∧ ∀ id waitIds,
      (∃ info, s.manager.waitTxnMap id = some info ∧ info.neighbors = waitIds) ↔ (id, waitIds) ∈ s.waiting) ∧
    (∀ x, s.manager.revWaitTxnMap x = if s.inDegree x = 0 then none else some (s.inDegree x)) ∧
    (∀ txn info deadlockTime, txn.id ∉ s.waiting.map Prod.fst →
      ∃ deadlock m', s.manager.incrementWaiters txn info deadlockTime = some (deadlock, m') ∧
        (deadlock = true → m'.waitTxnMap = s.manager.waitTxnMap ∧ m'.revWaitTxnMap = s.manager.revWaitTxnMap)) ∧
    ∀ id waitIds, (id, waitIds) ∈ s.waiting → ∃ m', s.manager.decrementWaitersImpl id waitIds = some m' := by
  have h := Inv.run hrun
  refine ⟨h.acyclic, ⟨h.nodup, h.tracked⟩, h.counts, ?_, ?_⟩
  · intro txn info deadlockTime hid
    obtain ⟨deadlock, m', hm', hsame, -⟩ := h.incrementWaiters txn info deadlockTime hid
    exact ⟨deadlock, m', hm', hsame⟩
  · intro id waitIds hm
    obtain ⟨m', hm', -⟩ := h.decrementWaiters hm
    exact ⟨m', hm'⟩

def threeWaits : List WaitersCall :=
  [.incrementWaiters ⟨1, 5⟩ ⟨[2], 0, true, "a"⟩ 0, .incrementWaiters ⟨2, 5⟩ ⟨[3], 0, true, "b"⟩ 0,
    .incrementWaiters ⟨3, 5⟩ ⟨[1], 0, true, "c"⟩ 0]

theorem no_cycle_missed_threeWaits : ∃ s, Lib.run Waiters.step {} threeWaits = some s ∧
    s.waiting = [(2, [3]), (1, [2])] ∧ ∀ id, ¬ Relation.TransGen (WaitsFor s.manager.waitTxnMap) id id :=
  ⟨_, rfl, rfl, (@no_cycle_missed _ threeWaits rfl).1⟩

end Waiters

end ZenFSPlus.Transactions
