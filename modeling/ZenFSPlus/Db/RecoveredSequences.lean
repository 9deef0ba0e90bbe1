import ZenFSPlus.Db.WriteGroup
import ZenFSPlus.Db.SubBatchCount

namespace ZenFSPlus.Db

open List
open Lib (cuts seenAfter)
open Util WriteGroup

inductive Ending where
  | endPrepare (xid : Bytes)
  | commit (xid : Bytes)
  | rollback (xid : Bytes)
  | noop
deriving DecidableEq, Repr

def Ending.record : Ending → Record
  | endPrepare xid => .endPrepareXID xid
  | commit xid => .commitXID xid
  | rollback xid => .rollbackXID xid
  | noop => .noop

structure BatchContent where
  leadingNoop : Bool
  ops : List Op
  ending : Ending

namespace BatchContent

def opening (c : BatchContent) : List Record :=
  match c.ending with
  | .endPrepare _ => [.beginPersistedPrepareXID]
  | _ => if c.leadingNoop then [.noop] else []

def records (c : BatchContent) : List Record := c.opening ++ (c.ops.map Op.record ++ [c.ending.record])

structure Valid (c : BatchContent) : Prop where
  ops : ∀ op ∈ c.ops, op.isWrite = true ∨ op.isLogData = true
  ending : c.ending = .noop → c.ops ≠ []

def keysOf (ops : List Op) : List (ℕ × Bytes) := (ops.filter Op.isWrite).map Op.cfKey

def subBatches (c : BatchContent) : ℕ := cuts false [] (keysOf c.ops) + 1

end BatchContent

open BatchContent (keysOf)

namespace MemTableInserter

variable {opts : InserterOptions} {op : Op} {ops : List Op} {seen done : List (ℕ × Bytes)}
  {m : MemTableInserter}

def FamilyFlushed (options : InserterOptions) (cf : ℕ) : Prop :=
  options.recoveringLogNumber ≠ 0 ∧
    ∃ log, options.columnFamilies cf = some log ∧ options.recoveringLogNumber < log

def Known (options : InserterOptions) (op : Op) : Prop :=
  (options.columnFamilies op.columnFamily).isSome ∧ options.mergeOperator op.columnFamily = true

structure Recovering (options : InserterOptions) (done seen : List (ℕ × Bytes)) (m : MemTableInserter) :
    Prop where
  seq_le : ∀ e ∈ m.mems, e.seq ≤ m.sequence
  mem_iff : ∀ cf key, ¬ FamilyFlushed options cf → ((∃ e ∈ m.mems, e.seq = m.sequence ∧
    e.type ≠ .rangeDeletion ∧ e.columnFamily = cf ∧ e.key = key) ↔ (cf, key) ∈ seen)
  trx : ∀ b, m.rebuildingTrx = some b → ∃ rs, Holds b rs
  batchSeq_le : m.duplicateDetector.batchSeq ≤ m.sequence
  detector : m.duplicateDetector.batchSeq = m.sequence → m.duplicateDetector.keys ⊆ done
  seen_subset : seen ⊆ done

theorem seek_unflushed {cf : ℕ} (hcf : (opts.columnFamilies cf).isSome)
    (hf : ¬ FamilyFlushed opts cf) : seekToColumnFamily opts cf = none := by
  obtain ⟨log, hlog⟩ := Option.isSome_iff_exists.mp hcf
  rw [seekToColumnFamily, hlog]
  exact if_neg fun h => hf ⟨h.1, log, hlog, h.2⟩

theorem rebuild_ok (m : MemTableInserter) (add : WriteBatch → Status × WriteBatch)
    (ha : ∀ b, m.rebuildingTrx = some b → (add b).1 = .ok ∧ ∃ rs, Holds (add b).2 rs) :
    ∃ trx, rebuild add m = (.ok, { m with rebuildingTrx := trx }) ∧
      trx.isSome = m.rebuildingTrx.isSome ∧ ∀ b, trx = some b → ∃ rs, Holds b rs := by
  cases hm : m.rebuildingTrx with
  | none =>
    refine ⟨none, ?_, rfl, fun b hb => nomatch hb⟩
    rw [rebuild, hm]
    obtain ⟨⟩ := m
    cases hm
    rfl
  | some b =>
    obtain ⟨hok, hh⟩ := ha b hm
    refine ⟨some (add b).2, ?_, rfl, ?_⟩
    · rw [rebuild, hm]
      exact Prod.ext hok rfl
    · intro b' hb'
      cases hb'
      exact hh

theorem Recovering.clashes_iff (hm : Recovering opts done seen m) {cf : ℕ} {type : ValueType} {key : Bytes}
    (ht : type ≠ .rangeDeletion) (hf : ¬ FamilyFlushed opts cf) :
    (m.mems.any fun e => e.clashes cf m.sequence type key) = true ↔ (cf, key) ∈ seen :=
  (any_clashes ht).trans (hm.mem_iff cf key hf)

section

variable (hm : Recovering opts done seen m) (hop : op.isWrite = true)

include hm hop

theorem Recovering.insertOp_new (hft : op.record.Fits) (hf : ¬ FamilyFlushed opts op.columnFamily)
    (hk : op.cfKey ∉ seen) :
    ∃ m', insertOp op m = (.ok, m') ∧ m'.sequence = m.sequence ∧ m'.rebuildingTrx.isSome = m.rebuildingTrx.isSome ∧
      Recovering opts (op.cfKey :: done) (op.cfKey :: seen) m' := by
  have ht := entryType_ne hop
  have hadd : addToMemTable op.columnFamily (entryType op) op.key (entryValue op) m = (.ok, { m with
      mems := ⟨op.columnFamily, m.sequence, entryType op, op.key, entryValue op⟩ :: m.mems }) := by
    rw [addToMemTable, memTableAdd, if_neg (mt (hm.clashes_iff ht hf).mp hk)]
    rfl
  obtain ⟨trx, hr, hs, hh⟩ := rebuild_ok { m with
      mems := ⟨op.columnFamily, m.sequence, entryType op, op.key, entryValue op⟩ :: m.mems }
      (fun trx => op.apply trx) (by
    intro b hb
    obtain ⟨rs, hrs⟩ := hm.trx b hb
    obtain ⟨hok, ha⟩ := Op.apply_holds hrs hft
    exact ⟨hok, _, ha⟩)
  have hi : insertOp op m = (.ok, { m with
      mems := ⟨op.columnFamily, m.sequence, entryType op, op.key, entryValue op⟩ :: m.mems
      rebuildingTrx := trx }) := by
    rw [insertOp, hadd]
    exact hr
  refine ⟨_, hi, rfl, hs, ?_, ?_, hh, hm.batchSeq_le, ?_, ?_⟩
  · exact forall_mem_cons.mpr ⟨Nat.le_refl _, hm.seq_le⟩
  · intro cf key hcf
    simp only [mem_cons, exists_eq_or_imp, hm.mem_iff cf key hcf, Op.cfKey, Prod.mk.injEq]
    simp [ht, eq_comm]
  · exact fun h => subset_cons_of_subset _ (hm.detector h)
  · exact cons_subset_cons _ hm.seen_subset

theorem Recovering.insertOp_repeated (hf : ¬ FamilyFlushed opts op.columnFamily) (hk : op.cfKey ∈ seen) :
    ∃ m', insertOp op m = (.tryAgain, m') ∧ m'.sequence = m.sequence + 1 ∧
      m'.rebuildingTrx = m.rebuildingTrx ∧ Recovering opts done [] m' := by
  have ht := entryType_ne hop
  refine ⟨{ m with sequence := m.sequence + 1 }, ?_, rfl, rfl, ?_, ?_, hm.trx, ?_, ?_, nil_subset _⟩
  · rw [insertOp, addToMemTable, memTableAdd, if_pos ((hm.clashes_iff ht hf).mpr hk)]
    rfl
  · exact fun e he => Nat.le_succ_of_le (hm.seq_le e he)
  · intro cf key _
    simp only [not_mem_nil, iff_false]
    rintro ⟨e, he, hs, -⟩
    have hle := hm.seq_le e he
    omega
  · exact Nat.le_succ_of_le hm.batchSeq_le
  · intro h
    have hle := hm.batchSeq_le
    change m.duplicateDetector.batchSeq = m.sequence + 1 at h
    omega

theorem Recovering.call_flushed_new (hft : op.record.Fits) (hf : FamilyFlushed opts op.columnFamily)
    (hk : op.cfKey ∉ done) :
    ∃ m', call opts op.call m = (.ok, m') ∧ m'.sequence = m.sequence ∧
      m'.rebuildingTrx.isSome = m.rebuildingTrx.isSome ∧
      Recovering opts (op.cfKey :: done) (op.cfKey :: seen) m' := by
  have hmem_iff (cf : ℕ) (key : Bytes) (hcf : ¬ FamilyFlushed opts cf) :
      (cf, key) ∈ seen ↔ (cf, key) ∈ op.cfKey :: seen := by
    have hne : (cf, key) ≠ op.cfKey := fun h => hcf ((Prod.mk.inj h).1 ▸ hf)
    simp [hne]
  cases ht : m.rebuildingTrx with
  | none =>
    refine ⟨m, ?_, rfl, by rw [ht], hm.seq_le, ?_, hm.trx, hm.batchSeq_le, ?_, ?_⟩
    · rw [call_skipped hop hf, skipKey, if_neg (not_not_intro rfl), ht]
      rfl
    · exact fun cf key hcf => (hm.mem_iff cf key hcf).trans (hmem_iff cf key hcf)
    · exact fun h => subset_cons_of_subset _ (hm.detector h)
    · exact cons_subset_cons _ hm.seen_subset
  | some b =>
    obtain ⟨rs, hrs⟩ := hm.trx b ht
    obtain ⟨hok, ha⟩ := Op.apply_holds hrs hft
    have hks : (if m.duplicateDetector.batchSeq ≠ m.sequence then [] else m.duplicateDetector.keys) ⊆ done := by
      split_ifs with h
      · exact nil_subset _
      · exact hm.detector (not_not.mp h)
    generalize hky : (if m.duplicateDetector.batchSeq ≠ m.sequence then [] else m.duplicateDetector.keys) = keys at hks
    have hd : m.duplicateDetector.isDuplicateKeySeq op.columnFamily op.key m.sequence =
        (false, ⟨m.sequence, op.cfKey :: keys⟩) := by
      rw [DuplicateDetector.isDuplicateKeySeq, hky]
      exact if_neg fun h => hk (hks h)
    refine ⟨_, call_flushed hop hf ht (Prod.ext hok rfl) hd, rfl, rfl, hm.seq_le, ?_, ?_, Nat.le_refl _, ?_, ?_⟩
    · exact fun cf key hcf => (hm.mem_iff cf key hcf).trans (hmem_iff cf key hcf)
    · intro b' hb'
      cases hb'
      exact ⟨_, ha⟩
    · exact fun _ => cons_subset_cons _ hks
    · exact cons_subset_cons _ hm.seen_subset

end

variable {st : IterateState MemTableInserter}

theorem Recovering.attempt_write
    (hm : Recovering opts done seen st.handler) (hop : op.isWrite = true) (hft : op.record.Fits)
    (hkn : Known opts op) (hk : FamilyFlushed opts op.columnFamily → op.cfKey ∉ done) :
    ∃ s n, attempt (handler opts) st op.record = (.ok, true, ⟨s, false, n⟩) ∧
      s.rebuildingTrx.isSome = st.handler.rebuildingTrx.isSome ∧
      if op.cfKey ∈ seen then s.sequence = st.handler.sequence + 1 ∧ Recovering opts (op.cfKey :: done) [op.cfKey] s
      else s.sequence = st.handler.sequence ∧ Recovering opts (op.cfKey :: done) (op.cfKey :: seen) s := by
  by_cases hf : FamilyFlushed opts op.columnFamily
  · obtain ⟨s, hc, hsq, hsm, hs⟩ := hm.call_flushed_new hop hft hf (hk hf)
    refine ⟨s, _, attempt_of_ok hop hc, hsm, ?_⟩
    rw [if_neg fun h => hk hf (hm.seen_subset h)]
    exact ⟨hsq, hs⟩
  · have hc (m : MemTableInserter) : (handler opts).call op.call m = insertOp op m :=
      call_inserted hop (seek_unflushed hkn.1 hf) hkn.2
    by_cases hsn : op.cfKey ∈ seen
    · obtain ⟨m, hfr, hsq, ht, hm'⟩ := hm.insertOp_repeated hop hf hsn
      obtain ⟨m', hsc, hsq', hsm, hm''⟩ := hm'.insertOp_new hop hft hf not_mem_nil
      rw [← hc] at hfr hsc
      refine ⟨m', _, attempt_of_tryAgain hop rfl hfr hsc, by rw [hsm, ht], ?_⟩
      rw [if_pos hsn]
      exact ⟨hsq'.trans hsq, hm''⟩
    · obtain ⟨m, hfr, hsq, hsm, hm'⟩ := hm.insertOp_new hop hft hf hsn
      rw [← hc] at hfr
      refine ⟨m, _, attempt_of_ok hop hfr, hsm, ?_⟩
      rw [if_neg hsn]
      exact ⟨hsq, hm'⟩

theorem attempt_logData (hop : op.isLogData = true) :
    attempt (handler opts) st op.record = (.ok, true, { st with emptyBatch := false }) := by
  cases op with
  | putLogData blob => rfl
  | put | delete | singleDelete | deleteRange | merge => cases hop

theorem Recovering.run_ops (hm : Recovering opts done seen st.handler)
    (ho : ∀ op ∈ ops, (op.isWrite = true ∨ op.isLogData = true) ∧ op.record.Fits ∧ (op.isWrite = true → Known opts op))
    (hnw : ∀ k : ℕ × Bytes, FamilyFlushed opts k.1 → (keysOf ops).count k ≤ 1 ∧ (k ∈ done → k ∉ keysOf ops)) :
    ∃ st' done' seen', (∀ rest, runRecords (handler opts) (ops.map Op.record ++ rest) st =
        runRecords (handler opts) rest st') ∧
      st'.handler.sequence = st.handler.sequence + cuts false seen (keysOf ops) ∧
      st'.handler.rebuildingTrx.isSome = st.handler.rebuildingTrx.isSome ∧
      Recovering opts done' seen' st'.handler ∧ (ops ≠ [] → st'.emptyBatch = false) ∧
      (ops = [] → st' = st) := by
  induction ops generalizing done seen st with
  | nil => exact ⟨st, done, seen, fun _ => rfl, rfl, rfl, hm, fun h => absurd rfl h, fun _ => rfl⟩
  | cons op ops ih =>
    obtain ⟨⟨hkd, hft, hkn⟩, ho⟩ := forall_mem_cons.mp ho
    -- what is left of the list behind one record that left `st1`
    have hsp (st1 : IterateState MemTableInserter) (done1 seen1 : List (ℕ × Bytes))
        (ha : attempt (handler opts) st op.record = (.ok, true, st1))
        (he : st1.emptyBatch = false) (hm1 : Recovering opts done1 seen1 st1.handler)
        (hsm : st1.handler.rebuildingTrx.isSome = st.handler.rebuildingTrx.isSome)
        (hnw1 : ∀ k : ℕ × Bytes, FamilyFlushed opts k.1 → (keysOf ops).count k ≤ 1 ∧ (k ∈ done1 → k ∉ keysOf ops))
        (hsq : st1.handler.sequence + cuts false seen1 (keysOf ops) =
          st.handler.sequence + cuts false seen (keysOf (op :: ops))) :
        ∃ st' done' seen', (∀ rest, runRecords (handler opts) ((op :: ops).map Op.record ++ rest) st =
            runRecords (handler opts) rest st') ∧
          st'.handler.sequence = st.handler.sequence + cuts false seen (keysOf (op :: ops)) ∧
          st'.handler.rebuildingTrx.isSome = st.handler.rebuildingTrx.isSome ∧
          Recovering opts done' seen' st'.handler ∧ ((op :: ops) ≠ [] → st'.emptyBatch = false) ∧
          ((op :: ops) = [] → st' = st) := by
      obtain ⟨st', done', seen', hr, hsq', hsm', hm', he', hnl⟩ := ih hm1 ho hnw1
      refine ⟨st', done', seen', ?_, by rw [hsq', hsq], hsm'.trans hsm, hm', ?_, nofun⟩
      · intro rest
        rw [map_cons, cons_append, runRecords_cons _ rfl ha, hr]
      · intro _
        by_cases hn : ops = []
        · rw [hnl hn, he]
        · exact he' hn
    by_cases hop : op.isWrite = true
    · have hky : keysOf (op :: ops) = op.cfKey :: keysOf ops := by simp [keysOf, hop]
      have hk : FamilyFlushed opts op.columnFamily → op.cfKey ∉ done := by
        intro hf hd
        exact (hnw op.cfKey hf).2 hd (by simp [hky])
      obtain ⟨s, n, ha, hsm, hs⟩ := hm.attempt_write hop hft (hkn hop) hk
      have hnw1 (k : ℕ × Bytes) (hf : FamilyFlushed opts k.1) :
          (keysOf ops).count k ≤ 1 ∧ (k ∈ op.cfKey :: done → k ∉ keysOf ops) := by
        obtain ⟨hc, hd⟩ := hnw k hf
        rw [hky, count_cons] at hc
        refine ⟨by omega, ?_⟩
        intro hmm
        rcases mem_cons.mp hmm with rfl | hmm
        · intro hin
          have hp := count_pos_iff.mpr hin
          simp only [beq_self_eq_true, if_true] at hc
          omega
        · exact fun hin => hd hmm (by simp [hky, hin])
      by_cases hsn : op.cfKey ∈ seen
      · rw [if_pos hsn] at hs
        refine hsp _ _ _ ha rfl hs.2 hsm hnw1 ?_
        rw [hky, cuts, if_pos hsn, show seenAfter false op.cfKey = [op.cfKey] from rfl]
        change s.sequence + _ = _
        rw [hs.1]
        omega
      · rw [if_neg hsn] at hs
        refine hsp _ _ _ ha rfl hs.2 hsm hnw1 ?_
        rw [hky, cuts, if_neg hsn]
        change s.sequence + _ = _
        rw [hs.1]
    · have hky : keysOf (op :: ops) = keysOf ops := by simp [keysOf, hop]
      rw [hky] at hnw
      refine hsp _ _ _ (attempt_logData (hkd.resolve_left hop)) rfl hm rfl hnw ?_
      rw [hky]

structure Between (st : IterateState MemTableInserter) : Prop where
  emptyBatch : st.emptyBatch = true
  seq_lt : ∀ e ∈ st.handler.mems, e.seq < st.handler.sequence
  rebuildingTrx : st.handler.rebuildingTrx = none
  batchSeq_le : st.handler.duplicateDetector.batchSeq ≤ st.handler.sequence
  detector : st.handler.duplicateDetector.batchSeq = st.handler.sequence →
    st.handler.duplicateDetector.keys = []

theorem Between.recovering (hst : Between st) {m : MemTableInserter}
    (hmm : m.mems = st.handler.mems) (hs : m.sequence = st.handler.sequence)
    (hd : m.duplicateDetector = st.handler.duplicateDetector)
    (ht : ∀ b, m.rebuildingTrx = some b → ∃ rs, Holds b rs) : Recovering opts [] [] m := by
  refine ⟨?_, ?_, ht, ?_, ?_, nil_subset _⟩
  · rw [hmm, hs]
    exact fun e he => Nat.le_of_lt (hst.seq_lt e he)
  · intro cf key _
    rw [hmm, hs]
    simp only [not_mem_nil, iff_false]
    rintro ⟨e, he, hs, -⟩
    have hlt := hst.seq_lt e he
    omega
  · rw [hd, hs]
    exact hst.batchSeq_le
  · rw [hd, hs]
    intro h
    rw [hst.detector h]
    exact nil_subset _

theorem Recovering.between (hm : Recovering opts done seen m) {s : MemTableInserter} {n : ℕ}
    (hmm : s.mems = m.mems) (hs : s.sequence = m.sequence + 1)
    (hd : s.duplicateDetector = m.duplicateDetector) (ht : s.rebuildingTrx = none) :
    Between ⟨s, true, n⟩ := by
  have hle := hm.batchSeq_le
  refine ⟨rfl, ?_, ht, ?_, ?_⟩
  · intro e he
    change e ∈ s.mems at he
    change e.seq < s.sequence
    rw [hmm] at he
    rw [hs]
    exact Nat.lt_succ_of_le (hm.seq_le e he)
  · change s.duplicateDetector.batchSeq ≤ s.sequence
    rw [hd, hs]
    omega
  · intro h
    change s.duplicateDetector.batchSeq = s.sequence at h
    rw [hd, hs] at h
    omega

theorem attempt_ending (opts : InserterOptions) {e : Ending}
    (ht : st.handler.rebuildingTrx.isSome = true ↔ ∃ xid, e = .endPrepare xid)
    (he : e = .noop → st.emptyBatch = false) :
    ∃ s, attempt (handler opts) st e.record = (.ok, true, ⟨s, true, st.found⟩) ∧
      s.mems = st.handler.mems ∧ s.sequence = st.handler.sequence + 1 ∧
      s.duplicateDetector = st.handler.duplicateDetector ∧ s.rebuildingTrx = none := by
  have hn (hne : ∀ xid, e ≠ .endPrepare xid) : st.handler.rebuildingTrx = none := by
    cases hm : st.handler.rebuildingTrx with
    | none => rfl
    | some b =>
      rw [hm] at ht
      obtain ⟨xid, hx⟩ := ht.mp rfl
      exact absurd hx (hne xid)
  obtain ⟨m, eb, found⟩ := st
  cases e with
  | endPrepare xid =>
    obtain ⟨b, hb⟩ := Option.isSome_iff_exists.mp (ht.mpr ⟨xid, rfl⟩)
    obtain ⟨sequence, mems, trx, trxSeq, unprepared, detector, recovered⟩ := m
    cases hb
    exact ⟨_, rfl, rfl, rfl, rfl, rfl⟩
  | commit xid | rollback xid =>
    exact ⟨_, rfl, rfl, rfl, rfl, hn nofun⟩
  | noop =>
    have hf : eb = false := he rfl
    subst hf
    exact ⟨_, rfl, rfl, rfl, rfl, hn nofun⟩

end MemTableInserter

section

variable {opts : InserterOptions} {c : BatchContent} {st : IterateState MemTableInserter}

open MemTableInserter

structure Readable (options : InserterOptions) (c : BatchContent) : Prop where
  valid : c.Valid
  known : ∀ op ∈ c.ops, op.isWrite = true → Known options op
  once : ∀ k : ℕ × Bytes, FamilyFlushed options k.1 → (keysOf c.ops).count k ≤ 1

section

variable (hst : Between st) (hlog : opts.recoveringLogNumber ≠ 0) (h2pc : opts.allow2pc = true)

include hst hlog h2pc

theorem BatchContent.run_opening :
    ∃ st', (∀ rest, runRecords (handler opts) (c.opening ++ rest) st = runRecords (handler opts) rest st') ∧
      st'.handler.sequence = st.handler.sequence ∧ Recovering opts [] [] st'.handler ∧
      (st'.handler.rebuildingTrx.isSome = true ↔ ∃ xid, c.ending = .endPrepare xid) := by
  have hn : (st.handler.rebuildingTrx.isSome = true) = False := by simp [hst.rebuildingTrx]
  have hsame : Recovering opts [] [] st.handler :=
    hst.recovering rfl rfl rfl fun b hb => by simp [hst.rebuildingTrx] at hb
  by_cases hp : ∃ xid, c.ending = .endPrepare xid
  · obtain ⟨xid, hx⟩ := hp
    obtain ⟨⟨sequence, mems, trx, trxSeq, unprepared, detector, recovered⟩, eb, found⟩ := st
    have hc : (handler opts).call (.markBeginPrepare false)
        ⟨sequence, mems, trx, trxSeq, unprepared, detector, recovered⟩ =
        (.ok, ⟨sequence, mems, some .new, sequence, false, detector, recovered⟩) := by
      change markBeginPrepare opts false _ = _
      rw [markBeginPrepare, if_pos hlog, h2pc]
      rfl
    have hbg : attempt (handler opts) ⟨⟨sequence, mems, trx, trxSeq, unprepared, detector, recovered⟩, eb, found⟩
        .beginPersistedPrepareXID =
        (.ok, true, ⟨⟨sequence, mems, some .new, sequence, false, detector, recovered⟩, false, found⟩) := by
      simp only [attempt, dispatch, dispatchMark, hc]
      rfl
    refine ⟨⟨⟨sequence, mems, some .new, sequence, false, detector, recovered⟩, false, found⟩, ?_, rfl,
      hst.recovering rfl rfl rfl ?_, fun _ => ⟨xid, hx⟩, fun _ => rfl⟩
    · intro rest
      rw [show c.opening = [.beginPersistedPrepareXID] by rw [BatchContent.opening, hx]]
      exact runRecords_cons rest rfl hbg
    · intro b hb
      cases hb
      exact ⟨_, Holds.new⟩
  · have ho : c.opening = if c.leadingNoop then [.noop] else [] := by
      rw [BatchContent.opening]
      split
      · rename_i xid hx
        exact absurd ⟨xid, hx⟩ hp
      · rfl
    refine ⟨st, ?_, rfl, hsame, by rw [hn]; exact ⟨False.elim, hp⟩⟩
    intro rest
    rw [ho]
    split
    · have hnp : attempt (handler opts) st .noop = (.ok, true, st) := by
        obtain ⟨m, eb, found⟩ := st
        have he : eb = true := hst.emptyBatch
        subst he
        rfl
      exact runRecords_cons rest rfl hnp
    · rfl

theorem BatchContent.run (hc : Readable opts c) (hf : ∀ r ∈ c.records, r.Fits) :
    ∃ st', (∀ rest, runRecords (handler opts) (c.records ++ rest) st = runRecords (handler opts) rest st') ∧
      st'.handler.sequence = st.handler.sequence + c.subBatches ∧ Between st' := by
  obtain ⟨st1, hr1, hsq1, hrc1, ht1⟩ := run_opening (c := c) hst hlog h2pc
  have ho (op : Op) (hop : op ∈ c.ops) : (op.isWrite = true ∨ op.isLogData = true) ∧ op.record.Fits ∧
      (op.isWrite = true → Known opts op) := by
    refine ⟨hc.valid.ops op hop, hf _ ?_, hc.known op hop⟩
    simp only [records, mem_append, mem_map]
    exact Or.inr (Or.inl ⟨op, hop, rfl⟩)
  obtain ⟨st2, done, seen, hr2, hsq2, hs2, hrc2, hep2, -⟩ := hrc1.run_ops ho
    fun k hk => ⟨hc.once k hk, fun h => absurd h not_mem_nil⟩
  rw [← hs2] at ht1
  obtain ⟨s, ha, hmm, hsq, hd, ht⟩ := attempt_ending opts ht1 fun he => hep2 (hc.valid.ending he)
  refine ⟨⟨s, true, st2.found⟩, ?_, ?_, hrc2.between hmm hsq hd ht⟩
  · intro rest
    rw [records, append_assoc, hr1, append_assoc, hr2]
    exact runRecords_cons rest rfl ha
  · change s.sequence = _
    rw [hsq, hsq2, hsq1, subBatches]
    omega

end

theorem BatchContent.run_all (cs : List BatchContent) (hst : Between st)
    (hlog : opts.recoveringLogNumber ≠ 0) (h2pc : opts.allow2pc = true)
    (hcs : ∀ c ∈ cs, Readable opts c ∧ ∀ r ∈ c.records, r.Fits) :
    ∃ st', (∀ rest, runRecords (handler opts) (cs.flatMap records ++ rest) st = runRecords (handler opts) rest st') ∧
      st'.handler.sequence = st.handler.sequence + (cs.map subBatches).sum := by
  induction cs generalizing st with
  | nil => exact ⟨st, fun _ => rfl, rfl⟩
  | cons c cs ih =>
    obtain ⟨⟨hc, hf⟩, hcs⟩ := forall_mem_cons.mp hcs
    obtain ⟨st1, hr1, hs1, hst1⟩ := c.run hst hlog h2pc hc hf
    obtain ⟨st2, hr2, hs2⟩ := ih hst1 hcs
    refine ⟨st2, ?_, ?_⟩
    · intro rest
      rw [flatMap_cons, append_assoc, hr1, hr2]
    · rw [hs2, hs1, map_cons, sum_cons, add_assoc]

end

theorem iterateUntil_encode {σ : Type} {h : Handler σ} {rs rest : List Record} {fuel : ℕ}
    (hf : ∀ r ∈ rs, r.Fits) (hfl : rs.length ≤ fuel) {st st' : IterateState σ}
    (hrn : runRecords h rs st = (.ok, true, st')) :
    iterateUntil h (rest.flatMap Record.encode).length fuel ((rs ++ rest).flatMap Record.encode) st = some st' := by
  induction rs generalizing st fuel with
  | nil =>
    cases hrn
    cases fuel with
    | zero | succ _ => exact if_pos rfl
  | cons r rs ih =>
    obtain ⟨hr, hf⟩ := forall_mem_cons.mp hf
    obtain ⟨fuel, rfl⟩ := Nat.exists_eq_add_of_lt (Nat.lt_of_lt_of_le (Nat.succ_pos _) hfl)
    rw [zero_add] at hfl ⊢
    have hl : ((r :: rs ++ rest).flatMap Record.encode).length ≠ (rest.flatMap Record.encode).length := by
      have hp := length_pos_iff.mpr r.encode_ne_nil
      rw [cons_append, flatMap_cons, flatMap_append, length_append, length_append]
      omega
    rw [iterateUntil, if_neg hl, cons_append, flatMap_cons, Record.read_encode hr]
    rw [runRecords] at hrn
    cases hc : h.continue_ st.handler with
    | false => simp [hc] at hrn
    | true =>
      rw [hc] at hrn
      simp only [Bool.not_true, Bool.false_eq_true, if_false] at hrn ⊢
      obtain ⟨st1, ha, hrn⟩ : ∃ st1, attempt h st r = (.ok, true, st1) ∧ runRecords h rs st1 = (.ok, true, st') := by
        split at hrn
        · rename_i st1 ha
          exact ⟨st1, ha, hrn⟩
        · rename_i hne
          exact absurd hrn (hne _)
      rw [ha]
      exact ih hf (Nat.le_of_succ_le_succ hfl) hrn

theorem length_le_encode (rs : List Record) : rs.length ≤ (rs.flatMap Record.encode).length := by
  induction rs with
  | nil => exact Nat.le_refl _
  | cons r rs ih =>
    have hp := length_pos_iff.mpr r.encode_ne_nil
    rw [flatMap_cons, length_append, length_cons]
    omega

namespace WriteGroup

variable {content : GroupWriter → BatchContent} {group bef behind : List GroupWriter} {w : GroupWriter}

def live (group : List GroupWriter) : List GroupWriter := group.filter fun w => !w.callbackFailed

def recordsOf (content : GroupWriter → BatchContent) (group : List GroupWriter) : List Record :=
  (live group).flatMap fun w => (content w).records

section

variable (hgroup : ∀ w ∈ group, w.callbackFailed = false → Holds w.batch (content w).records)

include hgroup

theorem flatten_holds : Holds (flatten group) (recordsOf content group) := by
  have hf (ws : List GroupWriter) (hws : ∀ w ∈ ws, Holds w.batch (content w).records) (b : WriteBatch)
      (rs : List Record) (hb : Holds b rs) :
      Holds (ws.foldl (fun merged w => merged.appendBatch w.batch true) b)
        (rs ++ ws.flatMap fun w => (content w).records) := by
    induction ws generalizing b rs with
    | nil => simpa using hb
    | cons w ws ih =>
      obtain ⟨hw, hws⟩ := forall_mem_cons.mp hws
      have hr := ih hws _ _ (hb.appendBatch hw true)
      rwa [append_assoc] at hr
  refine hf _ ?_ _ _ Holds.new
  intro w hw
  obtain ⟨hw, hok⟩ := mem_filter.mp hw
  exact hgroup w hw (by simpa using hok)

theorem mergeBatch_holds : Holds (mergeBatch group) (recordsOf content group) := by
  unfold mergeBatch
  split
  · rename_i leader
    split_ifs with hok
    · have hl : leader.callbackFailed = false := by simpa using hok.1
      simpa [recordsOf, live, hl] using hgroup leader (by simp) hl
    · exact flatten_holds hgroup
  · exact flatten_holds hgroup

theorem sum_walLength : (group.map walLength).sum = ((recordsOf content group).flatMap Record.encode).length := by
  induction group with
  | nil => rfl
  | cons w group ih =>
    obtain ⟨hw, hgroup⟩ := forall_mem_cons.mp hgroup
    rw [map_cons, sum_cons, ih hgroup]
    cases hf : w.callbackFailed with
    | true => simp [walLength, recordsOf, live, hf]
    | false =>
      have hh := hw hf
      have hl : w.batch.rep.length - kHeader = ((content w).records.flatMap Record.encode).length := by
        rw [← hh.records, length_drop]
      have hwl : walLength w = w.batch.rep.length - kHeader := by
        simp [walLength, hf, hh.unmarked]
      rw [hwl, hl]
      simp [recordsOf, live, hf]

end

theorem leaderLoop_getElem? (hw : w.callbackFailed = false) (next : ℕ) :
    (leaderLoop true next (bef ++ w :: behind))[bef.length]? =
      some (some (next + ((live bef).map GroupWriter.batchCnt).sum)) := by
  induction bef generalizing next with
  | nil => simp [leaderLoop, hw, live]
  | cons v bef ih =>
    rw [cons_append, leaderLoop]
    cases hf : v.callbackFailed with
    | true => simpa [live, hf] using ih next
    | false => simpa [live, hf, advance, add_assoc] using ih (next + v.batchCnt)

def putTwice : BatchContent := ⟨false, [.put 0 [107] [1], .put 0 [107] [2]], .noop⟩

def putTwiceWriter : GroupWriter :=
  ⟨(Op.applyAll putTwice.ops WriteBatch.new).insertNoop, 2, false, false⟩

theorem putTwiceWriter_holds : Holds putTwiceWriter.batch putTwice.records := by
  have ho : ∀ op ∈ putTwice.ops, op.record.Fits := by
    simp [putTwice, Op.record, Record.Fits]
  exact (Op.applyAll_holds ho Holds.new).appendBytes (r := .noop) trivial rfl

end WriteGroup

end ZenFSPlus.Db
