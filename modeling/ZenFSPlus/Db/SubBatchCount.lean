import ZenFSPlus.Db.MemTableInserter
import ZenFSPlus.Db.WriteBatchRoundTrip
import ZenFSPlus.Lib.Pieces

namespace ZenFSPlus.Db

open List
open Lib (u32 cuts seenAfter Splits)
open Util

namespace Op

def isWrite : Op → Bool
  | put .. | delete .. | singleDelete .. | merge .. => true
  | deleteRange .. | putLogData _ => false

def columnFamily : Op → ℕ
  | put cf .. | delete cf _ | singleDelete cf _ | deleteRange cf .. | merge cf .. => cf
  | putLogData _ => 0

def key : Op → Bytes
  | put _ k _ | delete _ k | singleDelete _ k | deleteRange _ k _ | merge _ k _ => k
  | putLogData blob => blob

def cfKey (op : Op) : ℕ × Bytes := (op.columnFamily, op.key)

def applyAll (ops : List Op) (b : WriteBatch) : WriteBatch := ops.foldl (fun b op => (op.apply b).2) b

theorem applyAll_holds {ops : List Op} (hops : ∀ op ∈ ops, op.record.Fits) {b : WriteBatch}
    {rs : List Record} (hb : Holds b rs) : Holds (applyAll ops b) (rs ++ ops.map record) := by
  induction ops generalizing b rs with
  | nil => simpa [applyAll] using hb
  | cons op ops ih =>
    obtain ⟨hop, hops⟩ := forall_mem_cons.mp hops
    have hr := ih hops (apply_holds hb hop).2
    rwa [append_assoc] at hr

end Op

def prepared (ops : List Op) (xid : Bytes) : WriteBatch :=
  (Op.applyAll ops WriteBatch.new.insertNoop).markEndPrepare xid false false

theorem WriteBatch.count_congr {b c : WriteBatch} (h : b.rep.take kHeader = c.rep.take kHeader) :
    b.count = c.count := by
  have ht (l : Bytes) : (l.drop 8).take 4 = (l.take kHeader).drop 8 := by
    rw [drop_take]
    rfl
  simp only [count, decodeFixed32, ht, h]

theorem Holds.markEndPrepare {b : WriteBatch} {rs : List Record} (hb : Holds b (.noop :: rs)) {xid : Bytes}
    (hxid : xid.length < 2 ^ 32) :
    Holds (b.markEndPrepare xid false false) (.beginPersistedPrepareXID :: rs ++ [.endPrepareXID xid]) := by
  have ht : (b.rep.take kHeader).length = kHeader := length_take_of_le b.header_le
  have hr : b.rep.drop (kHeader + 1) = rs.flatMap Record.encode := by
    rw [← drop_drop, hb.records]
    rfl
  refine Holds.appendBytes (r := .endPrepareXID xid) ⟨?_, ?_, ?_, hb.unlimited, hb.unmarked⟩ hxid rfl
  · change (b.rep.take kHeader ++ Record.beginPersistedPrepareXID.encode ++ b.rep.drop (kHeader + 1)).drop kHeader = _
    rw [append_assoc, drop_left' ht, hr]
    rfl
  · exact forall_mem_cons.mpr ⟨trivial, (forall_mem_cons.mp hb.fits).2⟩
  · have hc := hb.count
    rw [countP_cons_of_neg (by simp [Record.counted])] at hc ⊢
    rw [← hc]
    apply WriteBatch.count_congr
    change (b.rep.take kHeader ++ Record.beginPersistedPrepareXID.encode ++ b.rep.drop (kHeader + 1)).take kHeader = _
    rw [append_assoc, take_left' ht]

theorem prepared_holds {ops : List Op} {xid : Bytes} (hops : ∀ op ∈ ops, op.record.Fits) (hxid : xid.length < 2 ^ 32) :
    Holds (prepared ops xid) (.beginPersistedPrepareXID :: ops.map Op.record ++ [.endPrepareXID xid]) := by
  have hn : Holds WriteBatch.new.insertNoop [.noop] := Holds.new.appendBytes trivial rfl
  exact (Op.applyAll_holds hops hn).markEndPrepare hxid

section

variable {σ : Type} {h : Handler σ} {forget : Bool} {number : σ → ℕ} {key : Bytes}
  {Seen : List (ℕ × Bytes) → σ → Prop} {cf : ℕ} {op : Op}

def CutsAt (h : Handler σ) (forget : Bool) (number : σ → ℕ) (Seen : List (ℕ × Bytes) → σ → Prop) (op : Op) :
    Prop :=
  ∀ seen st, Seen seen st.handler → ∃ s, attempt h st op.record = (.ok, true, ⟨s, false, u32 (st.found + 1)⟩) ∧
    (op.cfKey ∈ seen → number s = number st.handler + 1 ∧ Seen (seenAfter forget op.cfKey) s) ∧
    (op.cfKey ∉ seen → number s = number st.handler ∧ Seen (op.cfKey :: seen) s)

theorem runRecords_cons {st st' : IterateState σ} {r : Record} (rs : List Record)
    (hc : h.continue_ st.handler = true) (hr : attempt h st r = (.ok, true, st')) :
    runRecords h (r :: rs) st = runRecords h rs st' := by
  rw [runRecords, hc, hr]
  rfl

theorem runRecords_cuts {ops : List Op} (rest : List Record) (hc : ∀ s, h.continue_ s = true)
    (hct : ∀ op ∈ ops, CutsAt h forget number Seen op) {seen : List (ℕ × Bytes)} (st : IterateState σ)
    (hf : st.found < 2 ^ 32) (hsn : Seen seen st.handler) :
    ∃ st' seen', runRecords h (ops.map Op.record ++ rest) st = runRecords h rest st' ∧
      number st'.handler = number st.handler + cuts forget seen (ops.map Op.cfKey) ∧
      Seen seen' st'.handler ∧ st'.found = (st.found + ops.length) % 2 ^ 32 := by
  induction ops generalizing seen st with
  | nil => exact ⟨st, seen, rfl, rfl, hsn, (Nat.mod_eq_of_lt hf).symm⟩
  | cons op ops ih =>
    obtain ⟨hop, hops⟩ := forall_mem_cons.mp hct
    obtain ⟨s, ha, han, hnw⟩ := hop seen st hsn
    have hf' : (u32 (st.found + 1) + ops.length) % 2 ^ 32 = (st.found + (op :: ops).length) % 2 ^ 32 := by
      simp [u32, Nat.add_comm, Nat.add_left_comm]
    rw [map_cons, cons_append, runRecords_cons _ (hc _) ha, map_cons, cuts, ← hf']
    by_cases hk : op.cfKey ∈ seen
    · have hs := han hk
      rw [if_pos hk]
      obtain ⟨st', seen', hr, hn, hsn', hf''⟩ := ih hops ⟨s, false, u32 (st.found + 1)⟩ (Lib.u32_lt _) hs.2
      refine ⟨st', seen', hr, ?_, hsn', hf''⟩
      rw [hn, hs.1]
      omega
    · have hs := hnw hk
      rw [if_neg hk]
      obtain ⟨st', seen', hr, hn, hsn', hf''⟩ := ih hops ⟨s, false, u32 (st.found + 1)⟩ (Lib.u32_lt _) hs.2
      exact ⟨st', seen', hr, by rw [hn, hs.1], hsn', hf''⟩

theorem dispatch_of_isWrite (hop : op.isWrite = true) (st : IterateState σ) :
    dispatch h st op.record = dispatchKey h op.call false st := by
  cases op with
  | put | delete | singleDelete | merge => rfl
  | deleteRange | putLogData => cases hop

theorem attempt_of_ok (hop : op.isWrite = true) {st : IterateState σ} {s : σ}
    (hc : h.call op.call st.handler = (.ok, s)) :
    attempt h st op.record = (.ok, true, ⟨s, false, u32 (st.found + 1)⟩) := by
  rw [attempt, dispatch_of_isWrite hop, dispatchKey, hc]
  rfl

theorem attempt_of_tryAgain (hop : op.isWrite = true) {st : IterateState σ} {s s' : σ}
    (hcn : h.continue_ s = true) (hc : h.call op.call st.handler = (.tryAgain, s))
    (hc' : h.call op.call s = (.ok, s')) :
    attempt h st op.record = (.ok, true, ⟨s', false, u32 (st.found + 1)⟩) := by
  have hf : dispatchKey h op.call false st = (.tryAgain, { st with handler := s }) := by
    rw [dispatchKey, hc]
    rfl
  have hs : dispatchKey h op.call false { st with handler := s } = (.ok, ⟨s', false, u32 (st.found + 1)⟩) := by
    rw [dispatchKey, hc']
    rfl
  simp only [attempt, dispatch_of_isWrite hop, hf, hs, hcn]
  rfl

end

theorem SubBatchCounter.cutsAt {op : Op} (hop : op.isWrite = true) :
    CutsAt handler false batches (fun seen c => c.keys = seen) op := by
  rintro _ st rfl
  have hc : handler.call op.call st.handler = (.ok, st.handler.addKey op.columnFamily op.key) := by
    cases op with
    | put | delete | singleDelete | merge => rfl
    | deleteRange | putLogData => cases hop
  refine ⟨_, attempt_of_ok hop hc, fun hk => ?_, fun hk => ?_⟩
  · rw [show st.handler.addKey op.columnFamily op.key = _ from if_pos hk]
    exact ⟨rfl, rfl⟩
  · rw [show st.handler.addKey op.columnFamily op.key = _ from if_neg hk]
    exact ⟨rfl, rfl⟩

namespace MemTableInserter

variable {opts : InserterOptions} {op : Op} {seen : List (ℕ × Bytes)} {m : MemTableInserter}

structure Written (seen : List (ℕ × Bytes)) (m : MemTableInserter) : Prop where
  seq_le : ∀ e ∈ m.mems, e.seq ≤ m.sequence
  mem_iff : ∀ cf key, (∃ e ∈ m.mems, e.seq = m.sequence ∧ e.type ≠ .rangeDeletion ∧ e.columnFamily = cf ∧
    e.key = key) ↔ (cf, key) ∈ seen
  rebuildingTrx : m.rebuildingTrx = none

def Inserts (options : InserterOptions) (op : Op) : Prop :=
  options.recoveringLogNumber = 0 ∧ (options.columnFamilies op.columnFamily).isSome ∧
    options.mergeOperator op.columnFamily = true

def entryType : Op → ValueType
  | .put .. => .value
  | .delete .. => .deletion
  | .singleDelete .. => .singleDeletion
  | .deleteRange .. => .rangeDeletion
  | .merge .. => .merge
  | .putLogData _ => .logData

def entryValue : Op → Bytes
  | .put _ _ v | .merge _ _ v | .deleteRange _ _ v => v
  | _ => []

variable {type : ValueType} {cf : ℕ} {key : Bytes}

theorem rebuild_addToMemTable {key value : Bytes}
    {add : WriteBatch → Status × WriteBatch} (hn : m.rebuildingTrx = none) :
    (match addToMemTable cf type key value m with
      | (.ok, m) => rebuild add m
      | result => result) = addToMemTable cf type key value m := by
  have ht : (addToMemTable cf type key value m).2.rebuildingTrx = none := by
    unfold addToMemTable memTableAdd
    split <;> exact hn
  generalize addToMemTable cf type key value m = result at ht
  obtain ⟨s, m'⟩ := result
  cases s
  case ok =>
    change rebuild add m' = _
    rw [rebuild, ht]
  all_goals rfl

def insertOp (op : Op) (m : MemTableInserter) : Status × MemTableInserter :=
  match addToMemTable op.columnFamily (entryType op) op.key (entryValue op) m with
  | (.ok, m) => rebuild (fun trx => op.apply trx) m
  | result => result

theorem call_inserted (hop : op.isWrite = true) (hs : seekToColumnFamily opts op.columnFamily = none)
    (hm : opts.mergeOperator op.columnFamily = true) : call opts op.call m = insertOp op m := by
  have hi : insertKey opts op.columnFamily (entryType op) op.key (entryValue op)
      (fun trx => op.apply trx) m = insertOp op m := by
    rw [insertKey, hs]
    rfl
  cases op with
  | put cf k v | delete cf k | singleDelete cf k => exact hi
  | merge cf k v =>
    change mergeCF opts cf k v m = _
    rw [mergeCF, show seekToColumnFamily opts cf = none from hs, show opts.mergeOperator cf = true from hm]
    rfl
  | deleteRange | putLogData => cases hop

theorem call_eq (hop : op.isWrite = true) (hi : Inserts opts op) (hn : m.rebuildingTrx = none) :
    call opts op.call m = addToMemTable op.columnFamily (entryType op) op.key (entryValue op) m := by
  have hs : seekToColumnFamily opts op.columnFamily = none := by
    obtain ⟨log, hl⟩ := Option.isSome_iff_exists.mp hi.2.1
    rw [seekToColumnFamily, hl]
    simp [hi.1]
  exact (call_inserted hop hs hi.2.2).trans (rebuild_addToMemTable hn)

theorem any_clashes {mems : List MemTableEntry} {cf seq : ℕ} (hty : type ≠ .rangeDeletion) :
    (mems.any fun e => e.clashes cf seq type key) = true ↔
      ∃ e ∈ mems, e.seq = seq ∧ e.type ≠ .rangeDeletion ∧ e.columnFamily = cf ∧ e.key = key := by
  rw [any_eq_true]
  apply exists_congr
  intro e
  simp only [MemTableEntry.clashes, hty, iff_false, decide_eq_true_eq]
  constructor
  · rintro ⟨he, hcf, hs, hk, ht⟩
    exact ⟨he, hs, ht, hcf, hk⟩
  · rintro ⟨he, hs, ht, hcf, hk⟩
    exact ⟨he, hcf, hs, hk, ht⟩

theorem Written.clashes_iff (hw : Written seen m) (ht : type ≠ .rangeDeletion) :
    (m.mems.any fun e => e.clashes cf m.sequence type key) = true ↔ (cf, key) ∈ seen :=
  (any_clashes ht).trans (hw.mem_iff cf key)

theorem Written.add (hw : Written seen m) (value : Bytes) (ht : type ≠ .rangeDeletion) (hk : (cf, key) ∉ seen) :
    ∃ m', addToMemTable cf type key value m = (.ok, m') ∧ m'.sequence = m.sequence ∧
      Written ((cf, key) :: seen) m' := by
  refine ⟨{ m with mems := ⟨cf, m.sequence, type, key, value⟩ :: m.mems }, ?_, rfl, ?_, ?_, hw.rebuildingTrx⟩
  · rw [addToMemTable, memTableAdd, if_neg (mt (hw.clashes_iff ht).mp hk)]
    rfl
  · exact forall_mem_cons.mpr ⟨Nat.le_refl _, hw.seq_le⟩
  · intro cf' key'
    simp only [mem_cons, exists_eq_or_imp, hw.mem_iff, Prod.mk.injEq]
    simp [ht, eq_comm]

theorem Written.tryAgain (hw : Written seen m) (value : Bytes) (ht : type ≠ .rangeDeletion) (hk : (cf, key) ∈ seen) :
    ∃ m', addToMemTable cf type key value m = (.tryAgain, m') ∧ m'.sequence = m.sequence + 1 ∧ Written [] m' := by
  refine ⟨{ m with sequence := m.sequence + 1 }, ?_, rfl, ?_, ?_, hw.rebuildingTrx⟩
  · rw [addToMemTable, memTableAdd, if_pos ((hw.clashes_iff ht).mpr hk)]
    rfl
  · exact fun e he => Nat.le_succ_of_le (hw.seq_le e he)
  · intro cf' key'
    simp only [not_mem_nil, iff_false]
    rintro ⟨e, he, hs, -⟩
    have hle := hw.seq_le e he
    omega

theorem entryType_ne (hop : op.isWrite = true) : entryType op ≠ .rangeDeletion := by
  cases op with
  | put | delete | singleDelete | merge => exact nofun
  | deleteRange | putLogData => cases hop

theorem cutsAt_written (hop : op.isWrite = true) (hi : Inserts opts op) :
    CutsAt (handler opts) false sequence Written op := by
  intro seen st hw
  have ht := entryType_ne hop
  by_cases hk : op.cfKey ∈ seen
  · obtain ⟨m, hf, hsq, hm⟩ := hw.tryAgain (entryValue op) ht hk
    obtain ⟨m', hs, hsq', hm'⟩ := hm.add (entryValue op) ht (not_mem_nil (a := op.cfKey))
    rw [← call_eq hop hi hw.rebuildingTrx] at hf
    rw [← call_eq hop hi hm.rebuildingTrx] at hs
    exact ⟨m', attempt_of_tryAgain hop rfl hf hs, fun _ => ⟨hsq'.trans hsq, hm'⟩, fun hn => absurd hk hn⟩
  · obtain ⟨m, hf, hsq, hm⟩ := hw.add (entryValue op) ht hk
    rw [← call_eq hop hi hw.rebuildingTrx] at hf
    exact ⟨m, attempt_of_ok hop hf, fun ha => absurd ha hk, fun _ => ⟨hsq, hm⟩⟩

theorem markEndPrepare_ok {xid : Bytes} (m : MemTableInserter) :
    ((handler opts).call (.markEndPrepare xid) m).1 = .ok := by
  change (markEndPrepare opts xid m).1 = .ok
  unfold markEndPrepare
  split <;> rfl

theorem markEndPrepare_recovered (opts : InserterOptions) (xid : Bytes) {b : WriteBatch}
    (hb : m.rebuildingTrx = some b) :
    ((handler opts).call (.markEndPrepare xid) m).2.recovered = m.recovered ++
      [⟨opts.recoveringLogNumber, xid, b, m.rebuildingTrxSeq, m.sequence - m.rebuildingTrxSeq + 1,
        m.unpreparedBatch⟩] := by
  change (markEndPrepare opts xid m).2.recovered = _
  rw [markEndPrepare, hb]
  rfl

structure Rebuilding (first : ℕ) (seen : List (ℕ × Bytes)) (m : MemTableInserter) : Prop where
  trx : ∃ b rs, m.rebuildingTrx = some b ∧ Holds b rs
  first_eq : m.rebuildingTrxSeq = first
  first_le : first ≤ m.sequence
  keys : (if m.duplicateDetector.batchSeq ≠ m.sequence then [] else m.duplicateDetector.keys) = seen
  batchSeq_le : m.duplicateDetector.batchSeq ≤ m.sequence
  recovered : m.recovered = []

def Flushed (options : InserterOptions) (op : Op) : Prop :=
  options.recoveringLogNumber ≠ 0 ∧
    ∃ log, options.columnFamilies op.columnFamily = some log ∧ options.recoveringLogNumber < log

theorem call_skipped (hop : op.isWrite = true) (hf : Flushed opts op) :
    call opts op.call m = skipKey opts op.columnFamily op.key (fun trx => op.apply trx) .ok m := by
  obtain ⟨hl, log, hcf, hlt⟩ := hf
  have hs : seekToColumnFamily opts op.columnFamily = some .ok := by
    rw [seekToColumnFamily, hcf]
    exact if_pos ⟨hl, hlt⟩
  have hi (type : ValueType) (value : Bytes) (add : WriteBatch → Status × WriteBatch) :
      insertKey opts op.columnFamily type op.key value add m = skipKey opts op.columnFamily op.key add .ok m := by
    rw [insertKey, hs]
  cases op with
  | put cf k v | delete cf k | singleDelete cf k => exact hi _ _ _
  | merge cf k v =>
    change mergeCF opts cf _ _ m = _
    rw [mergeCF, show seekToColumnFamily opts cf = _ from hs]
    rfl
  | deleteRange | putLogData => cases hop

theorem call_flushed (hop : op.isWrite = true) (hf : Flushed opts op) {b b' : WriteBatch}
    (hb : m.rebuildingTrx = some b) (ha : op.apply b = (.ok, b')) {dup : Bool}
    {detector : DuplicateDetector}
    (hd : m.duplicateDetector.isDuplicateKeySeq op.columnFamily op.key m.sequence = (dup, detector)) :
    call opts op.call m =
      (.ok, { m with rebuildingTrx := some b', duplicateDetector := detector }.maybeAdvanceSeq dup) := by
  rw [call_skipped hop hf]
  obtain ⟨-, log, hcf, -⟩ := hf
  rw [skipKey, if_neg (not_not_intro rfl), hb]
  simp only [ha, hcf, hd]
  rfl

theorem cutsAt_rebuilding (first : ℕ) (hop : op.isWrite = true) (hft : op.record.Fits) (hf : Flushed opts op) :
    CutsAt (handler opts) true sequence (Rebuilding first) op := by
  intro seen st hm
  obtain ⟨b, rs, hb, hh⟩ := hm.trx
  obtain ⟨hok, ha⟩ := Op.apply_holds hh hft
  have hadd : op.apply b = (.ok, (op.apply b).2) := Prod.ext hok rfl
  have ht : ∃ b' rs, some (op.apply b).2 = some b' ∧ Holds b' rs := ⟨_, _, rfl, ha⟩
  by_cases hk : op.cfKey ∈ seen
  · have hd : st.handler.duplicateDetector.isDuplicateKeySeq op.columnFamily op.key st.handler.sequence =
        (true, ⟨st.handler.sequence, [op.cfKey]⟩) := by
      rw [DuplicateDetector.isDuplicateKeySeq, hm.keys]
      exact if_pos hk
    refine ⟨_, attempt_of_ok hop (call_flushed hop hf hb hadd hd), fun _ => ?_, fun hn => absurd hk hn⟩
    -- the sequence number goes on behind the detector's, which will clear its keys
    refine ⟨rfl, ht, hm.first_eq, Nat.le_succ_of_le hm.first_le, ?_, Nat.le_succ _, hm.recovered⟩
    exact if_pos (Nat.ne_of_lt (Nat.lt_succ_self st.handler.sequence))
  · have hd : st.handler.duplicateDetector.isDuplicateKeySeq op.columnFamily op.key st.handler.sequence =
        (false, ⟨st.handler.sequence, op.cfKey :: seen⟩) := by
      rw [DuplicateDetector.isDuplicateKeySeq, hm.keys]
      exact if_neg hk
    refine ⟨_, attempt_of_ok hop (call_flushed hop hf hb hadd hd), fun han => absurd han hk, fun _ => ?_⟩
    refine ⟨rfl, ht, hm.first_eq, hm.first_le, ?_, Nat.le_refl _, hm.recovered⟩
    exact if_neg (not_not_intro rfl)

end MemTableInserter

section

variable {ops : List Op} (xid : Bytes)

section

variable (hops : ∀ op ∈ ops, op.isWrite = true ∧ op.record.Fits) (hxid : xid.length < 2 ^ 32)

include hops hxid

theorem prepared_count : (prepared ops xid).count = ops.length % 2 ^ 32 := by
  have hc : (ops.map Op.record).countP Record.counted = ops.length := by
    have hl : (ops.map Op.record).length = ops.length := length_map Op.record
    rw [← hl, countP_eq_length]
    intro r hr
    obtain ⟨op, hop, rfl⟩ := mem_map.mp hr
    have hw := (hops op hop).1
    cases op with
    | put | delete | singleDelete | merge => rfl
    | deleteRange | putLogData => cases hw
  rw [(prepared_holds (fun op hop => (hops op hop).2) hxid).count]
  simp [hc, Record.counted]

theorem iterate_prepared {σ : Type} {h : Handler σ} {forget : Bool} {number : σ → ℕ}
    {Seen : List (ℕ × Bytes) → σ → Prop} (hc : ∀ s, h.continue_ s = true)
    (hct : ∀ op ∈ ops, CutsAt h forget number Seen op) {s s' : σ}
    (hb : h.call (.markBeginPrepare false) s = (.ok, s')) (hw : h.writeAfterCommit s' = false)
    (hs : Seen [] s') (he : ∀ s, (h.call (.markEndPrepare xid) s).1 = .ok) :
    ∃ s1 seen, (prepared ops xid).iterate h s = (.ok, (h.call (.markEndPrepare xid) s1).2) ∧
      number s1 = number s' + cuts forget [] (ops.map Op.cfKey) ∧ Seen seen s1 := by
  have hft (op : Op) (hop : op ∈ ops) : op.record.Fits := (hops op hop).2
  have hf : attempt h ⟨s, true, 0⟩ .beginPersistedPrepareXID = (.ok, true, ⟨s', false, 0⟩) := by
    simp [attempt, dispatch, dispatchMark, hb, hw]
  obtain ⟨st, seen, hr, hn, hst, hfn⟩ := runRecords_cuts [.endPrepareXID xid] hc hct
    ⟨s', false, 0⟩ (Nat.two_pow_pos 32) hs
  have hl : attempt h st (.endPrepareXID xid) =
      (.ok, true, ⟨(h.call (.markEndPrepare xid) st.handler).2, true, st.found⟩) := by
    simp [attempt, dispatch, dispatchMark, he]
  refine ⟨st.handler, seen, ?_, hn, hst⟩
  rw [(prepared_holds hft hxid).iterate, cons_append, runRecords_cons _ (hc _) hf, hr,
    runRecords_cons _ (hc _) hl, runRecords, prepared_count xid hops hxid]
  simp [iterateResult, hfn]

theorem counter_iterate : ∃ c, (prepared ops xid).iterate SubBatchCounter.handler {} = (.ok, c) ∧
      c.batches = cuts false [] (ops.map Op.cfKey) + 1 := by
  have hbg : SubBatchCounter.handler.call (.markBeginPrepare false) {} = (.ok, {}) := rfl
  obtain ⟨c, seen, hi, hb, -⟩ := iterate_prepared xid hops hxid (fun _ => rfl)
    (fun op hop => SubBatchCounter.cutsAt (hops op hop).1) hbg rfl rfl (fun _ => rfl)
  exact ⟨c, hi, hb.trans (add_comm _ _)⟩

end

variable (opts : InserterOptions)

section

variable (hops : ∀ op ∈ ops, op.isWrite = true ∧ op.record.Fits) (hxid : xid.length < 2 ^ 32)

include hops hxid

theorem write_iterate (hins : ∀ op ∈ ops, MemTableInserter.Inserts opts op) {m : MemTableInserter}
    (hl : opts.recoveringLogNumber = 0) (hf : ∀ e ∈ m.mems, e.seq < m.sequence)
    (ht : m.rebuildingTrx = none) :
    ∃ m', (prepared ops xid).iterate (MemTableInserter.handler opts) m = (.ok, m') ∧
      m'.sequence = m.sequence + (cuts false [] (ops.map Op.cfKey) + 1) := by
  have hb : (MemTableInserter.handler opts).call (.markBeginPrepare false) m = (.ok, m) := if_neg (not_not_intro hl)
  have hw : MemTableInserter.Written [] m := by
    refine ⟨fun e he => Nat.le_of_lt (hf e he), fun cf key => ?_, ht⟩
    simp only [not_mem_nil, iff_false]
    rintro ⟨e, he, hs, -⟩
    exact Nat.ne_of_lt (hf e he) hs
  obtain ⟨m', seen, hi, hs, hm'⟩ := iterate_prepared xid hops hxid (fun _ => rfl)
    (fun op hop => MemTableInserter.cutsAt_written (hops op hop).1 (hins op hop)) hb rfl hw
    MemTableInserter.markEndPrepare_ok
  refine ⟨_, hi, ?_⟩
  change (MemTableInserter.markEndPrepare opts xid m').2.sequence = _
  rw [MemTableInserter.markEndPrepare, hm'.rebuildingTrx, ← add_assoc, ← hs]
  rfl

theorem recovery_iterate (hf : ∀ op ∈ ops, MemTableInserter.Flushed opts op)
    (hl : opts.recoveringLogNumber ≠ 0) (h2pc : opts.allow2pc = true) (sequence : ℕ)
    (mems : List MemTableEntry) :
    ∃ m trx, (prepared ops xid).iterate (MemTableInserter.handler opts) { sequence, mems } = (.ok, m) ∧
      m.recovered = [trx] ∧ trx.batchCnt = cuts true [] (ops.map Op.cfKey) + 1 := by
  have hbg : (MemTableInserter.handler opts).call (.markBeginPrepare false) { sequence, mems } =
      (.ok, { sequence, mems, rebuildingTrx := some .new, rebuildingTrxSeq := sequence }) := by
    change MemTableInserter.markBeginPrepare opts false _ = _
    rw [MemTableInserter.markBeginPrepare, if_pos hl, h2pc]
    rfl
  have hrb : MemTableInserter.Rebuilding sequence []
      { sequence, mems, rebuildingTrx := some .new, rebuildingTrxSeq := sequence } :=
    ⟨⟨_, _, rfl, .new⟩, rfl, Nat.le_refl _, ite_self [], Nat.zero_le _, rfl⟩
  obtain ⟨m', seen, hi, hs, hm'⟩ := iterate_prepared xid hops hxid (fun _ => rfl)
    (fun op hop => MemTableInserter.cutsAt_rebuilding sequence (hops op hop).1 (hops op hop).2 (hf op hop))
    hbg rfl hrb MemTableInserter.markEndPrepare_ok
  obtain ⟨b, rs, hb, -⟩ := hm'.trx
  have hr := MemTableInserter.markEndPrepare_recovered opts xid hb
  rw [hm'.recovered, nil_append] at hr
  refine ⟨_, _, hi, hr, ?_⟩
  change m'.sequence - m'.rebuildingTrxSeq + 1 = _
  rw [hm'.first_eq, hs, Nat.add_sub_cancel_left]

end

end

def oneColumnFamily (recoveringLogNumber : ℕ) : InserterOptions where
  columnFamilies cf := if cf = 0 then some 9 else none
  mergeOperator _ := true
  deleteRangeSupported _ := true
  ignoreMissingColumnFamilies := true
  recoveringLogNumber := recoveringLogNumber
  allow2pc := true
  batchPerTxn := true

end ZenFSPlus.Db
