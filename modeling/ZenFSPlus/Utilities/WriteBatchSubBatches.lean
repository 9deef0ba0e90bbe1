import Mathlib.Data.List.Lex
import ZenFSPlus.Utilities.WriteBatchIndexRuns

namespace ZenFSPlus.Db

open List SubBatchCounter
open Lib (cuts u32)
open Util Op

structure ListsBatch (c : UserComparators) (index : List WriteBatchIndexEntry) (ops : List Op) : Prop where
  sorted : index.Pairwise fun e e' => e.lt c e' = true
  points : ∀ e ∈ index, ∃ op, (e.offset, op) ∈ layout kHeader ops ∧ op.cfKey = e.cfKey
  last : ∀ op ∈ ops, ∃ p, (recordsOf op.cfKey ops).getLast? = some p ∧
    ((index.filter fun e => e.cfKey = op.cfKey).getLast?.map (·.offset)) = some p.1
  updates : ∀ op ∈ ops, ∃ stale, (index.filter fun e => e.cfKey = op.cfKey).map (·.offset) =
    stale ++ (updates (recordsOf op.cfKey ops)).map Prod.fst

variable {c : UserComparators} {ops : List Op}

theorem mem_recordsOf {op : Op} (hop : op ∈ ops) : ∃ o, (o, op) ∈ recordsOf op.cfKey ops := by
  have hl (o : ℕ) : ∃ o', (o', op) ∈ layout o ops := by
    induction ops generalizing o with
    | nil => cases hop
    | cons op' ops ih =>
      rcases mem_cons.mp hop with rfl | hop
      · exact ⟨o, mem_cons_self⟩
      · obtain ⟨o', ho'⟩ := ih hop (o + op'.record.encode.length)
        exact ⟨o', mem_cons_of_mem _ ho'⟩
  obtain ⟨o, ho⟩ := hl kHeader
  exact ⟨o, mem_filter.mpr ⟨ho, by simp⟩⟩

theorem Rep.Indexed.listsBatch {r : Rep} (h : Rep.Indexed c ops r) : ListsBatch c r.index ops where
  sorted := h.sorted
  points := by
    intro e he
    have hm : e.offset ∈ (r.index.filter fun e' => e'.cfKey = e.cfKey).map (·.offset) :=
      mem_map_of_mem (mem_filter.mpr ⟨he, by simp⟩)
    rw [h.entries] at hm
    obtain ⟨p, hp, hpo⟩ := listed_subset _ _ hm
    obtain ⟨hl, hk⟩ := mem_filter.mp hp
    refine ⟨p.2, ?_, by simpa using hk⟩
    rw [← hpo]
    exact hl
  last := by
    intro op hop
    obtain ⟨o, ho⟩ := mem_recordsOf hop
    have hne := ne_nil_of_mem ho
    refine ⟨_, getLast?_eq_getLast_of_ne_nil hne, ?_⟩
    rw [← getLast?_map, h.entries, getLast?_listed, getLast?_eq_getLast_of_ne_nil hne]
    rfl
  updates := by
    intro op _
    rw [h.entries]
    exact listed_eq_append _

theorem iterate_subBatchCounter {b : WriteBatch} (hb : Holds b (ops.map Op.record)) (ho : ∀ op ∈ ops, op.Indexable) :
    ∃ counter, b.iterate handler {} = (.ok, counter) ∧ counter.batches = 1 + cuts false [] (ops.map Op.cfKey) := by
  have hc : ∀ op ∈ ops, CutsAt handler false SubBatchCounter.batches
      (fun seen c => c.keys = seen) op := fun op hop => cutsAt (ho op hop).isWrite
  obtain ⟨st, seen, hr, hn, -, hf⟩ := runRecords_cuts [] (fun _ => rfl) hc ⟨{}, true, 0⟩ (by decide) rfl
  refine ⟨st.handler, ?_, hn⟩
  rw [append_nil] at hr
  rw [hb.iterate, hr, runRecords, iterateResult, count_eq hb ho]
  simp [hf]

/-- After any calls the index follows: the batch holds the operations that the calls left in it, the index lists them
and the sub-batches are counted as `SubBatchCounter` counts them. -/
theorem writeBatchWithIndex_follows (c : UserComparators) (calls : List Rep.Call)
    (hg : Lib.Along BatchOps.step BatchOps.Guard ⟨[], []⟩ calls) :
    ∃ r w, Lib.run (Rep.step c) (.new true) calls = some r ∧ Lib.run BatchOps.step ⟨[], []⟩ calls = some w ∧
      Holds r.writeBatch (w.ops.map Op.record) ∧ ListsBatch c r.index w.ops ∧
      ∃ counter, r.writeBatch.iterate handler {} = (.ok, counter) ∧ r.subBatchCnt = counter.batches := by
  obtain ⟨r, w, hr, hw, hm⟩ := (Rep.Models.new c).run hg
  obtain ⟨counter, hi, hb⟩ := iterate_subBatchCounter hm.holds hm.indexable
  exact ⟨r, w, hr, hw, hm.holds, hm.indexed.listsBatch, counter, hi, hm.indexed.count.trans hb.symm⟩

def bytewiseComparators : UserComparators where
  lt _ a b := decide (a.map UInt8.toNat < b.map UInt8.toNat)
  irrefl _ k := by simp
  trans _ a b c hab hbc := by
    simp only [decide_eq_true_eq] at hab hbc ⊢
    exact lt_trans hab hbc
  total _ a b := by
    simp only [decide_eq_true_eq]
    have hinj : Function.Injective (List.map UInt8.toNat) :=
      map_injective_iff.mpr fun _ _ => UInt8.toNat_inj.mp
    rcases lt_trichotomy (a.map UInt8.toNat) (b.map UInt8.toNat) with h | h | h
    · exact .inl h
    · exact .inr (.inl (hinj h))
    · exact .inr (.inr h)

instance (op : Op) : Decidable op.Indexable :=
  decidable_of_iff (op.isWrite = true ∧ op.columnFamily + 1 < 2 ^ 32) ⟨fun h => ⟨h.1, h.2⟩, fun h => ⟨h.1, h.2⟩⟩

instance : (op : Op) → Decidable op.DeletesShortKey
  | .delete _ k | .singleDelete _ k => inferInstanceAs (Decidable (k.length < 2 ^ 32))
  | .put .. | .merge .. | .deleteRange .. | .putLogData _ => inferInstanceAs (Decidable True)

instance (w : BatchOps) : (call : Rep.Call) → Decidable (w.Guard call)
  | .write op => inferInstanceAs (Decidable (op.Indexable ∧ op.DeletesShortKey))
  | .rollbackToSavePoint =>
    inferInstanceAs (Decidable (∀ s ∈ w.saves.head?, s.length % 2 ^ 32 = 0 → s = []))
  | .setSavePoint | .popSavePoint | .clear => inferInstanceAs (Decidable True)

def rolledBack : List Rep.Call :=
  [.write (.put 0 [1] [9]), .setSavePoint, .write (.merge 0 [1] [8]), .write (.put 1 [2] []), .rollbackToSavePoint,
    .write (.delete 0 [1])]

theorem writeBatchWithIndex_follows_rolledBack :
    ∃ r w, Lib.run (Rep.step bytewiseComparators) (.new true) rolledBack = some r ∧
      Lib.run BatchOps.step ⟨[], []⟩ rolledBack = some w ∧
      Holds r.writeBatch (w.ops.map Op.record) ∧ ListsBatch bytewiseComparators r.index w.ops ∧
      ∃ counter, r.writeBatch.iterate handler {} = (.ok, counter) ∧ r.subBatchCnt = counter.batches :=
  writeBatchWithIndex_follows bytewiseComparators rolledBack (by decide)

section

variable (op : Op) (n : ℕ)

theorem run_writes (hr : op.rejected = false) (ops : List Op) (saves : List (List Op)) :
    Lib.run BatchOps.step ⟨ops, saves⟩ (replicate n (.write op)) = some ⟨ops ++ replicate n op, saves⟩ := by
  induction n generalizing ops with
  | zero => simp
  | succ n ih =>
    rw [replicate_succ, Lib.run_cons]
    refine ⟨⟨ops ++ [op], saves⟩, ?_, ?_⟩
    · rw [BatchOps.step, hr]
      rfl
    · rw [ih, append_assoc]
      rfl

theorem rollback_of_wrapped_count (c : UserComparators) (hop : op.Indexable) (hd : op.DeletesShortKey)
    (hr : op.rejected = false) (hn : n % 2 ^ 32 = 0) :
    ∃ r, Lib.run (Rep.step c) (.new true)
        (replicate n (.write op) ++ [.setSavePoint, .write op, .rollbackToSavePoint]) = some r ∧
      Lib.run BatchOps.step ⟨[], []⟩ (replicate n (.write op) ++ [.setSavePoint, .write op, .rollbackToSavePoint]) =
          some ⟨replicate n op, []⟩ ∧ r.index = [] := by
  have hwr := run_writes op n hr [] []
  have hrn : Lib.run BatchOps.step ⟨[], []⟩ (replicate n (.write op) ++ [.setSavePoint, .write op]) =
      some ⟨replicate n op ++ [op], [replicate n op]⟩ := by
    rw [Lib.run_append, hwr]
    simp [Lib.run, BatchOps.step, hr]
  have hg : Lib.Along BatchOps.step BatchOps.Guard ⟨[], []⟩
      (replicate n (.write op) ++ [.setSavePoint, .write op]) := by
    apply Lib.along_of_invariant (fun call => call = .write op ∨ call = .setSavePoint) (fun _ => True)
    · rintro w call (rfl | rfl) -
      · exact ⟨hop, hd⟩
      · trivial
    · exact fun _ _ _ _ _ _ => trivial
    · intro call hcl
      simp only [mem_append, mem_replicate, mem_cons, not_mem_nil, or_false] at hcl
      tauto
    · trivial
  obtain ⟨r, w, hr', hw, hm⟩ := (Rep.Models.new c).run hg
  rw [hrn] at hw
  cases hw
  have hs := hm.saved
  cases hp : r.savePoints with
  | nil =>
    rw [hp] at hs
    exact hs.elim
  | cons p points =>
    rw [hp] at hs
    obtain ⟨hst, rfl, -⟩ := hs
    have hh := Rep.holds_rollbackTo hm.holds hst hm.indexable
    have hc := count_eq hh fun op hop => hm.indexable op (mem_append_left _ hop)
    rw [length_replicate, hn] at hc hp
    have hl : ∃ res r', r.rollbackToSavePoint c = some (res, r') ∧ r'.index = [] := by
      rw [Rep.rollbackToSavePoint, hp]
      dsimp only
      rw [Rep.reBuildIndex]
      simp only [Rep.clearIndex, hc, if_true]
      exact ⟨_, _, rfl, rfl⟩
    obtain ⟨res, r', hb, hi⟩ := hl
    have hsp : replicate n (Rep.Call.write op) ++ [.setSavePoint, .write op, .rollbackToSavePoint] =
        (replicate n (.write op) ++ [.setSavePoint, .write op]) ++ [.rollbackToSavePoint] := by simp
    refine ⟨r', ?_, ?_, hi⟩
    · rw [hsp, @Lib.run_append _ _ (Rep.step c) _ (_ ++ _), hr']
      simp [Lib.run, Rep.step, hb]
    · rw [hsp, @Lib.run_append _ _ BatchOps.step _ (_ ++ _), hrn]
      rfl

end

theorem delete_long_key (c : UserComparators) {key : Bytes} (hk : key.length = 2 ^ 32) :
    ∃ r, Lib.run (Rep.step c) (.new true) [.write (.delete 0 key)] = some r ∧ r.index = [⟨12, 0, []⟩] := by
  have hl : u32 key.length = 0 := by
    rw [hk]
    rfl
  have he : (Op.record (.delete 0 key)).encode = [0, 0] ++ key := by
    simp [Op.record, Record.encode, Record.encodeTag, putLengthPrefixedSlice, hl, ValueType.code, encodeVarint32]
  have hrd : readRecordFromWriteBatch ([0, 0] ++ key) = .ok (.deletion 0 [], key) := by
    rfl
  have ha : (Op.apply WriteBatch.new (.delete 0 key)).1 = .ok ∧
      (Op.apply WriteBatch.new (.delete 0 key)).2.rep.drop 12 = [0, 0] ++ key := by
    refine ⟨rfl, ?_⟩
    rw [← he]
    exact WriteBatch.drop_append _
  have hs : ∃ r, (Rep.new true).write c (.delete 0 key) = some r ∧ r.index = [⟨12, 0, []⟩] := by
    unfold Rep.write
    simp only [Rep.typeOf, Rep.setLastEntryOffset, Rep.new, ha.1, if_true]
    have hn : Index.Around c 0 key [] [] [] [] := ⟨rfl, by simp, by simp, by simp⟩
    rw [Rep.addOrUpdateIndex, Rep.updateExisting_of_nil hn]
    have ho : WriteBatch.new.rep.length = 12 := rfl
    simp only [Option.bind_eq_bind, Option.bind_some, Bool.false_eq_true, if_false, Rep.addNewEntry, ho,
      ha.2, hrd, Rep.recordKey]
    exact ⟨_, rfl, rfl⟩
  obtain ⟨r, hr, hi⟩ := hs
  exact ⟨r, Lib.run_cons.mpr ⟨r, hr, rfl⟩, hi⟩

/-- A repeated key in the last column family, a rollback to `2 ^ 32` records, and a key of `2 ^ 32` bytes that is
deleted. -/
theorem writeBatchWithIndex_loses_track : Lib.run (Rep.step bytewiseComparators) (.new true)
        [.write (.put 4294967295 [1] []), .write (.put 4294967295 [1] [])] = none ∧
      (∃ calls r ops, Lib.run (Rep.step bytewiseComparators) (.new true) calls = some r ∧
        Lib.run BatchOps.step ⟨[], []⟩ calls = some ⟨ops, []⟩ ∧ ops ≠ [] ∧ r.index = []) ∧
      ∃ key r, Lib.run (Rep.step bytewiseComparators) (.new true) [.write (.delete 0 key)] = some r ∧
        ∀ e ∈ r.index, e.key ≠ key := by
  refine ⟨by decide +kernel, ?_, ?_⟩
  · obtain ⟨r, hr, hw, hi⟩ := rollback_of_wrapped_count (.put 0 [1] []) 4294967296 bytewiseComparators
      (by decide) trivial rfl rfl
    refine ⟨_, r, _, hr, hw, ?_, hi⟩
    rw [Ne, replicate_eq_nil_iff]
    exact nofun
  · obtain ⟨r, hr, hi⟩ := delete_long_key bytewiseComparators (length_replicate (n := 2 ^ 32) (a := 0))
    refine ⟨_, r, hr, ?_⟩
    rw [hi]
    simp only [mem_singleton, forall_eq]
    intro hn
    have := congrArg List.length hn
    rw [length_replicate] at this
    cases this

end ZenFSPlus.Db
