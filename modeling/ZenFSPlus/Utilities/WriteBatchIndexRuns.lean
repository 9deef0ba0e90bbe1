import Mathlib.Data.List.Induction
import ZenFSPlus.Utilities.WriteBatchIndexing

namespace ZenFSPlus.Db

open List WriteBatch
open Lib (u32 cuts seenFrom seenAfter)
open Util

namespace Op

def isMerge : Op → Bool
  | merge .. => true
  | _ => false

def layout : ℕ → List Op → List (ℕ × Op)
  | _, [] => []
  | o, op :: ops => (o, op) :: layout (o + op.record.encode.length) ops

def dataSize (ops : List Op) : ℕ := kHeader + (ops.flatMap fun op => op.record.encode).length

def recordsOf (k : ℕ × Bytes) (ops : List Op) : List (ℕ × Op) :=
  (layout kHeader ops).filter fun p => p.2.cfKey = k

def updates (rs : List (ℕ × Op)) : List (ℕ × Op) :=
  rs.foldl (fun us p => if p.2.isMerge then us ++ [p] else [p]) []

def listed (rs : List (ℕ × Op)) : List ℕ :=
  rs.foldl (fun es p => (if p.2.isMerge then es else es.dropLast) ++ [p.1]) []

theorem layout_concat (o : ℕ) (ops : List Op) (op : Op) : layout o (ops ++ [op]) =
    layout o ops ++ [(o + (ops.flatMap fun op => op.record.encode).length, op)] := by
  induction ops generalizing o with
  | nil => rfl
  | cons op' ops ih =>
    rw [cons_append, layout, ih, layout, flatMap_cons, length_append, add_assoc]
    rfl

theorem layout_bounds {o : ℕ} {ops : List Op} {p : ℕ × Op} (hp : p ∈ layout o ops) :
    o ≤ p.1 ∧ p.1 < o + (ops.flatMap fun op => op.record.encode).length := by
  induction ops generalizing o with
  | nil => cases hp
  | cons op ops ih =>
    have hps := length_pos_of_ne_nil op.record.encode_ne_nil
    rw [flatMap_cons, length_append]
    rcases mem_cons.mp hp with rfl | hp
    · omega
    · have := ih hp
      omega

theorem layout_sorted (o : ℕ) (ops : List Op) : (layout o ops).Pairwise fun p q => p.1 < q.1 := by
  induction ops generalizing o with
  | nil => exact .nil
  | cons op ops ih =>
    have hps := length_pos_of_ne_nil op.record.encode_ne_nil
    apply Pairwise.cons _ (ih _)
    intro p hp
    have := (layout_bounds hp).1
    omega

theorem recordsOf_concat (k : ℕ × Bytes) (ops : List Op) (op : Op) : recordsOf k (ops ++ [op]) =
    recordsOf k ops ++ if op.cfKey = k then [(dataSize ops, op)] else [] := by
  rw [recordsOf, layout_concat, filter_append, recordsOf]
  by_cases hk : op.cfKey = k
  · simp [hk, dataSize]
  · simp [hk]

theorem recordsOf_lt {k : ℕ × Bytes} {ops : List Op} {p : ℕ × Op} (hp : p ∈ recordsOf k ops) :
    p.1 < dataSize ops := (layout_bounds (mem_filter.mp hp).1).2

theorem recordsOf_sorted (k : ℕ × Bytes) (ops : List Op) : (recordsOf k ops).Pairwise fun p q => p.1 < q.1 :=
  (layout_sorted kHeader ops).filter _

section

variable (rs : List (ℕ × Op))

include rs

theorem listed_concat (p : ℕ × Op) :
    listed (rs ++ [p]) = (if p.2.isMerge then listed rs else (listed rs).dropLast) ++ [p.1] := by
  simp [listed]

theorem updates_concat (p : ℕ × Op) : updates (rs ++ [p]) = if p.2.isMerge then updates rs ++ [p] else [p] := by
  simp [updates]

theorem getLast?_listed : (listed rs).getLast? = rs.getLast?.map Prod.fst := by
  rcases eq_nil_or_concat rs with rfl | ⟨rs, p, rfl⟩
  · rfl
  · rw [concat_eq_append, listed_concat]
    simp

theorem listed_subset : ∀ o ∈ listed rs, ∃ p ∈ rs, p.1 = o := by
  induction rs using List.reverseRecOn with
  | nil => exact nofun
  | append_singleton rs p ih =>
    intro o ho
    have hm : o ∈ listed rs ∨ o = p.1 := by
      rw [listed_concat, mem_append, mem_singleton] at ho
      rcases ho with ho | ho
      · split at ho
        · exact .inl ho
        · exact .inl (dropLast_subset _ ho)
      · exact .inr ho
    rcases hm with ho | ho
    · obtain ⟨q, hq, hqo⟩ := ih o ho
      exact ⟨q, mem_append_left _ hq, hqo⟩
    · exact ⟨p, by simp, ho.symm⟩

theorem listed_eq_append : ∃ stale, listed rs = stale ++ (updates rs).map Prod.fst := by
  induction rs using List.reverseRecOn with
  | nil => exact ⟨[], rfl⟩
  | append_singleton rs p ih =>
    obtain ⟨stale, hs⟩ := ih
    rw [listed_concat, updates_concat]
    split
    · exact ⟨stale, by simp [hs]⟩
    · exact ⟨_, rfl⟩

end

end Op

open Op

namespace Rep

open Index WriteBatchIndexEntry

variable {c : UserComparators} {ops : List Op} {r : Rep} {op : Op}

structure Indexed (c : UserComparators) (ops : List Op) (r : Rep) : Prop where
  overwriteKey : r.overwriteKey = true
  sorted : Sorted c r.index
  entries : ∀ k, (r.index.filter fun e => e.cfKey = k).map (·.offset) = listed (recordsOf k ops)
  count : r.subBatchCnt = 1 + cuts false [] (ops.map Op.cfKey)
  seen : ∀ k, k ∈ seenFrom false [] (ops.map Op.cfKey) ↔ ∃ p ∈ recordsOf k ops, r.lastSubBatchOffset ≤ p.1
  lastSubBatchOffset_le : r.lastSubBatchOffset ≤ dataSize ops

variable {bef same after : List WriteBatchIndexEntry}

section

variable (h : Indexed c ops r) (hi : Around c op.columnFamily op.key r.index bef same after)

include h hi

theorem Indexed.offsets : same.map (·.offset) = listed (recordsOf op.cfKey ops) := by
  rw [← h.entries op.cfKey, hi.eq, hi.filter_replace hi.same, if_pos (show op.cfKey = (op.columnFamily, op.key) from rfl)]

theorem Indexed.offset_lt {e : WriteBatchIndexEntry} (he : e ∈ same) : e.offset < dataSize ops := by
  have hm : e.offset ∈ same.map (·.offset) := mem_map_of_mem he
  rw [h.offsets hi] at hm
  obtain ⟨p, hp, hpo⟩ := listed_subset _ _ hm
  rw [← hpo]
  exact recordsOf_lt hp

theorem Indexed.mem_seen_iff :
    op.cfKey ∈ seenFrom false [] (ops.map Op.cfKey) ↔ ∃ e ∈ same.getLast?, r.lastSubBatchOffset ≤ e.offset := by
  have hl : same.getLast?.map (·.offset) = (recordsOf op.cfKey ops).getLast?.map Prod.fst := by
    rw [← getLast?_map, h.offsets hi, getLast?_listed]
  rw [h.seen]
  cases hs : same.getLast? with
  | none =>
    rw [hs] at hl
    have hn : recordsOf op.cfKey ops = [] := by
      simpa using hl.symm
    simp [hn]
  | some e =>
    rw [hs] at hl
    obtain ⟨p, hp, hpe⟩ := Option.map_eq_some_iff.mp hl.symm
    dsimp only at hpe
    obtain ⟨rs, hrs⟩ := getLast?_eq_some_iff.mp hp
    have hsr := recordsOf_sorted op.cfKey ops
    rw [hrs, pairwise_append] at hsr
    constructor
    · rintro ⟨q, hq, hle⟩
      refine ⟨e, rfl, ?_⟩
      rw [hrs] at hq
      rcases mem_append.mp hq with hq | hq
      · have := hsr.2.2 q hq p (by simp)
        omega
      · rw [mem_singleton.mp hq] at hle
        omega
    · rintro ⟨e', he', hle⟩
      cases he'
      exact ⟨p, by rw [hrs]; simp, by omega⟩

end

theorem pairwise_offsets (hs : Sorted c r.index) {cf : ℕ} {key : Bytes}
    (hi : Around c cf key r.index bef same after) : same.Pairwise fun e e' => e.offset < e'.offset := by
  rw [Sorted, hi.eq, pairwise_append, pairwise_append] at hs
  apply hs.2.1.1.imp_of_mem
  intro e e' he he' hlt
  have hk := cfKey_eq.mp (hi.same e he)
  have hk' := cfKey_eq.mp (hi.same e' he')
  rw [lt_iff, hk.1, hk'.1, hk.2, hk'.2, c.irrefl] at hlt
  simpa using hlt

theorem countAfter_fields (r : Rep) (last : Option WriteBatchIndexEntry) :
    let r' := r.countAfter last
    r'.overwriteKey = r.overwriteKey ∧ r'.writeBatch = r.writeBatch ∧ r'.savePoints = r.savePoints := by
  cases last with
  | none => exact ⟨rfl, rfl, rfl⟩
  | some e =>
    unfold countAfter countSubBatch
    dsimp only
    split <;> exact ⟨rfl, rfl, rfl⟩

theorem countAfter_of_mem {last : Option WriteBatchIndexEntry} (h : ∃ e ∈ last, r.lastSubBatchOffset ≤ e.offset) :
    (r.countAfter last).lastSubBatchOffset = r.lastEntryOffset ∧
      (r.countAfter last).subBatchCnt = r.subBatchCnt + 1 := by
  obtain ⟨e, he, hle⟩ := h
  cases he
  rw [countAfter, countSubBatch, if_pos hle]
  exact ⟨rfl, rfl⟩

theorem countAfter_of_notMem {last : Option WriteBatchIndexEntry}
    (h : ¬ ∃ e ∈ last, r.lastSubBatchOffset ≤ e.offset) : r.countAfter last = r := by
  cases last with
  | none => rfl
  | some e => exact if_neg fun hle => h ⟨e, rfl, hle⟩

theorem typeOf_merge {type : WriteType} (ht : typeOf op = some type) : type = .mergeRecord ↔ op.isMerge = true := by
  cases op <;> cases ht <;> simp [isMerge]

theorem recordKey_of_isWrite (hop : op.isWrite = true) : recordKey op.record = some op.key := by
  cases op with
  | put | delete | singleDelete | merge => rfl
  | deleteRange | putLogData => cases hop

theorem Indexed.clearIndex (ho : r.overwriteKey = true) : Indexed c [] r.clearIndex where
  overwriteKey := ho
  sorted := .nil
  entries _ := rfl
  count := rfl
  seen k := by simp [seenFrom, recordsOf, layout]
  lastSubBatchOffset_le := Nat.zero_le _

section

variable (h : Indexed c ops r)

include h

theorem Indexed.count_concat (hi : Around c op.columnFamily op.key r.index bef same after) :
    (r.countAfter same.getLast?).subBatchCnt = 1 + cuts false [] ((ops ++ [op]).map Op.cfKey) := by
  have hsn := h.mem_seen_iff hi
  rw [map_append, map_singleton, Lib.cuts_concat]
  by_cases hs : op.cfKey ∈ seenFrom false [] (ops.map Op.cfKey)
  · rw [if_pos hs, (countAfter_of_mem (hsn.mp hs)).2, h.count]
    omega
  · rw [if_neg hs, countAfter_of_notMem (mt hsn.mpr hs), h.count]

theorem Indexed.lastSubBatchOffset_concat (hl : r.lastEntryOffset = dataSize ops) :
    (r.countAfter same.getLast?).lastSubBatchOffset ≤ dataSize (ops ++ [op]) := by
  have hle := h.lastSubBatchOffset_le
  have hg : dataSize ops ≤ dataSize (ops ++ [op]) := by
    simp only [dataSize, flatMap_append, length_append]
    omega
  by_cases hs : ∃ e ∈ same.getLast?, r.lastSubBatchOffset ≤ e.offset
  · rw [(countAfter_of_mem hs).1, hl]
    exact hg
  · rw [countAfter_of_notMem hs]
    omega

theorem Indexed.seen_concat (hi : Around c op.columnFamily op.key r.index bef same after)
    (hl : r.lastEntryOffset = dataSize ops) (k : ℕ × Bytes) : k ∈ seenFrom false [] ((ops ++ [op]).map Op.cfKey) ↔
      ∃ p ∈ recordsOf k (ops ++ [op]), (r.countAfter same.getLast?).lastSubBatchOffset ≤ p.1 := by
  have hsn := h.mem_seen_iff hi
  have hle := h.lastSubBatchOffset_le
  rw [map_append, map_singleton, Lib.seenFrom_concat, recordsOf_concat]
  by_cases hs : op.cfKey ∈ seenFrom false [] (ops.map Op.cfKey)
  · -- the record opens a sub-batch of its own
    rw [if_pos hs, (countAfter_of_mem (hsn.mp hs)).1, hl]
    change k ∈ [op.cfKey] ↔ _
    rw [mem_singleton]
    constructor
    · rintro rfl
      exact ⟨(dataSize ops, op), by simp, Nat.le_refl _⟩
    · rintro ⟨p, hp, hle⟩
      rcases mem_append.mp hp with hp | hp
      · have := recordsOf_lt hp
        omega
      split at hp
      · rename_i hk
        exact hk.symm
      · cases hp
  · rw [if_neg hs, countAfter_of_notMem (mt hsn.mpr hs), mem_cons, h.seen]
    constructor
    · rintro (rfl | ⟨p, hp, hle⟩)
      · exact ⟨(dataSize ops, op), by simp, hle⟩
      · exact ⟨p, mem_append_left _ hp, hle⟩
    · rintro ⟨p, hp, hle⟩
      rcases mem_append.mp hp with hp | hp
      · exact .inr ⟨p, hp, hle⟩
      split at hp
      · rename_i hk
        exact .inl hk.symm
      · cases hp

theorem Indexed.add (hop : op.isWrite = true) {type : WriteType} (ht : typeOf op = some type)
    (hcf : op.columnFamily + 1 < 2 ^ 32) (hl : r.lastEntryOffset = dataSize ops) {rest : Bytes}
    (hr : readRecordFromWriteBatch (r.writeBatch.rep.drop r.lastEntryOffset) = .ok (op.record, rest)) :
    ∃ r', r.addOrUpdateIndex c op.columnFamily op.key type = some r' ∧ Indexed c (ops ++ [op]) r' ∧
      r'.writeBatch = r.writeBatch ∧ r'.savePoints = r.savePoints := by
  obtain ⟨bef, same, after, hi⟩ := h.sorted.around op.columnFamily op.key
  have ho : ∀ e ∈ same, e.offset < r.lastEntryOffset := by
    intro e he
    rw [hl]
    exact h.offset_lt hi he
  have ha := addOrUpdateIndex_eq type hi h.overwriteKey hcf ho hr (recordKey_of_isWrite hop)
  obtain ⟨hov, hb, hs⟩ := countAfter_fields r same.getLast?
  have hkp : (if type = .mergeRecord then same else same.dropLast).Sublist same := by
    split
    · exact Sublist.refl same
    · exact dropLast_sublist same
  have hsame : ∀ e ∈ (if type = .mergeRecord then same else same.dropLast) ++
      [⟨r.lastEntryOffset, op.columnFamily, op.key⟩], e.cfKey = (op.columnFamily, op.key) := by
    intro e he
    rcases mem_append.mp he with he | he
    · exact hi.same e (hkp.subset he)
    · rw [mem_singleton.mp he]
      rfl
  refine ⟨_, ha, ⟨hov.trans h.overwriteKey, ?_, ?_, h.count_concat hi, h.seen_concat hi hl,
    h.lastSubBatchOffset_concat hl⟩, hb, hs⟩
  · apply hi.sorted_replace h.sorted hsame
    rw [pairwise_append]
    refine ⟨(pairwise_offsets h.sorted hi).sublist hkp, pairwise_singleton _ _, ?_⟩
    intro e he e' he'
    rw [mem_singleton.mp he']
    exact ho e (hkp.subset he)
  · intro k
    rw [hi.filter_replace hsame k, recordsOf_concat]
    by_cases hk : op.cfKey = k
    · subst hk
      rw [if_pos (show op.cfKey = (op.columnFamily, op.key) from rfl), if_pos rfl, listed_concat, ← h.offsets hi, map_append]
      by_cases hm : type = .mergeRecord
      · rw [if_pos hm, if_pos ((typeOf_merge ht).mp hm), hl]
        rfl
      · rw [if_neg hm, if_neg (mt (typeOf_merge ht).mpr hm), hl, map_dropLast]
        rfl
    · rw [if_neg (show k ≠ (op.columnFamily, op.key) from Ne.symm hk), if_neg hk, append_nil, h.entries]

theorem Indexed.congr {r' : Rep} (ho : r'.overwriteKey = r.overwriteKey) (hix : r'.index = r.index)
    (hl : r'.lastSubBatchOffset = r.lastSubBatchOffset) (hc : r'.subBatchCnt = r.subBatchCnt) :
    Indexed c ops r' where
  overwriteKey := ho.trans h.overwriteKey
  sorted := by
    rw [hix]
    exact h.sorted
  entries := by
    rw [hix]
    exact h.entries
  count := hc.trans h.count
  seen := by
    rw [hl]
    exact h.seen
  lastSubBatchOffset_le := by
    rw [hl]
    exact h.lastSubBatchOffset_le

end

end Rep

namespace Op

def rejected : Op → Bool
  | put _ k v | merge _ k v => (checkSize k v).isSome
  | _ => false

def DeletesShortKey : Op → Prop
  | delete _ k | singleDelete _ k => k.length < 2 ^ 32
  | _ => True

structure Indexable (op : Op) : Prop where
  isWrite : op.isWrite = true
  columnFamily_lt : op.columnFamily + 1 < 2 ^ 32

variable {op : Op} {ops : List Op} {b : WriteBatch}

theorem fits_of_not_rejected (hop : op.Indexable) (hd : op.DeletesShortKey) (hr : op.rejected = false) :
    op.record.Fits := by
  have hcf := hop.columnFamily_lt
  have hs {k v : Bytes} (h : (checkSize k v).isSome = false) : k.length < 2 ^ 32 ∧ v.length < 2 ^ 32 := by
    unfold checkSize at h
    split at h
    · cases h
    · split at h
      · cases h
      · omega
  cases op with
  | put cf k v | merge cf k v => exact ⟨Nat.lt_of_succ_lt hcf, hs hr⟩
  | delete cf k | singleDelete cf k => exact ⟨Nat.lt_of_succ_lt hcf, hd⟩
  | deleteRange | putLogData => cases hop.isWrite

theorem apply_of_rejected (hr : op.rejected = true) (b : WriteBatch) : (op.apply b).1 ≠ .ok ∧ (op.apply b).2 = b := by
  have hs {k v : Bytes} (h : (checkSize k v).isSome = true) : ∃ msg, checkSize k v = some (.invalidArgument msg) := by
    unfold checkSize at h ⊢
    split
    · exact ⟨_, rfl⟩
    · split
      · exact ⟨_, rfl⟩
      · simp_all
  cases op with
  | put cf k v =>
    obtain ⟨msg, hm⟩ := hs hr
    simp [apply, WriteBatch.put, hm]
  | merge cf k v =>
    obtain ⟨msg, hm⟩ := hs hr
    simp [apply, WriteBatch.merge, hm]
  | delete | singleDelete | deleteRange | putLogData => cases hr

theorem flatMap_record (ops : List Op) :
    (ops.map record).flatMap Record.encode = ops.flatMap fun op => op.record.encode := flatMap_map _ _ _

theorem length_rep (hb : Holds b (ops.map record)) : b.rep.length = dataSize ops := by
  have hle := b.header_le
  have hl := congrArg List.length hb.records
  rw [length_drop, flatMap_record] at hl
  unfold dataSize
  omega

theorem drop_rep {done todo : List Op} (hb : Holds b ((done ++ todo).map record)) :
    b.rep.drop (dataSize done) = todo.flatMap fun op => op.record.encode := by
  rw [dataSize, ← drop_drop, hb.records, flatMap_record, flatMap_append, drop_left]

theorem count_eq (hb : Holds b (ops.map record)) (ho : ∀ op ∈ ops, op.Indexable) : b.count = ops.length % 2 ^ 32 := by
  have ha : ∀ r ∈ ops.map record, r.counted = true := by
    intro r hr
    obtain ⟨op, hop, rfl⟩ := mem_map.mp hr
    have hw := (ho op hop).isWrite
    cases op with
    | put | delete | singleDelete | merge => rfl
    | deleteRange | putLogData => cases hw
  rw [hb.count, countP_eq_length.mpr ha, length_map]

theorem typeOf_isSome (hop : op.Indexable) : ∃ type, Rep.typeOf op = some type ∧
    Rep.indexed op.record = .ok (some (op.columnFamily, op.key, type)) := by
  have hw := hop.isWrite
  cases op with
  | put | delete | singleDelete | merge => exact ⟨_, rfl, rfl⟩
  | deleteRange | putLogData => cases hw

end Op

structure BatchOps where
  ops : List Op
  saves : List (List Op)

namespace BatchOps

def step (w : BatchOps) : Rep.Call → Option BatchOps
  | .write op => some (if op.rejected then w else ⟨w.ops ++ [op], w.saves⟩)
  | .setSavePoint => some ⟨w.ops, w.ops :: w.saves⟩
  | .popSavePoint => some ⟨w.ops, w.saves.tail⟩
  | .rollbackToSavePoint =>
    match w.saves with
    | [] => some w
    | s :: saves => some ⟨s, saves⟩
  | .clear => some ⟨[], []⟩

def Guard (w : BatchOps) : Rep.Call → Prop
  | .write op => op.Indexable ∧ op.DeletesShortKey
  | .rollbackToSavePoint => ∀ s ∈ w.saves.head?, s.length % 2 ^ 32 = 0 → s = []
  | _ => True

def Saved (ops : List Op) : List (List Op) → List SavePoint → Prop
  | [], [] => True
  | s :: saves, p :: points => s <+: ops ∧ p = ⟨dataSize s, s.length % 2 ^ 32⟩ ∧ Saved s saves points
  | _, _ => False

theorem Saved.append {ops : List Op} {saves : List (List Op)} {points : List SavePoint}
    (h : Saved ops saves points) (op : Op) : Saved (ops ++ [op]) saves points := by
  cases saves with
  | nil => cases points <;> exact h
  | cons s saves =>
    cases points with
    | nil => exact h
    | cons p points => exact ⟨h.1.trans (prefix_append ops [op]), h.2⟩

end BatchOps

namespace Rep

open BatchOps (Saved)

variable {c : UserComparators} {r r' : Rep} {w w' : BatchOps}

structure Models (c : UserComparators) (w : BatchOps) (r : Rep) : Prop where
  holds : Holds r.writeBatch (w.ops.map Op.record)
  indexable : ∀ op ∈ w.ops, op.Indexable
  indexed : Indexed c w.ops r
  saved : Saved w.ops w.saves r.savePoints

theorem Models.new (c : UserComparators) : Models c ⟨[], []⟩ (.new true) where
  holds := .new
  indexable := nofun
  indexed := Indexed.clearIndex (r := .new true) rfl
  saved := trivial

theorem Models.write {op : Op} (h : Models c w r) (hop : op.Indexable) (hd : op.DeletesShortKey) :
    ∃ r', r.write c op = some r' ∧ Models c (if op.rejected then w else ⟨w.ops ++ [op], w.saves⟩) r' := by
  obtain ⟨type, ht, -⟩ := typeOf_isSome hop
  unfold Rep.write
  rw [ht]
  cases hr : op.rejected with
  | true =>
    obtain ⟨hs, hb⟩ := apply_of_rejected hr r.writeBatch
    refine ⟨{ r.setLastEntryOffset with writeBatch := r.writeBatch }, ?_, ?_⟩
    · simp only [setLastEntryOffset, hs, if_false, hb]
    · exact ⟨h.holds, h.indexable, h.indexed.congr rfl rfl rfl rfl, h.saved⟩
  | false =>
    have hf := fits_of_not_rejected hop hd hr
    obtain ⟨hs, hb⟩ := Op.apply_holds h.holds hf
    have hl := length_rep h.holds
    have hm : w.ops.map Op.record ++ [op.record] = (w.ops ++ [op]).map Op.record := by simp
    rw [hm] at hb
    have hrd : readRecordFromWriteBatch ((op.apply r.writeBatch).2.rep.drop r.writeBatch.rep.length) =
        .ok (op.record, []) := by
      rw [hl, drop_rep hb, flatMap_singleton, ← append_nil op.record.encode]
      exact Record.read_encode hf []
    have hix : Indexed c w.ops { r.setLastEntryOffset with writeBatch := (op.apply r.writeBatch).2 } :=
      h.indexed.congr rfl rfl rfl rfl
    obtain ⟨r', ha, hr', hbt, hsv⟩ := hix.add hop.isWrite ht hop.columnFamily_lt hl hrd
    refine ⟨r', ?_, ?_, ?_, hr', ?_⟩
    · simp only [setLastEntryOffset] at ha ⊢
      simp only [hs, if_true]
      exact ha
    · rw [hbt]
      exact hb
    · exact forall_mem_append.mpr ⟨h.indexable, by simpa using hop⟩
    · rw [hsv]
      exact h.saved.append op

theorem reBuildLoop_indexed (done : List Op) {todo : List Op} (hb : Holds r.writeBatch ((done ++ todo).map Op.record))
    (hi : Indexed c done r) (htd : ∀ op ∈ todo, op.Indexable) (found : ℕ) (hfn : found < 2 ^ 32) :
    ∃ r', reBuildLoop c (todo.flatMap fun op => op.record.encode) found r =
        some (.ok ((found + todo.length) % 2 ^ 32), r') ∧
      Indexed c (done ++ todo) r' ∧ r'.writeBatch = r.writeBatch ∧ r'.savePoints = r.savePoints := by
  induction todo generalizing done r found with
  | nil =>
    refine ⟨r, ?_, by simpa using hi, rfl, rfl⟩
    rw [flatMap_nil, reBuildLoop, if_pos rfl, length_nil, add_zero, Nat.mod_eq_of_lt hfn]
  | cons op todo ih =>
    obtain ⟨hop, htd⟩ := forall_mem_cons.mp htd
    obtain ⟨type, ht, hix⟩ := typeOf_isSome hop
    have hf : op.record.Fits := hb.fits _ (mem_map_of_mem (by simp))
    have hr := Record.read_encode hf (todo.flatMap fun op => op.record.encode)
    have hne : op.record.encode ++ todo.flatMap (fun op => op.record.encode) ≠ [] := by
      simp [op.record.encode_ne_nil]
    have hd := drop_rep hb
    rw [flatMap_cons] at hd
    have ho : r.writeBatch.rep.length -
        (op.record.encode ++ todo.flatMap fun op => op.record.encode).length = dataSize done := by
      rw [← hd, length_drop, length_rep hb]
      have : dataSize done ≤ dataSize (done ++ op :: todo) := by
        simp only [dataSize, flatMap_append, length_append]
        omega
      omega
    have hi' : Indexed c done { r with lastEntryOffset := dataSize done } := hi.congr rfl rfl rfl rfl
    obtain ⟨r1, ha, hr1, hbt, hs⟩ := hi'.add hop.isWrite ht hop.columnFamily_lt rfl
      (by rw [show r.writeBatch.rep.drop (dataSize done) = _ from hd]; exact hr)
    have hb1 : Holds r1.writeBatch ((done ++ [op] ++ todo).map Op.record) := by
      rw [hbt, append_assoc]
      exact hb
    obtain ⟨r', hl, hr', hbt', hs'⟩ := ih _ hb1 hr1 htd _ (Lib.u32_lt (found + 1))
    refine ⟨r', ?_, by simpa using hr', hbt'.trans hbt, hs'.trans hs⟩
    rw [flatMap_cons, reBuildLoop, if_neg hne, ho]
    split
    · rename_i he
      rw [hr] at he
      cases he
    rename_i record rest hok
    rw [hr] at hok
    cases hok
    rw [hix]
    dsimp only
    rw [ha]
    simp only [Option.bind_eq_bind, Option.bind_some]
    rw [hl]
    simp [u32, Nat.add_comm, Nat.add_left_comm]

theorem holds_rollbackTo {b : WriteBatch} {ops s : List Op} (hb : Holds b (ops.map Op.record)) (hs : s <+: ops)
    (ho : ∀ op ∈ ops, op.Indexable) :
    Holds (b.rollbackTo ⟨dataSize s, s.length % 2 ^ 32⟩) (s.map Op.record) := by
  obtain ⟨t, rfl⟩ := hs
  have hl := length_rep hb
  have hsz : dataSize (s ++ t) = dataSize s + (t.flatMap fun op => op.record.encode).length := by
    simp only [dataSize, flatMap_append, length_append]
    omega
  unfold rollbackTo
  split
  · rename_i heq
    have ht : t = [] := by
      cases t with
      | nil => rfl
      | cons op t =>
        have hp := length_pos_of_ne_nil op.record.encode_ne_nil
        rw [flatMap_cons, length_append] at hsz
        dsimp only at heq
        omega
    subst ht
    simpa using hb
  · rw [dif_pos ⟨Nat.le_add_right _ _, by dsimp only; omega⟩]
    have hc : (s.map Op.record).countP Record.counted = s.length := by
      rw [countP_eq_length.mpr, length_map]
      intro r hr
      obtain ⟨op, hop, rfl⟩ := mem_map.mp hr
      have hw := (ho op (mem_append_left _ hop)).isWrite
      cases op with
      | put | delete | singleDelete | merge => rfl
      | deleteRange | putLogData => cases hw
    refine ⟨?_, ?_, ?_, hb.unlimited, hb.unmarked⟩
    · rw [drop_setCount, drop_take, hb.records, flatMap_record, flatMap_record,
        flatMap_append, dataSize, Nat.add_sub_cancel_left, take_left]
    · intro r hr
      rw [map_append] at hb
      exact hb.fits r (mem_append_left _ hr)
    · rw [count_setCount, hc, Nat.mod_mod]

theorem Models.rollbackToSavePoint (h : Models c w r) (hg : ∀ s ∈ w.saves.head?, s.length % 2 ^ 32 = 0 → s = []) :
    ∃ res r', r.rollbackToSavePoint c = some (res, r') ∧
      ∀ w', w.step .rollbackToSavePoint = some w' → Models c w' r' := by
  have hs := h.saved
  unfold Rep.rollbackToSavePoint BatchOps.step
  cases hsv : w.saves with
  | nil =>
    cases hp : r.savePoints with
    | nil =>
      refine ⟨_, r, rfl, ?_⟩
      intro w' hw'
      cases hw'
      exact h
    | cons p points =>
      rw [hsv, hp] at hs
      exact hs.elim
  | cons s saves =>
    cases hp : r.savePoints with
    | nil =>
      rw [hsv, hp] at hs
      exact hs.elim
    | cons p points =>
      rw [hsv, hp] at hs
      obtain ⟨hst, rfl, hr⟩ := hs
      have hh := holds_rollbackTo h.holds hst h.indexable
      have hix : ∀ op ∈ s, op.Indexable := fun op hop => h.indexable op (hst.subset hop)
      have hc := count_eq hh hix
      unfold reBuildIndex
      dsimp only [Rep.clearIndex]
      by_cases hz : (r.writeBatch.rollbackTo ⟨dataSize s, s.length % 2 ^ 32⟩).count = 0
      · rw [if_pos hz]
        refine ⟨_, _, rfl, ?_⟩
        intro w' hw'
        cases hw'
        have hn : s = [] := hg s (by simp [hsv]) (by rw [← hc]; exact hz)
        subst hn
        exact ⟨hh, hix, Indexed.clearIndex (r := { r with
          writeBatch := r.writeBatch.rollbackTo ⟨dataSize [], [].length % 2 ^ 32⟩
          savePoints := points }) h.indexed.overwriteKey, hr⟩
      · rw [if_neg hz, hh.records, flatMap_record]
        have hcl : Indexed c [] ({ r with
          writeBatch := r.writeBatch.rollbackTo ⟨dataSize s, s.length % 2 ^ 32⟩
          savePoints := points } : Rep).clearIndex := Indexed.clearIndex h.indexed.overwriteKey
        obtain ⟨r', hl, hr', hb, hp'⟩ := reBuildLoop_indexed [] hh hcl hix 0 (by decide)
        simp only [Rep.clearIndex] at hl hb hp'
        rw [hl]
        simp only [Option.bind_eq_bind, Option.bind_some, zero_add]
        rw [if_neg (by rw [hb, hc]; simp)]
        refine ⟨_, r', rfl, ?_⟩
        intro w' hw'
        cases hw'
        refine ⟨?_, hix, by simpa using hr', ?_⟩
        · rw [hb]
          exact hh
        · rw [hp']
          exact hr

theorem Models.step {call : Call} (h : Models c w r) (hg : BatchOps.Guard w call) :
    ∃ r', r.step c call = some r' ∧ ∀ w', w.step call = some w' → Models c w' r' := by
  cases call with
  | write op =>
    obtain ⟨r', hr', hm⟩ := h.write hg.1 hg.2
    refine ⟨r', hr', ?_⟩
    intro w' hw'
    cases hw'
    exact hm
  | setSavePoint =>
    refine ⟨_, rfl, ?_⟩
    intro w' hw'
    cases hw'
    refine ⟨h.holds, h.indexable, h.indexed.congr rfl rfl rfl rfl, prefix_refl _, ?_, h.saved⟩
    rw [length_rep h.holds, count_eq h.holds h.indexable]
  | popSavePoint =>
    refine ⟨_, rfl, ?_⟩
    intro w' hw'
    cases hw'
    refine ⟨h.holds, h.indexable, h.indexed.congr rfl rfl rfl rfl, ?_⟩
    have hsv := h.saved
    unfold Rep.popSavePoint
    generalize r.savePoints = points at hsv
    generalize w.saves = saves at hsv
    cases saves with
    | nil =>
      cases points with
      | nil => trivial
      | cons p points => exact hsv.elim
    | cons s saves =>
      cases points with
      | nil => exact hsv.elim
      | cons p points =>
        obtain ⟨hs, -, hr⟩ := hsv
        cases saves with
        | nil => cases points <;> exact hr
        | cons s' saves =>
          cases points with
          | nil => exact hr
          | cons p' points => exact ⟨hr.1.trans hs, hr.2⟩
  | rollbackToSavePoint =>
    obtain ⟨res, r', hr', hm⟩ := h.rollbackToSavePoint hg
    exact ⟨r', by rw [Rep.step, hr']; rfl, hm⟩
  | clear =>
    refine ⟨_, rfl, ?_⟩
    intro w' hw'
    cases hw'
    refine ⟨⟨rfl, nofun, rfl, h.holds.unlimited, rfl⟩, nofun, ?_, trivial⟩
    exact Indexed.clearIndex (r := { r with
      writeBatch := r.writeBatch.clear
      savePoints := [] }) h.indexed.overwriteKey

theorem Models.run {calls : List Call} (h : Models c w r) (hg : Lib.Along BatchOps.step BatchOps.Guard w calls) :
    ∃ r' w', Lib.run (Rep.step c) r calls = some r' ∧ Lib.run BatchOps.step w calls = some w' ∧ Models c w' r' := by
  induction calls generalizing r w with
  | nil => exact ⟨r, w, rfl, rfl, h⟩
  | cons call calls ih =>
    obtain ⟨hcl, hc⟩ := hg
    obtain ⟨r1, hr1, hm⟩ := h.step hcl
    have hw1 : ∃ w1, w.step call = some w1 := by
      cases call with
      | rollbackToSavePoint =>
        unfold BatchOps.step
        dsimp only
        split <;> exact ⟨_, rfl⟩
      | write | setSavePoint | popSavePoint | clear => exact ⟨_, rfl⟩
    obtain ⟨w1, hw1⟩ := hw1
    obtain ⟨r', w', hr', hw', hmd⟩ := ih (hm w1 hw1) (hc w1 hw1)
    exact ⟨r', w', Lib.run_cons.mpr ⟨r1, hr1, hr'⟩, Lib.run_cons.mpr ⟨w1, hw1, hw'⟩, hmd⟩

end Rep

end ZenFSPlus.Db
