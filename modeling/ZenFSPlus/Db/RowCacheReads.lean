import Mathlib.Algebra.GroupWithZero.Nat
import ZenFSPlus.Db.PointLookup

namespace ZenFSPlus.Db

open List Function

variable {κ V : Type} [LinearOrder κ] {cfg : LookupConfig V}

structure Plain (cfg : LookupConfig V) : Prop where
  isVisible : cfg.isVisible = none
  shouldMerge : ∀ vs, cfg.shouldMerge vs = false

theorem Plain.visible (hcfg : Plain cfg) (seq : ℕ) : GetContext.checkCallback cfg seq = true := by
  rw [GetContext.checkCallback, hcfg.isVisible]

def rowLog : List (Entry V) → ReplayLog V
  | [] => []
  | e :: es => (e.type, e.value) :: if e.type = .merge then rowLog es else []

namespace GetContext

variable {c : GetContext V}

structure Open (c : GetContext V) : Prop where
  searching : Version.searching c = true
  uncovered : c.maxCoveringTombstoneSeq = 0

theorem saveValue_seq (hcfg : Plain cfg) (hc : c.maxCoveringTombstoneSeq = 0) (seq : ℕ) (type : EntryType) (v : V) :
    c.saveValue cfg seq type v = c.saveValue cfg kMaxSequenceNumber type v := by
  simp [saveValue, hcfg.visible, hc]

theorem saveValue_merge (hcfg : Plain cfg) (hc : c.Open) (seq : ℕ) (v : V) :
    ∃ c', c.saveValue cfg seq .merge v = (true, c') ∧ c'.Open ∧
      c'.replayLog = c.replayLog.map fun log => log ++ [(.merge, v)] := by
  refine ⟨({ c with replayLog := _, state := .merge } : GetContext V).push v, ?_, ⟨rfl, hc.uncovered⟩, rfl⟩
  simp only [saveValue, hcfg.visible, hc.uncovered, Nat.not_lt_zero, and_false, if_false, hcfg.shouldMerge,
    Bool.and_false, Bool.not_true, Bool.false_eq_true]
  rfl

theorem merge_replayLog (base : Option V) : (c.merge cfg base).replayLog = c.replayLog := by
  rw [merge]
  split
  · split <;> rfl
  · rfl

theorem saveDeletion_replayLog : (c.saveDeletion cfg).replayLog = c.replayLog := by
  rw [saveDeletion]
  split
  · rfl
  · exact merge_replayLog none
  · rfl

theorem savePut_replayLog (v : V) : (c.savePut cfg v).replayLog = c.replayLog := by
  rw [savePut]
  split
  · split <;> rfl
  · split
    · exact merge_replayLog (some v)
    · rfl
  · rfl

theorem saveValue_last (hcfg : Plain cfg) (hc : c.maxCoveringTombstoneSeq = 0) {type : EntryType}
    (ht : type ≠ .merge) (seq : ℕ) (v : V) :
    let r := c.saveValue cfg seq type v
    r.1 = false ∧ r.2.replayLog = c.replayLog.map fun log => log ++ [(type, v)] := by
  simp only [saveValue, hcfg.visible, hc, Nat.not_lt_zero, and_false, if_false, Bool.not_true, Bool.false_eq_true]
  cases type with
  | value => exact ⟨rfl, savePut_replayLog v⟩
  | deletion | singleDeletion => exact ⟨rfl, saveDeletion_replayLog⟩
  | merge => exact absurd rfl ht

theorem scan_eq_replay (hcfg : Plain cfg) (hc : c.Open) (es : List (Entry V)) :
    c.scan cfg es = c.replay cfg (rowLog es) ∧
      (c.scan cfg es).replayLog = c.replayLog.map fun log => log ++ rowLog es := by
  induction es generalizing c with
  | nil =>
    refine ⟨rfl, ?_⟩
    cases hl : c.replayLog with
    | none => exact hl
    | some log => simp [scan, rowLog, hl]
  | cons e es ih =>
    by_cases ht : e.type = .merge
    · obtain ⟨c', hsv, ho, hl⟩ := saveValue_merge hcfg hc e.seq e.value
      obtain ⟨hs, hl'⟩ := ih ho
      rw [scan, rowLog, ht, hsv, if_pos rfl]
      refine ⟨?_, ?_⟩
      · rw [replay, foldl_cons, ← saveValue_seq hcfg hc.uncovered e.seq, hsv]
        exact hs
      · change (c'.scan cfg es).replayLog = _
        rw [hl', hl, Option.map_map]
        congr 1
        funext log
        simp
    · obtain ⟨hst, hl⟩ := saveValue_last hcfg hc.uncovered ht e.seq e.value
      have hs : c.scan cfg (e :: es) = (c.saveValue cfg e.seq e.type e.value).2 := by
        rw [scan]
        generalize c.saveValue cfg e.seq e.type e.value = result at hst
        obtain ⟨goOn, c'⟩ := result
        cases hst
        rfl
      rw [hs, rowLog, if_neg ht]
      refine ⟨?_, hl⟩
      rw [saveValue_seq hcfg hc.uncovered]
      rfl

def forget (c : GetContext V) : GetContext V := { c with replayLog := none }

theorem merge_forget (base : Option V) : c.forget.merge cfg base = (c.merge cfg base).forget := by
  obtain ⟨state, operands, value, cov, log⟩ := c
  dsimp only [forget, merge]
  split
  · cases cfg.fullMerge base operands <;> rfl
  · rfl

theorem saveDeletion_forget : c.forget.saveDeletion cfg = (c.saveDeletion cfg).forget := by
  obtain ⟨state, operands, value, cov, log⟩ := c
  cases state with
  | merge => exact merge_forget none
  | notFound | found | deleted | corrupt => rfl

theorem savePut_forget (v : V) : c.forget.savePut cfg v = (c.savePut cfg v).forget := by
  obtain ⟨state, operands, value, cov, log⟩ := c
  cases state with
  | notFound =>
    change (if cfg.doMerge then _ else _) = forget (if cfg.doMerge then _ else _)
    split <;> rfl
  | merge =>
    change (if cfg.doMerge then _ else _) = forget (if cfg.doMerge then _ else _)
    split
    · exact merge_forget (some v)
    · rfl
  | found | deleted | corrupt => rfl

theorem saveValue_forget (seq : ℕ) (type : EntryType) (v : V) :
    let r := c.saveValue cfg seq type v
    c.forget.saveValue cfg seq type v = (r.1, r.2.forget) := by
  unfold saveValue
  split
  · rfl
  generalize hd : ({ c with replayLog := c.replayLog.map fun log => log ++ [(type, v)] } : GetContext V) = d
  have hfr : ({ c.forget with replayLog := c.forget.replayLog.map fun log => log ++ [(type, v)] } : GetContext V)
      = d.forget := by
    rw [← hd]
    rfl
  rw [hfr]
  by_cases hcv : (type = .value ∨ type = .merge) ∧ seq < d.maxCoveringTombstoneSeq
  · simp only [if_pos hcv, if_pos (show _ ∧ seq < d.forget.maxCoveringTombstoneSeq from hcv), saveDeletion_forget]
  simp only [if_neg hcv, if_neg (show ¬ (_ ∧ seq < d.forget.maxCoveringTombstoneSeq) from hcv)]
  cases type with
  | value => exact congrArg (Prod.mk false) (savePut_forget v)
  | deletion | singleDeletion => exact congrArg (Prod.mk false) saveDeletion_forget
  | merge =>
    cases hp : cfg.doMerge && cfg.shouldMerge (d.operands ++ [v]) with
    | true =>
      simp only [push, forget, hp, if_true]
      exact congrArg (Prod.mk false) (merge_forget (c := ({ d with state := .merge } : GetContext V).push v) none)
    | false => simp [push, forget, hp]

theorem scan_forget (es : List (Entry V)) : c.forget.scan cfg es = (c.scan cfg es).forget := by
  induction es generalizing c with
  | nil => rfl
  | cons e es ih =>
    rw [scan, scan, saveValue_forget]
    generalize c.saveValue cfg e.seq e.type e.value = result
    obtain ⟨goOn, c'⟩ := result
    cases goOn with
    | true => exact ih
    | false => rfl

end GetContext

section

open TableCache (rowCacheKey readTable recordRow)

structure Uncovered (f : TableFile κ V) : Prop where
  seq_le : ∀ k, ∀ e ∈ f.entries k, e.seq ≤ f.largestSeqno
  uncovered : ∀ k, f.entries k ≠ [] → coveringSeqs f.tombstones k kMaxSequenceNumber = []

def Sees (f : TableFile κ V) (k : LookupKey κ) : Prop :=
  match k.snapshot with
  | some snapshot => k.seq = snapshot ∧ snapshot ≤ kMaxSequenceNumber
  | none => f.largestSeqno ≤ k.seq

def rowOf (f : TableFile κ V) (k : LookupKey κ) : ReplayLog V := rowLog (visible k.seq (f.entries k.key))

variable {f : TableFile κ V} {k : LookupKey κ} {c : GetContext V}

theorem visible_of_le (hf : Uncovered f) (hle : f.largestSeqno ≤ k.seq) :
    visible k.seq (f.entries k.key) = f.entries k.key := by
  rw [visible, filter_eq_self]
  exact fun e he => decide_eq_true (Nat.le_trans (hf.seq_le k.key e he) hle)

theorem rowOf_congr {k' : LookupKey κ} (hf : Uncovered f) (hk : Sees f k) (hk' : Sees f k')
    {cfg' : LookupConfig V} (hcfg : Plain cfg) (hcfg' : Plain cfg')
    (hky : rowCacheKey cfg f k = rowCacheKey cfg' f k') : rowOf f k = rowOf f k' := by
  -- the row of a lookup is under its sequence number, or it has all entries
  have hr {cfg : LookupConfig V} (hcfg : Plain cfg) {k : LookupKey κ} (hk : Sees f k) :
      rowCacheKey cfg f k = (f.number, 1 + k.seq, k.key) ∨
        rowCacheKey cfg f k = (f.number, 0, k.key) ∧ visible k.seq (f.entries k.key) = f.entries k.key := by
    obtain ⟨key, seq, snapshot⟩ := k
    cases snapshot with
    | none => exact Or.inr ⟨rfl, visible_of_le hf hk⟩
    | some snapshot =>
      have heq : seq = snapshot := hk.1
      subst heq
      rw [rowCacheKey, hcfg.isVisible]
      by_cases hle : seq ≤ f.largestSeqno
      · exact Or.inl (if_pos (Or.inr hle))
      · refine Or.inr ⟨if_neg (by simpa using hle), visible_of_le hf ?_⟩
        exact Nat.le_of_lt (Nat.lt_of_not_le hle)
  rw [rowOf, rowOf]
  rcases hr hcfg hk with h | ⟨h, ha⟩ <;> rcases hr hcfg' hk' with h' | ⟨h', ha'⟩ <;>
    rw [h, h', Prod.mk.injEq, Prod.mk.injEq] at hky
  · rw [hky.2.2, Nat.add_left_cancel hky.2.1]
  · exact absurd hky.2.1 (by omega)
  · exact absurd hky.2.1 (by omega)
  · rw [ha, ha', hky.2.2]

theorem coveringSeqs_mono {tombstones : List (RangeTombstone κ)} {key : κ} {seq : ℕ} (hs : seq ≤ kMaxSequenceNumber)
    (hn : coveringSeqs tombstones key kMaxSequenceNumber = []) : coveringSeqs tombstones key seq = [] := by
  rw [coveringSeqs, map_eq_nil_iff, filter_eq_nil_iff] at hn ⊢
  intro t ht hcv
  apply hn t ht
  simp only [decide_eq_true_eq] at hcv ⊢
  exact ⟨hcv.1, hcv.2.1, Nat.le_trans hcv.2.2 hs⟩

theorem readTable_eq_replay (hcfg : Plain cfg) (hf : Uncovered f) (hk : Sees f k) (hc : c.Open)
    (hr : rowOf f k ≠ []) : readTable cfg f k c = c.replay cfg (rowOf f k) := by
  have hne : f.entries k.key ≠ [] := by
    intro hn
    rw [rowOf, hn] at hr
    exact hr rfl
  have hb : k.snapshot.getD kMaxSequenceNumber ≤ kMaxSequenceNumber := by
    obtain ⟨key, seq, snapshot⟩ := k
    cases snapshot with
    | none => exact Nat.le_refl _
    | some snapshot => exact hk.2
  have hcv : maxCoveringTombstoneSeqnum f.tombstones k.key (k.snapshot.getD kMaxSequenceNumber) = 0 := by
    rw [maxCoveringTombstoneSeqnum, coveringSeqs_mono hb (hf.uncovered k.key hne)]
    rfl
  rw [readTable, hcv, Nat.max_zero]
  exact (GetContext.scan_eq_replay hcfg hc _).1

theorem rowLog_eq_nil {es : List (Entry V)} (hn : rowLog es = []) : es = [] := by
  cases es with
  | nil => rfl
  | cons e es => exact absurd hn (cons_ne_nil _ _)

theorem recordRow_fst (hcfg : Plain cfg) (hf : Uncovered f) (hk : Sees f k) (hc : c.Open) :
    (recordRow cfg f k c).1 = rowOf f k := by
  have ho : ({ c with replayLog := some [] } : GetContext V).Open := ⟨hc.searching, hc.uncovered⟩
  rw [recordRow]
  by_cases hr : rowOf f k = []
  · rw [readTable, rowLog_eq_nil hr, hr]
    rfl
  · obtain ⟨hs, hl⟩ := GetContext.scan_eq_replay hcfg ho (visible k.seq (f.entries k.key))
    rw [readTable_eq_replay hcfg hf hk ho hr, rowOf, ← hs, hl]
    rfl

theorem GetContext.forget_eq_self (hl : c.replayLog = none) : c.forget = c := by
  obtain ⟨state, operands, value, cov, log⟩ := c
  cases hl
  rfl

theorem recordRow_snd (hl : c.replayLog = none) : (recordRow cfg f k c).2 = readTable cfg f k c := by
  conv_rhs => rw [← c.forget_eq_self hl]
  exact (GetContext.scan_forget _).symm

theorem readTable_replayLog (hl : c.replayLog = none) : (readTable cfg f k c).replayLog = none := by
  rw [← recordRow_snd hl]
  rfl

end

section

open TableCache (rowCacheKey readTable recordRow)

def RowsOk (fs : Set (TableFile κ V)) (rows : RowCache κ V) : Prop :=
  ∀ f ∈ fs, ∀ cfg k log, Plain cfg → Sees f k → rows (rowCacheKey cfg f k) = some log →
    log = rowOf f k ∧ log ≠ []

structure FilesOk (fs : Set (TableFile κ V)) : Prop where
  uncovered : ∀ f ∈ fs, Uncovered f
  number_inj : ∀ f ∈ fs, ∀ g ∈ fs, f.number = g.number → f = g

structure Fresh (c : GetContext V) : Prop where
  isOpen : c.Open
  log : c.replayLog = none

variable {fs : Set (TableFile κ V)} {f : TableFile κ V} {k : LookupKey κ} {c : GetContext V} {rows : RowCache κ V}

theorem rowCacheKey_fst (cfg : LookupConfig V) (f : TableFile κ V) (k : LookupKey κ) :
    (rowCacheKey cfg f k).1 = f.number := by
  rw [rowCacheKey]
  split
  · rfl
  · split <;> rfl

theorem RowsOk.insertRow (hfs : FilesOk fs) (hrw : RowsOk fs rows) (hf : f ∈ fs) (hcfg : Plain cfg)
    (hk : Sees f k) : RowsOk fs (TableCache.insertRow (TableCache.rowCacheKey cfg f k) (rowOf f k) rows) := by
  rw [TableCache.insertRow]
  split
  · exact hrw
  next hne =>
  intro g hg cfg' k' log hcfg' hk' hl
  by_cases hky : TableCache.rowCacheKey cfg' g k' = TableCache.rowCacheKey cfg f k
  · obtain rfl : g = f := by
      apply hfs.number_inj g hg f hf
      rw [← rowCacheKey_fst cfg' g k', hky, rowCacheKey_fst]
    rw [hky, update_self] at hl
    cases hl
    refine ⟨rowOf_congr (hfs.uncovered g hg) hk hk' hcfg hcfg' hky.symm, ?_⟩
    intro hn
    exact hne (List.isEmpty_iff.mpr hn)
  · rw [update_of_ne hky] at hl
    exact hrw g hg cfg' k' log hcfg' hk' hl

theorem RowsOk.evict (hrw : RowsOk fs rows) (row : ℕ × ℕ × κ) : RowsOk fs (update rows row none) := by
  intro f hf cfg k log hcfg hk hl
  by_cases hky : rowCacheKey cfg f k = row
  · rw [hky, update_self] at hl
    exact nomatch hl
  · rw [update_of_ne hky] at hl
    exact hrw f hf cfg k log hcfg hk hl

section

variable (hfs : FilesOk fs) (hrw : RowsOk fs rows) (hf : f ∈ fs) (hcfg : Plain cfg) (hk : Sees f k) (hc : Fresh c)

include hfs hrw hf hcfg hk hc

theorem getRow_eq : TableCache.getRow cfg f k (some rows) c = readTable cfg f k c := by
  cases hr : rows (rowCacheKey cfg f k) with
  | none =>
    rw [TableCache.getRow, hr]
    exact recordRow_snd hc.log
  | some log =>
    obtain ⟨hl, hne⟩ := hrw f hf cfg k log hcfg hk hr
    rw [TableCache.getRow, hr]
    rw [hl] at hne ⊢
    exact (readTable_eq_replay hcfg (hfs.uncovered f hf) hk hc.isOpen hne).symm

theorem get_eq (need : Bool) : ∃ rows', RowsOk fs rows' ∧
      TableCache.get cfg need f k (some rows) c = (some rows', readTable cfg f k c) := by
  cases need with
  | true => exact ⟨rows, hrw, rfl⟩
  | false =>
    have hg := getRow_eq hfs hrw hf hcfg hk hc
    cases hr : rows (rowCacheKey cfg f k) with
    | some log =>
      refine ⟨rows, hrw, ?_⟩
      rw [TableCache.getRow, hr] at hg
      rw [TableCache.get, hr, ← hg]
      rfl
    | none =>
      refine ⟨_, hrw.insertRow hfs hf hcfg hk, ?_⟩
      rw [TableCache.get, hr, ← recordRow_fst hcfg (hfs.uncovered f hf) hk hc.isOpen, ← recordRow_snd hc.log]
      rfl

end

theorem Fresh.readTable (hc : Fresh c) (hs : Version.searching (TableCache.readTable cfg f k c))
    (hu : ¬ 0 < (TableCache.readTable cfg f k c).maxCoveringTombstoneSeq) :
    Fresh (TableCache.readTable cfg f k c) :=
  ⟨⟨hs, Nat.eq_zero_of_not_pos hu⟩, readTable_replayLog hc.log⟩

theorem getLoop_eq (hfs : FilesOk fs) (hcfg : Plain cfg) (need : Bool) {files : List (TableFile κ V)}
    (hfl : ∀ f ∈ files, f ∈ fs ∧ Sees f k) (hrw : RowsOk fs rows) (hs : Version.searching c)
    (hl : c.replayLog = none) : ∃ rows', RowsOk fs rows' ∧ Version.getLoop cfg need k files (some rows) c =
        (some rows', (Version.getLoop cfg need k files none c).2) := by
  induction files generalizing rows c with
  | nil => exact ⟨rows, hrw, rfl⟩
  | cons f files ih =>
    obtain ⟨hf, hk⟩ := hfl f mem_cons_self
    rw [Version.getLoop, Version.getLoop]
    by_cases hcv : 0 < c.maxCoveringTombstoneSeq
    · rw [if_pos hcv, if_pos hcv]
      exact ⟨rows, hrw, rfl⟩
    obtain ⟨rows', hrw', hget⟩ := get_eq hfs hrw hf hcfg hk ⟨⟨hs, Nat.eq_zero_of_not_pos hcv⟩, hl⟩ need
    rw [if_neg hcv, if_neg hcv, hget]
    dsimp only [TableCache.get]
    split
    · next hgo => exact ih (fun g hg => hfl g (mem_cons_of_mem f hg)) hrw' hgo (readTable_replayLog hl)
    · exact ⟨rows', hrw', rfl⟩

def KeysOk (fs : Set (TableFile κ V)) (files : List (TableFile κ V × (κ → Bool))) (keys : List (KeyContext κ V)) :
    Prop :=
  ∀ k ∈ keys, k.done = false → Fresh k.context ∧ ∀ f ∈ files, f.1 ∈ fs ∧ Sees f.1 k.key

theorem RowsOk.insertRows (hfs : FilesOk fs) (hf : f ∈ fs) (hcfg : Plain cfg) {keys : List (KeyContext κ V)}
    (hky : ∀ k ∈ keys, Fresh k.context ∧ Sees f k.key) (hrw : RowsOk fs rows) :
    RowsOk fs (keys.foldl (fun cache k => TableCache.insertRow (rowCacheKey cfg f k.key)
      (recordRow cfg f k.key k.context).1 cache) rows) := by
  induction keys generalizing rows with
  | nil => exact hrw
  | cons k keys ih =>
    obtain ⟨hc, hk⟩ := hky k mem_cons_self
    apply ih fun k' hk' => hky k' (mem_cons_of_mem k hk')
    dsimp only
    rw [recordRow_fst hcfg (hfs.uncovered f hf) hk hc.isOpen]
    exact hrw.insertRow hfs hf hcfg hk

theorem multiGetLoop_eq (hfs : FilesOk fs) (hcfg : Plain cfg) {files : List (TableFile κ V × (κ → Bool))}
    {keys : List (KeyContext κ V)} (hky : KeysOk fs files keys) (hrw : RowsOk fs rows) :
    ∃ rows', RowsOk fs rows' ∧ Version.multiGetLoop cfg files (some rows) keys =
      (some rows', (Version.multiGetLoop cfg files none keys).2) := by
  induction files generalizing rows keys with
  | nil => exact ⟨rows, hrw, rfl⟩
  | cons file files ih =>
    obtain ⟨f, inRange⟩ := file
    let inFile (k : KeyContext κ V) : Bool := !k.done && inRange k.key.key
    have hin (k) (hk : k ∈ keys) (hki : inFile k = true) : Fresh k.context ∧ f ∈ fs ∧ Sees f k.key := by
      obtain ⟨hc, hss⟩ := hky k hk (by simpa using (Bool.and_eq_true_iff.mp hki).1)
      exact ⟨hc, hss _ mem_cons_self⟩
    have hm : (TableCache.multiGet cfg f inFile keys (some rows)).2 =
        (TableCache.multiGet cfg f inFile keys none).2 := by
      apply map_congr_left
      intro k hk
      by_cases hki : inFile k = true
      · obtain ⟨hc, hf, hss⟩ := hin k hk hki
        rw [if_pos hki, if_pos hki, getRow_eq hfs hrw hf hcfg hss hc]
        rfl
      · rw [if_neg hki, if_neg hki]
    have hcc : ∃ rows', RowsOk fs rows' ∧ (TableCache.multiGet cfg f inFile keys (some rows)).1 = some rows' := by
      by_cases hf : f ∈ fs
      · refine ⟨_, RowsOk.insertRows hfs hf hcfg ?_ hrw, rfl⟩
        intro k hk
        obtain ⟨hmm, hki⟩ := mem_filter.mp hk
        obtain ⟨hc, -, hss⟩ := hin k hmm (Bool.and_eq_true_iff.mp hki).1
        exact ⟨hc, hss⟩
      · refine ⟨rows, hrw, ?_⟩
        have hn : (keys.filter fun k => inFile k && (rows (rowCacheKey cfg f k.key)).isNone) = [] := by
          rw [filter_eq_nil_iff]
          intro k hk hki
          exact hf (hin k hk (Bool.and_eq_true_iff.mp hki).1).2.1
        simp [TableCache.multiGet, hn]
    obtain ⟨rows', hrw', hcc⟩ := hcc
    rw [Version.multiGetLoop, Version.multiGetLoop]
    change ∃ rows'', RowsOk fs rows'' ∧ Version.multiGetLoop cfg files
      (TableCache.multiGet cfg f inFile keys (some rows)).1
      ((TableCache.multiGet cfg f inFile keys (some rows)).2.map fun k => if inFile k then Version.settle k else k) =
      (some rows'', (Version.multiGetLoop cfg files none
        ((TableCache.multiGet cfg f inFile keys none).2.map fun k => if inFile k then Version.settle k else k)).2)
    rw [hcc, hm]
    apply ih _ hrw'
    intro k' hk' hd
    obtain ⟨k1, hk1, rfl⟩ := mem_map.mp hk'
    obtain ⟨k, hk, rfl⟩ := mem_map.mp hk1
    by_cases hki : inFile k = true
    · -- a key of the file goes on when its search does
      obtain ⟨hc, hf, hss⟩ := hin k hk hki
      have hfl := (hky k hk (by simpa using (Bool.and_eq_true_iff.mp hki).1)).2
      rw [if_pos hki] at hd ⊢
      rw [if_pos (show inFile { k with context := _ } = true from hki)] at hd ⊢
      obtain ⟨hs, hu⟩ := Bool.or_eq_false_iff.mp hd
      refine ⟨hc.readTable ((Bool.not_eq_false' _).mp hs) (of_decide_eq_false hu), ?_⟩
      exact fun g hg => hfl g (mem_cons_of_mem _ hg)
    · rw [if_neg hki, if_neg hki] at hd ⊢
      obtain ⟨hc, hfl⟩ := hky k hk hd
      exact ⟨hc, fun g hg => hfl g (mem_cons_of_mem _ hg)⟩

def LookupCall.Ok (fs : Set (TableFile κ V)) : LookupCall κ V → Prop
  | .get cfg _ files k c =>
    Plain cfg ∧ (∀ f ∈ files, f ∈ fs ∧ Sees f k) ∧ Version.searching c = true ∧ c.replayLog = none
  | .multiGet cfg files keys => Plain cfg ∧ KeysOk fs files keys
  | .evict _ => True

theorem LookupCall.answer_eq (hfs : FilesOk fs) {call : LookupCall κ V} (hcl : call.Ok fs) (hrw : RowsOk fs rows) :
    ∃ rows', RowsOk fs rows' ∧ call.answer (some rows) = (some rows', (call.answer none).2) := by
  cases call with
  | get cfg need files k c =>
    obtain ⟨hcfg, hfl, hs, hl⟩ := hcl
    obtain ⟨rows', hrw', heq⟩ := getLoop_eq hfs hcfg need hfl hrw hs hl
    refine ⟨rows', hrw', ?_⟩
    rw [answer, heq]
    rfl
  | multiGet cfg files keys =>
    obtain ⟨hcfg, hky⟩ := hcl
    obtain ⟨rows', hrw', heq⟩ := multiGetLoop_eq hfs hcfg hky hrw
    refine ⟨rows', hrw', ?_⟩
    rw [answer, heq]
    rfl
  | evict row => exact ⟨_, hrw.evict row, rfl⟩

theorem getLoop_none (need : Bool) (files : List (TableFile κ V)) :
    (Version.getLoop cfg need k files none c).1 = none := by
  induction files generalizing c with
  | nil => rfl
  | cons f files ih =>
    rw [Version.getLoop]
    split
    · rfl
    dsimp only [TableCache.get]
    split
    · exact ih
    · rfl

theorem multiGetLoop_none (files : List (TableFile κ V × (κ → Bool))) (keys : List (KeyContext κ V)) :
    (Version.multiGetLoop cfg files none keys).1 = none := by
  induction files generalizing keys with
  | nil => rfl
  | cons file files ih => exact ih _

theorem LookupCall.answer_none (call : LookupCall κ V) : (call.answer none).1 = none := by
  cases call with
  | get cfg need files k c => exact getLoop_none need files
  | multiGet cfg files keys => exact multiGetLoop_none files keys
  | evict row => rfl

theorem LookupCall.answers_eq (hfs : FilesOk fs) {calls : List (LookupCall κ V)} (hcl : ∀ call ∈ calls, call.Ok fs)
    (hrw : RowsOk fs rows) : answers (some rows) calls = answers none calls := by
  induction calls generalizing rows with
  | nil => rfl
  | cons call calls ih =>
    obtain ⟨rows', hrw', heq⟩ := call.answer_eq hfs (hcl call mem_cons_self) hrw
    rw [answers, answers, heq, answer_none]
    exact congrArg (List.cons _) (ih (fun c hc => hcl c (mem_cons_of_mem call hc)) hrw')

theorem LookupCall.answers_without_row_cache (hfs : FilesOk fs) (calls : List (LookupCall κ V))
    (hcalls : ∀ call ∈ calls, call.Ok fs) : answers (some fun _ => none) calls = answers none calls := by
  apply answers_eq hfs hcalls
  intro f hf cfg k log hcfg hk hl
  exact nomatch hl

end

def plainLookup : LookupConfig ℕ :=
  ⟨fun base vs => some (base.getD 0 + vs.sum), fun _ => false, none, true⟩

def startContext : GetContext ℕ := ⟨.notFound, [], none, 0, none⟩

def oneKeyFile (tombstones : List (RangeTombstone ℕ)) : TableFile ℕ ℕ :=
  ⟨7, 8, fun k => if k = 1 then [⟨5, .value, 10⟩] else [], tombstones⟩

theorem LookupCall.answers_without_row_cache_twice :
    answers (some fun _ => none) (replicate 2 (.get plainLookup false [oneKeyFile []] ⟨1, 9, none⟩ startContext)) =
      [[.value (some 10)], [.value (some 10)]] := by
  refine (answers_without_row_cache (?_ : FilesOk {oneKeyFile []}) _ ?_).trans (by decide)
  · refine ⟨?_, ?_⟩
    · rintro f rfl
      refine ⟨?_, fun _ _ => rfl⟩
      intro k e he
      by_cases hk : k = 1
      · simp_all [oneKeyFile]
      · simp_all [oneKeyFile]
    · rintro f rfl g rfl -
      rfl
  · intro call hcl
    rw [eq_of_mem_replicate hcl]
    refine ⟨⟨rfl, fun _ => rfl⟩, ?_, rfl, rfl⟩
    intro f hf
    rw [mem_singleton.mp hf]
    exact ⟨rfl, show 8 ≤ 9 by decide⟩

theorem LookupCall.row_cache_revives_deleted_key : answers (some fun _ => none)
        (replicate 2 (.get plainLookup false [oneKeyFile [⟨0, 3, 8, by decide, by decide⟩]] ⟨1, 9, none⟩ startContext)) =
      [[.notFound], [.value (some 10)]] ∧
    answers none (replicate 2 (.get plainLookup false [oneKeyFile [⟨0, 3, 8, by decide, by decide⟩]] ⟨1, 9, none⟩ startContext)) =
      [[.notFound], [.notFound]] := by
  decide

end ZenFSPlus.Db
