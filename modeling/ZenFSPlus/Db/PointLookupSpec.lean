import Mathlib.Order.MinMax
import ZenFSPlus.Db.MemTableLookup

namespace ZenFSPlus.Db

open List GetContext Version

section

variable {V : Type} (cfg : LookupConfig V)

def conclude (base : Option V) (operands : List V) : LookupResult V :=
  if operands.isEmpty then base.elim .notFound fun v => .value (some v)
  else (cfg.fullMerge base operands).elim .corruption fun v => .value (some v)

/-- The operands up to the first entry that is not one or is below a tombstone. -/
def collect (covered : ℕ → Bool) : List V → List (Entry V) → LookupResult V ⊕ List V
  | operands, [] => .inr operands
  | operands, e :: es =>
    if covered e.seq ∨ e.type = .deletion ∨ e.type = .singleDeletion then .inl (conclude cfg none operands)
    else if e.type = .value then .inl (conclude cfg (some e.value) operands)
    else collect covered (operands ++ [e.value]) es

def finish : LookupResult V ⊕ List V → LookupResult V
  | .inl r => r
  | .inr operands => conclude cfg none operands

def below (tombstones : List ℕ) (seq : ℕ) : Bool := tombstones.any fun t => seq < t

/-- What is read of a key with these entries, from the newest on, and these tombstones. -/
def readHistory (tombstones : List ℕ) (es : List (Entry V)) : LookupResult V :=
  finish cfg (collect cfg (below tombstones) [] es)

variable {cfg} {covered covered' : ℕ → Bool} {ops : List V} {es es' : List (Entry V)}

theorem finish_collect_append (es : List (Entry V)) : finish cfg (collect cfg covered ops (es ++ es')) =
    (collect cfg covered ops es).elim id fun ops => finish cfg (collect cfg covered ops es') := by
  induction es generalizing ops with
  | nil => rfl
  | cons e es ih =>
    rw [cons_append, collect, collect]
    split
    · rfl
    · split
      · rfl
      · exact ih

theorem collect_congr (h : ∀ e ∈ es, covered e.seq = covered' e.seq) :
    collect cfg covered ops es = collect cfg covered' ops es := by
  induction es generalizing ops with
  | nil => rfl
  | cons e es ih =>
    rw [collect, collect, h e mem_cons_self, ih fun x hx => h x (mem_cons_of_mem e hx)]

theorem finish_collect_covered (h : ∀ e ∈ es, covered e.seq = true) :
    finish cfg (collect cfg covered ops es) = conclude cfg none ops := by
  cases es with
  | nil => rfl
  | cons e es =>
    rw [collect, if_pos (Or.inl (h e mem_cons_self))]
    rfl

theorem foldl_max_lt {ts : List ℕ} {m seq : ℕ} : seq < ts.foldl max m ↔ seq < m ∨ ∃ t ∈ ts, seq < t := by
  induction ts generalizing m with
  | nil => simp
  | cons t ts ih =>
    rw [foldl_cons, ih, lt_max_iff]
    simp [or_assoc]

theorem below_append {newer older : List ℕ} {seq : ℕ} (h : ∀ t ∈ older, t ≤ seq) :
    below (newer ++ older) seq = decide (seq < newer.foldl max 0) := by
  have holder : below older seq = false := by
    rw [below, any_eq_false]
    intro t ht
    simpa using h t ht
  rw [below, any_append, ← below, ← below, holder, Bool.or_false, Bool.eq_iff_iff, decide_eq_true_eq,
    foldl_max_lt, below, any_eq_true]
  simp

end

section

variable {V : Type} {cfg : LookupConfig V} {ops : List V} (hmerge : cfg.doMerge = true)

include hmerge

structure Saver.Collects (s : Saver V) (operands : List V) : Prop where
  eq : s.operands = operands
  found : s.foundFinalValue = false
  merging : s.mergeInProgress = !operands.isEmpty
  status : operands.isEmpty = true → s.status = .ok

def Saver.Agrees (cfg : LookupConfig V) (covering : ℕ) (s : Saver V) : LookupResult V ⊕ List V → Prop
  | .inl r => s.foundFinalValue = true ∧ s.result cfg = r
  | .inr operands => s.Collects operands ∧ s.maxCoveringTombstoneSeq = covering

variable {s : Saver V}

theorem Saver.fullMerge_agrees (base : Option V) (hs : s.Collects ops) (hne : ops.isEmpty = false) (cov : ℕ) :
    Saver.Agrees cfg cov { s.fullMerge cfg base with foundFinalValue := true } (.inl (conclude cfg base ops)) := by
  refine ⟨rfl, ?_⟩
  rw [conclude, hne, ← hs.eq]
  unfold Saver.fullMerge
  cases cfg.fullMerge base s.operands with
  | none => rfl
  | some v => simp [Saver.result, hmerge]

theorem Saver.saveDeletion_agrees (hs : s.Collects ops)
    (cov : ℕ) : Saver.Agrees cfg cov (s.saveDeletion cfg) (.inl (conclude cfg none ops)) := by
  rw [Saver.saveDeletion, hs.merging, hmerge]
  cases he : ops.isEmpty with
  | true =>
    refine ⟨rfl, ?_⟩
    rw [conclude, he]
    rfl
  | false => exact Saver.fullMerge_agrees hmerge none hs he cov

theorem Saver.savePut_agrees (hs : s.Collects ops) (v : V)
    (cov : ℕ) : Saver.Agrees cfg cov (s.savePut cfg v) (.inl (conclude cfg (some v) ops)) := by
  rw [Saver.savePut, hs.merging, hmerge]
  cases he : ops.isEmpty with
  | true =>
    refine ⟨rfl, ?_⟩
    rw [conclude, he]
    simp [Saver.result, hmerge]
  | false => exact Saver.fullMerge_agrees hmerge (some v) hs he cov

theorem Saver.scan_agrees (hcf : Plain cfg) (es : List (Entry V))
    (hs : s.Collects ops) : Saver.Agrees cfg s.maxCoveringTombstoneSeq (s.scan cfg es)
      (collect cfg (fun seq => seq < s.maxCoveringTombstoneSeq) ops es) := by
  induction es generalizing s ops with
  | nil => exact ⟨hs, rfl⟩
  | cons e es ih =>
    rw [Saver.scan, Saver.saveValue, collect, hcf.visible, Bool.not_true]
    obtain ⟨seq, type, v⟩ := e
    by_cases hc : seq < s.maxCoveringTombstoneSeq
    · cases type <;> simp only [hc, decide_true, true_or, and_self, or_true, reduceCtorEq, or_self, false_and,
        Bool.false_eq_true, if_true, if_false] <;> exact Saver.saveDeletion_agrees hmerge hs _
    cases type <;> simp [hc, hcf.shouldMerge]
    · exact Saver.savePut_agrees hmerge hs v _
    · exact Saver.saveDeletion_agrees hmerge hs _
    · exact Saver.saveDeletion_agrees hmerge hs _
    · exact ih (s := { s with mergeInProgress := true, operands := s.operands ++ [v] })
        ⟨by rw [hs.eq], hs.found, by simp, by simp⟩

structure GetContext.Collects (c : GetContext V) (operands : List V) : Prop where
  eq : c.operands = operands
  state : c.state = if operands.isEmpty then .notFound else .merge

def GetContext.Agrees (cfg : LookupConfig V) (covering : ℕ) (c : GetContext V) : LookupResult V ⊕ List V → Prop
  | .inl r => searching c = false ∧ result cfg c = r
  | .inr operands => c.Collects operands ∧ c.maxCoveringTombstoneSeq = covering

variable {c : GetContext V}

theorem GetContext.merge_agrees (base : Option V) (ho : c.operands = ops) (hne : ops.isEmpty = false) (cov : ℕ) :
    GetContext.Agrees cfg cov (c.merge cfg base) (.inl (conclude cfg base ops)) := by
  rw [conclude, hne, ← ho]
  unfold merge
  rw [if_pos hmerge]
  cases cfg.fullMerge base c.operands with
  | none => exact ⟨rfl, rfl⟩
  | some v => simp [GetContext.Agrees, searching, result, hmerge]

theorem GetContext.saveDeletion_agrees (hc : c.Collects ops)
    (cov : ℕ) : GetContext.Agrees cfg cov (c.saveDeletion cfg) (.inl (conclude cfg none ops)) := by
  rw [saveDeletion, hc.state]
  cases he : ops.isEmpty with
  | true =>
    rw [conclude, he]
    exact ⟨rfl, rfl⟩
  | false => exact merge_agrees hmerge none hc.eq he cov

theorem GetContext.savePut_agrees (hc : c.Collects ops) (v : V)
    (cov : ℕ) : GetContext.Agrees cfg cov (c.savePut cfg v) (.inl (conclude cfg (some v) ops)) := by
  rw [savePut, hc.state, hmerge]
  cases he : ops.isEmpty with
  | true =>
    rw [conclude, he]
    simp [GetContext.Agrees, searching, result, hmerge]
  | false => exact merge_agrees hmerge (some v) hc.eq he cov

theorem GetContext.scan_agrees (hcf : Plain cfg) (es : List (Entry V))
    (hc : c.Collects ops) : GetContext.Agrees cfg c.maxCoveringTombstoneSeq (c.scan cfg es)
      (collect cfg (fun seq => seq < c.maxCoveringTombstoneSeq) ops es) := by
  induction es generalizing c ops with
  | nil => exact ⟨hc, rfl⟩
  | cons e es ih =>
    rw [scan, saveValue, collect, hcf.visible, Bool.not_true]
    obtain ⟨seq, type, v⟩ := e
    have hl (log) : GetContext.Collects { c with replayLog := log } ops := ⟨hc.eq, hc.state⟩
    by_cases hcv : seq < c.maxCoveringTombstoneSeq
    · cases type <;> simp only [hcv, decide_true, true_or, and_self, or_true, reduceCtorEq, or_self, false_and,
        Bool.false_eq_true, if_true, if_false] <;> exact saveDeletion_agrees hmerge (hl _) _
    cases type <;> simp [hcv, hcf.shouldMerge]
    · exact savePut_agrees hmerge (hl _) v _
    · exact saveDeletion_agrees hmerge (hl _) _
    · exact saveDeletion_agrees hmerge (hl _) _
    · refine ih (c := push v { c with state := .merge, replayLog := _ }) ⟨?_, ?_⟩
      · exact congrArg (· ++ [v]) hc.eq
      · simp [push]

theorem Version.result_collects (hc : c.Collects ops) : result cfg c = conclude cfg none ops := by
  rw [result, hc.state, conclude, hc.eq, hmerge]
  cases he : ops.isEmpty with
  | true => rfl
  | false => cases cfg.fullMerge none ops <;> simp

end

section

variable {κ V : Type} [LinearOrder κ] {cfg : LookupConfig V}

structure KeySource (V : Type) where
  entries : List (Entry V)
  tombstones : List ℕ

def MemTableData.source (k : κ) (snapshot : ℕ) (m : MemTableData κ V) : KeySource V :=
  ⟨visible snapshot (m.entries k), coveringSeqs m.tombstones k snapshot⟩

def TableFile.source (k : κ) (snapshot : ℕ) (f : TableFile κ V) : KeySource V :=
  ⟨visible snapshot (f.entries k), coveringSeqs f.tombstones k snapshot⟩

def lookupSources (k : κ) (snapshot : ℕ) (memtables : List (MemTableData κ V)) (files : List (TableFile κ V)) :
    List (KeySource V) :=
  memtables.map (MemTableData.source k snapshot) ++ files.map (TableFile.source k snapshot)

/-- In an older source the entries are below all entries and tombstones of a newer one, and the tombstones are not
above its entries. -/
def Layered (sources : List (KeySource V)) : Prop :=
  sources.Pairwise fun newer older =>
    (∀ e ∈ older.entries, (∀ e' ∈ newer.entries, e.seq < e'.seq) ∧ ∀ t ∈ newer.tombstones, e.seq < t) ∧
      ∀ t ∈ older.tombstones, ∀ e ∈ newer.entries, t ≤ e.seq

def allEntries (sources : List (KeySource V)) : List (Entry V) := sources.flatMap KeySource.entries

def allTombstones (sources : List (KeySource V)) : List ℕ := sources.flatMap KeySource.tombstones

def rest (cfg : LookupConfig V) (newer : List ℕ) (operands : List V) (sources : List (KeySource V)) : LookupResult V :=
  finish cfg (collect cfg (below (newer ++ allTombstones sources)) operands (allEntries sources))

variable {source : KeySource V} {srcs : List (KeySource V)} {newer : List ℕ} {ops : List V}

theorem rest_cons (hl : Layered (source :: srcs)) : rest cfg newer ops (source :: srcs) =
      (collect cfg (fun seq => seq < (newer ++ source.tombstones).foldl max 0) ops source.entries).elim id
        fun ops => rest cfg (newer ++ source.tombstones) ops srcs := by
  have ha : newer ++ allTombstones (source :: srcs) = (newer ++ source.tombstones) ++ allTombstones srcs := by
    rw [allTombstones, flatMap_cons, append_assoc]
    rfl
  rw [rest, allEntries, flatMap_cons, finish_collect_append, ha]
  congr 1
  apply collect_congr
  intro e he
  apply below_append
  intro t ht
  obtain ⟨older, holder, ht⟩ := mem_flatMap.mp ht
  exact ((pairwise_cons.mp hl).1 older holder).2 t ht e he

def Above (newer : List ℕ) (sources : List (KeySource V)) : Prop :=
  ∀ e ∈ allEntries sources, ∀ t ∈ newer, e.seq < t

theorem Above.tail (h : Above newer (source :: srcs)) (hl : Layered (source :: srcs)) :
    Above (newer ++ source.tombstones) srcs := by
  intro e he t ht
  obtain ⟨older, holder, hm⟩ := mem_flatMap.mp he
  rcases mem_append.mp ht with ht | ht
  · exact h e (mem_append_right _ he) t ht
  · exact (((pairwise_cons.mp hl).1 older holder).1 e hm).2 t ht

theorem rest_covered (h : Above newer srcs) (hp : 0 < newer.foldl max 0) :
    rest cfg newer ops srcs = conclude cfg none ops := by
  obtain hz | ⟨t, ht, -⟩ := foldl_max_lt.mp hp
  · exact absurd hz (Nat.lt_irrefl 0)
  apply finish_collect_covered
  intro e he
  rw [below, any_eq_true]
  exact ⟨t, mem_append_left _ ht, decide_eq_true (h e he t ht)⟩

theorem foldl_max_append (newer ts : List ℕ) : (newer ++ ts).foldl max 0 = max (newer.foldl max 0) (ts.foldl max 0) := by
  apply eq_of_forall_lt_iff
  intro seq
  rw [lt_max_iff, foldl_max_lt, foldl_max_lt, foldl_max_lt]
  simp [or_and_right, exists_or]

variable {k : κ} {snap : ℕ}

theorem getLoop_eq_rest (hcf : Plain cfg) (hmerge : cfg.doMerge = true) {files : List (TableFile κ V)}
    {c : GetContext V} (hc : c.Collects ops) (hcv : c.maxCoveringTombstoneSeq = newer.foldl max 0)
    (ha : Above newer (files.map (TableFile.source k snap)))
    (hl : Layered (files.map (TableFile.source k snap))) :
    result cfg (getLoop cfg false ⟨k, snap, some snap⟩ files none c).2 =
      rest cfg newer ops (files.map (TableFile.source k snap)) := by
  induction files generalizing c ops newer with
  | nil => exact result_collects hmerge hc
  | cons f files ih =>
    rw [getLoop]
    by_cases hp : 0 < c.maxCoveringTombstoneSeq
    · rw [if_pos hp, rest_covered ha (hcv ▸ hp)]
      exact result_collects hmerge hc
    rw [if_neg hp, map_cons, rest_cons hl]
    have hsc := scan_agrees hmerge hcf (f.source k snap).entries
      (c := { c with maxCoveringTombstoneSeq := (newer ++ (f.source k snap).tombstones).foldl max 0 }) ⟨hc.eq, hc.state⟩
    have hr : TableCache.readTable cfg f ⟨k, snap, some snap⟩ c = scan cfg (f.source k snap).entries
          { c with maxCoveringTombstoneSeq := (newer ++ (f.source k snap).tombstones).foldl max 0 } := by
      rw [TableCache.readTable, hcv, foldl_max_append]
      rfl
    dsimp only [TableCache.get]
    rw [hr]
    generalize scan cfg _ _ = c' at hsc
    generalize collect cfg _ ops (f.source k snap).entries = found at hsc ⊢
    cases found with
    | inl r =>
      rw [hsc.1]
      exact hsc.2
    | inr operands' =>
      have hs : searching c' = true := by
        rw [searching, hsc.1.state]
        cases operands'.isEmpty <;> rfl
      rw [hs]
      exact ih hsc.1 hsc.2 (ha.tail hl) (pairwise_cons.mp hl).2

structure Saver.Waits (s : Saver V) (operands : List V) : Prop where
  eq : s.operands = operands
  status : s.status = if operands.isEmpty then .ok else .mergeInProgress

def Saver.Leaves (cfg : LookupConfig V) (covering : ℕ) (s : Saver V) : LookupResult V ⊕ List V → Prop
  | .inl r => s.foundFinalValue = true ∧ s.result cfg = r
  | .inr operands => s.foundFinalValue = false ∧ s.Waits operands ∧ s.maxCoveringTombstoneSeq = covering

theorem MemTableData.get_leaves (hcf : Plain cfg) (hmerge : cfg.doMerge = true) (m : MemTableData κ V) (k : κ)
    (snap : ℕ) {s : Saver V} (hs : s.Waits ops) {cov : ℕ}
    (hcv : max s.maxCoveringTombstoneSeq ((m.source k snap).tombstones.foldl max 0) = cov) :
    Saver.Leaves cfg cov (m.get cfg ⟨k, snap, some snap⟩ s)
      (collect cfg (fun seq => seq < cov) ops (m.source k snap).entries) := by
  let start : Saver V := ⟨s.status, s.value, s.operands, cov, false, decide (s.status = .mergeInProgress)⟩
  have hst : start.Collects ops := by
    refine ⟨hs.eq, rfl, ?_, ?_⟩
    · change decide (s.status = .mergeInProgress) = _
      rw [hs.status]
      cases ops.isEmpty <;> rfl
    · intro he
      change s.status = _
      rw [hs.status, he]
      rfl
  have hsc : Saver.Agrees cfg cov _ _ := Saver.scan_agrees hmerge hcf (m.source k snap).entries hst
  have hg : m.get cfg ⟨k, snap, some snap⟩ s =
      let s' := start.scan cfg (m.source k snap).entries
      if !s'.foundFinalValue && s'.mergeInProgress then { s' with status := .mergeInProgress } else s' := by
    subst hcv
    rfl
  rw [hg]
  generalize start.scan cfg (m.source k snap).entries = s' at hsc
  change Saver.Agrees cfg cov s' (collect cfg (fun seq => seq < cov) ops _) at hsc
  generalize collect cfg _ ops (m.source k snap).entries = found at hsc ⊢
  dsimp only
  cases found with
  | inl r =>
    rw [hsc.1]
    exact hsc
  | inr operands' =>
    obtain ⟨hc, hm⟩ := hsc
    rw [hc.found, hc.merging]
    cases he : operands'.isEmpty with
    | true => exact ⟨hc.found, ⟨hc.eq, by rw [he]; exact hc.status he⟩, hm⟩
    | false => exact ⟨rfl, ⟨hc.eq, by rw [he]; rfl⟩, hm⟩

theorem memtables_eq_rest (hcf : Plain cfg) (hmerge : cfg.doMerge = true) {mts : List (MemTableData κ V)}
    {files : List (TableFile κ V)} {s : Saver V} (hs : s.Waits ops)
    (hc : s.maxCoveringTombstoneSeq = newer.foldl max 0)
    (ha : Above newer (lookupSources k snap mts files))
    (hl : Layered (lookupSources k snap mts files)) :
    (match MemTableListVersion.get cfg ⟨k, snap, some snap⟩ mts s with
      | (true, s) => s.result cfg
      | (false, s) => result cfg (getLoop cfg false ⟨k, snap, some snap⟩ files none s.getContext).2) =
      rest cfg newer ops (lookupSources k snap mts files) := by
  induction mts generalizing s ops newer with
  | nil =>
    refine getLoop_eq_rest hcf hmerge ⟨hs.eq, ?_⟩ hc ha hl
    rw [Saver.getContext, hs.status]
    cases ops.isEmpty <;> rfl
  | cons m mts ih =>
    have hg := m.get_leaves hcf hmerge k snap hs (by rw [hc, ← foldl_max_append])
    rw [lookupSources, map_cons, cons_append] at ha hl ⊢
    rw [MemTableListVersion.get, rest_cons hl]
    generalize m.get cfg ⟨k, snap, some snap⟩ s = s' at hg
    generalize collect cfg _ ops (m.source k snap).entries = found at hg ⊢
    cases found with
    | inl r =>
      rw [hg.1]
      exact hg.2
    | inr operands' =>
      obtain ⟨hf, hw, hm⟩ := hg
      have hst : s'.status ≠ .corruption := by
        rw [hw.status]
        split <;> exact nofun
      rw [hf, if_neg Bool.false_ne_true, if_neg hst]
      exact ih hw hm (ha.tail hl) (pairwise_cons.mp hl).2

theorem allEntries_sorted (hl : Layered srcs)
    (hs : ∀ source ∈ srcs, source.entries.Pairwise fun e e' => e'.seq < e.seq) :
    (allEntries srcs).Pairwise fun e e' => e'.seq < e.seq := by
  rw [allEntries, pairwise_flatMap]
  exact ⟨hs, hl.imp fun h e he e' he' => (h.1 e' he').1 e he⟩

/-- The lookup of a key in memtables and table files reads its history, whatever the sources are. -/
theorem lookup_eq_readHistory (hcfg : Plain cfg) (hmerge : cfg.doMerge = true) (memtables : List (MemTableData κ V))
    (files : List (TableFile κ V)) (k : κ) (snap : ℕ) (hlayered : Layered (lookupSources k snap memtables files))
    (hsorted : ∀ source ∈ lookupSources k snap memtables files, source.entries.Pairwise fun e e' => e'.seq < e.seq)
    {es : List (Entry V)} (hperm : es.Perm (allEntries (lookupSources k snap memtables files)))
    (hes : es.Pairwise fun e e' => e'.seq < e.seq) :
    lookup cfg memtables files ⟨k, snap, some snap⟩ =
      readHistory cfg (allTombstones (lookupSources k snap memtables files)) es := by
  have heq : es = allEntries (lookupSources k snap memtables files) :=
    hperm.eq_of_pairwise (fun a b _ _ hab hba => absurd hab (Nat.lt_asymm hba)) hes (allEntries_sorted hlayered hsorted)
  have hn : Above [] (lookupSources k snap memtables files) := fun _ _ _ ht => absurd ht not_mem_nil
  rw [heq]
  exact memtables_eq_rest hcfg hmerge ⟨rfl, rfl⟩ rfl hn hlayered

end

def oneKeyMemTable (e : Entry ℕ) : MemTableData ℕ ℕ := ⟨fun k => if k = 1 then [e] else [], []⟩

theorem lookup_eq_readHistory_merged :
    lookup plainLookup [oneKeyMemTable ⟨8, .merge, 3⟩] [oneKeyFile []] ⟨1, 9, some 9⟩ = .value (some 13) := by
  refine (lookup_eq_readHistory ⟨rfl, fun _ => rfl⟩ rfl [oneKeyMemTable ⟨8, .merge, 3⟩] [oneKeyFile []] 1 9 ?_ ?_
    (Perm.refl _) ?_).trans (by decide)
  · unfold Layered
    decide
  · decide
  · decide

theorem lookup_misses_older_tombstone :
    [(oneKeyMemTable ⟨6, .value, 3⟩).source 1 9, (oneKeyFile [⟨0, 3, 8, by decide, by decide⟩]).source 1 9].Pairwise
        (fun newer older => ∀ e ∈ older.entries,
          (∀ e' ∈ newer.entries, e.seq < e'.seq) ∧ ∀ t ∈ newer.tombstones, e.seq < t) ∧
      lookup plainLookup [oneKeyMemTable ⟨6, .value, 3⟩] [oneKeyFile [⟨0, 3, 8, by decide, by decide⟩]] ⟨1, 9, some 9⟩ =
        .value (some 3) ∧
      readHistory plainLookup [8] [⟨6, .value, 3⟩, ⟨5, .value, 10⟩] = .notFound := by
  decide

end ZenFSPlus.Db
