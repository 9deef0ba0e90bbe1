import Mathlib.Data.List.Induction
import ZenFSPlus.Table.HashIndexBuilder

namespace ZenFSPlus.Table

open ZenFSPlus.Db ZenFSPlus.Util List Function

variable {h : HashIndexOptions}

namespace HashIndexBuilder

def pending (x : HashIndexBuilder) : PrefixRecord :=
  ⟨x.pendingEntryPrefix, x.pendingEntryIndex, x.pendingBlockNum⟩

structure Records (records : List PrefixRecord) (seen : List (List Byte × ℕ)) (last : ℕ) : Prop where
  pos : ∀ r ∈ records, 0 < r.numBlocks
  ordered : records.Pairwise fun a b => a.startBlock + a.numBlocks ≤ b.startBlock + 1
  bounded : ∀ r ∈ records, r.startBlock + r.numBlocks ≤ last + 1
  covers : ∀ s ∈ seen, ∃ r ∈ records, r.pfx = s.1 ∧ r.startBlock ≤ s.2 ∧ s.2 < r.startBlock + r.numBlocks

structure Written (x : HashIndexBuilder) (records : List PrefixRecord) : Prop where
  prefixes : x.prefixBlock = records.flatMap PrefixRecord.pfx
  triples : x.prefixMetaBlock = records.map fun r => (r.pfx.length, r.startBlock, r.numBlocks)

structure Tracks (x : HashIndexBuilder) (records : List PrefixRecord) (seen : List (List Byte × ℕ)) : Prop where
  written : Written x records
  start : x.pendingBlockNum = 0 → records = [] ∧ seen = []
  records : x.pendingBlockNum ≠ 0 → Records (records ++ [x.pending]) seen x.currentRestartIndex
  reaches : x.pendingBlockNum ≠ 0 → x.currentRestartIndex ≤ x.pendingEntryIndex + x.pendingBlockNum

variable {x : HashIndexBuilder} {records : List PrefixRecord}

theorem Written.flush (hw : Written x records) : Written x.flushPendingPrefix (records ++ [x.pending]) where
  prefixes := by
    simp [flushPendingPrefix, hw.prefixes, pending]
  triples := by
    simp [flushPendingPrefix, hw.triples, pending]

variable {seen : List (List Byte × ℕ)}

theorem Records.snoc {last : ℕ} (hr : Records records seen last) (pfx : List Byte) :
    Records (records ++ [⟨pfx, last, 1⟩]) (seen ++ [(pfx, last)]) last where
  pos r hm := by
    rcases mem_append.mp hm with hm | hm
    · exact hr.pos r hm
    · rw [mem_singleton.mp hm]
      exact Nat.one_pos
  ordered := by
    refine pairwise_append.mpr ⟨hr.ordered, pairwise_singleton _ _, ?_⟩
    intro a ha b hb
    rw [mem_singleton.mp hb]
    exact hr.bounded a ha
  bounded r hm := by
    rcases mem_append.mp hm with hm | hm
    · exact hr.bounded r hm
    · rw [mem_singleton.mp hm]
  covers s hs := by
    rcases mem_append.mp hs with hs | hs
    · obtain ⟨r, hm, hr'⟩ := hr.covers s hs
      exact ⟨r, mem_append_left _ hm, hr'⟩
    · rw [mem_singleton.mp hs]
      exact ⟨_, mem_append_right _ mem_cons_self, rfl, le_rfl, Nat.lt_succ_self _⟩

theorem Records.extend {r : PrefixRecord} {last : ℕ}
    (hr : Records (records ++ [r]) seen last) (nb : ℕ) (hle : r.numBlocks ≤ nb)
    (hls : r.startBlock + nb = last + 1) :
    Records (records ++ [⟨r.pfx, r.startBlock, nb⟩]) (seen ++ [(r.pfx, last)]) last where
  pos s hm := by
    rcases mem_append.mp hm with hm | hm
    · exact hr.pos s (mem_append_left _ hm)
    rw [mem_singleton.mp hm]
    have := hr.pos r (mem_append_right _ mem_cons_self)
    dsimp only
    omega
  ordered := by
    obtain ⟨hl, -, hlt⟩ := pairwise_append.mp hr.ordered
    refine pairwise_append.mpr ⟨hl, pairwise_singleton _ _, ?_⟩
    intro a ha b hb
    rw [mem_singleton.mp hb]
    exact hlt a ha r mem_cons_self
  bounded s hm := by
    rcases mem_append.mp hm with hm | hm
    · exact hr.bounded s (mem_append_left _ hm)
    · rw [mem_singleton.mp hm]
      exact le_of_eq hls
  covers s hs := by
    rcases mem_append.mp hs with hs | hs
    · obtain ⟨r', hm, hp, hs1, hs2⟩ := hr.covers s hs
      rcases mem_append.mp hm with hm | hm
      · exact ⟨r', mem_append_left _ hm, hp, hs1, hs2⟩
      · rw [mem_singleton.mp hm] at hp hs1 hs2
        exact ⟨_, mem_append_right _ mem_cons_self, hp, hs1, by dsimp only; omega⟩
    · rw [mem_singleton.mp hs]
      have hps := hr.pos r (mem_append_right _ mem_cons_self)
      have hbn := hr.bounded r (mem_append_right _ mem_cons_self)
      exact ⟨_, mem_append_right _ mem_cons_self, rfl, by dsimp only; omega, by dsimp only; omega⟩

theorem Records.nil (last : ℕ) : Records [] [] last where
  pos _ hm := nomatch hm
  ordered := Pairwise.nil
  bounded _ hm := nomatch hm
  covers _ hs := nomatch hs

theorem Tracks.onKeyAdded (ht : Tracks x records seen) (key : ByteKey) :
    let x' := x.onKeyAdded h key
    ∃ rs', Tracks x' rs' (seen ++ [(h.prefixOf key, x.currentRestartIndex)]) ∧
      x'.currentRestartIndex = x.currentRestartIndex ∧
      x'.pendingBlockNum ≠ 0 ∧
      x'.pendingEntryIndex + x'.pendingBlockNum = x.currentRestartIndex + 1 := by
  unfold HashIndexBuilder.onKeyAdded
  by_cases hf : x.pendingBlockNum = 0
  · rw [if_pos (.inl hf), if_neg (not_not.mpr hf)]
    obtain ⟨rfl, rfl⟩ := ht.start hf
    refine ⟨[], ⟨⟨ht.written.prefixes, ht.written.triples⟩, (fun h0 => nomatch h0), fun _ => ?_, fun _ => ?_⟩,
      rfl, Nat.one_ne_zero, rfl⟩
    · exact (Records.nil x.currentRestartIndex).snoc (h.prefixOf key)
    · exact Nat.le_succ _
  · have hrc := ht.records hf
    by_cases hn : x.pendingEntryPrefix ≠ h.prefixOf key
    · rw [if_pos (.inr hn), if_pos hf]
      refine ⟨records ++ [x.pending], ⟨⟨ht.written.flush.prefixes, ht.written.flush.triples⟩, (fun h0 => nomatch h0),
        fun _ => ?_, fun _ => ?_⟩, rfl, Nat.one_ne_zero, rfl⟩
      · exact hrc.snoc (h.prefixOf key)
      · exact Nat.le_succ _
    · rw [if_neg (by simp [hf, hn])]
      rw [not_not] at hn
      have hr := ht.reaches hf
      have hb := hrc.bounded x.pending (mem_append_right _ mem_cons_self)
      simp only [pending] at hb
      by_cases hm : x.pendingEntryIndex + x.pendingBlockNum - 1 ≠ x.currentRestartIndex
      · rw [if_pos hm]
        have hg := hrc.extend (x.pendingBlockNum + 1) (Nat.le_succ _)
          (show x.pendingEntryIndex + (x.pendingBlockNum + 1) = x.currentRestartIndex + 1 by omega)
        rw [show x.pending.pfx = h.prefixOf key from hn] at hg
        refine ⟨records, ⟨⟨ht.written.prefixes, ht.written.triples⟩, (fun h0 => nomatch h0), fun _ => ?_, fun _ => ?_⟩,
          rfl, Nat.succ_ne_zero _, ?_⟩
        · rw [← hn] at hg ⊢
          exact hg
        · dsimp only
          omega
        · dsimp only
          omega
      · rw [if_neg hm]
        have he : x.pendingEntryIndex + x.pendingBlockNum = x.currentRestartIndex + 1 := by omega
        have hsame := hrc.extend x.pendingBlockNum le_rfl he
        refine ⟨records, ⟨ht.written, fun h0 => absurd h0 hf, fun _ => ?_, ht.reaches⟩, rfl, hf, he⟩
        rw [← hn]
        exact hsame

def pairs (h : HashIndexOptions) (index : ℕ) (block : List ByteKey) : List (List Byte × ℕ) :=
  block.map fun key => (h.prefixOf key, index)

theorem Tracks.keys (ht : Tracks x records seen) {block : List ByteKey} (hne : block ≠ []) :
    let x' := block.foldl (HashIndexBuilder.onKeyAdded h) x
    ∃ rs', Tracks x' rs' (seen ++ pairs h x.currentRestartIndex block) ∧
      x'.currentRestartIndex = x.currentRestartIndex ∧
      x'.pendingBlockNum ≠ 0 ∧
      x'.pendingEntryIndex + x'.pendingBlockNum = x.currentRestartIndex + 1 := by
  induction block generalizing x records seen with
  | nil => exact absurd rfl hne
  | cons key block ih =>
    obtain ⟨rs', ht', hi, hn, he⟩ := ht.onKeyAdded (h := h) key
    rw [foldl_cons]
    by_cases hb : block = []
    · subst hb
      exact ⟨rs', ht', hi, hn, he⟩
    obtain ⟨records'', ht'', hi', hn', he'⟩ := ih ht' hb
    rw [hi] at hi' he' ht''
    refine ⟨records'', ?_, hi', hn', he'⟩
    have ha : seen ++ pairs h x.currentRestartIndex (key :: block) =
        seen ++ [(h.prefixOf key, x.currentRestartIndex)] ++ pairs h x.currentRestartIndex block := by
      simp [pairs]
    rw [ha]
    exact ht''

def allPairs (h : HashIndexOptions) : ℕ → List (List ByteKey) → List (List Byte × ℕ)
  | _, [] => []
  | index, block :: blocks => pairs h index block ++ allPairs h (index + 1) blocks

theorem Tracks.blocks (ht : Tracks x records seen) {bs : List (List ByteKey)} (hne : ∀ block ∈ bs, block ≠ []) :
    ∃ rs', Tracks (x.addBlocks h bs) rs' (seen ++ allPairs h x.currentRestartIndex bs) ∧
      (x.addBlocks h bs).currentRestartIndex = x.currentRestartIndex + bs.length := by
  induction bs generalizing x records seen with
  | nil => exact ⟨records, by rwa [allPairs, append_nil], rfl⟩
  | cons block bs ih =>
    have hb : block ≠ [] := hne block mem_cons_self
    obtain ⟨records1, ht1, hi, hn, he⟩ := ht.keys (h := h) hb
    rw [addBlocks, addBlock, getLast?_eq_getLast_of_ne_nil hb]
    dsimp only at ht1 hi hn he ⊢
    generalize block.foldl _ x = y at ht1 hi hn he ⊢
    have ht2 : Tracks (y.addIndexEntry h (block.getLast hb) (bs.head?.bind List.head?)) records1
        (seen ++ pairs h x.currentRestartIndex block) := by
      refine ⟨⟨ht1.written.prefixes, ht1.written.triples⟩, fun h0 => absurd h0 hn, fun _ => ?_, fun _ => ?_⟩
      · have hr := ht1.records hn
        exact ⟨hr.pos, hr.ordered, fun r hm => Nat.le_succ_of_le (hr.bounded r hm), hr.covers⟩
      · change y.currentRestartIndex + 1 ≤ _
        rw [hi]
        exact le_of_eq he.symm
    obtain ⟨records2, ht3, hi3⟩ := ih ht2 (fun b hm => hne b (mem_cons_of_mem _ hm))
    have hi2 : (y.addIndexEntry h (block.getLast hb) (bs.head?.bind List.head?)).currentRestartIndex =
        x.currentRestartIndex + 1 := by
      rw [← hi]
      rfl
    rw [hi2] at ht3 hi3
    refine ⟨records2, ?_, ?_⟩
    · rw [allPairs, ← append_assoc]
      exact ht3
    · rw [hi3, length_cons]
      omega

theorem readPrefixRecords_written (records : List PrefixRecord) (bef : List Byte) :
    readPrefixRecords (bef ++ records.flatMap PrefixRecord.pfx) bef.length
      (records.map fun r => (r.pfx.length, r.startBlock, r.numBlocks)) = some records := by
  induction records generalizing bef with
  | nil => simp [readPrefixRecords]
  | cons r records ih =>
    have hl : ¬ (bef ++ (r :: records).flatMap PrefixRecord.pfx).length < bef.length + r.pfx.length := by
      simp only [flatMap_cons, length_append]
      omega
    have hn := ih (bef ++ r.pfx)
    rw [append_assoc, ← flatMap_cons, length_append] at hn
    rw [map_cons, readPrefixRecords, if_neg hl, hn, Option.map_some]
    simp [flatMap_cons]

end HashIndexBuilder

namespace BucketList

structure Apart (b : BucketList) : Prop where
  span : ∀ s ∈ b.spans, 0 < s.numBlocks ∧ s.endBlock + 1 = s.startBlock + s.numBlocks
  apart : b.spans.Pairwise fun s t => t.endBlock + 1 < s.startBlock
  count : b.numBlocks = (b.spans.map BlockSpan.numBlocks).sum

def Holds (b : BucketList) (id : ℕ) : Prop := ∃ s ∈ b.spans, s.startBlock ≤ id ∧ id ≤ s.endBlock

variable {b : BucketList}

theorem mem_blockIds (hb : b.Apart) {id : ℕ} : id ∈ b.blockIds ↔ b.Holds id := by
  unfold blockIds Holds
  rw [mem_reverse, mem_flatMap]
  constructor
  · rintro ⟨s, hs, hid⟩
    obtain ⟨i, hi, rfl⟩ := mem_map.mp hid
    rw [mem_range] at hi
    have := hb.span s hs
    exact ⟨s, hs, by omega, by omega⟩
  · rintro ⟨s, hs, hlo, hhi⟩
    have := hb.span s hs
    exact ⟨s, hs, mem_map.mpr ⟨s.endBlock - id, mem_range.mpr (by omega), by omega⟩⟩

theorem sorted_blockIds (hb : b.Apart) : b.blockIds.Pairwise (· < ·) := by
  unfold blockIds
  rw [pairwise_reverse, pairwise_flatMap]
  constructor
  · intro s hs
    have hsp := hb.span s hs
    rw [pairwise_map]
    apply Pairwise.imp_of_mem _ pairwise_lt_range
    intro i j _ hj hij
    rw [mem_range] at hj
    omega
  · apply Pairwise.imp_of_mem _ hb.apart
    intro s t hs ht hst x hx y hy
    obtain ⟨i, hi, rfl⟩ := mem_map.mp hx
    obtain ⟨j, hj, rfl⟩ := mem_map.mp hy
    rw [mem_range] at hi hj
    have := hb.span s hs
    have := hb.span t ht
    omega

theorem bucket_ids (hb : b.Apart) : (match b.bucket with
      | .none => []
      | .block id => [id]
      | .array ids => ids) = b.blockIds := by
  obtain ⟨spans, nb⟩ := b
  have hc := hb.count
  unfold bucket
  cases spans with
  | nil =>
    simp only [map_nil, sum_nil] at hc
    simp [hc, blockIds]
  | cons s spans =>
    have hs := hb.span s mem_cons_self
    simp only [map_cons, sum_cons] at hc
    rw [if_neg (by dsimp only; omega)]
    by_cases ho : nb = 1
    · rw [if_pos ho]
      have hr : spans = [] := by
        cases spans with
        | nil => rfl
        | cons t spans =>
          have ht := hb.span t (mem_cons_of_mem _ mem_cons_self)
          simp only [map_cons, sum_cons] at hc
          omega
      subst hr
      simp only [map_nil, sum_nil] at hc
      have hn : s.numBlocks = 1 := by omega
      simp only [blockIds, flatMap_cons, flatMap_nil, hn, range_one, map_cons, map_nil, append_nil, reverse_singleton]
      congr 1
      omega
    · rw [if_neg ho]

structure Added (b : BucketList) (current : BlockSpan) (b' : BucketList) : Prop where
  apart : b'.Apart
  keeps : ∀ id, b.Holds id → b'.Holds id
  holds : ∀ id, current.startBlock ≤ id → id ≤ current.endBlock → b'.Holds id
  ends : ∀ s ∈ b'.spans, s.endBlock = current.endBlock ∨ ∃ t ∈ b.spans, s.endBlock = t.endBlock

variable (current : BlockSpan)
  (hcr : 0 < current.numBlocks ∧ current.endBlock + 1 = current.startBlock + current.numBlocks)

include hcr

theorem added_push (hb : b.Apart) (hf : ∀ s ∈ b.spans, s.endBlock + 1 < current.startBlock) :
    b.Added current ⟨current :: b.spans, b.numBlocks + current.numBlocks⟩ := by
  refine ⟨⟨?_, pairwise_cons.mpr ⟨hf, hb.apart⟩, ?_⟩, ?_, ?_, ?_⟩
  · intro s hs
    rcases mem_cons.mp hs with rfl | hs
    · exact hcr
    · exact hb.span s hs
  · rw [map_cons, sum_cons, ← hb.count, add_comm]
  · rintro id ⟨s, hs, hid⟩
    exact ⟨s, mem_cons_of_mem _ hs, hid⟩
  · exact fun id hlo hhi => ⟨current, mem_cons_self, hlo, hhi⟩
  · intro s hs
    rcases mem_cons.mp hs with rfl | hs
    · exact .inl rfl
    · exact .inr ⟨s, hs, rfl⟩

theorem added_merge {prev : BlockSpan} {rest : List BlockSpan} {nb : ℕ} (hb : Apart ⟨prev :: rest, nb⟩)
    (hle : prev.endBlock ≤ current.startBlock) (hn : current.startBlock - prev.endBlock ≤ 1) :
    Added ⟨prev :: rest, nb⟩ current
      ⟨⟨prev.startBlock, current.endBlock, current.endBlock - prev.startBlock + 1⟩ :: rest,
        nb + (current.numBlocks + (current.startBlock - prev.endBlock) - 1)⟩ := by
  have hp := hb.span prev mem_cons_self
  have hc := hb.count
  simp only [map_cons, sum_cons] at hc
  refine ⟨⟨?_, pairwise_cons.mpr (pairwise_cons.mp hb.apart), ?_⟩, ?_, ?_, ?_⟩
  · intro s hs
    rcases mem_cons.mp hs with rfl | hs
    · dsimp only
      omega
    · exact hb.span s (mem_cons_of_mem _ hs)
  · simp only [map_cons, sum_cons]
    omega
  · rintro id ⟨s, hs, hlo, hhi⟩
    rcases mem_cons.mp hs with rfl | hs
    · exact ⟨_, mem_cons_self, hlo, by dsimp only; omega⟩
    · exact ⟨s, mem_cons_of_mem _ hs, hlo, hhi⟩
  · exact fun id hlo hhi => ⟨_, mem_cons_self, by dsimp only; omega, hhi⟩
  · intro s hs
    rcases mem_cons.mp hs with rfl | hs
    · exact .inl rfl
    · exact .inr ⟨s, mem_cons_of_mem _ hs, rfl⟩

theorem added_add (hb : b.Apart) (ha : ∀ s ∈ b.spans, s.endBlock ≤ current.startBlock) :
    b.Added current (b.add current) := by
  obtain ⟨spans, nb⟩ := b
  cases spans with
  | nil => exact added_push _ hcr hb fun s hs => nomatch hs
  | cons prev rest =>
    have hle := ha prev mem_cons_self
    unfold add
    dsimp only
    by_cases hn : current.startBlock - prev.endBlock ≤ 1
    · rw [if_pos hn]
      exact added_merge _ hcr hb hle hn
    rw [if_neg hn]
    refine added_push _ hcr hb fun s hs => ?_
    rcases mem_cons.mp hs with rfl | hs
    · omega
    · have := (pairwise_cons.mp hb.apart).1 s hs
      have := hb.span prev mem_cons_self
      omega

end BucketList

structure Filled (h : HashIndexOptions) (numBuckets : ℕ) (records : List PrefixRecord)
    (buckets : ℕ → BucketList) : Prop where
  apart : ∀ i, (buckets i).Apart
  ends : ∀ i, ∀ s ∈ (buckets i).spans, ∃ r ∈ records, s.endBlock = r.startBlock + r.numBlocks - 1
  covers : ∀ r ∈ records, ∀ id, r.startBlock ≤ id → id < r.startBlock + r.numBlocks →
    (buckets (h.hash r.pfx % numBuckets)).Holds id

theorem filled_foldl (nb : ℕ) (records : List PrefixRecord) (hp : ∀ r ∈ records, 0 < r.numBlocks)
    (hod : records.Pairwise fun a b => a.startBlock + a.numBlocks ≤ b.startBlock + 1) :
    Filled h nb records (records.foldl (addToBuckets h nb) fun _ => {}) := by
  induction records using List.reverseRecOn with
  | nil =>
    refine ⟨fun _ => ⟨?_, Pairwise.nil, rfl⟩, ?_, ?_⟩
    · exact fun _ hs => nomatch hs
    · exact fun _ _ hs => nomatch hs
    · exact fun _ hr => nomatch hr
  | append_singleton records r ih =>
    obtain ⟨hl, -, hlt⟩ := pairwise_append.mp hod
    have hih := ih (fun r' hr' => hp r' (mem_append_left _ hr')) hl
    have hr := hp r (mem_append_right _ mem_cons_self)
    rw [foldl_append, foldl_cons, foldl_nil]
    obtain ⟨ha, hk, hn, he⟩ := BucketList.added_add r.span
      ⟨hr, by simp only [PrefixRecord.span]; omega⟩ (hih.apart (h.hash r.pfx % nb)) (by
        intro s hs
        obtain ⟨r', hr', hen⟩ := hih.ends _ s hs
        have := hlt r' hr' r mem_cons_self
        simp only [PrefixRecord.span]
        omega)
    refine ⟨fun i => ?_, fun i s hs => ?_, fun r' hr' id hlo hhi => ?_⟩
    · by_cases hi : i = h.hash r.pfx % nb
      · subst hi
        rwa [addToBuckets, update_self]
      · rw [addToBuckets, update_of_ne hi]
        exact hih.apart i
    · by_cases hi : i = h.hash r.pfx % nb
      · subst hi
        rw [addToBuckets, update_self] at hs
        rcases he s hs with hen | ⟨t, ht, hen⟩
        · exact ⟨r, mem_append_right _ mem_cons_self, hen⟩
        · obtain ⟨r', hr', hen'⟩ := hih.ends _ t ht
          exact ⟨r', mem_append_left _ hr', hen.trans hen'⟩
      · rw [addToBuckets, update_of_ne hi] at hs
        obtain ⟨r', hr', hen⟩ := hih.ends i s hs
        exact ⟨r', mem_append_left _ hr', hen⟩
    · by_cases hi : h.hash r'.pfx % nb = h.hash r.pfx % nb
      · rw [hi, addToBuckets, update_self]
        rcases mem_append.mp hr' with hr' | hr'
        · have ho := hih.covers r' hr' id hlo hhi
          rw [hi] at ho
          exact hk id ho
        · rw [mem_singleton.mp hr'] at hlo hhi
          exact hn id hlo (by simp only [PrefixRecord.span]; omega)
      · rw [addToBuckets, update_of_ne hi]
        rcases mem_append.mp hr' with hr' | hr'
        · exact hih.covers r' hr' id hlo hhi
        · rw [mem_singleton.mp hr'] at hi
          exact absurd rfl hi

namespace HashIndexBuilder

theorem Tracks.finish {x : HashIndexBuilder} {records : List PrefixRecord} {seen : List (List Byte × ℕ)}
    (ht : Tracks x records seen) :
    ∃ rs', Written x.finish rs' ∧ Records rs' seen x.currentRestartIndex := by
  unfold HashIndexBuilder.finish
  by_cases hn : x.pendingBlockNum = 0
  · rw [if_neg (not_not.mpr hn)]
    obtain ⟨rfl, rfl⟩ := ht.start hn
    exact ⟨[], ht.written, Records.nil _⟩
  · rw [if_pos hn]
    exact ⟨_, ht.written.flush, ht.records hn⟩

theorem mem_allPairs {bs : List (List ByteKey)} {i : ℕ} (base : ℕ) {block : List ByteKey} {key : ByteKey}
    (hi : bs[i]? = some block) (hk : key ∈ block) : (h.prefixOf key, base + i) ∈ allPairs h base bs := by
  induction bs generalizing i base with
  | nil => cases hi
  | cons b bs ih =>
    rw [allPairs, mem_append]
    cases i with
    | zero =>
      cases hi
      exact .inl (mem_map.mpr ⟨key, hk, rfl⟩)
    | succ i =>
      have := ih (base + 1) hi
      rw [add_assoc, add_comm 1] at this
      exact .inr this

end HashIndexBuilder

theorem create_buildHashIndex (bs : List (List ByteKey)) (hne : ∀ block ∈ bs, block ≠ []) :
    ∃ index, BlockPrefixIndex.create h (buildHashIndex h bs).prefixBlock
        (buildHashIndex h bs).prefixMetaBlock = some index ∧
      ∀ target, (index.getBlocks h target).Pairwise (· < ·) ∧
        ∀ i block, bs[i]? = some block → ∀ key ∈ block, h.prefixOf key = h.prefixOf target →
          i ∈ index.getBlocks h target := by
  have hs : HashIndexBuilder.Tracks { seperatorIsKeyPlusSeq := decide (h.formatVersion ≤ 2) } [] [] :=
    ⟨⟨rfl, rfl⟩, fun _ => ⟨rfl, rfl⟩, fun h0 => absurd rfl h0, fun h0 => absurd rfl h0⟩
  obtain ⟨_, ht, -⟩ := hs.blocks (h := h) hne
  obtain ⟨records, hw, hrc⟩ := ht.finish
  have hrd := HashIndexBuilder.readPrefixRecords_written records []
  rw [nil_append, length_nil, ← hw.prefixes, ← hw.triples] at hrd
  refine ⟨BlockPrefixIndex.finish h records, ?_, fun target => ?_⟩
  · unfold BlockPrefixIndex.create buildHashIndex
    rw [hrd, Option.map_some]
  · have hf := filled_foldl (h := h) (records.length + 1) records hrc.pos hrc.ordered
    have hids : (BlockPrefixIndex.finish h records).getBlocks h target = BucketList.blockIds
        (records.foldl (addToBuckets h (records.length + 1)) (fun _ => {})
          (h.hash (h.prefixOf target) % (records.length + 1))) :=
      BucketList.bucket_ids (hf.apart _)
    rw [hids]
    refine ⟨BucketList.sorted_blockIds (hf.apart _), fun i block hi key hky hsame => ?_⟩
    have hp := HashIndexBuilder.mem_allPairs (h := h) 0 hi hky
    obtain ⟨r, hr, hpf, hlo, hhi⟩ := hrc.covers (h.prefixOf key, 0 + i) hp
    have hk : r.pfx = h.prefixOf key := hpf
    rw [BucketList.mem_blockIds (hf.apart _), ← hsame, ← hk]
    exact hf.covers r hr i (by simpa using hlo) (by simpa using hhi)

end ZenFSPlus.Table
