import Mathlib.Data.List.Chain
import ZenFSPlus.Table.PartitionedFilterBlock

namespace ZenFSPlus.Table

open ZenFSPlus.Db Lib List InternalKey

variable {κ : Type} [LinearOrder κ] [Inhabited κ] {o : TableOptions κ}

namespace PartitionedFilterBlockBuilder

variable {f : PartitionedFilterBlockBuilder κ} {seen : List κ} {u : κ}

structure Recorded (o : TableOptions κ) (f : PartitionedFilterBlockBuilder κ) (seen : List κ) : Prop where
  wholeKey : f.lastWholeKeyRecorded = true → f.lastWholeKeyStr ∈ f.added
  lastPrefix : f.lastPrefixRecorded = true → f.lastPrefixStr ∈ f.added
  origin : f.lastPrefixStr = default ∨
    ∃ u ∈ seen, o.prefixExtractor.inDomain u = true ∧ o.prefixExtractor.transform u = f.lastPrefixStr
  carried : ∀ u ∈ seen.getLast?, o.prefixExtractor.inDomain u = true → f.lastKeyInDomain = true ∧
    (o.wholeKeyFiltering = true → f.lastPrefixStr = o.prefixExtractor.transform u)

theorem recorded_init : Recorded o ({} : PartitionedFilterBlockBuilder κ) [] where
  wholeKey h := nomatch h
  lastPrefix h := nomatch h
  origin := .inl rfl
  carried _ h := nomatch h

omit [LinearOrder κ] in
theorem mem_addKey (f : PartitionedFilterBlockBuilder κ) (u : κ) : u ∈ (f.addKey u).added := by
  simp [addKey]

omit [LinearOrder κ] in
theorem subset_addKey (f : PartitionedFilterBlockBuilder κ) (u : κ) : f.added ⊆ (f.addKey u).added :=
  subset_append_left _ _

theorem Recorded.addKey (h : Recorded o f seen) (u : κ) : Recorded o (f.addKey u) seen where
  __ := h
  wholeKey hw := subset_addKey f u (h.wholeKey hw)
  lastPrefix hp := subset_addKey f u (h.lastPrefix hp)

structure Grows (f f' : PartitionedFilterBlockBuilder κ) : Prop where
  added : f.added ⊆ f'.added
  filters : f'.filters = f.filters

omit [LinearOrder κ] in
theorem Grows.refl (f : PartitionedFilterBlockBuilder κ) : Grows f f := ⟨List.Subset.refl _, rfl⟩

omit [LinearOrder κ] in
theorem Grows.trans {f g k : PartitionedFilterBlockBuilder κ} (h : Grows f g) (h' : Grows g k) : Grows f k :=
  ⟨List.Subset.trans h.added h'.added, h'.filters.trans h.filters⟩

theorem addNextPrefix_grows (o : TableOptions κ) (f : PartitionedFilterBlockBuilder κ) (next : Option κ) :
    let r := f.addNextPrefix o next
    Grows f r ∧ r.lastPrefixStr = f.lastPrefixStr ∧ r.lastKeyInDomain = f.lastKeyInDomain := by
  cases next with
  | none => exact ⟨Grows.refl f, rfl, rfl⟩
  | some u =>
    unfold addNextPrefix
    dsimp only
    split
    · exact ⟨⟨subset_addKey f _, rfl⟩, rfl, rfl⟩
    · exact ⟨Grows.refl f, rfl, rfl⟩

section

variable (h : Recorded o f seen)

include h

theorem addLastPrefix_spec : Recorded o f.addLastPrefix seen ∧ Grows f f.addLastPrefix ∧
      (f.lastPrefixRecorded = false → o.wholeKeyFiltering = true → ∀ v ∈ seen.getLast?,
        o.prefixExtractor.inDomain v = true → o.prefixExtractor.transform v ∈ f.addLastPrefix.added) := by
  unfold addLastPrefix
  split
  · refine ⟨⟨?_, ?_, h.origin, h.carried⟩, ⟨subset_addKey _ _, rfl⟩, ?_⟩
    · exact fun hw => subset_addKey f _ (h.wholeKey hw)
    · exact fun _ => mem_addKey f _
    · intro _ hw v hv hd
      rw [← (h.carried v hv hd).2 hw]
      exact mem_addKey f _
  · rename_i ha
    refine ⟨h, Grows.refl f, ?_⟩
    intro hr _ v hv hd
    simp [hr, (h.carried v hv hd).1] at ha

theorem addWholeKey_spec (u : κ) :
    let r := f.addWholeKey o u
    Recorded o r seen ∧ Grows f r ∧ (o.wholeKeyFiltering = true → u ∈ r.added) := by
  unfold addWholeKey
  by_cases hw : o.wholeKeyFiltering = true
  · rw [if_pos hw]
    by_cases hd : (!o.prefixExtractor.inDomain u) = true
    · rw [if_pos hd]
      exact ⟨h.addKey u, ⟨subset_addKey f u, rfl⟩, fun _ => mem_addKey f u⟩
    rw [if_neg hd]
    by_cases hn : (!f.lastWholeKeyRecorded || decide (f.lastWholeKeyStr ≠ u)) = true
    · rw [if_pos hn]
      refine ⟨⟨fun _ => mem_addKey f u, ?_, h.origin, h.carried⟩, ⟨subset_addKey f u, rfl⟩, fun _ => mem_addKey f u⟩
      exact fun hp => subset_addKey f u (h.lastPrefix hp)
    rw [if_neg hn]
    refine ⟨h, Grows.refl f, fun _ => ?_⟩
    simp only [Bool.or_eq_true, Bool.not_eq_true', decide_eq_true_eq, not_or, Bool.not_eq_false, not_not] at hn
    rw [← hn.2]
    exact h.wholeKey hn.1
  · rw [if_neg hw]
    exact ⟨h, Grows.refl f, fun h' => absurd h' hw⟩

theorem addPrefix_spec (hdm : o.prefixExtractor.inDomain u = true) (hl : f.lastKeyInDomain = true) :
    let r := f.addPrefix o u
    Recorded o r (seen ++ [u]) ∧ Grows f r ∧ o.prefixExtractor.transform u ∈ r.added := by
  have ho : f.lastPrefixStr = default ∨ ∃ v ∈ seen ++ [u], o.prefixExtractor.inDomain v = true ∧
      o.prefixExtractor.transform v = f.lastPrefixStr := by
    rcases h.origin with hd | ⟨v, hv, hv'⟩
    · exact .inl hd
    · exact .inr ⟨v, mem_append_left _ hv, hv'⟩
  have hm : u ∈ seen ++ [u] := mem_append_right _ mem_cons_self
  unfold addPrefix
  by_cases hw : o.wholeKeyFiltering = true
  · rw [if_pos hw]
    by_cases hn : (!f.lastPrefixRecorded || decide (f.lastPrefixStr ≠ o.prefixExtractor.transform u)) = true
    · rw [if_pos hn]
      refine ⟨⟨?_, fun _ => mem_addKey f _, .inr ⟨u, hm, hdm, rfl⟩, ?_⟩, ⟨subset_addKey f _, rfl⟩, mem_addKey f _⟩
      · exact fun hk => subset_addKey f _ (h.wholeKey hk)
      · intro v hv _
        rw [getLast?_concat, Option.mem_some] at hv
        exact ⟨hl, fun _ => by rw [hv]⟩
    · rw [if_neg hn]
      simp only [Bool.or_eq_true, Bool.not_eq_true', decide_eq_true_eq, not_or, Bool.not_eq_false, not_not] at hn
      refine ⟨⟨h.wholeKey, h.lastPrefix, ho, ?_⟩, Grows.refl f, ?_⟩
      · intro v hv _
        rw [getLast?_concat, Option.mem_some] at hv
        exact ⟨hl, fun _ => by rw [← hv, hn.2]⟩
      · rw [← hn.2]
        exact h.lastPrefix hn.1
  · rw [if_neg hw]
    have ha := h.addKey (o.prefixExtractor.transform u)
    refine ⟨⟨ha.wholeKey, ha.lastPrefix, ho, ?_⟩, ⟨subset_addKey f _, rfl⟩, mem_addKey f _⟩
    exact fun v _ _ => ⟨hl, fun h' => absurd h' hw⟩

theorem fullAdd_spec (u : κ) :
    let r := f.fullAdd o u
    Recorded o r (seen ++ [u]) ∧ Grows f r ∧ (o.wholeKeyFiltering = true → u ∈ r.added) ∧
      (o.prefixExtractor.inDomain u = true → o.prefixExtractor.transform u ∈ r.added) ∧
      (f.lastPrefixRecorded = false → o.wholeKeyFiltering = true → ∀ v ∈ seen.getLast?,
        o.prefixExtractor.inDomain v = true → o.prefixExtractor.transform v ∈ r.added) := by
  obtain ⟨h1, g1, hc⟩ := addLastPrefix_spec h
  obtain ⟨h2, g2, hwh⟩ := addWholeKey_spec h1 u
  unfold fullAdd
  by_cases hdm : o.prefixExtractor.inDomain u = true
  · rw [if_pos hdm]
    have h3 : Recorded o { f.addLastPrefix.addWholeKey o u with lastKeyInDomain := true } seen :=
      ⟨h2.wholeKey, h2.lastPrefix, h2.origin, fun v hv hv' => ⟨rfl, (h2.carried v hv hv').2⟩⟩
    obtain ⟨h4, g4, hp⟩ := addPrefix_spec h3 hdm rfl
    refine ⟨h4, (g1.trans g2).trans ⟨g4.added, g4.filters⟩, fun hw => g4.added (hwh hw), fun _ => hp, ?_⟩
    intro hr hw v hv hv'
    exact g4.added (g2.added (hc hr hw v hv hv'))
  · rw [if_neg hdm]
    refine ⟨⟨h2.wholeKey, h2.lastPrefix, ?_, ?_⟩, (g1.trans g2).trans ⟨List.Subset.refl _, rfl⟩,
      hwh, fun h' => absurd h' hdm, ?_⟩
    · rcases h2.origin with hd | ⟨v, hv, hv'⟩
      · exact .inl hd
      · exact .inr ⟨v, mem_append_left _ hv, hv'⟩
    · intro v hv hv'
      rw [getLast?_concat, Option.mem_some] at hv
      exact absurd (hv ▸ hv') hdm
    · intro hr hw v hv hv'
      exact g2.added (hc hr hw v hv hv')

theorem mem_addNextPrefix (last : κ) (hs : ∀ v ∈ seen, v ≤ last) (hls : last ≤ u)
    (hc : o.prefixExtractor.inDomain last = true → o.prefixExtractor.transform last ∈ f.added)
    (hdm : o.prefixExtractor.inDomain u = true) :
    o.prefixExtractor.transform u ∈ (f.addNextPrefix o (some u)).added := by
  unfold addNextPrefix
  dsimp only
  by_cases hn : o.prefixExtractor.transform u ≠ f.lastPrefixStr
  · rw [if_pos (by simp [hdm, hn])]
    exact mem_addKey f _
  rw [if_neg (by simp [hn])]
  rw [not_not] at hn
  rcases h.origin with hd | ⟨v, hv, hvd, hvp⟩
  · rw [hn, hd]
    obtain ⟨hl, hl'⟩ := o.prefixExtractor.empty hdm (hn.trans hd) last
    rw [← hl']
    exact hc hl
  · have hsame : o.prefixExtractor.transform v = o.prefixExtractor.transform u := hvp.trans hn.symm
    obtain ⟨hl, hl'⟩ := o.prefixExtractor.interval (hs v hv) hls hvd hdm hsame
    rw [← hsame, ← hl']
    exact hc hl

theorem recorded_cut (next : Option κ) (key : Option (InternalKey κ)) :
    Recorded o ((f.addNextPrefix o next).cut key) seen where
  wholeKey h' := nomatch h'
  lastPrefix h' := nomatch h'
  origin := by
    change (f.addNextPrefix o next).lastPrefixStr = default ∨
      ∃ u ∈ seen, _ ∧ o.prefixExtractor.transform u = (f.addNextPrefix o next).lastPrefixStr
    rw [(addNextPrefix_grows o f next).2.1]
    exact h.origin
  carried := by
    change ∀ u ∈ seen.getLast?, _ → (f.addNextPrefix o next).lastKeyInDomain = true ∧
      (_ → (f.addNextPrefix o next).lastPrefixStr = o.prefixExtractor.transform u)
    rw [(addNextPrefix_grows o f next).2.1, (addNextPrefix_grows o f next).2.2]
    exact h.carried

end

theorem maybeCutAFilterBlock_spec (o : TableOptions κ) (f : PartitionedFilterBlockBuilder κ)
    {x : PartitionedIndexBuilder κ} (next : Option κ) {cut : Bool} (h : x.cutFilterBlock = cut) :
    let r := f.maybeCutAFilterBlock o x next
    r.1 = (if cut then (f.addNextPrefix o next).cut x.subIndexLastKey else f) ∧
    r.2.seperatorIsKeyPlusSeq = x.seperatorIsKeyPlusSeq ∧
    r.2.cutFilterBlock = false := by
  unfold maybeCutAFilterBlock PartitionedIndexBuilder.requestPartitionCut
  cases cut <;> by_cases hr : f.keysAddedToPartition = o.keysPerPartition <;> simp [hr, h]

end PartitionedFilterBlockBuilder

namespace PartitionedIndexBuilder

variable {last next : InternalKey κ}

theorem shortened_some (flag : Bool) (last next : InternalKey κ) :
    let r := shortenedAddIndexEntry o flag last (some next)
    last ≤ r.1 ∧
    (last < next → r.1 < next) ∧
    (r.2 = false → r.1.userKey ≠ next.userKey) := by
  unfold shortenedAddIndexEntry
  dsimp only
  refine ⟨?_, ?_, ?_⟩
  · split
    · exact le_findShortestSeparator
    · exact le_refl last
  · intro h
    split
    · exact findShortestSeparator_lt h
    · exact h
  · intro h
    simpa using (Bool.or_eq_false_iff.mp h).2

theorem shortened_none (flag : Bool) : last ≤ (shortenedAddIndexEntry o flag last none).1 := by
  unfold shortenedAddIndexEntry
  dsimp only
  split
  · exact le_findShortSuccessor
  · exact le_refl last

theorem addToSubIndex_spec (x : PartitionedIndexBuilder κ) (last : InternalKey κ) (next : Option (InternalKey κ)) :
    let r := x.addToSubIndex o last next
    ∃ flag, r.subIndexLastKey = some (shortenedAddIndexEntry o flag last next).1 ∧ r.seperatorIsKeyPlusSeq =
        (x.seperatorIsKeyPlusSeq || (shortenedAddIndexEntry o flag last next).2) ∧
      r.cutFilterBlock = x.cutFilterBlock := by
  unfold addToSubIndex makeNewSubIndexBuilder
  by_cases hs : x.subIndexBuilder.isNone = true
  · exact ⟨decide (o.formatVersion ≤ 2) || x.seperatorIsKeyPlusSeq, by simp [hs], by simp [hs], by simp [hs]⟩
  · exact ⟨x.subIndexBuilder.getD false, by simp [hs], by simp [hs], by simp [hs]⟩

theorem addIndexEntry_some (x : PartitionedIndexBuilder κ) (update : Bool) (h : last < next) :
    let r := x.addIndexEntry o update last (some next)
    ∃ sep, r.subIndexLastKey = some sep ∧ last ≤ sep ∧ sep < next ∧ (r.seperatorIsKeyPlusSeq = false →
        x.seperatorIsKeyPlusSeq = false ∧ sep.userKey < next.userKey) := by
  unfold addIndexEntry
  dsimp only
  split
  all_goals
    obtain ⟨flag, hs, hsq, -⟩ := addToSubIndex_spec (o := o) _ last (some next)
    obtain ⟨hle, hlt, hne⟩ := shortened_some (o := o) flag last next
    refine ⟨_, hs, hle, hlt h, fun hf => ?_⟩
    rw [hsq, Bool.or_eq_false_iff] at hf
    exact ⟨hf.1, lt_of_le_of_ne (userKey_le_of_le (hlt h).le) (hne hf.2)⟩

theorem addIndexEntry_none (x : PartitionedIndexBuilder κ) (update : Bool) (last : InternalKey κ) :
    let r := x.addIndexEntry o update last none
    ∃ sep, r.subIndexLastKey = some sep ∧ last ≤ sep ∧
      (r.seperatorIsKeyPlusSeq = false → x.seperatorIsKeyPlusSeq = false) ∧
      r.cutFilterBlock = true := by
  obtain ⟨flag, hs, hsq, -⟩ := addToSubIndex_spec (o := o) x last none
  refine ⟨_, hs, shortened_none flag, fun hf => ?_, rfl⟩
  have hf : (x.addToSubIndex o last none).seperatorIsKeyPlusSeq = false := hf
  rw [hsq, Bool.or_eq_false_iff] at hf
  exact hf.1

end PartitionedIndexBuilder

structure Part (κ : Type) where
  keys : List (InternalKey κ)
  sep : InternalKey κ
  added : List κ

namespace Part

def entry (p : Part κ) : FilterEntry κ := ⟨some p.sep, p.added⟩

structure Covers (o : TableOptions κ) (p : Part κ) : Prop where
  whole : o.wholeKeyFiltering = true → ∀ k ∈ p.keys, k.userKey ∈ p.added
  pfx : ∀ k ∈ p.keys, o.prefixExtractor.inDomain k.userKey = true →
    o.prefixExtractor.transform k.userKey ∈ p.added

structure Linked (o : TableOptions κ) (p q : Part κ) : Prop where
  next : ∀ k ∈ q.keys.head?, o.prefixExtractor.inDomain k.userKey = true →
    o.prefixExtractor.transform k.userKey ∈ p.added
  prev : o.wholeKeyFiltering = true → ∀ k ∈ p.keys.getLast?,
    o.prefixExtractor.inDomain k.userKey = true → o.prefixExtractor.transform k.userKey ∈ q.added

end Part

structure Partitioned (o : TableOptions κ) (seperatorIsKeyPlusSeq : Bool) (keys : List (InternalKey κ))
    (parts : List (Part κ)) : Prop where
  keys : parts.flatMap Part.keys = keys
  nonempty : ∀ p ∈ parts, p.keys ≠ []
  covers : ∀ p ∈ parts, p.Covers o
  linked : parts.IsChain (Part.Linked o)
  within : ∀ p ∈ parts, ∀ k ∈ p.keys, k ≤ p.sep
  apart : parts.Pairwise fun p q => ∀ k ∈ q.keys, p.sep < k ∧
    (seperatorIsKeyPlusSeq = false → p.sep.userKey < k.userKey)

namespace Partitioned

variable {flag flag' : Bool} {keys : List (InternalKey κ)} {parts : List (Part κ)} {p p' : Part κ}
  {k : InternalKey κ}

theorem of_flag (h : Partitioned o flag keys parts) (hfl : flag' = false → flag = false) :
    Partitioned o flag' keys parts :=
  { h with
    apart := h.apart.imp fun hpq k hk => ⟨(hpq k hk).1, fun hf => (hpq k hk).2 (hfl hf)⟩ }

theorem separated (h : Partitioned o true keys parts) : Separated id Part.keys Part.sep parts where
  __ := h
  monotone := monotone_id
  apart := h.apart.imp fun hpq k hk => (hpq k hk).1

theorem separated_userKey (h : Partitioned o false keys parts) : Separated userKey Part.keys Part.sep parts where
  monotone _ _ hab := userKey_le_of_le hab
  nonempty := h.nonempty
  within p hp k hk := userKey_le_of_le (h.within p hp k hk)
  apart := h.apart.imp fun hpq k hk => (hpq k hk).2 rfl

section

variable (h : Partitioned o flag keys (parts ++ [p]))

include h

theorem replace_last (p' : Part κ) {more : List (InternalKey κ)} (hky : p'.keys = p.keys ++ more)
    (ha : p.added ⊆ p'.added) (hc : p'.Covers o) (hwt : ∀ k ∈ p'.keys, k ≤ p'.sep)
    (hmr : ∀ k ∈ more, ∀ x ∈ p.keys, x ≤ k) :
    Partitioned o flag (keys ++ more) (parts ++ [p']) := by
  have hp : p ∈ parts ++ [p] := mem_append_right _ mem_cons_self
  have hm : ∀ {C : Part κ → Prop}, (∀ q ∈ parts ++ [p], C q) → C p' → ∀ q ∈ parts ++ [p'], C q := by
    intro C hC hp' q hq
    rcases mem_append.mp hq with hq | hq
    · exact hC q (mem_append_left _ hq)
    · rwa [mem_singleton.mp hq]
  have hne : p.keys ≠ [] := h.nonempty p hp
  refine ⟨?_, hm h.nonempty ?_, hm h.covers hc, ?_, hm h.within hwt, ?_⟩
  · rw [← h.keys, flatMap_append, flatMap_append, append_assoc]
    simp [hky]
  · rw [hky]
    exact append_ne_nil_of_left_ne_nil hne _
  · obtain ⟨hl, -, hln⟩ := isChain_append.mp h.linked
    refine isChain_append.mpr ⟨hl, isChain_singleton _, ?_⟩
    rintro q hq _ ⟨⟩
    have hqp := hln q hq p rfl
    refine ⟨?_, fun hw k hk hd => ha (hqp.prev hw k hk hd)⟩
    rw [hky, head?_append_of_ne_nil _ hne]
    exact hqp.next
  · obtain ⟨hl, -, hap⟩ := pairwise_append.mp h.apart
    refine pairwise_append.mpr ⟨hl, pairwise_singleton _ _, ?_⟩
    intro q hq r hr k hk
    rw [mem_singleton.mp hr, hky] at hk
    have hqp := hap q hq p mem_cons_self
    rcases mem_append.mp hk with hk | hk
    · exact hqp k hk
    obtain ⟨x, hx⟩ := exists_mem_of_ne_nil _ hne
    have hxk := hmr k hk x hx
    exact ⟨(hqp x hx).1.trans_le hxk, fun hf =>
      ((hqp x hx).2 hf).trans_le (userKey_le_of_le hxk)⟩

theorem snoc (hk : p'.keys = [k]) (hs : p'.sep = k) (hc : p'.Covers o) (hl : p.Linked o p')
    (hlt : p.sep < k) (hsq : flag = false → p.sep.userKey < k.userKey) :
    Partitioned o flag (keys ++ [k]) (parts ++ [p] ++ [p']) := by
  have hp : p ∈ parts ++ [p] := mem_append_right _ mem_cons_self
  have hm : ∀ {C : Part κ → Prop}, (∀ q ∈ parts ++ [p], C q) → C p' → ∀ q ∈ parts ++ [p] ++ [p'], C q := by
    intro C hC hp' q hq
    rcases mem_append.mp hq with hq | hq
    · exact hC q hq
    · rwa [mem_singleton.mp hq]
  refine ⟨?_, hm h.nonempty ?_, hm h.covers hc, ?_, hm h.within ?_, ?_⟩
  · rw [← h.keys, flatMap_append]
    simp [hk]
  · simp [hk]
  · refine isChain_append.mpr ⟨h.linked, isChain_singleton _, ?_⟩
    rintro q hq _ ⟨⟩
    rw [getLast?_concat, Option.mem_some] at hq
    rwa [← hq]
  · simp [hk, hs]
  · refine pairwise_append.mpr ⟨h.apart, pairwise_singleton _ _, ?_⟩
    intro q hq r hr x hx
    rw [mem_singleton.mp hr, hk, mem_singleton] at hx
    subst hx
    rcases mem_append.mp hq with hq | hq
    · obtain ⟨y, hy⟩ := exists_mem_of_ne_nil _ (h.nonempty p hp)
      have hqy := (pairwise_append.mp h.apart).2.2 q hq p mem_cons_self y hy
      have hyx : y < x := (h.within p hp y hy).trans_lt hlt
      exact ⟨hqy.1.trans hyx, fun hf =>
        (hqy.2 hf).trans_le (userKey_le_of_le hyx.le)⟩
    · rw [mem_singleton.mp hq]
      exact ⟨hlt, hsq⟩

theorem getLast? (hl : p.keys.getLast? = some p.sep) : keys.getLast? = some p.sep := by
  rw [← h.keys, flatMap_append, getLast?_append]
  simp [hl]

theorem le_sep {x : InternalKey κ} (hx : x ∈ keys) : x ≤ p.sep := by
  have hp : p ∈ parts ++ [p] := mem_append_right _ mem_cons_self
  rw [← h.keys, mem_flatMap] at hx
  obtain ⟨q, hq, hxq⟩ := hx
  rcases mem_append.mp hq with hq' | hq'
  · obtain ⟨y, hy⟩ := exists_mem_of_ne_nil _ (h.nonempty p hp)
    have hqy := ((pairwise_append.mp h.apart).2.2 q hq' p mem_cons_self y hy).1
    exact (h.within q hq x hxq).trans (hqy.le.trans (h.within p hp y hy))
  · rw [mem_singleton.mp hq'] at hxq
    exact h.within p hp x hxq

end

end Partitioned

namespace FilterTableBuilder

open PartitionedFilterBlockBuilder

structure Built (o : TableOptions κ) (b : FilterTableBuilder κ) (keys : List (InternalKey κ))
    (parts : List (Part κ)) (p : Part κ) : Prop where
  partitioned : Partitioned o b.index.seperatorIsKeyPlusSeq keys (parts ++ [p])
  filters : parts.map Part.entry = b.filter.filters
  added : p.added = b.filter.added
  last : p.keys.getLast? = some p.sep
  lastKey : b.lastKey = some p.sep
  recorded : Recorded o b.filter (keys.map userKey)
  noCut : b.index.cutFilterBlock = false

variable {b : FilterTableBuilder κ} {keys : List (InternalKey κ)} {parts : List (Part κ)} {p : Part κ}
  {a : KeyAdded κ}

theorem add_eq (o : TableOptions κ) (b : FilterTableBuilder κ) (a : KeyAdded κ)
    (hno : b.index.cutFilterBlock = false) (hlt : ∀ last ∈ b.lastKey, last < a.key) :
    ∃ x, b.add o a = ⟨(b.filter.add o x a.key.userKey).2, (b.filter.add o x a.key.userKey).1, some a.key⟩ ∧
      (x.seperatorIsKeyPlusSeq = false → b.index.seperatorIsKeyPlusSeq = false) ∧
      (x.cutFilterBlock = true → ∃ last sep, b.lastKey = some last ∧ x.subIndexLastKey = some sep ∧
        last ≤ sep ∧ sep < a.key ∧
        (x.seperatorIsKeyPlusSeq = false → sep.userKey < a.key.userKey)) := by
  obtain ⟨k, starts⟩ := a
  have hk : b.index.cutFilterBlock = true → False := by simp [hno]
  cases starts with
  | none => exact ⟨b.index, rfl, id, fun h => (hk h).elim⟩
  | some update =>
    cases hl : b.lastKey with
    | none => exact ⟨b.index, by simp only [add, hl], id, fun h => (hk h).elim⟩
    | some last =>
      obtain ⟨sep, hsp, hle, hlt', hs⟩ :=
        PartitionedIndexBuilder.addIndexEntry_some (o := o) b.index update (hlt last hl)
      refine ⟨b.index.addIndexEntry o update last (some k), by simp only [add, hl], fun h => (hs h).1, fun _ => ?_⟩
      exact ⟨last, sep, rfl, hsp, hle, hlt', fun h => (hs h).2⟩

theorem built_singleton (o : TableOptions κ) (a : KeyAdded κ) :
    ∃ p, Built o (({} : FilterTableBuilder κ).add o a) [a.key] [] p := by
  obtain ⟨x, ha, -, hc⟩ := add_eq o {} a rfl (fun _ h => nomatch h)
  have hno : x.cutFilterBlock = false := by
    by_contra h
    obtain ⟨_, _, h, -⟩ := hc (by simpa using h)
    cases h
  obtain ⟨hf, -, hx⟩ := maybeCutAFilterBlock_spec o {} (some a.key.userKey) hno
  rw [if_neg Bool.false_ne_true] at hf
  obtain ⟨hr, grows, hwh, hp, -⟩ := fullAdd_spec (recorded_init (o := o)) a.key.userKey
  rw [ha]
  refine ⟨⟨[a.key], a.key, (fullAdd o {} a.key.userKey).added⟩, ?_, ?_, ?_, rfl, rfl, ?_, hx⟩
  · refine ⟨rfl, by simp, ?_, isChain_singleton _, by simp, pairwise_singleton _ _⟩
    intro q hq
    rw [mem_singleton.mp hq]
    exact ⟨fun hw k hk => by rw [mem_singleton.mp hk]; exact hwh hw,
      fun k hk hd => by rw [mem_singleton.mp hk] at hd ⊢; exact hp hd⟩
  · simp only [PartitionedFilterBlockBuilder.add, hf, grows.filters, map_nil]
  · simp only [PartitionedFilterBlockBuilder.add, hf]
  · simp only [PartitionedFilterBlockBuilder.add, hf]
    exact hr

section

variable (h : Built o b keys parts p)

include h

theorem Built.extend (hlt : p.sep < a.key) {x : PartitionedIndexBuilder κ} (hno : x.cutFilterBlock = false)
    (hsq : x.seperatorIsKeyPlusSeq = false → b.index.seperatorIsKeyPlusSeq = false) :
    let r := b.filter.add o x a.key.userKey
    ∃ p', Built o ⟨r.2, r.1, some a.key⟩ (keys ++ [a.key]) parts p' := by
  obtain ⟨hf, hfl, hx⟩ := maybeCutAFilterBlock_spec o b.filter (some a.key.userKey) hno
  rw [if_neg Bool.false_ne_true] at hf
  obtain ⟨hr, grows, hwh, hpf, -⟩ := fullAdd_spec h.recorded a.key.userKey
  have hp : p ∈ parts ++ [p] := mem_append_right _ mem_cons_self
  have hc := h.partitioned.covers p hp
  have hs : p.added ⊆ (b.filter.fullAdd o a.key.userKey).added := h.added ▸ grows.added
  refine ⟨⟨p.keys ++ [a.key], a.key, (b.filter.fullAdd o a.key.userKey).added⟩,
    ?_, ?_, ?_, getLast?_concat, rfl, ?_, hx⟩
  · refine (h.partitioned.of_flag (fun hf => hsq (hfl ▸ hf))).replace_last _ rfl hs ?_ ?_ ?_
    · refine ⟨fun hw k hk => ?_, fun k hk hd => ?_⟩
      · rcases mem_append.mp hk with hk | hk
        · exact hs (hc.whole hw k hk)
        · rw [mem_singleton.mp hk]
          exact hwh hw
      · rcases mem_append.mp hk with hk | hk
        · exact hs (hc.pfx k hk hd)
        · rw [mem_singleton.mp hk] at hd ⊢
          exact hpf hd
    · intro k hk
      rcases mem_append.mp hk with hk | hk
      · exact (h.partitioned.within p hp k hk).trans hlt.le
      · rw [mem_singleton.mp hk]
    · intro k hk y hy
      rw [mem_singleton.mp hk]
      exact (h.partitioned.within p hp y hy).trans hlt.le
  · simp only [PartitionedFilterBlockBuilder.add, hf, grows.filters, h.filters]
  · simp only [PartitionedFilterBlockBuilder.add, hf]
  · simp only [PartitionedFilterBlockBuilder.add, hf, map_append, map_cons, map_nil]
    exact hr

theorem Built.close {flag : Bool} {sep : InternalKey κ} (hle : p.sep ≤ sep)
    (hsq : flag = false → b.index.seperatorIsKeyPlusSeq = false) (next : Option κ) :
    Partitioned o flag keys (parts ++ [⟨p.keys, sep, (b.filter.addNextPrefix o next).added⟩]) := by
  have hp : p ∈ parts ++ [p] := mem_append_right _ mem_cons_self
  have hcv := h.partitioned.covers p hp
  have hs : p.added ⊆ (b.filter.addNextPrefix o next).added := h.added ▸ (addNextPrefix_grows o b.filter next).1.added
  have hc := (h.partitioned.of_flag hsq).replace_last
    ⟨p.keys, sep, (b.filter.addNextPrefix o next).added⟩ (append_nil _).symm hs
    ⟨fun hw k hk => hs (hcv.whole hw k hk), fun k hk hd => hs (hcv.pfx k hk hd)⟩
    (fun k hk => (h.partitioned.within p hp k hk).trans hle) (fun _ hk => nomatch hk)
  rwa [append_nil] at hc

theorem Built.cut {x : PartitionedIndexBuilder κ} {sep : InternalKey κ} (hct : x.cutFilterBlock = true)
    (hky : x.subIndexLastKey = some sep) (hle : p.sep ≤ sep) (hlt : sep < a.key)
    (hs : x.seperatorIsKeyPlusSeq = false → b.index.seperatorIsKeyPlusSeq = false ∧ sep.userKey < a.key.userKey) :
    let r := b.filter.add o x a.key.userKey
    ∃ parts' p', Built o ⟨r.2, r.1, some a.key⟩ (keys ++ [a.key]) parts' p' := by
  obtain ⟨hf, hfl, hx⟩ := maybeCutAFilterBlock_spec o b.filter (some a.key.userKey) hct
  have hr := recorded_cut h.recorded (some a.key.userKey) (some sep)
  obtain ⟨hr', grows, hwh, hpf, hpr⟩ := fullAdd_spec hr a.key.userKey
  have hp : p ∈ parts ++ [p] := mem_append_right _ mem_cons_self
  have hl := h.partitioned.getLast? h.last
  have hc := h.close hle (fun hf => (hs hf).1) (some a.key.userKey)
  rw [if_pos rfl, hky] at hf
  refine ⟨parts ++ [⟨p.keys, sep, (b.filter.addNextPrefix o (some a.key.userKey)).added⟩],
    ⟨[a.key], a.key, (fullAdd o ((b.filter.addNextPrefix o (some a.key.userKey)).cut (some sep))
      a.key.userKey).added⟩, ?_, ?_, ?_, rfl, rfl, ?_, hx⟩
  · refine (hc.of_flag (fun hf => hfl ▸ hf)).snoc rfl rfl ?_ ?_ hlt (fun hf => (hs (hfl ▸ hf)).2)
    · exact ⟨fun hw k hk => by rw [mem_singleton.mp hk]; exact hwh hw,
        fun k hk hdm => by rw [mem_singleton.mp hk] at hdm ⊢; exact hpf hdm⟩
    · constructor
      · rintro _ ⟨⟩ hdm
        refine mem_addNextPrefix h.recorded p.sep.userKey ?_ (userKey_le_of_le (hle.trans hlt.le)) ?_ hdm
        · intro v hv
          obtain ⟨y, hy, rfl⟩ := mem_map.mp hv
          exact userKey_le_of_le (h.partitioned.le_sep hy)
        · intro hd
          rw [← h.added]
          exact (h.partitioned.covers p hp).pfx _ (mem_of_getLast? h.last) hd
      · intro hw k hk hdm
        refine hpr rfl hw k.userKey ?_ hdm
        rw [getLast?_map, hl]
        rw [h.last, Option.mem_some] at hk
        rw [hk]
        rfl
  · simp only [PartitionedFilterBlockBuilder.add, hf, grows.filters, map_append, h.filters]
    change _ = (b.filter.addNextPrefix o (some a.key.userKey)).filters ++ _
    rw [(addNextPrefix_grows o b.filter _).1.filters]
    rfl
  · simp only [PartitionedFilterBlockBuilder.add, hf]
  · simp only [PartitionedFilterBlockBuilder.add, hf, map_append, map_cons, map_nil]
    exact hr'

theorem Built.add (hlt : ∀ x ∈ keys, x < a.key) : ∃ parts' p', Built o (b.add o a) (keys ++ [a.key]) parts' p' := by
  have hls : p.sep < a.key := hlt _ (mem_of_getLast? (h.partitioned.getLast? h.last))
  obtain ⟨x, ha, hsq, hct⟩ := add_eq o b a h.noCut (by
    intro last hl
    rw [h.lastKey, Option.mem_some] at hl
    rwa [← hl])
  rw [ha]
  by_cases hc : x.cutFilterBlock = true
  · obtain ⟨last, sep, hl, hk, hle, hlt', hs⟩ := hct hc
    rw [h.lastKey, Option.some.injEq] at hl
    exact h.cut hc hk (hl ▸ hle) hlt' (fun hf => ⟨hsq hf, hs hf⟩)
  · obtain ⟨p', hp'⟩ := h.extend hls (by simpa using hc) hsq
    exact ⟨parts, p', hp'⟩

end

section

variable (as : List (KeyAdded κ)) (hne : as ≠ []) (hsr : (as.map KeyAdded.key).Pairwise (· < ·))

include as hne hsr

theorem built_foldl : ∃ parts p, Built o (as.foldl (FilterTableBuilder.add o) {}) (as.map KeyAdded.key) parts p := by
  induction as using List.reverseRecOn with
  | nil => exact absurd rfl hne
  | append_singleton as a ih =>
    rw [map_append, map_cons, map_nil] at hsr ⊢
    rw [foldl_append, foldl_cons, foldl_nil]
    obtain ⟨hl, -, hlt⟩ := pairwise_append.mp hsr
    by_cases has : as = []
    · subst has
      obtain ⟨p, hp⟩ := built_singleton o a
      exact ⟨[], p, hp⟩
    · obtain ⟨parts, p, hp⟩ := ih has hl
      exact hp.add fun x hx => hlt x hx _ mem_cons_self

theorem buildFilters_partitioned :
    ∃ parts, Partitioned o (buildFilters o as).index.seperatorIsKeyPlusSeq (as.map KeyAdded.key) parts ∧
      (buildFilters o as).filter.filters = parts.map Part.entry := by
  obtain ⟨parts, p, h⟩ := built_foldl (o := o) as hne hsr
  obtain ⟨sep, hk, hle, hs, hct⟩ := PartitionedIndexBuilder.addIndexEntry_none (o := o)
    (as.foldl (FilterTableBuilder.add o) {}).index true p.sep
  obtain ⟨hf, hfl, -⟩ := maybeCutAFilterBlock_spec o (as.foldl (FilterTableBuilder.add o) {}).filter none hct
  have hc := h.close hle hs none
  refine ⟨parts ++ [⟨p.keys, sep, (addNextPrefix o (as.foldl (FilterTableBuilder.add o) {}).filter none).added⟩],
    ?_, ?_⟩
  · simp only [buildFilters, finish, h.lastKey]
    rw [hfl]
    exact hc
  · simp only [buildFilters, finish, h.lastKey]
    rw [hf, hk, map_append, h.filters]
    rfl

end

end FilterTableBuilder

end ZenFSPlus.Table
