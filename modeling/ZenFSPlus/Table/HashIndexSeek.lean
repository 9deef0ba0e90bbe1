import Mathlib.Data.List.GetD
import ZenFSPlus.Table.HashIndexRecords
import ZenFSPlus.Table.PartitionedFilterCoverage

namespace ZenFSPlus.Table

open ZenFSPlus.Db ZenFSPlus.Util List InternalKey HashIndexBuilder IndexBlock

variable {h : HashIndexOptions}

def primarySeps (h : HashIndexOptions) (flag : Bool) : List (List ByteKey) → List ByteKey × Bool
  | [] => ([], flag)
  | block :: blocks =>
    match block.getLast? with
    | some last =>
      let entry := shortenedAddIndexEntry h.primary flag last (blocks.head?.bind List.head?)
      let rest := primarySeps h entry.2 blocks
      (entry.1 :: rest.1, rest.2)
    | none => primarySeps h flag blocks

theorem onKeyAdded_primary (x : HashIndexBuilder) (block : List ByteKey) :
    (block.foldl (onKeyAdded h) x).seps = x.seps ∧
      (block.foldl (onKeyAdded h) x).seperatorIsKeyPlusSeq = x.seperatorIsKeyPlusSeq := by
  induction block generalizing x with
  | nil => exact ⟨rfl, rfl⟩
  | cons key block ih =>
    rw [foldl_cons, (ih _).1, (ih _).2]
    unfold onKeyAdded
    split
    · split
      · exact ⟨rfl, rfl⟩
      · exact ⟨rfl, rfl⟩
    · split
      · exact ⟨rfl, rfl⟩
      · exact ⟨rfl, rfl⟩

theorem addBlocks_primary (x : HashIndexBuilder) (blocks : List (List ByteKey)) :
    let r := primarySeps h x.seperatorIsKeyPlusSeq blocks
    (x.addBlocks h blocks).seps = x.seps ++ r.1 ∧ (x.addBlocks h blocks).seperatorIsKeyPlusSeq = r.2 := by
  induction blocks generalizing x with
  | nil => exact ⟨(append_nil _).symm, rfl⟩
  | cons block blocks ih =>
    rw [addBlocks, (ih _).1, (ih _).2, primarySeps, addBlock]
    cases block.getLast? with
    | none => exact ⟨rfl, rfl⟩
    | some last =>
      obtain ⟨hsp, hf⟩ := onKeyAdded_primary (h := h) x block
      simp [addIndexEntry, hsp, hf]

theorem buildHashIndex_primary (blocks : List (List ByteKey)) :
    (buildHashIndex h blocks).seps = (primarySeps h (decide (h.formatVersion ≤ 2)) blocks).1 ∧
      (buildHashIndex h blocks).seperatorIsKeyPlusSeq = (primarySeps h (decide (h.formatVersion ≤ 2)) blocks).2 := by
  have hb := addBlocks_primary (h := h) { seperatorIsKeyPlusSeq := decide (h.formatVersion ≤ 2) } blocks
  unfold buildHashIndex HashIndexBuilder.finish
  split
  · exact hb
  · exact hb

theorem primarySeps_flag (flag : Bool) (blocks : List (List ByteKey)) (hf : (primarySeps h flag blocks).2 = false) :
    flag = false := by
  induction blocks generalizing flag with
  | nil => exact hf
  | cons block blocks ih =>
    rw [primarySeps] at hf
    cases hl : block.getLast? with
    | none =>
      rw [hl] at hf
      exact ih flag hf
    | some last =>
      rw [hl] at hf
      have he := ih _ hf
      cases hn : blocks.head?.bind List.head? with
      | none =>
        rw [hn] at he
        exact he
      | some next =>
        rw [hn] at he
        exact (Bool.or_eq_false_iff.mp he).1

structure SepFacts (h : HashIndexOptions) (blocks : List (List ByteKey)) (seps : List ByteKey) (flag : Bool) :
    Prop where
  length : seps.length = blocks.length
  within : ∀ (i : ℕ) block sep, blocks[i]? = some block → seps[i]? = some sep → ∀ k ∈ block, k ≤ sep
  apart : ∀ (i j : ℕ) block sep, i < j → seps[i]? = some sep → blocks[j]? = some block → ∀ k ∈ block,
    sep < k ∧ (flag = false → sep.userKey < k.userKey)
  made : ∀ (i : ℕ) block next sep, blocks[i]? = some block → blocks[i + 1]? = some next → seps[i]? = some sep →
    ∃ keyPlusSeq last first, last ∈ block ∧ next.head? = some first ∧
      sep = (shortenedAddIndexEntry h.primary keyPlusSeq last (some first)).1

theorem le_getLast {block : List ByteKey} (hb : block.Pairwise (· < ·)) {last : ByteKey}
    (hl : block.getLast? = some last) : ∀ k ∈ block, k ≤ last := by
  intro k hk
  obtain ⟨init, rfl⟩ := getLast?_eq_some_iff.mp hl
  rcases mem_append.mp hk with hk | hk
  · exact ((pairwise_append.mp hb).2.2 k hk last mem_cons_self).le
  · rw [mem_singleton.mp hk]

theorem last_le_sep (flag : Bool) (last : ByteKey) (next : Option ByteKey) :
    last ≤ (shortenedAddIndexEntry h.primary flag last next).1 := by
  cases next with
  | none => exact PartitionedIndexBuilder.shortened_none flag
  | some first => exact (PartitionedIndexBuilder.shortened_some flag last first).1

variable {b : List ByteKey} {blocks : List (List ByteKey)}

theorem sep_lt_later (flag : Bool) {last : ByteKey} (hne : ∀ b ∈ blocks, b ≠ [])
    (hsr : blocks.flatten.Pairwise (· < ·)) (hlt : ∀ k ∈ blocks.flatten, last < k)
    (hb : b ∈ blocks) {k : ByteKey} (hk : k ∈ b) :
    let r := shortenedAddIndexEntry h.primary flag last (blocks.head?.bind List.head?)
    r.1 < k ∧ (r.2 = false → r.1.userKey < k.userKey) := by
  cases blocks with
  | nil => cases hb
  | cons next blocks =>
    obtain ⟨first, tail, rfl⟩ := exists_cons_of_ne_nil (hne next mem_cons_self)
    have hm : k ∈ first :: (tail ++ blocks.flatten) := by
      have := mem_flatten.mpr ⟨b, hb, hk⟩
      rwa [flatten_cons, cons_append] at this
    have hfirst : first ≤ k := by
      rw [flatten_cons, cons_append] at hsr
      rcases mem_cons.mp hm with rfl | hm
      · exact le_refl _
      · exact ((pairwise_cons.mp hsr).1 k hm).le
    have hlf : last < first := hlt first (mem_flatten.mpr ⟨_, mem_cons_self, mem_cons_self⟩)
    obtain ⟨-, hsf, hn⟩ := PartitionedIndexBuilder.shortened_some (o := h.primary) flag last first
    refine ⟨(hsf hlf).trans_le hfirst, fun hf => ?_⟩
    have hu := userKey_le_of_le (hsf hlf).le
    exact (lt_of_le_of_ne hu (hn hf)).trans_le (userKey_le_of_le hfirst)

theorem sepFacts (flag : Bool) (blocks : List (List ByteKey)) (hne : ∀ block ∈ blocks, block ≠ [])
    (hsr : blocks.flatten.Pairwise (· < ·)) :
    SepFacts h blocks (primarySeps h flag blocks).1 (primarySeps h flag blocks).2 := by
  induction blocks generalizing flag with
  | nil =>
    refine ⟨rfl, ?_, ?_, ?_⟩
    · exact fun i block sep hb => nomatch hb
    · exact fun i j block sep _ hs => nomatch hs
    · exact fun i block next sep hb => nomatch hb
  | cons block blocks ih =>
    have hb : block ≠ [] := hne block mem_cons_self
    have hne' : ∀ b ∈ blocks, b ≠ [] := fun b hm => hne b (mem_cons_of_mem _ hm)
    rw [flatten_cons] at hsr
    obtain ⟨hbl, hr, hlt⟩ := pairwise_append.mp hsr
    have hls := getLast?_eq_getLast_of_ne_nil hb
    generalize block.getLast hb = last at hls
    have hl : last ∈ block := mem_of_getLast? hls
    have hfc := ih (shortenedAddIndexEntry h.primary flag last (blocks.head?.bind List.head?)).2 hne' hr
    rw [primarySeps, hls]
    refine ⟨by simp [hfc.length], ?_, ?_, ?_⟩
    · intro i b sep hbi hsi k hk
      cases i with
      | zero =>
        cases hbi
        cases hsi
        exact (le_getLast hbl hls k hk).trans (last_le_sep flag last _)
      | succ i => exact hfc.within i b sep hbi hsi k hk
    · intro i j b sep hij hsi hbj k hk
      cases j with
      | zero => exact absurd hij (Nat.not_lt_zero i)
      | succ j =>
        cases i with
        | zero =>
          cases hsi
          obtain ⟨hky, hu⟩ := sep_lt_later (h := h) flag hne' hr (hlt last hl) (mem_of_getElem? hbj) hk
          exact ⟨hky, fun hf => hu (primarySeps_flag _ _ hf)⟩
        | succ i => exact hfc.apart i j b sep (Nat.lt_of_succ_lt_succ hij) hsi hbj k hk
    · intro i b next sep hbi hbn hsi
      cases i with
      | zero =>
        cases hbi
        cases hsi
        cases blocks with
        | nil => cases hbn
        | cons nb blocks =>
          cases hbn
          obtain ⟨first, tail, rfl⟩ := exists_cons_of_ne_nil (hne' next mem_cons_self)
          exact ⟨flag, last, first, hl, rfl, rfl⟩
      | succ i => exact hfc.made i b next sep hbi hbn hsi

theorem take_le_self (n : ℕ) (s : List Byte) : s.take n ≤ s := by
  induction s generalizing n with
  | nil => simp
  | cons a s ih =>
    cases n with
    | zero => exact (nil_lt_cons a s).le
    | succ n => exact cons_le_cons_self a (ih n)

theorem sep_le_target (kps : Bool) {last first target : ByteKey}
    (hvalid : target.tag ≤ packSequenceAndType InternalKey.kMaxSequenceNumber kValueTypeForSeek)
    (hls : last < target) (hfirst : target ≤ first) (hll : h.prefixLen ≤ last.userKey.length)
    (htr : h.prefixLen ≤ target.userKey.length) (hf : h.prefixLen ≤ first.userKey.length)
    (hsame : h.prefixOf first = h.prefixOf target) (hd : h.prefixOf last ≠ h.prefixOf target) :
    (shortenedAddIndexEntry h.primary kps last (some first)).1 ≤ target := by
  unfold shortenedAddIndexEntry
  dsimp only
  split
  · unfold findShortestSeparator
    dsimp only
    split
    · rename_i htm
      by_contra hn
      have hm : bytewiseShortestSeparator last.userKey first.userKey < first.userKey := by
        apply bytewiseShortestSeparator_lt
        apply lt_of_le_of_ne (userKey_le_of_le (hls.le.trans hfirst))
        intro heq
        have hsl : h.primary.comparator.findShortestSeparator last.userKey first.userKey = last.userKey := by
          rw [← heq]
          exact bytewiseShortestSeparator_self _
        rw [hsl] at htm
        exact lt_irrefl _ htm.2
      rcases lt_iff.mp (not_le.mp hn) with hlt | ⟨-, htg⟩
      · have hlt' : target.userKey < bytewiseShortestSeparator last.userKey first.userKey := hlt
        obtain ⟨hl, ht⟩ := take_eq_of_between hlt'.le hm.le htr hf hsame.symm
        have heq := bytewiseShortestSeparator_eq_take hll hf
          (by rw [← HashIndexOptions.prefixOf, ← HashIndexOptions.prefixOf, hsame]; exact hd) hl
          (ht.trans hsame.symm)
        have hle : first.userKey.take h.prefixLen ≤ target.userKey := by
          have := take_le_self h.prefixLen target.userKey
          rwa [← HashIndexOptions.prefixOf, ← hsame, HashIndexOptions.prefixOf] at this
        rw [heq] at hlt'
        exact absurd hlt' hle.not_gt
      · exact absurd hvalid (not_le.mpr htg)
    · exact hls.le
  · exact hls.le

theorem binarySearch_spec (bef : ℕ → Bool) (left right : ℕ)
    (hmn : ∀ i j, i ≤ j → j ≤ right → bef j = true → bef i = true)
    (hex : ∃ j, left ≤ j ∧ j ≤ right ∧ bef j = false) :
    ∃ l, binarySearch bef left right = (l, l) ∧ left ≤ l ∧ l ≤ right ∧ bef l = false ∧
      ∀ j, left ≤ j → j < l → bef j = true := by
  fun_induction binarySearch bef left right with
  | case1 left right hle hm ih =>
    obtain ⟨j, hj, hjr, hbf⟩ := hex
    have hgt : (right + left) / 2 < j := by
      by_contra hn
      rw [hmn j _ (not_lt.mp hn) (by omega) hm] at hbf
      cases hbf
    obtain ⟨l, hr, hl, hlr, hbl, ha⟩ := ih hmn ⟨j, hgt, hjr, hbf⟩
    refine ⟨l, hr, by omega, hlr, hbl, fun i hi hil => ?_⟩
    by_cases him : i ≤ (right + left) / 2
    · exact hmn i _ him (by omega) hm
    · exact ha i (by omega) hil
  | case2 right hle hm =>
    refine ⟨right, rfl, le_rfl, le_rfl, ?_, fun j hj hj' => absurd hj (by omega)⟩
    have hsame : (right + right) / 2 = right := by omega
    rw [hsame] at hm
    simpa using hm
  | case3 left right hle hm hne ih =>
    have hb : bef ((right + left) / 2) = false := by simpa using hm
    obtain ⟨l, hr, hl, hlr, hbl, ha⟩ := ih (fun i j hij hj => hmn i j hij (by omega))
      ⟨(right + left) / 2, by omega, le_rfl, hb⟩
    exact ⟨l, hr, hl, by omega, hbl, ha⟩
  | case4 left right hle =>
    obtain ⟨j, hj, hjr, -⟩ := hex
    exact absurd hle (by omega)

theorem exists_first {keys : List ByteKey} (hsr : keys.Pairwise (· < ·)) {target k : ByteKey} (hk : k ∈ keys)
    (htk : target ≤ k) : ∃ first, first ∈ keys ∧ target ≤ first ∧ first ≤ k ∧ ∀ x ∈ keys, x < first → x < target := by
  induction keys with
  | nil => cases hk
  | cons x keys ih =>
    obtain ⟨hx, hky⟩ := pairwise_cons.mp hsr
    by_cases htx : target ≤ x
    · refine ⟨x, mem_cons_self, htx, ?_, fun y hy hyx => ?_⟩
      · rcases mem_cons.mp hk with rfl | hk
        · exact le_refl _
        · exact (hx k hk).le
      · rcases mem_cons.mp hy with rfl | hy
        · exact absurd hyx (lt_irrefl _)
        · exact absurd hyx (hx y hy).not_gt
    · have hkr : k ∈ keys := by
        rcases mem_cons.mp hk with rfl | hk
        · exact absurd htk htx
        · exact hk
      obtain ⟨first, hm, hle, hfk, hbelow⟩ := ih hky hkr
      refine ⟨first, mem_cons_of_mem _ hm, hle, hfk, fun y hy hyf => ?_⟩
      rcases mem_cons.mp hy with rfl | hy
      · exact not_le.mp htx
      · exact hbelow y hy hyf

section

variable {blocks : List (List ByteKey)} {seps : List ByteKey} {flag : Bool} {target first : ByteKey}

theorem SepFacts.exists_sep (hf : SepFacts h blocks seps flag) {i : ℕ} {block : List ByteKey}
    (hi : blocks[i]? = some block) : ∃ sep, seps[i]? = some sep := by
  have hlt : i < seps.length := by
    rw [hf.length]
    exact (List.getElem?_eq_some_iff.mp hi).1
  exact ⟨seps[i], List.getElem?_eq_getElem hlt⟩

variable {i j : ℕ}

theorem SepFacts.lt_of_lt (hf : SepFacts h blocks seps flag) {a b : List ByteKey} (hij : i < j)
    (ha : blocks[i]? = some a) (hb : blocks[j]? = some b) {x y : ByteKey} (hx : x ∈ a) (hy : y ∈ b) : x < y := by
  obtain ⟨sep, hsp⟩ := hf.exists_sep ha
  exact (hf.within i a sep ha hsp x hx).trans_lt (hf.apart i j b sep hij hsp hb y hy).1

variable {β : Type} [LinearOrder β] {view : ByteKey → β}

structure Seen (h : HashIndexOptions) (blocks : List (List ByteKey)) (block : IndexBlock) (target : ByteKey)
    (view : ByteKey → β) : Prop where
  facts : SepFacts h blocks block.seps block.keyIncludesSeq
  nonempty : ∀ b ∈ blocks, b ≠ []
  sorted : ∀ b ∈ blocks, b.Pairwise (· < ·)
  monotone : Monotone view
  apart : ∀ (i j : ℕ) b sep, i < j → block.seps[i]? = some sep → blocks[j]? = some b → ∀ k ∈ b,
    view sep < view k
  compare : ∀ (i : ℕ) sep, block.seps[i]? = some sep → block.compareBlockKey i target = cmp (view sep) (view target)

namespace Seen

variable {block : IndexBlock} {ids : List ℕ}

section

variable (hs : Seen h blocks block target view)

include hs

theorem head_le (hb : b ∈ blocks) {head k : ByteKey} (hh : b.head? = some head) (hk : k ∈ b) : head ≤ k := by
  obtain ⟨tail, rfl⟩ := head?_eq_some_iff.mp hh
  rcases mem_cons.mp hk with rfl | hk
  · exact le_refl _
  · exact ((pairwise_cons.mp (hs.sorted _ hb)).1 k hk).le

theorem before_mono (hij : i ≤ j)
    (hj : block.compareBlockKey j target = .lt) : block.compareBlockKey i target = .lt := by
  rcases lt_or_eq_of_le hij with hlt | rfl
  · cases hsp : block.seps[j]? with
    | none =>
      simp only [compareBlockKey, hsp] at hj
      cases hj
    | some sep =>
      have hjl : j < blocks.length := by
        rw [← hs.facts.length]
        exact (List.getElem?_eq_some_iff.mp hsp).1
      have hb := List.getElem?_eq_getElem hjl
      obtain ⟨sep', hsp'⟩ := hs.facts.exists_sep (List.getElem?_eq_getElem (lt_trans hlt hjl))
      obtain ⟨k, hk⟩ := exists_mem_of_ne_nil _ (hs.nonempty _ (mem_of_getElem? hb))
      rw [hs.compare j sep hsp, cmp_eq_lt_iff] at hj
      rw [hs.compare i sep' hsp', cmp_eq_lt_iff]
      exact (hs.apart i j _ sep' hlt hsp' hb k hk).trans_le
        ((hs.monotone (hs.facts.within j _ sep hb hsp k hk)).trans hj.le)
  · exact hj

theorem target_le_after {own b : List ByteKey}
    (ho : blocks[i]? = some own) (hn : block.compareBlockKey i target ≠ .lt) (hij : i < j)
    (hb : blocks[j]? = some b) {k : ByteKey} (hk : k ∈ b) : target ≤ k := by
  obtain ⟨sep, hsp⟩ := hs.facts.exists_sep ho
  rw [hs.compare i sep hsp, ne_eq, cmp_eq_lt_iff, not_lt] at hn
  by_contra hlt
  have hsk := hs.apart i j b sep hij hsp hb k hk
  exact absurd (hsk.trans_le (hs.monotone (not_le.mp hlt).le)) hn.not_gt

theorem head_next (hbelow : ∀ b ∈ blocks, ∀ k ∈ b, k < first → k < target)
    {i m : ℕ} (hat : blocks[m]? = some b) (hfirst : first ∈ b) (him : i < m)
    (hnt : block.compareBlockKey i target ≠ .lt) : ∃ next, blocks[i + 1]? = some next ∧ next.head? = some first := by
  have hm : m < blocks.length := (List.getElem?_eq_some_iff.mp hat).1
  obtain ⟨own, ho⟩ : ∃ own, blocks[i]? = some own := ⟨_, List.getElem?_eq_getElem (by omega)⟩
  obtain ⟨next, hn⟩ : ∃ next, blocks[i + 1]? = some next := ⟨_, List.getElem?_eq_getElem (by omega)⟩
  have hmm : next ∈ blocks := mem_of_getElem? hn
  obtain ⟨head, tail, hc⟩ := exists_cons_of_ne_nil (hs.nonempty next hmm)
  have hh : head ∈ next := hc ▸ mem_cons_self
  have hhd : next.head? = some head := by rw [hc, head?_cons]
  have hfh : first ≤ head := by
    by_contra hlt
    have ha := hs.target_le_after ho hnt (Nat.lt_succ_self i) hn hh
    exact absurd ha (hbelow next hmm head hh (not_le.mp hlt)).not_ge
  have hhf : head ≤ first := by
    rcases lt_or_eq_of_le (show i + 1 ≤ m by omega) with hlt | heq
    · exact (hs.facts.lt_of_lt hlt hn hat hh hfirst).le
    · rw [heq, hat, Option.some.injEq] at hn
      exact hs.head_le hmm hhd (hn ▸ hfirst)
  exact ⟨next, hn, hhd.trans (congrArg some (le_antisymm hhf hfh))⟩

end

theorem getD_lt (hi : ids.Pairwise (· < ·)) (hij : i < j) (hj : j < ids.length) : ids.getD i 0 < ids.getD j 0 := by
  rw [getD_eq_getElem _ _ (lt_trans hij hj), getD_eq_getElem _ _ hj]
  exact pairwise_iff_getElem.mp hi i j _ hj hij

theorem getD_le (hi : ids.Pairwise (· < ·)) (hij : i ≤ j) (hj : j < ids.length) : ids.getD i 0 ≤ ids.getD j 0 := by
  rcases lt_or_eq_of_le hij with hlt | rfl
  · exact (getD_lt hi hlt hj).le
  · exact le_refl _

theorem not_listed (hi : ids.Pairwise (· < ·)) {l : ℕ} (hl : l < ids.length) (hp : 0 < ids.getD l 0)
    (hg : l = 0 ∨ ids.getD (l - 1) 0 ≠ ids.getD l 0 - 1) : ids.getD l 0 - 1 ∉ ids := by
  intro hm
  obtain ⟨q, hq, hqd⟩ := mem_iff_getElem.mp hm
  have hqD : ids.getD q 0 = ids.getD l 0 - 1 := by rw [getD_eq_getElem _ _ hq, hqd]
  have hql : q < l := by
    by_contra hn
    have := getD_le hi (not_lt.mp hn) hq
    omega
  rcases hg with hz | ha
  · omega
  have hql' : q < l - 1 := by
    rcases lt_or_eq_of_le (show q ≤ l - 1 by omega) with hlt | heq
    · exact hlt
    · rw [heq] at hqD
      exact absurd hqD ha
  have h1 := getD_lt hi hql' (by omega)
  have h2 := getD_lt hi (show l - 1 < l by omega) hl
  omega

theorem not_before (hs : Seen h blocks block target view) {m : ℕ} (hat : blocks[m]? = some b)
    (hfirst : first ∈ b) (hle : target ≤ first) : block.compareBlockKey m target ≠ .lt := by
  obtain ⟨sep, hsp⟩ := hs.facts.exists_sep hat
  rw [hs.compare m sep hsp]
  intro hlt
  have hv := hs.monotone (hle.trans (hs.facts.within m b sep hat hsp first hfirst))
  exact absurd ((cmp_eq_lt_iff _ _).mp hlt) hv.not_gt

theorem search_spec (hs : Seen h blocks block target view) (hi : ids.Pairwise (· < ·)) {m : ℕ} (hm : m ∈ ids)
    (hn : block.compareBlockKey m target ≠ .lt) :
    ∃ l, binarySearch (fun i => block.compareBlockKey (ids.getD i 0) target == .lt) 0 (ids.length - 1) = (l, l) ∧
      l < ids.length ∧ block.compareBlockKey (ids.getD l 0) target ≠ .lt ∧ ids.getD l 0 ≤ m := by
  obtain ⟨pos, hpo, hps⟩ := mem_iff_getElem.mp hm
  have hp : ids.getD pos 0 = m := by rw [getD_eq_getElem _ _ hpo, hps]
  obtain ⟨l, hr, -, hlr, hbl, ha⟩ := binarySearch_spec
    (fun i => block.compareBlockKey (ids.getD i 0) target == .lt) 0 (ids.length - 1)
    (by
      intro i j hij hj hbj
      rw [beq_iff_eq] at hbj ⊢
      exact hs.before_mono (getD_le hi hij (by omega)) hbj)
    ⟨pos, Nat.zero_le _, by omega, by rw [hp]; simpa using hn⟩
  have hl : l ≤ pos := by
    by_contra hlt
    have := ha pos (Nat.zero_le _) (by omega)
    rw [hp, beq_iff_eq] at this
    exact hn this
  exact ⟨l, hr, by omega, by simpa using hbl, hp ▸ getD_le hi hl hpo⟩

section

variable (hs : Seen h blocks block target view)
  (hvalid : target.tag ≤ packSequenceAndType InternalKey.kMaxSequenceNumber kValueTypeForSeek)
  (hdom : ∀ b ∈ blocks, ∀ k ∈ b, h.prefixLen ≤ k.userKey.length) (htarget : h.prefixLen ≤ target.userKey.length)
  (hle : target ≤ first) (hbelow : ∀ b ∈ blocks, ∀ k ∈ b, k < first → k < target)
  (hsame : h.prefixOf first = h.prefixOf target) {m : ℕ} (hat : blocks[m]? = some b)
  (hfirst : first ∈ b)

include hs hvalid hdom htarget hle hbelow hsame hat hfirst

theorem not_gap {i : ℕ} (hi : i + 1 ≤ m) (hlc : ∀ b, blocks[i]? = some b → ∀ k ∈ b, h.prefixOf k ≠ h.prefixOf target) :
    block.compareBlockKey i target ≠ .gt := by
  intro hgt
  -- the next block starts with the key that is sought
  obtain ⟨next, hnx, hn⟩ := hs.head_next hbelow hat hfirst hi (by rw [hgt]; exact nofun)
  have hil : i < blocks.length := lt_trans hi (List.getElem?_eq_some_iff.mp hat).1
  have hp := List.getElem?_eq_getElem hil
  obtain ⟨sep, hse⟩ := hs.facts.exists_sep hp
  rw [hs.compare i sep hse, cmp_eq_gt_iff] at hgt
  obtain ⟨kps, last, head, hls, hh, hm⟩ := hs.facts.made i _ _ sep hp hnx hse
  obtain rfl : head = first := Option.some.inj (hh.symm.trans hn)
  have hl : last < target := hbelow _ (mem_of_getElem? hp) last hls (hs.facts.lt_of_lt hi hp hat hls hfirst)
  have hsp := sep_le_target kps hvalid hl hle
    (hdom _ (mem_of_getElem? hp) last hls) htarget (hdom b (mem_of_getElem? hat) head hfirst)
    hsame (hlc _ hp last hls)
  rw [← hm] at hsp
  exact absurd hgt (hs.monotone hsp).not_gt

theorem lands (hi : ids.Pairwise (· < ·))
    (hc : ∀ (i : ℕ) b, blocks[i]? = some b → ∀ k ∈ b, h.prefixOf k = h.prefixOf target → i ∈ ids) :
    ∃ i, block.binaryBlockIndexSeek target ids = .found i ∧
      (∀ (j : ℕ) b, j < i → blocks[j]? = some b → ∀ k ∈ b, k < target) ∧
      ((∃ b, blocks[i]? = some b ∧ first ∈ b) ∨ ∃ b, blocks[i + 1]? = some b ∧ b.head? = some first) := by
  obtain ⟨l, hr, hl, hn, hlm⟩ := hs.search_spec hi (hc m b hat first hfirst hsame) (hs.not_before hat hfirst hle)
  refine ⟨ids.getD l 0, ?_, ?_, ?_⟩
  · unfold binaryBlockIndexSeek
    dsimp only
    rw [hr]
    dsimp only
    rw [if_pos rfl, if_neg]
    rintro ⟨hp, hg, hgt⟩
    refine hs.not_gap hvalid hdom htarget hle hbelow hsame hat hfirst (i := ids.getD l 0 - 1) (by omega) ?_ hgt
    intro b' hb' k hk hpk
    exact not_listed hi hl hp hg (hc _ b' hb' k hk hpk)
  · intro j b' hj hb' k hk
    exact hbelow b' (mem_of_getElem? hb') k hk (hs.facts.lt_of_lt (lt_of_lt_of_le hj hlm) hb' hat hk hfirst)
  · rcases lt_or_eq_of_le hlm with hlt | heq
    · exact .inr (hs.head_next hbelow hat hfirst hlt hn)
    · exact .inl ⟨b, by rw [heq]; exact hat, hfirst⟩

end

end Seen

end

theorem seen_internalKey {seps : List ByteKey} (hf : SepFacts h blocks seps true)
    (hne : ∀ b ∈ blocks, b ≠ []) (hsr : blocks.flatten.Pairwise (· < ·)) (target : ByteKey) :
    Seen h blocks ⟨seps, true⟩ target (fun key => key) where
  facts := hf
  nonempty := hne
  sorted := (pairwise_flatten.mp hsr).1
  monotone := fun _ _ hle => hle
  apart := fun i j b sep hij hsp hb k hk => (hf.apart i j b sep hij hsp hb k hk).1
  compare := fun i sep hsp => by
    unfold compareBlockKey
    rw [hsp]
    rfl

theorem seen_userKey {seps : List ByteKey} (hf : SepFacts h blocks seps false)
    (hne : ∀ b ∈ blocks, b ≠ []) (hsr : blocks.flatten.Pairwise (· < ·)) (target : ByteKey) :
    Seen h blocks ⟨seps, false⟩ target userKey where
  facts := hf
  nonempty := hne
  sorted := (pairwise_flatten.mp hsr).1
  monotone := fun _ _ hle => userKey_le_of_le hle
  apart := fun i j b sep hij hsp hb k hk => (hf.apart i j b sep hij hsp hb k hk).2 rfl
  compare := fun i sep hsp => by
    unfold compareBlockKey
    rw [hsp]
    dsimp only
    rw [if_neg Bool.false_ne_true]
    -- the two sides decide the order of the lists differently
    congr

def HashIndexBuilder.indexBlock (x : HashIndexBuilder) : IndexBlock := ⟨x.seps, x.seperatorIsKeyPlusSeq⟩

/-- A seek through the hash index finds the first key that is not before the target, if a key with the target's prefix
is there. -/
theorem hashIndex_seek (blocks : List (List ByteKey)) (hne : ∀ b ∈ blocks, b ≠ [])
    (hsorted : blocks.flatten.Pairwise (· < ·))
    (hdom : ∀ b ∈ blocks, ∀ k ∈ b, h.prefixLen ≤ k.userKey.length) :
    ∃ index, BlockPrefixIndex.create h (buildHashIndex h blocks).prefixBlock
        (buildHashIndex h blocks).prefixMetaBlock = some index ∧
      (∀ target, (index.getBlocks h target).Pairwise (· < ·) ∧
        ∀ i b, blocks[i]? = some b → ∀ k ∈ b, h.prefixOf k = h.prefixOf target → i ∈ index.getBlocks h target) ∧
      ∀ target : ByteKey, h.prefixLen ≤ target.userKey.length →
        target.tag ≤ packSequenceAndType InternalKey.kMaxSequenceNumber kValueTypeForSeek →
        (∃ k ∈ blocks.flatten, h.prefixOf k = h.prefixOf target ∧ target ≤ k) →
        ∃ i first, (buildHashIndex h blocks).indexBlock.prefixSeek h index target = .found i ∧
          IsLeast {k | k ∈ blocks.flatten ∧ target ≤ k} first ∧
          (∀ j b, j < i → blocks[j]? = some b → ∀ k ∈ b, ¬ target ≤ k) ∧
          ((∃ b, blocks[i]? = some b ∧ first ∈ b) ∨ ∃ b, blocks[i + 1]? = some b ∧ b.head? = some first) := by
  obtain ⟨index, hcr, hbl⟩ := create_buildHashIndex (h := h) blocks hne
  refine ⟨index, hcr, hbl, fun target htarget hvalid hex => ?_⟩
  obtain ⟨k, hk, hsm, htk⟩ := hex
  obtain ⟨first, hfirst, hle, hfk, hbelow⟩ := exists_first hsorted hk htk
  obtain ⟨b, hb, hfr⟩ := mem_flatten.mp hfirst
  obtain ⟨bk, hbk, hkb⟩ := mem_flatten.mp hk
  obtain ⟨m, hm, hmb⟩ := mem_iff_getElem.mp hb
  have hat : blocks[m]? = some b := by rw [List.getElem?_eq_getElem hm, hmb]
  -- the first key is between two keys with the prefix
  have hsame : h.prefixOf first = h.prefixOf target :=
    (take_eq_of_between (userKey_le_of_le hle) (userKey_le_of_le hfk) htarget (hdom bk hbk k hkb) hsm.symm).2
  have hbelow' : ∀ b ∈ blocks, ∀ k ∈ b, k < first → k < target :=
    fun b hb k hk => hbelow k (mem_flatten.mpr ⟨b, hb, hk⟩)
  obtain ⟨hi, hc⟩ := hbl target
  have hl : ∃ i, (buildHashIndex h blocks).indexBlock.binaryBlockIndexSeek target (index.getBlocks h target) =
      .found i ∧ (∀ (j : ℕ) b, j < i → blocks[j]? = some b → ∀ k ∈ b, k < target) ∧
      ((∃ b, blocks[i]? = some b ∧ first ∈ b) ∨ ∃ b, blocks[i + 1]? = some b ∧ b.head? = some first) := by
    have hf := sepFacts (h := h) (decide (h.formatVersion ≤ 2)) blocks hne hsorted
    unfold indexBlock
    rw [(buildHashIndex_primary blocks).1, (buildHashIndex_primary blocks).2]
    generalize (primarySeps h (decide (h.formatVersion ≤ 2)) blocks).1 = seps at hf
    generalize (primarySeps h (decide (h.formatVersion ≤ 2)) blocks).2 = flag at hf
    cases flag with
    | true =>
      exact (seen_internalKey hf hne hsorted target).lands hvalid hdom htarget hle hbelow' hsame hat hfr hi hc
    | false =>
      exact (seen_userKey hf hne hsorted target).lands hvalid hdom htarget hle hbelow' hsame hat hfr hi hc
  obtain ⟨i, hfn, hbf, hln⟩ := hl
  refine ⟨i, first, ?_, ⟨⟨hfirst, hle⟩, ?_⟩, ?_, hln⟩
  · unfold prefixSeek
    rw [if_neg (ne_nil_of_mem (hc m b hat first hfr hsame))]
    exact hfn
  · rintro x ⟨hx, htx⟩
    by_contra hn
    exact absurd htx (hbelow x hx (not_le.mp hn)).not_ge
  · exact fun j b hj hb k hk => (hbf j b hj hb k hk).not_ge

def oneBucketOptions : HashIndexOptions where
  prefixLen := 1
  indexShortening := .kShortenSeparators
  formatVersion := 5
  hash := fun _ => 0

def prefixedBlocks : List (List ByteKey) :=
  [[⟨[97, 49], 513⟩, ⟨[97, 51], 513⟩], [⟨[98, 49], 513⟩, ⟨[99, 49], 513⟩], [⟨[99, 51], 513⟩]]

theorem hashIndex_seek_prefixedBlocks :
    ∃ index, BlockPrefixIndex.create oneBucketOptions (buildHashIndex oneBucketOptions prefixedBlocks).prefixBlock
        (buildHashIndex oneBucketOptions prefixedBlocks).prefixMetaBlock = some index ∧
      ∃ i first, (buildHashIndex oneBucketOptions prefixedBlocks).indexBlock.prefixSeek oneBucketOptions index
          ⟨[99, 50], 513⟩ = .found i ∧
        IsLeast {k | k ∈ prefixedBlocks.flatten ∧ ⟨[99, 50], 513⟩ ≤ k} first := by
  obtain ⟨index, hc, -, hsk⟩ := hashIndex_seek (h := oneBucketOptions) prefixedBlocks (by decide) (by decide)
    (by decide)
  obtain ⟨i, first, hf, hl, -⟩ := hsk ⟨[99, 50], 513⟩ (by decide) (by decide)
    ⟨⟨[99, 51], 513⟩, by decide, by decide, by decide⟩
  exact ⟨index, hc, i, first, hf, hl⟩

end ZenFSPlus.Table
