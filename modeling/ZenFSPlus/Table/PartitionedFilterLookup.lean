import Mathlib.Order.Fin.Basic
import ZenFSPlus.Table.PartitionedFilterCoverage

namespace ZenFSPlus.Table

open ZenFSPlus.Db Lib List

variable {κ : Type} [LinearOrder κ] [Inhabited κ] {o : TableOptions κ}

namespace Partitioned

variable {flag : Bool} {keys : List (InternalKey κ)} {parts : List (Part κ)} {k t : InternalKey κ}

section

variable (h : Partitioned o flag keys parts)

include h

theorem of_select (t : InternalKey κ) {C : Option (Part κ) → Prop}
    (hC : ∀ {β : Type} [LinearOrder β] (view : InternalKey κ → β), Separated view Part.keys Part.sep parts →
      C (select (fun q => decide (view q.sep < view t)) parts)) :
    C (select (fun q => separatorBefore flag t q.entry) parts) := by
  cases flag with
  | true => exact hC id h.separated
  | false => exact hC InternalKey.userKey h.separated_userKey

theorem exists_part (hk : k ∈ keys) : ∃ pre p post, parts = pre ++ p :: post ∧ k ∈ p.keys := by
  rw [← h.keys, mem_flatMap] at hk
  obtain ⟨p, hp, hk⟩ := hk
  obtain ⟨pre, post, hpr⟩ := append_of_mem hp
  exact ⟨pre, p, post, hpr, hk⟩

theorem mem_keys {p : Part κ} (hp : p ∈ parts) (hk : k ∈ p.keys) : k ∈ keys := by
  rw [← h.keys]
  exact mem_flatMap.mpr ⟨p, hp, hk⟩

theorem part_sorted (hs : keys.Pairwise (· < ·)) {p : Part κ} (hp : p ∈ parts) : p.keys.Pairwise (· < ·) := by
  rw [← h.keys, pairwise_flatMap] at hs
  exact hs.1 p hp

theorem key_matches (hw : o.wholeKeyFiltering = true) (hk : k ∈ keys) :
    ∃ p, select (fun q => separatorBefore flag k q.entry) parts = some p ∧ k.userKey ∈ p.added := by
  obtain ⟨pre, p, post, rfl, hkp⟩ := h.exists_part hk
  have hp : p ∈ pre ++ p :: post := mem_append_right _ mem_cons_self
  refine ⟨p, ?_, (h.covers p hp).whole hw k hkp⟩
  apply h.of_select k (C := fun s => s = some p)
  intro β _ view hs
  exact hs.select_own hkp

theorem seek_matches (hsr : keys.Pairwise (· < ·))
    (hk : IsLeast {x | x ∈ keys ∧ t ≤ x} k) (hd : o.prefixExtractor.inDomain k.userKey = true) :
    ∃ p, select (fun q => separatorBefore flag t q.entry) parts = some p ∧
      o.prefixExtractor.transform k.userKey ∈ p.added := by
  obtain ⟨pre, p, post, rfl, hkp⟩ := h.exists_part hk.1.1
  have hp : p ∈ pre ++ p :: post := mem_append_right _ mem_cons_self
  apply h.of_select t (C := fun s => ∃ p, s = some p ∧ o.prefixExtractor.transform k.userKey ∈ p.added)
  intro β _ view hs
  have hls : ∀ q ∈ pre ++ p :: post, ∀ x ∈ q.keys, x < k → x < t := by
    intro q hq x hx hxk
    by_contra hxt
    exact absurd hxk (hk.2 ⟨h.mem_keys hq hx, not_lt.mp hxt⟩).not_gt
  rcases hs.select_seek hkp hk.1.2 hls with ho | ⟨pre', q, rfl, hpr, hf⟩
  · exact ⟨p, ho, (h.covers p hp).pfx k hkp hd⟩
  refine ⟨q, hpr, ?_⟩
  have hl : Part.Linked o q p := by
    have hc := h.linked
    rw [append_assoc, singleton_append] at hc
    exact (isChain_append_cons_cons.mp hc).2.1
  exact hl.next k (head?_of_least (h.part_sorted hsr hp) hkp hf) hd

theorem seekForPrev_matches (hsr : keys.Pairwise (· < ·))
    (hk : IsGreatest {x | x ∈ keys ∧ x ≤ t} k) (hdm : o.prefixExtractor.inDomain k.userKey = true)
    (hc : o.wholeKeyFiltering = true ∨ ∀ k', IsLeast {x | x ∈ keys ∧ t < x} k' →
      o.prefixExtractor.inDomain k'.userKey = true ∧
        o.prefixExtractor.transform k'.userKey = o.prefixExtractor.transform k.userKey) :
    ∃ p, select (fun q => separatorBefore flag t q.entry) parts = some p ∧
      o.prefixExtractor.transform k.userKey ∈ p.added := by
  obtain ⟨pre, p, post, rfl, hkp⟩ := h.exists_part hk.1.1
  have hp : p ∈ pre ++ p :: post := mem_append_right _ mem_cons_self
  apply h.of_select t (C := fun s => ∃ p, s = some p ∧ o.prefixExtractor.transform k.userKey ∈ p.added)
  intro β _ view hsp
  have hg : ∀ q ∈ pre ++ p :: post, ∀ x ∈ q.keys, k < x → t < x := by
    intro q hq x hx hkx
    by_contra htx
    exact absurd hkx (hk.2 ⟨h.mem_keys hq hx, not_lt.mp htx⟩).not_gt
  rcases hsp.select_seekForPrev hkp hk.1.2 hg with ho | ⟨q, post', rfl, hn, hla⟩
  · exact ⟨p, ho, (h.covers p hp).pfx k hkp hdm⟩
  refine ⟨q, hn, ?_⟩
  have hq : q ∈ pre ++ p :: q :: post' := mem_append_right _ (mem_cons_of_mem _ mem_cons_self)
  have hl : Part.Linked o p q := (isChain_append_cons_cons.mp h.linked).2.1
  rcases hc with hw | ha
  · exact hl.prev hw k (getLast?_of_greatest (h.part_sorted hsr hp) hkp hla) hdm
  obtain ⟨first, rest, hf⟩ := exists_cons_of_ne_nil (h.nonempty q hq)
  have hm : first ∈ q.keys := hf ▸ mem_cons_self
  have hls : IsLeast {x | x ∈ keys ∧ t < x} first := by
    have hs : keys = (pre.flatMap Part.keys ++ p.keys) ++ first :: (rest ++ post'.flatMap Part.keys) := by
      rw [← h.keys]
      simp [flatMap_append, hf]
    rw [hs] at hsr
    have hk_first : k < first := (pairwise_append.mp hsr).2.2 k (mem_append_right _ hkp) first mem_cons_self
    have hb : ∀ x ∈ pre.flatMap Part.keys ++ p.keys, x ≤ k := by
      intro x hx
      rcases mem_append.mp hx with hx | hx
      · exact ((pairwise_append.mp (pairwise_append.mp hsr).1).2.2 x hx k hkp).le
      · exact hla x hx
    rw [hs]
    exact isLeast_after hsr (fun x hx => (hb x hx).trans hk.1.2) (hg q hq first hm hk_first)
  obtain ⟨hd, ht⟩ := ha first hls
  rw [← ht]
  exact (h.covers q hq).pfx first hm hd

end

end Partitioned

theorem exists_handle {as : List (KeyAdded κ)} (hs : (as.map KeyAdded.key).Pairwise (· < ·))
    (t : InternalKey κ) {k : InternalKey κ} (hk : k ∈ as.map KeyAdded.key) {u : κ}
    (hsl : ∀ {parts}, Partitioned o (buildFilters o as).index.seperatorIsKeyPlusSeq (as.map KeyAdded.key) parts →
      ∃ p, select (fun q => separatorBefore (buildFilters o as).index.seperatorIsKeyPlusSeq t q.entry) parts =
        some p ∧ u ∈ p.added) (bits : FilterBits κ) :
    mayMatch bits (buildFilters o as) u t = true := by
  have hne : as ≠ [] := by
    rintro rfl
    cases hk
  obtain ⟨parts, hpr, hf⟩ := FilterTableBuilder.buildFilters_partitioned (o := o) as hne hs
  obtain ⟨p, hp, hu⟩ := hsl hpr
  have hh : getFilterPartitionHandle (buildFilters o as) t = some p.entry := by
    rw [getFilterPartitionHandle, hf, select_map, hp, Option.map_some]
  rw [mayMatch, hh]
  exact bits.noFalseNegative hu

def plainComparator (κ : Type) [LinearOrder κ] (size : κ → ℕ) : UserComparator κ where
  size := size
  findShortestSeparator a _ := a
  findShortSuccessor a := a
  separator_mem a _ h := ⟨le_refl a, h⟩
  separator_self _ := rfl

def exactBits (κ : Type) [DecidableEq κ] : FilterBits κ where
  mayMatch added key := decide (key ∈ added)
  noFalseNegative h := decide_eq_true h

def oneByteOptions (wholeKeyFiltering : Bool) : TableOptions (List (Fin 256)) where
  comparator := plainComparator _ List.length
  prefixExtractor := fixedPrefixTransform 1
  wholeKeyFiltering := wholeKeyFiltering
  indexShortening := .kNoShortening
  formatVersion := 5
  keysPerPartition := 100

def threeBlocks : List (KeyAdded (List (Fin 256))) :=
  [⟨⟨[97, 48], 513⟩, none⟩, ⟨⟨[97, 49], 513⟩, some false⟩, ⟨⟨[98, 49], 513⟩, some true⟩]

end ZenFSPlus.Table
