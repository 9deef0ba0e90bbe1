import ZenFSPlus.Util.RibbonBanding

namespace ZenFSPlus.Ribbon

open Lib BandingStorage List

variable {Key Hash : Type} {r w : ℕ}

structure InterleavedSolutionStorage.Layout (iss : InterleavedSolutionStorage r) (numBlocks : ℕ) : Prop where
  upperStartBlock_le : iss.upperStartBlock ≤ numBlocks
  upperStartBlock_eq_zero : iss.upperNumColumns = 0 → iss.upperStartBlock = 0
  numSegments_eq : iss.numSegments = iss.upperStartBlock * (iss.upperNumColumns - 1) +
    (numBlocks - iss.upperStartBlock) * iss.upperNumColumns

namespace InterleavedSolutionStorage

variable (iss : InterleavedSolutionStorage r)

def columns (block : ℕ) : ℕ :=
  iss.upperNumColumns - if block < iss.upperStartBlock then 1 else 0

def segmentStart (block : ℕ) : ℕ :=
  block * iss.upperNumColumns - min block iss.upperStartBlock

theorem columns_mono {a b : ℕ} (h : a ≤ b) : iss.columns a ≤ iss.columns b := by
  unfold columns
  split <;> split <;> omega

theorem columns_of_le {block : ℕ} (h : iss.upperStartBlock ≤ block) : iss.columns block = iss.upperNumColumns := by
  rw [columns, if_neg (Nat.not_lt.mpr h), Nat.sub_zero]

theorem segmentStart_succ (hz : iss.upperNumColumns = 0 → iss.upperStartBlock = 0) (block : ℕ) :
    iss.segmentStart (block + 1) = iss.segmentStart block + iss.columns block := by
  unfold segmentStart columns
  by_cases hc : iss.upperNumColumns = 0
  · simp [hc, hz hc]
  · have hp : block ≤ block * iss.upperNumColumns := Nat.le_mul_of_pos_right _ (Nat.pos_of_ne_zero hc)
    rw [Nat.succ_mul]
    split <;> omega

theorem segmentStart_mono (hz : iss.upperNumColumns = 0 → iss.upperStartBlock = 0) {a b : ℕ} (h : a ≤ b) :
    iss.segmentStart a ≤ iss.segmentStart b := by
  induction h with
  | refl => exact Nat.le_refl _
  | step _ ih =>
    rw [segmentStart_succ iss hz]
    omega

end InterleavedSolutionStorage

section

variable (bs : BandingStorage r w) (free : ℕ → BitVec w) (columns : ℕ → ℕ)

def stateAfter : ℕ → ℕ → BitVec r
  | 0 => fun _ => 0
  | n + 1 =>
    backSubstRow (columns ((bs.numSlots - (n + 1)) / r)) (bs.loadRow free (bs.numSlots - (n + 1)))
      (stateAfter n)

def stateAt (i : ℕ) : ℕ → BitVec r := stateAfter bs free columns (bs.numSlots - i)

def solution (j i : ℕ) : Bool := decide (i < bs.numSlots) && (stateAt bs free columns i j).getLsbD 0

variable {bs free columns}

theorem stateAt_eq {i : ℕ} (hi : i < bs.numSlots) : stateAt bs free columns i =
      backSubstRow (columns (i / r)) (bs.loadRow free i) (stateAt bs free columns (i + 1)) := by
  unfold stateAt
  have hn : bs.numSlots - i = bs.numSlots - (i + 1) + 1 := by omega
  have hs : bs.numSlots - (bs.numSlots - (i + 1) + 1) = i := by omega
  rw [hn, stateAfter, hs]

theorem stateAt_numSlots (j : ℕ) : stateAt bs free columns bs.numSlots j = 0 := by
  unfold stateAt
  rw [Nat.sub_self]
  rfl

theorem backSubstRow_getLsbD_zero (hr : 0 < r) {nc j : ℕ} (hj : j < nc)
    (row : BitVec r × BitVec w) (state : ℕ → BitVec r) :
    (backSubstRow nc row state j).getLsbD 0 = (bitParity (state j <<< 1 &&& row.1) ^^ row.2.getLsbD j) := by
  simp [backSubstRow, hj, hr]

theorem backSubstRow_getLsbD_succ {nc j k : ℕ} (hj : j < nc) (hk : k + 1 < r)
    (row : BitVec r × BitVec w) (state : ℕ → BitVec r) :
    (backSubstRow nc row state j).getLsbD (k + 1) = (state j).getLsbD k := by
  have hk' : k < r := Nat.lt_of_succ_lt hk
  simp [backSubstRow, hj, hk, BitVec.getLsbD_eq_getElem hk']

theorem stateAt_getLsbD (hm : ∀ {a b}, a ≤ b → columns a ≤ columns b) {i j : ℕ}
    (hi : i ≤ bs.numSlots) (hj : i < bs.numSlots → j < columns (i / r)) {k : ℕ} (hk : k < r) :
    (stateAt bs free columns i j).getLsbD k = solution bs free columns j (i + k) := by
  -- from the last row down: the word of a row is the word of the next one, shifted
  induction hn : bs.numSlots - i generalizing i k with
  | zero =>
    have heq : i = bs.numSlots := by omega
    subst heq
    have ho : ¬ bs.numSlots + k < bs.numSlots := by omega
    rw [stateAt_numSlots, solution, decide_eq_false ho]
    simp
  | succ n ih =>
    have hlt : i < bs.numSlots := by omega
    cases k with
    | zero =>
      rw [Nat.add_zero, solution]
      simp [hlt]
    | succ k =>
      rw [stateAt_eq hlt, backSubstRow_getLsbD_succ (hj hlt) hk,
        ih hlt (fun _ => Nat.lt_of_lt_of_le (hj hlt) (hm (Nat.div_le_div_right (Nat.le_succ i)))) (by omega) (by omega)]
      congr 1
      omega

theorem solution_solves (h : bs.Echelon) (hr : 0 < r) (hm : ∀ {a b}, a ≤ b → columns a ≤ columns b)
    (free : ℕ → BitVec w) {start j : ℕ} (hj : j < columns (start / r)) : bs.Solves (solution bs free columns j) j start := by
  intro i hi hne
  have hl := h.lowest i hne
  have hlt : i < bs.numSlots := by simpa using h.within i 0 hl
  have hji : j < columns (i / r) := Nat.lt_of_lt_of_le hj (hm (Nat.div_le_div_right hi))
  have hb : ∀ k < r, solution bs free columns j (i + k) = (stateAt bs free columns i j).getLsbD k :=
    fun k hk => (stateAt_getLsbD hm (Nat.le_of_lt hlt) (fun _ => hji) hk).symm
  -- the sum over the higher bits is what the row saw before its own bit was chosen
  have hrs : parity (fun k => (bs.coeffRows i).getLsbD (k + 1) && solution bs free columns j (i + (k + 1)))
      (r - 1) = bitParity (stateAt bs free columns (i + 1) j <<< 1 &&& bs.coeffRows i) := by
    rw [bitParity, parity_eq_head_xor _ hr, BitVec.getLsbD_and, BitVec.getLsbD_shiftLeft]
    simp only [Nat.lt_one_iff, decide_true, Bool.not_true, Bool.and_false, Bool.false_and, Bool.false_xor]
    apply parity_congr
    intro k hk
    have hk' : k < r := by omega
    have hk'' : k + 1 < r := by omega
    rw [hb (k + 1) hk'', stateAt_eq hlt, backSubstRow_getLsbD_succ hji hk'', BitVec.getLsbD_and,
      BitVec.getLsbD_shiftLeft, Bool.and_comm]
    simp [hk'']
  rw [dot, parity_eq_head_xor _ hr, hrs, hl, Bool.true_and, hb 0 hr, stateAt_eq hlt, backSubstRow_getLsbD_zero hr hji]
  simp only [loadRow, if_neg hne]
  cases bitParity (stateAt bs free columns (i + 1) j <<< 1 &&& bs.coeffRows i) <;> simp

theorem backSubstRows_eq {block n : ℕ} (hr : 0 < r) (hn : n ≤ r) (hslots : block * r + n ≤ bs.numSlots) :
    backSubstRows (columns block) bs free (block * r) n (stateAt bs free columns (block * r + n)) =
      stateAt bs free columns (block * r) := by
  induction n with
  | zero => rfl
  | succ n ih =>
    have hd : (block * r + n) / r = block := by
      rw [Nat.mul_comm, Nat.mul_add_div hr, Nat.div_eq_of_lt hn, Nat.add_zero]
    have hlt : block * r + n < bs.numSlots := by omega
    have hs : stateAt bs free columns (block * r + n) = _ := stateAt_eq hlt
    rw [hd] at hs
    rw [backSubstRows, ← Nat.add_assoc, ← hs]
    exact ih (by omega) (by omega)

end

theorem storeSegments_apply (segments state : ℕ → BitVec r) (sn n s : ℕ) : storeSegments segments sn state n s =
      if sn ≤ s ∧ s < sn + n then state (s - sn) else segments s := by
  induction n with
  | zero =>
    rw [storeSegments, if_neg (by omega)]
  | succ n ih =>
    rw [storeSegments]
    by_cases hs : s = sn + n
    · subst hs
      rw [Function.update_self, if_pos (by omega), Nat.add_sub_cancel_left]
    rw [Function.update_of_ne hs, ih]
    by_cases hin : sn ≤ s ∧ s < sn + n
    · rw [if_pos hin, if_pos (by omega)]
    · rw [if_neg hin, if_neg (by omega)]

section

variable {iss : InterleavedSolutionStorage r} {bs : BandingStorage r w} {free : ℕ → BitVec w}
  {nb : ℕ}

structure Substituted (iss : InterleavedSolutionStorage r) (bs : BandingStorage r w) (free : ℕ → BitVec w)
    (numBlocks block : ℕ) (s : BackSubst r) : Prop where
  state : s.state = stateAt bs free iss.columns (block * r)
  segmentNum : s.segmentNum = iss.segmentStart block
  segments : ∀ b, block ≤ b → b < numBlocks → ∀ j < iss.columns b,
    s.segments (iss.segmentStart b + j) = stateAt bs free iss.columns (b * r) j

theorem Substituted.blocks (hz : iss.upperNumColumns = 0 → iss.upperStartBlock = 0) (hr : 0 < r)
    (hslots : bs.numSlots = nb * r) (nc stop n : ℕ)
    (hcl : ∀ b, stop ≤ b → b < stop + n → iss.columns b = nc) (hn : stop + n ≤ nb)
    {s : BackSubst r} (h : Substituted iss bs free nb (stop + n) s) :
    Substituted iss bs free nb stop (backSubstBlocks bs free nc stop n s) := by
  induction n generalizing s with
  | zero => exact h
  | succ n ih =>
    rw [backSubstBlocks]
    refine ih (fun b hb hb' => hcl b hb (by omega)) (by omega) ?_
    have hc : iss.columns (stop + n) = nc := hcl _ (by omega) (by omega)
    have hsc := iss.segmentStart_succ hz (stop + n)
    have hs : backSubstBlock s.state nc bs free ((stop + n) * r) = stateAt bs free iss.columns ((stop + n) * r) := by
      have he : (stop + (n + 1)) * r = (stop + n) * r + r := by rw [← Nat.add_assoc, Nat.succ_mul]
      have hle : (stop + n) * r + r ≤ bs.numSlots := by
        rw [← he, hslots]
        exact Nat.mul_le_mul_right r hn
      rw [backSubstBlock, h.state, he, ← hc]
      exact backSubstRows_eq hr (Nat.le_refl r) hle
    have hnm : s.segmentNum - nc = iss.segmentStart (stop + n) := by
      rw [h.segmentNum, ← Nat.add_assoc, hsc, hc, Nat.add_sub_cancel]
    refine ⟨hs, hnm, ?_⟩
    intro b hb hb' j hj
    dsimp only
    rw [storeSegments_apply, hnm, hs]
    by_cases heq : b = stop + n
    · subst heq
      rw [if_pos (by omega), Nat.add_sub_cancel_left]
    -- the segments of the later blocks lie above those that are written
    have hm := iss.segmentStart_mono hz (show stop + n + 1 ≤ b by omega)
    rw [if_neg (by omega)]
    exact h.segments b (by omega) hb' j hj

theorem interleavedBackSubst_segments (hlayout : iss.Layout nb) (hr : 0 < r)
    (hslots : bs.numSlots = nb * r) (hbl : 0 < nb) {b : ℕ} (hb : b < nb) {j : ℕ}
    (hj : j < iss.columns b) :
    (interleavedBackSubst iss bs free).segments (iss.segmentStart b + j) = stateAt bs free iss.columns (b * r) j := by
  have hc : iss.upperNumColumns ≠ 0 := by
    intro hc
    simp [InterleavedSolutionStorage.columns, hc] at hj
  have hle : r ≤ bs.numSlots := by
    rw [hslots]
    exact Nat.le_mul_of_pos_left r hbl
  have hn : (bs.getNumStarts + r - 1) / r = nb := by
    have hsm : bs.getNumStarts + r - 1 = nb * r := by
      unfold getNumStarts
      omega
    rw [hsm, Nat.mul_div_cancel _ hr]
  have hs : Substituted iss bs free nb (iss.upperStartBlock + (nb - iss.upperStartBlock))
      ⟨fun _ => 0, iss.segments, iss.numSegments⟩ := by
    rw [Nat.add_sub_cancel' hlayout.upperStartBlock_le]
    refine ⟨?_, ?_, fun b hb hb' => absurd hb (by omega)⟩
    · funext j
      rw [← hslots, stateAt_numSlots]
    · obtain ⟨c, hc'⟩ := Nat.exists_eq_succ_of_ne_zero hc
      obtain ⟨d, hd⟩ := Nat.exists_eq_add_of_le hlayout.upperStartBlock_le
      rw [hlayout.numSegments_eq, InterleavedSolutionStorage.segmentStart, hc', hd]
      simp only [Nat.succ_eq_add_one, Nat.add_sub_cancel, Nat.add_sub_cancel_left, Nat.add_mul, Nat.mul_add,
        Nat.mul_one, Nat.min_eq_right (Nat.le_add_right iss.upperStartBlock d)]
      omega
  have hu := hlayout.upperStartBlock_le
  have hup := Substituted.blocks hlayout.upperStartBlock_eq_zero hr hslots iss.upperNumColumns
    iss.upperStartBlock (nb - iss.upperStartBlock) (fun b hb _ => iss.columns_of_le hb)
    (by omega) hs
  have hl := Substituted.blocks hlayout.upperStartBlock_eq_zero hr hslots (iss.upperNumColumns - 1) 0
    iss.upperStartBlock (fun b _ hb => by rw [InterleavedSolutionStorage.columns, if_pos (by omega)]) (by omega)
    (by rwa [Nat.zero_add])
  have hsg := hl.segments b (Nat.zero_le b) hb j hj
  simp only [interleavedBackSubst, hn, if_neg hc]
  exact hsg

end

section

variable {iss : InterleavedSolutionStorage r} {bs : BandingStorage r w} {free : ℕ → BitVec w}
  {nb : ℕ} (bh : BandingHasher Key Hash r w)

theorem interleavedPrepareQuery_eq (iss : InterleavedSolutionStorage r) (bs : BandingStorage r w)
    (free : ℕ → BitVec w) (key : Key) :
    interleavedPrepareQuery bh (interleavedBackSubst iss bs free) key =
      ⟨bh.getHash key, iss.segmentStart (startOf bh bs key / r), iss.columns (startOf bh bs key / r),
        startOf bh bs key % r⟩ := by
  rw [interleavedPrepareQuery, interleavedBackSubst]
  split
  · rfl
  · rfl

section

variable (hlayout : iss.Layout nb) (hr : 0 < r) (hslots : bs.numSlots = nb * r)

include hlayout hr hslots

theorem segment_getLsbD (free : ℕ → BitVec w) {b j t : ℕ} (hb : b < nb) (hj : j < iss.columns b) (ht : t < r) :
    ((interleavedBackSubst iss bs free).segments (iss.segmentStart b + j)).getLsbD t =
      solution bs free iss.columns j (b * r + t) := by
  rw [interleavedBackSubst_segments hlayout hr hslots (by omega) hb hj]
  have hle : b * r ≤ bs.numSlots := by
    rw [hslots]
    exact Nat.mul_le_mul_right r (Nat.le_of_lt hb)
  exact stateAt_getLsbD (fun h => iss.columns_mono h) hle (fun _ => by rwa [Nat.mul_div_cancel _ hr]) ht

theorem interleavedFilterQuery_of_solves (hbl : 0 < nb) (key : Key)
    (hky : ∀ j < iss.columns (startOf bh bs key / r), SolvesKey bh bs (solution bs free iss.columns j) j key) :
    interleavedFilterQuery bh (interleavedBackSubst iss bs free)
      (interleavedPrepareQuery bh (interleavedBackSubst iss bs free) key) = true := by
  rw [interleavedPrepareQuery_eq]
  have hst : startOf bh bs key < bs.getNumStarts := bh.getStart_lt _ (Nat.succ_pos _)
  generalize hs : startOf bh bs key = start at hky hst
  have hle : r ≤ bs.numSlots := by
    rw [hslots]
    exact Nat.le_mul_of_pos_left r hbl
  have he : start + r ≤ nb * r := by
    unfold getNumStarts at hst
    omega
  have hsm : start / r * r + start % r = start := by
    rw [Nat.mul_comm]
    exact Nat.div_add_mod start r
  have hb : start / r < nb := by
    rw [Nat.div_lt_iff_lt_mul hr]
    omega
  unfold interleavedFilterQuery
  dsimp only
  by_cases hz : start % r = 0
  · rw [if_pos hz, all_eq_true]
    intro j hj
    rw [mem_range] at hj
    have hd := hky j hj
    rw [SolvesKey, hs] at hd
    rw [beq_iff_eq, ← hd, dot, bitParity]
    apply parity_congr
    intro k hk
    have hbs : start / r * r = start := by omega
    rw [BitVec.getLsbD_and, segment_getLsbD hlayout hr hslots free hb hj hk, hbs, Bool.and_comm]
  · rw [if_neg hz, all_eq_true]
    intro j hj
    rw [mem_range] at hj
    have hm := Nat.mod_lt start hr
    have hn : start / r + 1 < nb := by
      by_contra hl
      have hml : nb * r ≤ (start / r + 1) * r := Nat.mul_le_mul_right r (by omega)
      rw [Nat.succ_mul] at hml
      omega
    have hj' : j < iss.columns (start / r + 1) := Nat.lt_of_lt_of_le hj (iss.columns_mono (Nat.le_succ _))
    have hd := hky j hj
    rw [SolvesKey, hs] at hd
    rw [beq_iff_eq, ← hd, bitParity, ← hsm, hsm, ← iss.segmentStart_succ hlayout.upperStartBlock_eq_zero]
    have hw := parity_two_words (bh.getCoeffRow (bh.getHash key)) (Nat.le_of_lt hm)
      (fun t ht => segment_getLsbD hlayout hr hslots free hb hj ht)
      (fun t ht => by
        rw [segment_getLsbD hlayout hr hslots free hn hj' ht, Nat.succ_mul])
    rwa [hsm] at hw

end

end

inductive Reached (numSlots : ℕ) : BandingStorage r w → Prop
  | empty : Reached numSlots (BandingStorage.empty numSlots)
  | add {Key Hash : Type} {bs bs' : BandingStorage r w} {ok : Bool} (bh : BandingHasher Key Hash r w)
      (usePrefetch useBacktrack : Bool) (keys : List Key) (h : Reached numSlots bs)
      (hadd : bandingAddRange bh usePrefetch useBacktrack bs keys = some (ok, bs')) : Reached numSlots bs'

theorem Reached.echelon {numSlots : ℕ} {bs : BandingStorage r w} (hslots : r ≤ numSlots)
    (h : Reached numSlots bs) : bs.Echelon ∧ bs.numSlots = numSlots := by
  induction h with
  | empty => exact ⟨echelon_empty numSlots, rfl⟩
  | add bh usePrefetch ub keys _ ha ih =>
    obtain ⟨_, bs', hrn, he, hn, -⟩ := bandingAddRange_added bh ih.1 (by rw [ih.2]; exact hslots) usePrefetch ub keys
    rw [ha, Option.some.injEq, Prod.mk.injEq] at hrn
    rw [hrn.2]
    exact ⟨he, hn.trans ih.2⟩

/-- If banding reports success from the empty storage then every key passes the query after the back substitution,
whatever the unconstrained rows are; if it fails with backtracking, the storage is as before. -/
theorem ribbonFilter_holds_keys (hr : 0 < r) (nb : ℕ) (hblocks : 0 < nb)
    (bh : BandingHasher Key Hash r w) (usePrefetch useBacktrack : Bool) (keys : List Key)
    (iss : InterleavedSolutionStorage r) (hlayout : iss.Layout nb) (free : ℕ → BitVec w) :
    (∃ ok bs, bandingAddRange bh usePrefetch useBacktrack (.empty (nb * r)) keys = some (ok, bs) ∧
      (ok = true → ∀ key ∈ keys, interleavedFilterQuery bh (interleavedBackSubst iss bs free)
        (interleavedPrepareQuery bh (interleavedBackSubst iss bs free) key) = true)) ∧
    ∀ bs : BandingStorage r w, Reached (nb * r) bs →
      ∃ ok bs', bandingAddRange bh usePrefetch true bs keys = some (ok, bs') ∧ (ok = false → bs' = bs) := by
  have hslots : r ≤ nb * r := Nat.le_mul_of_pos_left r hblocks
  constructor
  · obtain ⟨ok, bs, hrn, he, hn, hs, -⟩ := bandingAddRange_added bh
      (echelon_empty (nb * r)) hslots usePrefetch useBacktrack keys
    refine ⟨ok, bs, hrn, fun hok key hk => ?_⟩
    have hsame : startOf bh bs key = startOf bh (.empty (nb * r)) key := by
      unfold startOf getNumStarts
      rw [hn]
    apply interleavedFilterQuery_of_solves bh hlayout hr hn hblocks key
    intro j hj
    have hc := solution_solves he hr (fun h => iss.columns_mono h) free hj
    rw [hsame] at hc
    have hk' := hs hok key hk _ j hc
    rwa [SolvesKey, ← hsame] at hk'
  · intro bs hbs
    obtain ⟨he, hn⟩ := hbs.echelon hslots
    obtain ⟨ok, bs', hrn, -, -, -, hb⟩ := bandingAddRange_added bh he (by rw [hn]; exact hslots) usePrefetch true keys
    exact ⟨ok, bs', hrn, fun hok => hb hok rfl⟩

def pairHasher : BandingHasher ℕ ℕ 2 2 where
  kFirstCoeffAlwaysOne := true
  getHash := id
  getStart h n := h % n
  getCoeffRow _ := 3
  getResultRowFromHash h := BitVec.ofNat 2 h
  getResultRowFromInput _ := 0
  getStart_lt h _ hn := Nat.mod_lt h hn
  coeffRow_ne_zero _ := by decide
  firstCoeff _ _ := by decide
  resultRowFromInput _ := rfl

def mixedStorage : InterleavedSolutionStorage 2 := ⟨0, 2, 1, 3, fun _ => 0⟩

theorem ribbonFilter_holds_keys_mixed :
    ∃ bs, bandingAddRange pairHasher false true (.empty 4) [0, 1, 2] = some (true, bs) ∧
      ∀ key ∈ [0, 1, 2], interleavedFilterQuery pairHasher (interleavedBackSubst mixedStorage bs fun _ => 3)
        (interleavedPrepareQuery pairHasher (interleavedBackSubst mixedStorage bs fun _ => 3) key) = true := by
  obtain ⟨ok, bs, hrn, hq⟩ := (ribbonFilter_holds_keys (by decide) 2 (by decide) pairHasher
    false true [0, 1, 2] mixedStorage ⟨by decide, by decide, by decide⟩ (fun _ => 3)).1
  have hok : (bandingAddRange pairHasher false true (.empty 4) [0, 1, 2]).map Prod.fst = some true := by
    decide +kernel
  have hrn' : bandingAddRange pairHasher false true (.empty 4) [0, 1, 2] = some (ok, bs) := hrn
  rw [hrn', Option.map_some, Option.some.injEq] at hok
  subst hok
  exact ⟨bs, hrn', hq rfl⟩

end ZenFSPlus.Ribbon
