import ZenFSPlus.Util.RibbonAlg

namespace ZenFSPlus.Ribbon

open Lib List Function

variable {Key Hash : Type} {r w : ℕ}

namespace BandingStorage

structure Echelon (bs : BandingStorage r w) : Prop where
  result_eq_zero : ∀ i, bs.coeffRows i = 0 → bs.resultRows i = 0
  lowest : ∀ i, bs.coeffRows i ≠ 0 → (bs.coeffRows i).getLsbD 0 = true
  within : ∀ i k, (bs.coeffRows i).getLsbD k = true → i + k < bs.numSlots

def Solves (bs : BandingStorage r w) (column : ℕ → Bool) (c start : ℕ) : Prop :=
  ∀ i, start ≤ i → bs.coeffRows i ≠ 0 → dot (bs.coeffRows i) column i = (bs.resultRows i).getLsbD c

structure Filled (bs bs' : BandingStorage r w) (slots : List ℕ) : Prop where
  numSlots : bs'.numSlots = bs.numSlots
  same : ∀ i ∉ slots, bs'.coeffRows i = bs.coeffRows i ∧ bs'.resultRows i = bs.resultRows i
  empty : ∀ i ∈ slots, bs.coeffRows i = 0

variable {bs bs' bs'' : BandingStorage r w} {slots slots' : List ℕ}

theorem echelon_empty (nsl : ℕ) : (empty nsl : BandingStorage r w).Echelon where
  result_eq_zero _ _ := rfl
  lowest _ h := absurd rfl h
  within _ _ h := by simp [empty] at h

theorem Filled.refl (bs : BandingStorage r w) : Filled bs bs [] where
  numSlots := rfl
  same _ _ := ⟨rfl, rfl⟩
  empty _ h := nomatch h

theorem Filled.trans (h : Filled bs bs' slots) (h' : Filled bs' bs'' slots') : Filled bs bs'' (slots' ++ slots) where
  numSlots := h'.numSlots.trans h.numSlots
  same i hi := by
    rw [mem_append, not_or] at hi
    obtain ⟨hc, hr⟩ := h.same i hi.2
    obtain ⟨hc', hr'⟩ := h'.same i hi.1
    exact ⟨hc'.trans hc, hr'.trans hr⟩
  empty i hi := by
    by_cases hs : i ∈ slots
    · exact h.empty i hs
    rw [← (h.same i hs).1]
    rcases mem_append.mp hi with hi | hi
    · exact h'.empty i hi
    · exact absurd hi hs

theorem Filled.solves (h : Filled bs bs' slots) {col : ℕ → Bool} {c start : ℕ}
    (hs : bs'.Solves col c start) : bs.Solves col c start := by
  intro i hi hne
  have hm : i ∉ slots := fun hm => hne (h.empty i hm)
  obtain ⟨hc, hr⟩ := h.same i hm
  rw [← hc, ← hr]
  apply hs i hi
  rwa [hc]

theorem filled_storeRow {i : ℕ} (h : bs.coeffRows i = 0) (cr : BitVec r) (rr : BitVec w) :
    Filled bs (bs.storeRow i cr rr) [i] where
  numSlots := rfl
  same j hj := by
    rw [mem_singleton] at hj
    exact ⟨update_of_ne hj _ _, update_of_ne hj _ _⟩
  empty j hj := by rwa [mem_singleton.mp hj]

theorem echelon_storeRow (h : bs.Echelon) {i : ℕ} {cr : BitVec r} {rr : BitVec w}
    (hl : cr.getLsbD 0 = true) (hw : ∀ k, cr.getLsbD k = true → i + k < bs.numSlots) :
    (bs.storeRow i cr rr).Echelon := by
  have hne : cr ≠ 0 := by
    rintro rfl
    simp at hl
  constructor
  · intro j hj
    by_cases hji : j = i
    · subst hji
      simp only [storeRow, update_self] at hj
      exact absurd hj hne
    · simp only [storeRow, update_of_ne hji] at hj ⊢
      exact h.result_eq_zero j hj
  · intro j hj
    by_cases hji : j = i
    · subst hji
      simpa only [storeRow, update_self] using hl
    · simp only [storeRow, update_of_ne hji] at hj ⊢
      exact h.lowest j hj
  · intro j k hk
    by_cases hji : j = i
    · subst hji
      simp only [storeRow, update_self] at hk
      exact hw k hk
    · simp only [storeRow, update_of_ne hji] at hk
      exact h.within j k hk

theorem Filled.clear (h : Filled bs bs' slots) (he : bs.Echelon) :
    slots.foldl (fun bs i => bs.storeRow i 0 0) bs' = bs := by
  induction slots generalizing bs' with
  | nil =>
    refine BandingStorage.ext h.numSlots ?_ ?_
    · funext i
      exact (h.same i not_mem_nil).1
    · funext i
      exact (h.same i not_mem_nil).2
  | cons i slots ih =>
    rw [foldl_cons]
    apply ih
    refine ⟨h.numSlots, fun j hj => ?_, fun j hj => h.empty j (mem_cons_of_mem _ hj)⟩
    by_cases hji : j = i
    · subst hji
      have hz := h.empty j mem_cons_self
      simp only [storeRow, update_self]
      exact ⟨hz.symm, (he.result_eq_zero j hz).symm⟩
    · simp only [storeRow, update_of_ne hji]
      apply h.same
      simp [hji, hj]

end BandingStorage

open BandingStorage

structure Added (bs : BandingStorage r w) (start : ℕ) (rr : BitVec w) (cr : BitVec r)
    (ok : Bool) (bs' : BandingStorage r w) (put : Option ℕ) : Prop where
  echelon : bs'.Echelon
  filled : Filled bs bs' put.toList
  solves : ok = true → ∀ column c, bs'.Solves column c start → dot cr column start = rr.getLsbD c

variable {bs : BandingStorage r w}

theorem bandingAddLoop_added (h : bs.Echelon) {i : ℕ} {rr : BitVec w}
    {cr : BitVec r} (hlw : cr.getLsbD 0 = true) (hw : ∀ k, cr.getLsbD k = true → i + k < bs.numSlots) :
    ∃ ok bs' put, bandingAddLoop bs i rr cr = some (ok, bs', put) ∧ Added bs i rr cr ok bs' put := by
  -- the slot moves up in every round
  induction hn : bs.numSlots - i using Nat.strongRecOn generalizing i rr cr with
  | ind n ih =>
    have hi : i < bs.numSlots := by simpa using hw 0 hlw
    have hcr : cr ≠ 0 := by
      rintro rfl
      simp at hlw
    rw [bandingAddLoop, dif_pos hi, dif_pos hlw]
    by_cases hf : bs.coeffRows i = 0
    · rw [if_pos hf]
      refine ⟨_, _, _, rfl, echelon_storeRow h hlw hw, filled_storeRow hf cr rr, ?_⟩
      intro _ col c hs
      have hrw := hs i (Nat.le_refl i)
      simp only [storeRow, update_self] at hrw
      exact hrw hcr
    · rw [if_neg hf, dif_pos (h.lowest i hf)]
      by_cases hz : cr ^^^ bs.coeffRows i = 0
      · rw [dif_pos hz]
        refine ⟨_, _, _, rfl, h, Filled.refl bs, ?_⟩
        intro hok col c hs
        have hc : cr = bs.coeffRows i := BitVec.xor_eq_zero_iff.mp hz
        have hr : rr = bs.resultRows i := BitVec.xor_eq_zero_iff.mp (of_decide_eq_true hok)
        rw [hc, hr]
        exact hs i (Nat.le_refl i) hf
      · rw [dif_neg hz]
        obtain ⟨hbt, hb⟩ := trailingZeros_spec hz
        have hp := trailingZeros_pos hlw (h.lowest i hf) hz
        obtain ⟨ok, bs', put, hl, ha⟩ := @ih (bs.numSlots - (i + trailingZeros (cr ^^^ bs.coeffRows i))) (by omega)
          (i + trailingZeros (cr ^^^ bs.coeffRows i)) (rr ^^^ bs.resultRows i)
          ((cr ^^^ bs.coeffRows i) >>> trailingZeros (cr ^^^ bs.coeffRows i))
          (by rwa [BitVec.getLsbD_ushiftRight, Nat.add_zero])
          (by
            intro k hk
            rw [BitVec.getLsbD_ushiftRight, BitVec.getLsbD_xor] at hk
            rw [Nat.add_assoc]
            by_cases hk' : cr.getLsbD (trailingZeros (cr ^^^ bs.coeffRows i) + k) = true
            · exact hw _ hk'
            · apply h.within
              simpa [hk'] using hk)
          rfl
        refine ⟨ok, bs', put, hl, ha.echelon, ha.filled, ?_⟩
        intro hok col c hs
        have hrs := ha.solves hok col c (fun j hj => hs j (by omega))
        rw [dot_ushiftRight hb, dot_xor, BitVec.getLsbD_xor] at hrs
        have hrw := ha.filled.solves hs i (Nat.le_refl i) hf
        rw [hrw] at hrs
        exact Bool.xor_right_inj.mp (by rw [Bool.xor_comm, hrs, Bool.xor_comm])

theorem bandingAdd_added (h : bs.Echelon) {first : Bool} {start : ℕ}
    (rr : BitVec w) {cr : BitVec r} (hcr : cr ≠ 0) (hfr : first = true → cr.getLsbD 0 = true)
    (hw : start + r ≤ bs.numSlots) :
    ∃ ok bs' put, bandingAdd first bs start rr cr = some (ok, bs', put) ∧ Added bs start rr cr ok bs' put := by
  have hft : ∀ k, cr.getLsbD k = true → start + k < bs.numSlots := by
    intro k hk
    have := BitVec.lt_of_getLsbD hk
    omega
  unfold bandingAdd
  by_cases hf : first = true
  · rw [if_pos hf]
    exact bandingAddLoop_added h (hfr hf) hft
  rw [if_neg hf]
  obtain ⟨hbt, hb⟩ := trailingZeros_spec hcr
  obtain ⟨ok, bs', put, hl, ha⟩ := @bandingAddLoop_added _ _ bs h (start + trailingZeros cr) rr
    (cr >>> trailingZeros cr) (by rwa [BitVec.getLsbD_ushiftRight, Nat.add_zero]) (by
      intro k hk
      rw [BitVec.getLsbD_ushiftRight] at hk
      rw [Nat.add_assoc]
      exact hft _ hk)
  refine ⟨ok, bs', put, hl, ha.echelon, ha.filled, ?_⟩
  intro hok col c hs
  rw [← dot_ushiftRight hb]
  exact ha.solves hok col c fun j hj => hs j (by omega)

variable (bh : BandingHasher Key Hash r w)

def startOf (bs : BandingStorage r w) (key : Key) : ℕ := bh.getStart (bh.getHash key) bs.getNumStarts

def SolvesKey (bs : BandingStorage r w) (column : ℕ → Bool) (c : ℕ) (key : Key) : Prop :=
  dot (bh.getCoeffRow (bh.getHash key)) column (startOf bh bs key) =
    (bh.getResultRowFromHash (bh.getHash key)).getLsbD c

structure RangeAdded (bs : BandingStorage r w) (keys : List Key) (ok : Bool) (bs' : BandingStorage r w)
    (slots : List ℕ) : Prop where
  echelon : bs'.Echelon
  filled : Filled bs bs' slots
  solves : ok = true → ∀ key ∈ keys, ∀ column c, bs'.Solves column c (startOf bh bs key) →
    SolvesKey bh bs column c key

theorem addKey_added (h : bs.Echelon) (hsl : r ≤ bs.numSlots) (key : Key) :
    ∃ ok bs' put, bandingAdd bh.kFirstCoeffAlwaysOne bs (startOf bh bs key)
        (bh.getResultRowFromInput key ||| bh.getResultRowFromHash (bh.getHash key))
        (bh.getCoeffRow (bh.getHash key)) = some (ok, bs', put) ∧
      RangeAdded bh bs [key] ok bs' put.toList := by
  have hst : startOf bh bs key < bs.getNumStarts := bh.getStart_lt _ (Nat.succ_pos _)
  obtain ⟨ok, bs', put, hadd, ha⟩ := bandingAdd_added h
    (bh.getResultRowFromInput key ||| bh.getResultRowFromHash (bh.getHash key))
    (bh.coeffRow_ne_zero (bh.getHash key)) (fun hf => bh.firstCoeff hf _)
    (show startOf bh bs key + r ≤ bs.numSlots by unfold getNumStarts at hst; omega)
  refine ⟨ok, bs', put, hadd, ha.echelon, ha.filled, ?_⟩
  intro hok key' hk' col c hs
  rw [mem_singleton.mp hk'] at hs ⊢
  have hd := ha.solves hok col c hs
  rw [bh.resultRowFromInput] at hd
  simpa [SolvesKey] using hd

variable {bs bs' : BandingStorage r w} {put : Option ℕ}

theorem addSimple_cons {key : Key} {ok : Bool} (ha : bandingAdd bh.kFirstCoeffAlwaysOne bs (startOf bh bs key)
      (bh.getResultRowFromInput key ||| bh.getResultRowFromHash (bh.getHash key))
      (bh.getCoeffRow (bh.getHash key)) = some (ok, bs', put)) (keys : List Key) (bt : List ℕ) :
    addSimple bh bs bt (key :: keys) = if ok then addSimple bh bs' (put.toList ++ bt) keys
      else some (false, bs', put.toList ++ bt) := by
  unfold startOf at ha
  rw [addSimple, ha]
  cases ok <;> rfl

theorem addSimple_added (h : bs.Echelon) (hsl : r ≤ bs.numSlots) (keys : List Key) (bt : List ℕ) :
    ∃ ok bs' slots, addSimple bh bs bt keys = some (ok, bs', slots ++ bt) ∧ RangeAdded bh bs keys ok bs' slots := by
  induction keys generalizing bs bt with
  | nil => exact ⟨true, bs, [], rfl, h, Filled.refl bs, fun _ _ hk => absurd hk not_mem_nil⟩
  | cons key keys ih =>
    obtain ⟨ok, bs1, put, ha, ho⟩ := addKey_added bh h hsl key
    have hsr : bs1.getNumStarts = bs.getNumStarts := by
      unfold getNumStarts
      rw [ho.filled.numSlots]
    rw [addSimple_cons bh ha]
    cases ok with
    | false => exact ⟨false, bs1, put.toList, rfl, ho.echelon, ho.filled, fun hok => absurd hok Bool.false_ne_true⟩
    | true =>
      obtain ⟨ok, bs2, slots, hr, hm⟩ := ih ho.echelon (by rw [ho.filled.numSlots]; exact hsl) (put.toList ++ bt)
      refine ⟨ok, bs2, slots ++ put.toList, ?_, hm.echelon, ho.filled.trans hm.filled, ?_⟩
      · rw [append_assoc]
        exact hr
      · intro hok key' hky' col c hs
        rcases mem_cons.mp hky' with rfl | hmm
        · exact ho.solves rfl key' mem_cons_self col c (hm.filled.solves hs)
        · have hst : startOf bh bs1 key' = startOf bh bs key' := by rw [startOf, startOf, hsr]
          have hky := hm.solves hok key' hmm col c (by rwa [hst])
          rwa [SolvesKey, hst] at hky

theorem bandingAddLoop_numSlots {i : ℕ} {rr : BitVec w} {cr : BitVec r}
    {ok : Bool} (h : bandingAddLoop bs i rr cr = some (ok, bs', put)) : bs'.numSlots = bs.numSlots := by
  fun_induction bandingAddLoop bs i rr cr with
  | case1 | case2 =>
    cases h
    rfl
  | case3 _ _ _ _ _ _ _ _ ih => exact ih h
  | case4 | case5 | case6 => cases h

theorem bandingAdd_numSlots {first : Bool} {start : ℕ} {rr : BitVec w}
    {cr : BitVec r} {ok : Bool} (h : bandingAdd first bs start rr cr = some (ok, bs', put)) :
    bs'.numSlots = bs.numSlots := by
  unfold bandingAdd at h
  split at h
  · exact bandingAddLoop_numSlots h
  · exact bandingAddLoop_numSlots h

theorem addPipelined_eq (bs : BandingStorage r w) (bt : List ℕ) (cur : Key) (rest : List Key) :
    addPipelined bh bs bt (bh.getHash cur) (startOf bh bs cur) (bh.getResultRowFromInput cur) rest =
      addSimple bh bs bt (cur :: rest) := by
  induction rest generalizing bs bt cur with
  | nil =>
    rw [addPipelined, addSimple, startOf]
    generalize ha : bandingAdd _ _ _ _ _ = res
    obtain _ | ⟨ok, bs', put⟩ := res
    · rfl
    · cases ok <;> rfl
  | cons next rest ih =>
    rw [addPipelined, addSimple, startOf]
    generalize ha : bandingAdd _ _ _ _ _ = res
    obtain _ | ⟨ok, bs', put⟩ := res
    · rfl
    cases ok with
    | false => rfl
    | true =>
      have hs : bs.getNumStarts = bs'.getNumStarts := by
        unfold getNumStarts
        rw [bandingAdd_numSlots ha]
      have hn := ih bs' (put.toList ++ bt) next
      rw [startOf, ← hs] at hn
      exact hn

theorem bandingAddRange_added (h : bs.Echelon) (hs : r ≤ bs.numSlots) (up ub : Bool) (keys : List Key) :
    ∃ ok bs', bandingAddRange bh up ub bs keys = some (ok, bs') ∧ bs'.Echelon ∧ bs'.numSlots = bs.numSlots ∧
      (ok = true → ∀ key ∈ keys, ∀ col c, bs'.Solves col c (startOf bh bs key) → SolvesKey bh bs col c key) ∧
      (ok = false → ub = true → bs' = bs) := by
  cases keys with
  | nil => exact ⟨true, bs, rfl, h, rfl, fun _ _ hk => absurd hk not_mem_nil, fun hok => absurd hok.symm Bool.false_ne_true⟩
  | cons cur rest =>
    obtain ⟨ok, bs', slots, ha, hm⟩ := addSimple_added bh h hs (cur :: rest) []
    rw [append_nil] at ha
    have hl : (if up = true then
        addPipelined bh bs [] (bh.getHash cur) (bh.getStart (bh.getHash cur) bs.getNumStarts)
          (bh.getResultRowFromInput cur) rest
      else addSimple bh bs [] (cur :: rest)) = some (ok, bs', slots) := by
      split
      · exact (addPipelined_eq bh bs [] cur rest).trans ha
      · exact ha
    simp only [bandingAddRange, hl]
    cases ok with
    | true =>
      exact ⟨true, bs', rfl, hm.echelon, hm.filled.numSlots, hm.solves, fun hok => absurd hok.symm Bool.false_ne_true⟩
    | false =>
      cases ub with
      | true =>
        have hc := hm.filled.clear h
        exact ⟨false, bs, congrArg (fun b => some (false, b)) hc, h, rfl, fun hok => absurd hok Bool.false_ne_true,
          fun _ _ => rfl⟩
      | false =>
        exact ⟨false, bs', rfl, hm.echelon, hm.filled.numSlots, fun hok => absurd hok Bool.false_ne_true,
          fun _ hb => absurd hb Bool.false_ne_true⟩

end ZenFSPlus.Ribbon
