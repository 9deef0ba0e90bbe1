import Mathlib.Algebra.Order.BigOperators.Group.Finset
import ZenFSPlus.Db.MultiGetScan

namespace ZenFSPlus.Db

open List Function MultiGetRange

namespace FilePickerMultiGet

variable {κ : Type} [LinearOrder κ] {levels : List (List (FdWithKeyRange κ))} {ikey : InternalKey κ} {p : ℕ}
  {f : FdWithKeyRange κ} {c : MultiGetContext κ} {mask : ℕ → Bool} {s : FilePickerMultiGet}
  {rem : ℕ → List (FdWithKeyRange κ)} {i j : ℕ}

section

variable {files : List (FdWithKeyRange κ)} {lower : List (List (FdWithKeyRange κ))}

structure Preparing (c : MultiGetContext κ) (levels : List (List (FdWithKeyRange κ))) (valueMask : ℕ → Bool)
    (rem : ℕ → List (FdWithKeyRange κ)) (s : FilePickerMultiGet) : Prop where
  notEnded : s.searchEnded = false
  settled : s.maybeRepeatKey = false
  stop : s.currentLevelRange.stop = c.numKeys
  start : ∀ i, Active c valueMask i → s.currentLevelRange.start ≤ i
  bounds : ∀ i, Active c valueMask i → Bounds (levels.getD s.currLevel []) (c.userKey i)
    (s.fpCtxArray i).searchLeftBound (s.fpCtxArray i).searchRightBound
  whole : ∀ i, Active c valueMask i → s.currLevel = 0 ∨ s.currentLevelRange.skipMask i = true →
    (s.fpCtxArray i).searchLeftBound = 0 ∧ (s.fpCtxArray i).searchRightBound = kLevelMaxIndex
  rem_eq : ∀ i, Active c valueMask i →
    rem i = if s.currLevel = 0 then filesFor (c.ikey i) levels else wantedFiles (c.ikey i) (levels.drop s.currLevel)

omit [LinearOrder κ] in
theorem wholeRange_visits : (wholeRange c mask).visits mask i = true ↔ Active c mask i := by
  rw [visits_iff]
  constructor
  · rintro ⟨-, hlt, hmask, -⟩
    exact ⟨hlt, hmask⟩
  · rintro ⟨hlt, hmask⟩
    refine ⟨not_lt.mp fun hgt => ?_, hlt, hmask, rfl⟩
    have hs := @iter_spec mask ⟨0, c.numKeys, fun _ => false⟩ 0 (Nat.zero_le _)
    have hm := hs.2.2.1 i (Nat.zero_le i) hgt
    rw [masked, hmask] at hm
    cases hm

omit [LinearOrder κ] in
theorem begin_spec (hs : s.currentLevelRange.stop = c.numKeys)
    (hst : ∀ i, Active c mask i → s.currentLevelRange.start ≤ i) (hi : InLevel c mask s i) :
    s.currentLevelRange.begin mask ≤ i ∧ InLevel c mask s (s.currentLevelRange.begin mask) := by
  have hle := hst i hi.1
  obtain ⟨-, -, ha, he⟩ := @iter_spec mask s.currentLevelRange s.currentLevelRange.start
    (by rw [hs]; exact hle.trans hi.1.1.le)
  have hf : s.currentLevelRange.begin mask ≤ i := by
    refine not_lt.mp fun hgt => ?_
    have hm := ha i hle hgt
    rw [masked, hi.1.2, hi.2] at hm
    cases hm
  have hlt := hf.trans_lt hi.1.1
  have hmask := Bool.or_eq_false_iff.mp (he (by rw [hs]; exact hlt))
  exact ⟨hf, ⟨hlt, hmask.1⟩, hmask.2⟩

theorem first_unique {a b : ℕ} (ha : a < files.length) (hle : ∀ f, files[a]? = some f → ikey ≤ f.largestKey)
    (hb : ∀ f ∈ files.take b, f.largestKey < ikey) : b ≤ a := by
  refine not_lt.mp fun hlt => ?_
  have hg := List.getElem?_eq_getElem ha
  have hm : files[a] ∈ files.take b := mem_iff_getElem?.mpr ⟨a, by rw [List.getElem?_take_of_lt hlt, hg]⟩
  exact absurd (hle _ hg) (not_le.mpr (hb _ hm))

section

variable (hpr : Preparing c levels mask rem s) (hfs : levels.getD s.currLevel [] = files)
  (hlt : s.currLevel < levels.length) (hne : files ≠ [])

include hpr hfs hlt hne

theorem searchKey_some (hi : Active c mask i) {y : FilePickerContext}
    (hy : searchKey c s.currLevel files i (s.fpCtxArray i) = some y) :
    Waiting levels s.currLevel 0 (c.ikey i) y ∧ rem i = rest levels s.currLevel (c.ikey i) false y ∧
      y.currIndexInCurrLevel = y.startIndexInCurrLevel ∧
      (0 < s.currLevel → y.startIndexInCurrLevel < files.length ∧
        (∀ f ∈ files.take y.startIndexInCurrLevel, f.largestKey < c.ikey i) ∧
        ∀ f, files[y.startIndexInCurrLevel]? = some f → c.ikey i ≤ f.largestKey) := by
  rw [searchKey] at hy
  rw [hpr.rem_eq i hi]
  by_cases h0 : s.currLevel = 0
  · rw [if_pos h0] at hy
    cases hy
    rw [h0] at hlt ⊢
    refine ⟨⟨fun _ => ⟨rfl, hpr.whole i hi (.inl h0)⟩, fun h => absurd h (lt_irrefl 0)⟩, ?_, rfl,
      fun h => absurd h (lt_irrefl 0)⟩
    cases levels with
    | nil => exact absurd hlt (Nat.not_lt_zero _)
    | cons top lower =>
      rw [if_pos rfl, rest_top]
      rfl
  · rw [if_neg h0] at hy
    obtain ⟨r, hr, rfl⟩ := Option.map_eq_some_iff.mp hy
    have hp := Nat.pos_of_ne_zero h0
    have hs := searchLevel_spec (hfs ▸ hpr.bounds i hi : Bounds files (c.ikey i).userKey _ _) hne
    rw [hr] at hs
    refine ⟨⟨fun h => absurd h h0, fun _ => ?_⟩, ?_, rfl, fun _ => hs⟩
    · rw [hfs]
      exact .first hs.1 hs.2.1 hs.2.2
    · rw [if_neg h0, rest_waiting hp, hfs, filter_drop_start hs.2.1, drop_eq_getElem_cons hlt,
        FilePicker.wantedFiles_cons, ← hfs, getD_eq_getElem _ _ hlt]

theorem searchKey_none (hi : Active c mask i) (hn : searchKey c s.currLevel files i (s.fpCtxArray i) = none) :
    0 < s.currLevel ∧ files.filter (wanted (c.ikey i)) = [] ∧
      rem i = wantedFiles (c.ikey i) (levels.drop (s.currLevel + 1)) := by
  rw [searchKey] at hn
  by_cases h0 : s.currLevel = 0
  · rw [if_pos h0] at hn
    cases hn
  rw [if_neg h0, Option.map_eq_none_iff] at hn
  have hs := searchLevel_spec (hfs ▸ hpr.bounds i hi : Bounds files (c.ikey i).userKey _ _) hne
  rw [hn] at hs
  refine ⟨Nat.pos_of_ne_zero h0, hs, ?_⟩
  rw [hpr.rem_eq i hi, if_neg h0, drop_eq_getElem_cons hlt, FilePicker.wantedFiles_cons]
  rw [← hfs, getD_eq_getElem _ _ hlt] at hs
  rw [hs, nil_append]

theorem enterLevel_ready (hky : levelContainsKeys c mask files s = true) :
    Ready c levels mask rem 0 (toFirstKey mask (enterLevel c mask files s)) := by
  set e := enterLevel c mask files s with he
  have hc {i : ℕ} (hi : Active c mask i) : e.fpCtxArray i =
      (searchKey c s.currLevel files i (s.fpCtxArray i)).getD (s.fpCtxArray i).resetBounds :=
    if_pos (wholeRange_visits.mpr hi)
  have hsk {i : ℕ} (hi : Active c mask i) : e.currentLevelRange.skipMask i =
      (searchKey c s.currLevel files i (s.fpCtxArray i)).isNone := by
    change ((wholeRange c mask).visits mask i && _) = _
    rw [wholeRange_visits.mpr hi, Bool.true_and]
  have hfn {i : ℕ} (hi : InLevel c mask e i) :
      searchKey c s.currLevel files i (s.fpCtxArray i) = some (e.fpCtxArray i) := by
    have hnt := (hsk hi.1).symm.trans hi.2
    rw [Option.isNone_eq_false_iff, Option.isSome_iff_exists] at hnt
    obtain ⟨y, hy⟩ := hnt
    rw [hc hi.1, hy]
    rfl
  have hs (i : ℕ) (hi : Active c mask i) : e.currentLevelRange.start ≤ i := (visits_iff.mp (wholeRange_visits.mpr hi)).1
  obtain ⟨a, ha, hsm⟩ : ∃ a, Active c mask a ∧ (searchKey c s.currLevel files a (s.fpCtxArray a)).isSome = true := by
    obtain ⟨a, -, ha⟩ := any_eq_true.mp hky
    rw [Bool.and_eq_true, wholeRange_visits] at ha
    exact ⟨a, ha⟩
  have han : InLevel c mask e a := ⟨ha, by rw [hsk ha, Option.isNone_eq_false_iff]; exact hsm⟩
  have hf := begin_spec rfl hs han
  have hsp {i : ℕ} (hi : InLevel c mask e i) := searchKey_some hpr hfs hlt hne hi.1 (hfn hi)
  have hn {i : ℕ} (hi : Active c mask i) (h : e.currentLevelRange.skipMask i = true) :
      searchKey c s.currLevel files i (s.fpCtxArray i) = none := by
    rw [hsk hi, Option.isNone_iff_eq_none] at h
    exact h
  have hr {i : ℕ} (hi : Active c mask i) (h : e.currentLevelRange.skipMask i = true) :
      (e.fpCtxArray i).searchLeftBound = 0 ∧ (e.fpCtxArray i).searchRightBound = kLevelMaxIndex := by
    rw [hc hi, hn hi h]
    exact ⟨rfl, rfl⟩
  -- a key in front of the first one is skipped
  have hb {i : ℕ} (hi : Active c mask i)
      (h : i < e.currentLevelRange.begin mask ∨ e.currentLevelRange.skipMask i = true) :
      e.currentLevelRange.skipMask i = true := by
    by_contra hnt
    rw [Bool.not_eq_true] at hnt
    have hge := (begin_spec rfl hs (⟨hi, hnt⟩ : InLevel c mask e i)).1
    rcases h with h | h
    · omega
    · exact Bool.false_ne_true (hnt.symm.trans h)
  constructor
  case notEnded => exact hpr.notEnded
  case lt => exact hlt
  case settled => exact hpr.settled
  case stop => rfl
  case start => exact hs
  case le => exact hf.2.1.1.le
  case current => exact fun _ => hf.2
  case waiting =>
    intro i hi _
    exact ⟨(hsp hi).1, (hsp hi).2.1⟩
  case passed =>
    intro i hi h
    obtain ⟨hp, -, hrem⟩ := searchKey_none hpr hfs hlt hne hi (hn hi (hb hi h))
    exact ⟨⟨fun h0 => absurd h0 (ne_of_gt hp), fun _ => .inl (hr hi (hb hi h))⟩, hrem.trans (rest_passed hp).symm⟩
  case skipped =>
    intro i hi h
    obtain ⟨hp, hnl, -⟩ := searchKey_none hpr hfs hlt hne hi (hn hi h)
    exact ⟨hp, hfs ▸ hnl, hr hi h⟩
  case apart =>
    intro i j hi _ hlt'
    exact absurd hlt' (not_lt.mpr (begin_spec rfl hs hi).1)
  case twins =>
    intro i j hi hj _ _ hk
    change (e.fpCtxArray i).currIndexInCurrLevel = (e.fpCtxArray j).currIndexInCurrLevel
    obtain ⟨hwi, -, hsi, hfi⟩ := hsp hi
    obtain ⟨hwj, -, hsj, hfj⟩ := hsp hj
    by_cases h0 : s.currLevel = 0
    · rw [(hwi.top h0).1, (hwj.top h0).1]
    have hik : c.ikey i = c.ikey j := by rw [MultiGetContext.ikey, MultiGetContext.ikey, hk]
    obtain ⟨hi1, hi2, hi3⟩ := hfi (Nat.pos_of_ne_zero h0)
    obtain ⟨hj1, hj2, hj3⟩ := hfj (Nat.pos_of_ne_zero h0)
    rw [hsi, hsj]
    rw [hik] at hi2 hi3
    exact le_antisymm (first_unique hj1 hj3 hi2) (first_unique hi1 hi3 hj2)
  case fresh => exact fun _ i hi _ => .inl (hsp hi).2.2.1
  case bounds => exact fun _ _ hne => absurd (hsp hf.2).2.2.1 hne
  case topFile =>
    intro h0
    change s.currLevel = 0 at h0
    have ht : levels.getD 0 [] = files := by rw [← hfs, h0]
    rw [ht]
    exact length_pos_iff.mpr hne

end

theorem prepareLevels_spec {be : Bool} (hpr : Preparing c levels mask rem s) (hlw : lower = levels.drop s.currLevel)
    (hbh : be = true → ∀ i, Active c mask i →
      (s.fpCtxArray i).searchLeftBound = 0 ∧ (s.fpCtxArray i).searchRightBound = kLevelMaxIndex) :
    ∃ s', prepareLevels c mask lower be s = some s' ∧ (s'.searchEnded = true ∧ (∀ i, Active c mask i → rem i = []) ∨
        Ready c levels mask rem 0 s' ∧ s.currLevel ≤ s'.currLevel) := by
  induction lower generalizing s be with
  | nil =>
    refine ⟨{ s with searchEnded := true }, rfl, .inl ⟨rfl, fun i hi => ?_⟩⟩
    rw [hpr.rem_eq i hi]
    split
    · rename_i h0
      rw [h0, drop_zero] at hlw
      rw [← hlw]
      rfl
    · rw [← hlw]
      rfl
  | cons files lower ih =>
    have hlt : s.currLevel < levels.length := by
      by_contra hge
      rw [drop_eq_nil_of_le (not_lt.mp hge)] at hlw
      cases hlw
    have hc := drop_eq_getElem_cons hlt
    rw [← hlw, List.cons.injEq] at hc
    have hfs : levels.getD s.currLevel [] = files := by
      rw [getD_eq_getElem _ _ hlt, hc.1]
    -- the next level, all of it to be searched
    have hn (s' : FilePickerMultiGet) (hlevel : s'.currLevel = s.currLevel + 1) (hended : s'.searchEnded = false)
        (hs : s'.maybeRepeatKey = false) (hsp : s'.currentLevelRange.stop = c.numKeys)
        (hst : ∀ i, Active c mask i → s'.currentLevelRange.start ≤ i)
        (hw : ∀ i, Active c mask i →
          (s'.fpCtxArray i).searchLeftBound = 0 ∧ (s'.fpCtxArray i).searchRightBound = kLevelMaxIndex)
        (hrem : ∀ i, Active c mask i → rem i = wantedFiles (c.ikey i) lower) (b : Bool) :
        ∃ s'', prepareLevels c mask lower b s' = some s'' ∧
          (s''.searchEnded = true ∧ (∀ i, Active c mask i → rem i = []) ∨
            Ready c levels mask rem 0 s'' ∧ s.currLevel ≤ s''.currLevel) := by
      have hpr' : Preparing c levels mask rem s' := by
        refine ⟨hended, hs, hsp, hst, fun i hi => .inl (hw i hi), fun i hi _ => hw i hi, fun i hi => ?_⟩
        rw [hlevel, if_neg (Nat.succ_ne_zero _), hrem i hi, ← hc.2]
      obtain ⟨s'', hr, h⟩ := ih hpr' (by rw [hlevel]; exact hc.2) fun _ => hw
      refine ⟨s'', hr, h.imp_right fun h => ⟨h.1, ?_⟩⟩
      have := h.2
      omega
    rw [prepareLevels]
    by_cases hnl : files = []
    · have hrem (i : ℕ) (hi : Active c mask i) : rem i = wantedFiles (c.ikey i) lower := by
        rw [hpr.rem_eq i hi]
        split
        · rename_i h0
          have hl : levels = files :: lower := by rw [hlw, h0, drop_zero]
          rw [hl, filesFor, hnl]
          rfl
        · rw [← hlw, FilePicker.wantedFiles_cons, hnl]
          rfl
      rw [if_pos hnl]
      cases be with
      | true =>
        rw [if_pos rfl]
        exact hn { s with currLevel := s.currLevel + 1 } rfl hpr.notEnded hpr.settled hpr.stop hpr.start
          (hbh rfl) hrem true
      | false =>
        rw [if_neg Bool.false_ne_true]
        have he : ∀ i < s.currentLevelRange.stop, s.currentLevelRange.visits mask i → EmptyBounds (s.fpCtxArray i) := by
          intro i hi hv
          have ha : Active c mask i := ⟨hpr.stop ▸ hi, (visits_iff.mp hv).2.2.1⟩
          rcases hpr.bounds i ha with hb | hb
          · exact ⟨hb.1, .inr hb.2⟩
          have h1 := hb.nonneg
          have h2 := hb.left_le
          have h3 := hb.right_le
          rw [hfs, hnl, length_nil] at h3
          exact ⟨by omega, .inl (by omega)⟩
        rw [passEmptyLevel, if_pos he]
        refine hn { s with fpCtxArray := _, currLevel := s.currLevel + 1 } rfl hpr.notEnded hpr.settled hpr.stop
          hpr.start (fun i hi => ?_) hrem true
        dsimp only
        split
        · exact ⟨rfl, rfl⟩
        rename_i hnt
        rw [visits_iff, hpr.stop] at hnt
        apply hpr.whole i hi
        by_contra hsk
        rw [not_or, Bool.not_eq_true] at hsk
        exact hnt ⟨hpr.start i hi, hi.1, hi.2, hsk.2⟩
    · rw [if_neg hnl]
      by_cases hk : levelContainsKeys c mask files s = true
      · rw [if_pos hk]
        exact ⟨_, rfl, .inr ⟨enterLevel_ready hpr hfs hlt hnl hk, le_rfl⟩⟩
      rw [if_neg hk]
      have hnn (i : ℕ) (hi : Active c mask i) : searchKey c s.currLevel files i (s.fpCtxArray i) = none := by
        rw [← Option.not_isSome_iff_eq_none]
        intro hsm
        apply hk
        rw [levelContainsKeys, any_eq_true]
        refine ⟨i, mem_range.mpr hi.1, ?_⟩
        rw [Bool.and_eq_true, wholeRange_visits]
        exact ⟨hi, hsm⟩
      refine hn { enterLevel c mask files s with currLevel := s.currLevel + 1 } rfl hpr.notEnded hpr.settled rfl
        (fun i hi => (visits_iff.mp (wholeRange_visits.mpr hi)).1) (fun i hi => ?_) (fun i hi => ?_) false
      · have hct : (enterLevel c mask files s).fpCtxArray i = (s.fpCtxArray i).resetBounds := by
          refine (if_pos (wholeRange_visits.mpr hi)).trans ?_
          dsimp only
          rw [hnn i hi]
          rfl
        change ((enterLevel c mask files s).fpCtxArray i).searchLeftBound = 0 ∧
          ((enterLevel c mask files s).fpCtxArray i).searchRightBound = kLevelMaxIndex
        rw [hct]
        exact ⟨rfl, rfl⟩
      · rw [(searchKey_none hpr hfs hlt hnl hi (hnn i hi)).2.2, hc.2]

def turns (levels : List (List (FdWithKeyRange κ))) (p : ℕ) (s : FilePickerMultiGet) : ℕ :=
  levels.length - s.currLevel + if s.currLevel = 0 then (levels.getD 0 []).length - p else 0

theorem prepareNextLevel_spec (hrd : Ready c levels mask rem p s) (he : s.batchIter = c.numKeys)
    (hl : ∃ i, Active c mask i) :
    ∃ s', prepareNextLevel c levels mask s = some s' ∧ (s'.searchEnded = true ∧ (∀ i, Active c mask i → rem i = []) ∨
        ∃ p', Ready c levels mask rem p' s' ∧ turns levels p' s' < turns levels p s) := by
  have hpassed (i : ℕ) (hi : Active c mask i) := hrd.passed i hi (.inl (by rw [he]; exact hi.1))
  have hlt := hrd.lt
  rw [prepareNextLevel]
  -- all keys are passed, so that their bounds are those for the next level
  have hnx (hd : s.currLevel = 0 → (levels.getD 0 []).length ≤ p + 1) :
      ∃ s', prepareLevels c mask (levels.drop (s.currLevel + 1)) false { s with currLevel := s.currLevel + 1 } =
          some s' ∧
        (s'.searchEnded = true ∧ (∀ i, Active c mask i → rem i = []) ∨
          ∃ p', Ready c levels mask rem p' s' ∧ turns levels p' s' < turns levels p s) := by
    have hpr : Preparing c levels mask rem { s with currLevel := s.currLevel + 1 } := by
      refine ⟨hrd.notEnded, hrd.settled, hrd.stop, hrd.start, fun i hi => ?_, fun i hi h => ?_, fun i hi => ?_⟩
      · by_cases h0 : s.currLevel = 0
        · exact .inl ((hpassed i hi).1.top h0).2
        · exact (hpassed i hi).1.below (Nat.pos_of_ne_zero h0)
      · exact (hrd.skipped i hi (h.resolve_left (Nat.succ_ne_zero _))).2.2
      · rw [(hpassed i hi).2, if_neg (Nat.succ_ne_zero _)]
        by_cases h0 : s.currLevel = 0
        · rw [h0, rest_top, ((hpassed i hi).1.top h0).1, drop_eq_nil_of_le (hd h0)]
          rfl
        · exact rest_passed (Nat.pos_of_ne_zero h0)
    obtain ⟨s', hr, h⟩ := prepareLevels_spec hpr rfl (fun h => absurd h Bool.false_ne_true)
    refine ⟨s', hr, h.imp_right fun h => ⟨0, h.1, ?_⟩⟩
    have hle : s.currLevel + 1 ≤ s'.currLevel := h.2
    rw [turns, turns, if_neg (by omega)]
    omega
  by_cases h0 : s.currLevel = 0
  · obtain ⟨a, ha⟩ := hl
    have hn {i : ℕ} (hi : Active c mask i) : s.currentLevelRange.skipMask i = false :=
      Bool.eq_false_iff.mpr fun h => ne_of_gt (hrd.skipped i hi h).1 h0
    have hf {i : ℕ} (hi : Active c mask i) := begin_spec hrd.stop hrd.start ⟨hi, hn hi⟩
    have hc := ((hpassed _ (hf ha).2.1).1.top h0).1
    rw [hc]
    by_cases hm : p + 1 < (levels.getD 0 []).length
    · rw [if_pos ⟨h0, hm⟩]
      refine ⟨_, rfl, .inr ⟨p + 1, ?_, ?_⟩⟩
      · constructor
        case notEnded => exact hrd.notEnded
        case lt => exact hlt
        case settled => exact hrd.settled
        case stop => exact hrd.stop
        case start => exact hrd.start
        case le => exact (hf ha).2.1.1.le
        case current => exact fun _ => (hf ha).2
        case waiting =>
          intro i hi _
          obtain ⟨hp, hrem⟩ := hpassed i hi.1
          refine ⟨⟨hp.top, fun hps => absurd h0 (ne_of_gt hps)⟩, hrem.trans ?_⟩
          change rest levels s.currLevel _ _ _ = rest levels s.currLevel _ _ _
          rw [h0, rest_top, rest_top]
          rfl
        case passed =>
          intro i hi h
          rcases h with h | h
          · exact absurd h (not_lt.mpr (hf hi).1)
          · exact absurd (hn hi) (Bool.not_eq_false _ ▸ h)
        case skipped => exact hrd.skipped
        case apart => exact fun i j hi _ h => absurd h (not_lt.mpr (hf hi.1).1)
        case twins =>
          intro i j hi hj _ _ _
          exact (((hpassed i hi.1).1.top h0).1).trans (((hpassed j hj.1).1.top h0).1).symm
        case fresh => exact fun hps => absurd h0 (ne_of_gt hps)
        case bounds => exact fun hps => absurd h0 (ne_of_gt hps)
        case topFile => exact fun _ => hm
      · have hlevel : (toFirstKey mask s).currLevel = 0 := h0
        rw [turns, turns, if_pos hlevel, if_pos h0, hlevel, h0]
        omega
    · rw [if_neg fun h => hm h.2]
      exact hnx fun _ => not_lt.mp hm
  · rw [if_neg fun h => h0 h.1]
    exact hnx fun h => absurd h h0

end

section

variable {s' : FilePickerMultiGet}

def Resumes (c : MultiGetContext κ) (levels : List (List (FdWithKeyRange κ))) (valueMask : ℕ → Bool)
    (rem : ℕ → List (FdWithKeyRange κ)) (p : ℕ) (s : FilePickerMultiGet) : Prop :=
  Ready c levels valueMask rem p s ∨ s.batchIter < c.numKeys ∧ Ready c levels valueMask rem p (resolveRepeat valueMask s)

structure Returned (c : MultiGetContext κ) (levels : List (List (FdWithKeyRange κ))) (valueMask : ℕ → Bool)
    (rem rem' : ℕ → List (FdWithKeyRange κ)) (f : FdWithKeyRange κ) (s' : FilePickerMultiGet) : Prop where
  account : ∀ i, Active c valueMask i →
    rem i = (if s'.currentFileRange.visits valueMask i then [f] else []) ++ rem' i
  alike : ∀ i j, Active c valueMask i → Active c valueMask j → c.userKey i = c.userKey j →
    s'.currentFileRange.visits valueMask i = s'.currentFileRange.visits valueMask j
  nonempty : ∃ i, Active c valueMask i ∧ s'.currentFileRange.visits valueMask i = true
  resumes : ∀ valueMask', (∀ i, Active c valueMask' i → Active c valueMask i) →
    (∀ i, Active c valueMask i → s'.currentFileRange.visits valueMask i = false → Active c valueMask' i) →
    (∀ i j, i < c.numKeys → j < c.numKeys → c.userKey i = c.userKey j → valueMask' i = valueMask' j) →
    ∃ p, Resumes c levels valueMask' rem' p s'

theorem Picked.returned (hsorted : FilePicker.SortedLevels levels) (hrd : Ready c levels mask rem p s)
    (hfs : HasFiles c levels mask s) {t : FileScan κ} {u : ℕ} (hpc : Pick c levels mask p s t u f)
    (hp : Picked c mask s t u s')
    (hr : ∀ mask', (∀ i, Active c mask' i → Active c mask i) →
      (∀ i, Active c mask i → s'.currentFileRange.visits mask i = false → Active c mask' i) →
      (∀ i j, i < c.numKeys → j < c.numKeys → c.userKey i = c.userKey j → mask' i = mask' j) →
      Resumes c levels mask' (remAfter c levels s' t) p s') :
    Returned c levels mask rem (remAfter c levels s' t) f s' := by
  refine ⟨fun i hi => hp.account hrd hsorted hpc hfs hi, fun i j hi hj hk => ?_, ?_,
    fun v h1 h2 h3 => ⟨p, hr v h1 h2 h3⟩⟩
  · rw [Bool.eq_iff_iff, hp.visits_iff hi, hp.visits_iff hj]
    exact ⟨hpc.alike hrd hsorted hfs hi hj hk, hpc.alike hrd hsorted hfs hj hi hk.symm⟩
  · obtain ⟨a, ha, hle, hlt, hc, hin⟩ := hpc.hit
    exact ⟨a, ha.1, (hp.visits_iff ha.1).mpr ⟨hle, hlt, (hpc.lookup_iff hfs ha hle hlt).mpr ⟨hc, hin⟩⟩⟩

def afterScan (s : FilePickerMultiGet) (t : FileScan κ) : FilePickerMultiGet :=
  { s with batchIter := t.batchIter, upperKey := t.upperKey, fpCtxArray := t.fpCtxArray }

theorem Ready.toEnd (hrd : Ready c levels mask rem p s) (hlt : s.batchIter < c.numKeys) {t : FileScan κ}
    (hb : t.batchIter = c.numKeys)
    (hsame : ∀ i, (InLevel c mask s i → c.numKeys ≤ i) → t.fpCtxArray i = s.fpCtxArray i)
    (hpassed : ∀ i, Active c mask i → Passed levels s.currLevel p (c.userKey i) (t.fpCtxArray i) ∧
      rem i = rest levels s.currLevel (c.ikey i) true (t.fpCtxArray i)) :
    Ready c levels mask rem p (afterScan s t) := by
  have hbn : (afterScan s t).batchIter = c.numKeys := hb
  apply hrd.advance
  case hlevel => rfl
  case hrange => rfl
  case hended => exact hrd.notEnded
  case hrepeat => exact hrd.settled
  case hlt => rw [hbn]; exact hlt
  case hle => exact hbn.le
  case hmask => exact fun _ hi => hi
  case hcurrent => exact fun h => absurd hbn (ne_of_lt h)
  case hsame => exact fun i hi => hsame i (hbn ▸ hi)
  case hpassed => exact fun i hi _ => hpassed i hi
  case hrem => exact fun i _ _ => rfl
  case hapart =>
    intro i j _ hj _ _ hge'
    rw [hbn] at hge'
    exact absurd hj.1.1 (not_lt.mpr hge')

section

variable (hsorted : FilePicker.SortedLevels levels) (hsort : SortedKeys c) (hrd : Ready c levels mask rem p s)
  (hlt : s.batchIter < c.numKeys)

include hsorted hsort hrd hlt

theorem Ready.beyond (hp : 0 < s.currLevel)
    (hge : (levels.getD s.currLevel []).length ≤ (s.fpCtxArray s.batchIter).currIndexInCurrLevel)
    (hi : InLevel c mask s i) (hle : s.batchIter ≤ i) : c.userKey i = c.userKey s.batchIter := by
  rcases hrd.fresh hp i hi hle with hf | h
  · by_contra hne
    have hgt : c.userKey s.batchIter < c.userKey i := lt_of_le_of_ne (hsort _ i hle hi.1.1) (Ne.symm hne)
    have hs := hsorted _ hp hrd.lt
    have hst := (hrd.waiting i hi hle).1.below hp
    have hil := hst.lt_length hf
    have hfl := List.getElem?_eq_getElem hil
    have hle' := InternalKey.userKey_le_of_le (hst.le_largest hs hfl)
    have he := ((hrd.waiting s.batchIter (hrd.current hlt) le_rfl).1.below hp).largest_le hs hge hfl
    exact absurd (hgt.trans_le (hle'.trans he)) (lt_irrefl _)
  · exact h

theorem Ready.pastLevel (hge : (levels.getD s.currLevel []).length ≤ (s.fpCtxArray s.batchIter).currIndexInCurrLevel)
    {t : FileScan κ} (hb : t.batchIter = s.currentLevelRange.stop)
    (hct : t.fpCtxArray = fun i => if s.batchIter < i ∧ s.currentLevelRange.visits mask i then
      (s.fpCtxArray i).resetBounds else s.fpCtxArray i) :
    Ready c levels mask rem p (afterScan s t) := by
  have hin := hrd.current hlt
  have hp : 0 < s.currLevel := by
    refine Nat.pos_of_ne_zero fun h0 => ?_
    have hc := ((hrd.waiting _ hin le_rfl).1.top h0).1
    have := hrd.topFile h0
    rw [hc, h0] at hge
    omega
  have hn {i : ℕ} (hi : Active c mask i) (h : i < s.batchIter ∨ s.currentLevelRange.skipMask i = true) :
      ¬ (s.batchIter < i ∧ s.currentLevelRange.visits mask i = true) := by
    rintro ⟨hlt', hv⟩
    rcases h with h | h
    · omega
    · exact Bool.false_ne_true ((visits_iff.mp hv).2.2.2.symm.trans h)
  refine hrd.toEnd hlt (hb.trans hrd.stop) (fun i hi => ?_) fun i hi => ?_
  · rw [hct]
    refine if_neg fun h => ?_
    have hv := visits_iff.mp h.2
    rw [hrd.stop] at hv
    have := hi ⟨⟨hv.2.1, hv.2.2.1⟩, hv.2.2.2⟩
    omega
  · rw [hct]
    by_cases ho : i < s.batchIter ∨ s.currentLevelRange.skipMask i = true
    · dsimp only
      rw [if_neg (hn hi ho)]
      exact hrd.passed i hi ho
    rw [not_or, Bool.not_eq_true] at ho
    have hi' : InLevel c mask s i := ⟨hi, ho.2⟩
    have hle := not_lt.mp ho.1
    have hk := hrd.beyond hsorted hsort hlt hp hge hi' hle
    constructor
    · refine ⟨fun h0 => absurd h0 (ne_of_gt hp), fun _ => ?_⟩
      dsimp only
      split
      · exact .inl ⟨rfl, rfl⟩
      rename_i hv
      have heq : i = s.batchIter := by
        by_contra hne
        refine hv ⟨by omega, visits_iff.mpr ⟨hrd.start i hi, ?_, hi.2, ho.2⟩⟩
        rw [hrd.stop]
        exact hi.1
      rw [heq]
      refine hrd.bounds hp hlt fun hc => ?_
      have := ((hrd.waiting _ hin le_rfl).1.below hp).lt_length hc
      omega
    · have hc := hrd.twins i s.batchIter hi' hin hle le_rfl hk
      rw [(hrd.waiting i hi' hle).2, rest_waiting hp, rest_passed hp, hc, drop_eq_nil_of_le hge]
      rfl

end

section

variable (hrd : Ready c levels mask rem p s)

include hrd

theorem Ready.hasFiles (hlt : s.batchIter < c.numKeys)
    (hf : (s.fpCtxArray s.batchIter).currIndexInCurrLevel < (levels.getD s.currLevel []).length) :
    HasFiles c levels mask s := by
  intro i hi hle
  have hin := hrd.current hlt
  refine ⟨_, List.getElem?_eq_getElem ?_⟩
  by_cases h0 : s.currLevel = 0
  · have hc := ((hrd.waiting i hi hle).1.top h0).1
    have hc' := ((hrd.waiting _ hin le_rfl).1.top h0).1
    omega
  have hp := Nat.pos_of_ne_zero h0
  rcases hrd.fresh hp i hi hle with h | h
  · exact ((hrd.waiting i hi hle).1.below hp).lt_length h
  · rw [hrd.twins i s.batchIter hi hin hle le_rfl h]
    exact hf

theorem Ready.scanned (hfs : HasFiles c levels mask s) (hlt : s.batchIter < c.numKeys) {t : FileScan κ}
    (hs : Scanned c levels mask p s t) (he : t.batchIter = c.numKeys) (hm : t.fileHit = false)
    {t' : FileScan κ} (hb : t'.batchIter = t.batchIter) (hc : t'.fpCtxArray = t.fpCtxArray) :
    Ready c levels mask rem p (afterScan s t') := by
  refine hrd.toEnd hlt (hb.trans he) (fun i hi => ?_) fun i hi => ?_
  · rw [hc]
    exact (hs.same i fun h => .inr (he.trans_le (hi h))).1
  · rw [hc]
    obtain ⟨f, -⟩ := hfs _ (hrd.current hlt) le_rfl
    have hil : i < t.batchIter := by rw [he]; exact hi.1
    obtain ⟨hpassed, hrem⟩ := hs.behind hrd hfs (f := f) (fun h => absurd (hm.symm.trans h) Bool.false_ne_true) hi
      (.inl hil)
    rw [if_neg] at hrem
    · exact ⟨hpassed, hrem⟩
    · rintro ⟨hle, hsk⟩
      have hin := hs.inLevel hi hsk
      obtain ⟨g, hg⟩ := hfs i hin hle
      rw [(hs.compared i g hin hle hil hg).2.1, Bool.not_eq_false'] at hsk
      exact Bool.false_ne_true (hm.symm.trans (hs.hits i g hin hle hil hg hsk).1)

theorem Ready.scanned_start (hlt : s.batchIter < c.numKeys) :
    Scanned c levels mask p s ⟨s.batchIter, s.upperKey, s.fpCtxArray, s.currentLevelRange.skipMask,
      (s.fpCtxArray s.batchIter).currIndexInCurrLevel, none, false, .lt⟩ where
  le := le_rfl
  le_numKeys := hrd.le
  current := hrd.current
  same _ _ := ⟨rfl, rfl⟩
  compared i _ _ h1 h2 := absurd h2 (not_lt.mpr h1)
  cmpLargest_ne := nofun
  hit := nofun
  hits i _ _ h1 h2 := absurd h2 (not_lt.mpr h1)
  duplicate := nofun
  miss _ := by rw [fileIndexAt, if_pos (by rw [hrd.stop]; exact ne_of_lt hlt)]

end

section

variable (hsorted : FilePicker.SortedLevels levels) (hsort : SortedKeys c) (hrd : Ready c levels mask rem p s)
  (hfs : HasFiles c levels mask s) (hpv : s.batchIterPrev = s.batchIter)

include hsorted hsort hrd hfs hpv

theorem Exits.returned {t : FileScan κ} (he : Exits c levels mask p s t) (hh : t.fileHit = true) :
    ∃ f rem', t.f = some f ∧
      Returned c levels mask rem rem' f (returnFile mask { t with upperKey := t.batchIter } s) := by
  obtain ⟨f, hf, hpc⟩ := he.pick hsort hh
  have hne := he.1.cmpLargest_ne
  have hp : Picked c mask s t t.batchIter (returnFile mask { t with upperKey := t.batchIter } s) := by
    refine ⟨rfl, rfl, hrd.notEnded, rfl, ?_, fun i _ => ?_, fun i _ h1 h2 => ?_⟩
    · simp only [returnFile, hpv]
    · simp only [returnFile, if_neg hne]
    · omega
  refine ⟨f, _, hf, hp.returned hsorted hrd hfs hpc fun v hk ho _ => .inl ?_⟩
  apply hp.advance hrd hsorted hpc hk ho rfl rfl hrd.notEnded _ rfl hfs rfl
  · intro i _ h1 h2
    omega
  · exact (if_neg hne).trans hrd.settled

theorem Breaks.returned {t : FileScan κ} {y : FilePickerContext} (hb : Breaks c levels mask p s t f y) :
    ∃ rem', Returned c levels mask rem rem' f (returnFile mask (breakScan c mask s t f y) s) := by
  obtain ⟨hlt, hpc⟩ := hb.pick hsort hrd
  set u := (breakScan c mask s t f y).upperKey with hu
  set s' := returnFile mask (breakScan c mask s t f y) s with hs'
  have hs := hb.scanned
  have hat := hs.current hb.lt
  have hc (i : ℕ) : s'.fpCtxArray i = if t.batchIter ≤ i ∧ i < u ∧ s.currentLevelRange.masked mask i = false then
        (update t.fpCtxArray t.batchIter y i).nextFile
      else update t.fpCtxArray t.batchIter y i := rfl
  have hl {i : ℕ} (hi : InLevel c mask s i) (hle : t.batchIter ≤ i) (hiu : i < u) :
      s'.fpCtxArray i = (update t.fpCtxArray t.batchIter y i).nextFile := by
    rw [hc, if_pos ⟨hle, hiu, by rw [masked, hi.1.2, hi.2]; rfl⟩]
  have hp : Picked c mask s t u s' := by
    refine ⟨rfl, rfl, hrd.notEnded, rfl, ?_, fun i hi => ?_, fun i hi hle hiu => ?_⟩
    · rw [← hpv]
      rfl
    · have hne : i ≠ t.batchIter := by
        rintro rfl
        rcases hi hat with h | h
        · omega
        · omega
      rw [hc, if_neg, update_of_ne hne]
      rintro ⟨hle, hiu, hmask⟩
      have hmask := Bool.or_eq_false_iff.mp hmask
      rcases hi ⟨⟨hiu.trans_le hpc.le_numKeys, hmask.1⟩, hmask.2⟩ with h | h
      · omega
      · omega
    · refine ⟨_, hl hi hle hiu, ?_⟩
      by_cases heq : i = t.batchIter
      · rw [heq, update_self]
        exact ⟨hb.currIndex, hb.startIndex, hb.top⟩
      · rw [update_of_ne heq, (hs.same i fun _ => .inr hle).1]
        exact ⟨rfl, rfl, fun _ => rfl⟩
  refine ⟨_, hp.returned hsorted hrd hfs hpc fun v hk ho hal => .inr ⟨hb.lt, ?_⟩⟩
  by_cases hd : v t.batchIter = true ∨ s.currLevel = 0
  · apply hp.advance (r := FilePickerMultiGet.resolveRepeat v s') hrd hsorted hpc hk ho rfl rfl
      hrd.notEnded rfl rfl hfs (if_pos ⟨rfl, hd⟩)
    intro i hi hle hiu ha
    refine hd.resolve_left fun hv => ?_
    have hky : c.userKey i = c.userKey t.batchIter := by
      rw [userKey_of_cmpLargest_eq (hpc.last i hi hle hiu).2,
        userKey_of_cmpLargest_eq (hpc.last t.batchIter hat le_rfl hlt).2]
    have hv' := hal i t.batchIter hi.1.1 hat.1.1 hky
    rw [hv, ha.2] at hv'
    cases hv'
  · have hd' := not_or.mp hd
    apply hp.stay (r := FilePickerMultiGet.resolveRepeat v s') hrd hsorted hpc hk rfl rfl hrd.notEnded rfl
      rfl hsort hfs (if_neg fun h => hd h.2) (Nat.pos_of_ne_zero hd'.2) hlt ⟨hb.lt, Bool.eq_false_iff.mpr hd'.1⟩
    rw [hl hat le_rfl hlt, update_self]
    exact hb.bounds (Nat.pos_of_ne_zero hd'.2)

end

theorem getNextFileInLevelWithKeys_spec (hl : 1 < levels.length) (hsorted : FilePicker.SortedLevels levels)
    (hsort : SortedKeys c) (hrd : Ready c levels mask rem p s) (hlt : s.batchIter < c.numKeys)
    (hpv : s.batchIterPrev = s.batchIter) :
    ∃ t hit, getNextFileInLevelWithKeys c levels mask s (s.fpCtxArray s.batchIter).currIndexInCurrLevel =
        some (t, hit) ∧
      match hit with
      | false => t.batchIter = c.numKeys ∧ Ready c levels mask rem p (afterScan s t)
      | true => ∃ f rem', t.f = some f ∧ Returned c levels mask rem rem' f (returnFile mask t s) := by
  rw [getNextFileInLevelWithKeys]
  by_cases hge : (levels.getD s.currLevel []).length ≤ (s.fpCtxArray s.batchIter).currIndexInCurrLevel
  · rw [if_pos hge]
    exact ⟨_, false, rfl, hrd.stop, hrd.pastLevel hsorted hsort hlt hge rfl rfl⟩
  have hfs := hrd.hasFiles hlt (Nat.lt_of_not_le hge)
  obtain ⟨t, hr, hen⟩ := scanKeys_spec hl hsorted hsort hrd hfs (hrd.scanned_start hlt)
    (show c.numKeys < s.currentLevelRange.stop + 1 - s.batchIter + s.batchIter by rw [hrd.stop]; omega)
  rw [if_neg hge, hr]
  rcases hen with he | ⟨t0, f, y, hbr, rfl⟩
  · refine ⟨{ t with upperKey := t.batchIter }, t.fileHit, ?_, ?_⟩
    · rw [Option.map_some, if_neg he.1.cmpLargest_ne]
    cases hh : t.fileHit with
    | false =>
      have hb : t.batchIter = c.numKeys := he.2.resolve_right fun h => Bool.false_ne_true (hh.symm.trans h.1)
      exact ⟨hb, hrd.scanned hfs hlt he.1 hb hh rfl rfl⟩
    | true => exact he.returned hsorted hsort hrd hfs hpv hh
  · refine ⟨breakScan c mask s t0 f y, true, ?_, ?_⟩
    · rw [Option.map_some]
      simp [breakScan, FileScan.compared]
    · obtain ⟨rem', h⟩ := hbr.returned hsorted hsort hrd hfs hpv
      exact ⟨f, rem', rfl, h⟩

theorem Ready.resolveRepeat (hrd : Ready c levels mask rem p s) : Ready c levels mask rem p (resolveRepeat mask s) := by
  have heq : FilePickerMultiGet.resolveRepeat mask s = { s with batchIterPrev := s.batchIter } := by
    rw [FilePickerMultiGet.resolveRepeat]
    simp only [hrd.settled]
    rw [if_neg fun h => absurd h.1 Bool.false_ne_true]
  rw [heq]
  exact ⟨hrd.notEnded, hrd.lt, hrd.settled, hrd.stop, hrd.start, hrd.le, hrd.current, hrd.waiting, hrd.passed,
    hrd.skipped, hrd.apart, hrd.twins, hrd.fresh, hrd.bounds, hrd.topFile⟩

theorem getNextFileLoop_spec (hln : 1 < levels.length) (hsorted : FilePicker.SortedLevels levels) (hsort : SortedKeys c)
    (hl : ∃ i, Active c mask i) {fuel : ℕ} (hrs : Resumes c levels mask rem p s)
    (hfl : turns levels p s < fuel) :
    ∃ r s', getNextFileLoop c levels mask fuel s = some (r, s') ∧ match r with
      | none => s'.searchEnded = true ∧ ∀ i, Active c mask i → rem i = []
      | some f => ∃ rem', Returned c levels mask rem rem' f s' := by
  induction fuel generalizing s p with
  | zero => omega
  | succ fuel ih =>
    -- the next level, or the next file of level 0
    have hn {q : ℕ} {s' : FilePickerMultiGet} (hrd : Ready c levels mask rem q s') (hb : s'.batchIter = c.numKeys)
        (hq : turns levels q s' ≤ fuel) :
        ∃ r s'', (prepareNextLevel c levels mask s').bind (getNextFileLoop c levels mask fuel) = some (r, s'') ∧
          match r with
          | none => s''.searchEnded = true ∧ ∀ i, Active c mask i → rem i = []
          | some f => ∃ rem', Returned c levels mask rem rem' f s'' := by
      obtain ⟨s'', hrn, h⟩ := prepareNextLevel_spec hrd hb hl
      rw [hrn, Option.bind_some]
      rcases h with ⟨hended, hnl⟩ | ⟨q', hrd', hlt⟩
      · have hp : 0 < turns levels q s' := by
          have := hrd.lt
          rw [turns]
          omega
        obtain ⟨fuel, rfl⟩ : ∃ m, fuel = m + 1 := ⟨fuel - 1, by omega⟩
        rw [getNextFileLoop, if_pos hended]
        exact ⟨none, s'', rfl, hended, hnl⟩
      · exact ih (.inl hrd') (by omega)
    have hr : Ready c levels mask rem p (FilePickerMultiGet.resolveRepeat mask s) := by
      rcases hrs with h | h
      · exact h.resolveRepeat
      · exact h.2
    have hst : s.currentLevelRange.stop = c.numKeys := hr.stop
    rw [getNextFileLoop, if_neg (show ¬ s.searchEnded = true from Bool.eq_false_iff.mp hr.notEnded), hst]
    by_cases he : s.batchIter = c.numKeys
    · rw [if_pos he]
      rcases hrs with h | h
      · exact hn h he (by omega)
      · exact absurd he (ne_of_lt h.1)
    · rw [if_neg he]
      dsimp only
      set s1 := FilePickerMultiGet.resolveRepeat mask s with hs1
      have ht : turns levels p s1 = turns levels p s := rfl
      by_cases hlt : s1.batchIter < c.numKeys
      · have hix : fileIndexAt (levels.getD s1.currLevel []) s1.currentLevelRange s1.fpCtxArray s1.batchIter =
            (s1.fpCtxArray s1.batchIter).currIndexInCurrLevel := by
          rw [fileIndexAt, if_pos]
          rw [hr.stop]
          exact ne_of_lt hlt
        obtain ⟨t, hit, hrn, hs⟩ := getNextFileInLevelWithKeys_spec hln hsorted hsort hr hlt rfl
        rw [hix, hrn]
        cases hit with
        | false => exact hn hs.2 hs.1 (show turns levels p s1 ≤ fuel by omega)
        | true =>
          obtain ⟨f, rem', hf, hrt⟩ := hs
          exact ⟨some f, _, by rw [← hf], rem', hrt⟩
      · -- the keys in front of the end are duplicates of one that is done, and `curr_file_index` is the number of files
        have hb : s1.batchIter = c.numKeys := le_antisymm hr.le (not_lt.mp hlt)
        have hix : fileIndexAt (levels.getD s1.currLevel []) s1.currentLevelRange s1.fpCtxArray s1.batchIter =
            (levels.getD s1.currLevel []).length := by
          rw [fileIndexAt, if_neg]
          rw [hr.stop]
          exact fun h => h hb
        have hc : (fun i => if s1.batchIter < i ∧ s1.currentLevelRange.visits mask i = true then
            (s1.fpCtxArray i).resetBounds else s1.fpCtxArray i) = s1.fpCtxArray := by
          funext i
          refine if_neg fun h => ?_
          have hi := (visits_iff.mp h.2).2.1
          rw [hr.stop] at hi
          omega
        rw [hix, getNextFileInLevelWithKeys]
        rw [if_pos le_rfl]
        dsimp only
        rw [hc]
        have hsame : { s1 with batchIter := s1.currentLevelRange.stop, upperKey := s1.upperKey, fpCtxArray := s1.fpCtxArray } =
            s1 := by
          rw [hr.stop, ← hb]
        rw [hsame]
        exact hn hr hb (by omega)

end

section

variable {limit : κ → ℕ} {log rem' : ℕ → List (FdWithKeyRange κ)} {s' : FilePickerMultiGet}

structure Progress (c : MultiGetContext κ) (levels : List (List (FdWithKeyRange κ))) (limit : κ → ℕ)
    (valueMask : ℕ → Bool) (log rem : ℕ → List (FdWithKeyRange κ)) : Prop where
  account : ∀ i, Active c valueMask i → log i ++ rem i = filesFor (c.ikey i) levels
  short : ∀ i, Active c valueMask i → (log i).length ≤ limit (c.userKey i)
  done : ∀ i < c.numKeys, valueMask i = true → log i = (filesFor (c.ikey i) levels).take (limit (c.userKey i) + 1)
  mask_alike : ∀ i j, i < c.numKeys → j < c.numKeys → c.userKey i = c.userKey j → valueMask i = valueMask j
  rem_alike : ∀ i j, Active c valueMask i → Active c valueMask j → c.userKey i = c.userKey j → rem i = rem j

theorem Progress.log_alike (h : Progress c levels limit mask log rem) (hi : Active c mask i)
    (hj : Active c mask j) (hk : c.userKey i = c.userKey j) : log i = log j := by
  have hi' := h.account i hi
  have hj' := h.account j hj
  have hik : c.ikey i = c.ikey j := by rw [MultiGetContext.ikey, MultiGetContext.ikey, hk]
  rw [h.rem_alike i j hi hj hk, hik, ← hj'] at hi'
  exact append_cancel_right hi'

omit [LinearOrder κ] in
theorem active_marked : Active c (marked c mask limit s' log) i ↔
    Active c mask i ∧ ¬ (s'.currentFileRange.visits mask i = true ∧ (log i).length = limit (c.userKey i) + 1) := by
  simp only [Active, marked, Bool.or_eq_false_iff, Bool.and_eq_false_iff, decide_eq_false_iff_not]
  rw [not_and_or, Bool.not_eq_true]
  tauto

theorem Progress.looked (h : Progress c levels limit mask log rem) (hr : Returned c levels mask rem rem' f s') :
    Progress c levels limit (marked c mask limit s' (looked mask s' f log)) (looked mask s' f log) rem' := by
  set log' := FilePickerMultiGet.looked mask s' f log with hl'
  have ha (i : ℕ) (hi : Active c mask i) : log' i ++ rem' i = filesFor (c.ikey i) levels := by
    rw [← h.account i hi, hr.account i hi, hl', FilePickerMultiGet.looked]
    split
    · rw [append_assoc]
    · rw [nil_append]
  constructor
  case account => exact fun i hi => ha i (active_marked.mp hi).1
  case short =>
    intro i hi
    obtain ⟨hi, hn⟩ := active_marked.mp hi
    have hs := h.short i hi
    by_cases hv : s'.currentFileRange.visits mask i = true
    · have hne : (log' i).length ≠ limit (c.userKey i) + 1 := fun heq => hn ⟨hv, heq⟩
      have hln : (log' i).length = (log i).length + 1 := by
        rw [hl', FilePickerMultiGet.looked, if_pos hv, length_append, length_singleton]
      omega
    · rw [hl', FilePickerMultiGet.looked, if_neg hv]
      exact hs
  case done =>
    intro i hi hd
    by_cases ho : mask i = true
    · have hv : ¬ s'.currentFileRange.visits mask i = true := fun hv =>
        Bool.false_ne_true ((visits_iff.mp hv).2.2.1.symm.trans ho)
      rw [hl', FilePickerMultiGet.looked, if_neg hv]
      exact h.done i hi ho
    · have hac : Active c mask i := ⟨hi, Bool.eq_false_iff.mpr ho⟩
      by_cases hln : (log' i).length = limit (c.userKey i) + 1
      · rw [← ha i hac, ← hln, take_left]
      · have hst := (active_marked.mpr ⟨hac, fun hv => hln hv.2⟩ : Active c (marked c mask limit s' log') i)
        exact absurd (hst.2.symm.trans hd) Bool.false_ne_true
  case mask_alike =>
    intro i j hi hj hk
    have hmask := h.mask_alike i j hi hj hk
    rw [marked, marked, hmask]
    cases hvj : mask j with
    | true => rfl
    | false =>
      have hai : Active c mask i := ⟨hi, hmask.trans hvj⟩
      have haj : Active c mask j := ⟨hj, hvj⟩
      have hl : log' i = log' j := by
        rw [hl', FilePickerMultiGet.looked, FilePickerMultiGet.looked, hr.alike i j hai haj hk, h.log_alike hai haj hk]
      rw [hr.alike i j hai haj hk, hl, hk]
  case rem_alike =>
    intro i j hi hj hk
    have hi := (active_marked.mp hi).1
    have hj := (active_marked.mp hj).1
    have heq := h.rem_alike i j hi hj hk
    rw [hr.account i hi, hr.account j hj, hr.alike i j hi hj hk] at heq
    exact append_cancel_left heq

def todo (c : MultiGetContext κ) (valueMask : ℕ → Bool) (rem : ℕ → List (FdWithKeyRange κ)) : ℕ :=
  ∑ i ∈ Finset.range c.numKeys, if valueMask i then 0 else (rem i).length

theorem Returned.todo_lt (hr : Returned c levels mask rem rem' f s') :
    todo c (marked c mask limit s' log) rem' < todo c mask rem := by
  have ht (i : ℕ) (hi : i < c.numKeys) :
      (if marked c mask limit s' log i then 0 else (rem' i).length) ≤ if mask i then 0 else (rem i).length := by
    cases hm : marked c mask limit s' log i with
    | true => exact Nat.zero_le _
    | false =>
      have hac := (active_marked.mp ⟨hi, hm⟩).1
      rw [if_neg Bool.false_ne_true, if_neg (Bool.eq_false_iff.mp hac.2), hr.account i hac, length_append]
      exact Nat.le_add_left _ _
  obtain ⟨a, ha, hv⟩ := hr.nonempty
  refine Finset.sum_lt_sum (fun i hi => ht i (Finset.mem_range.mp hi)) ⟨a, Finset.mem_range.mpr ha.1, ?_⟩
  rw [if_neg (Bool.eq_false_iff.mp ha.2), hr.account a ha, if_pos hv, singleton_append, length_cons]
  split
  · exact Nat.succ_pos _
  · exact Nat.lt_succ_self _

omit [LinearOrder κ] in
theorem exists_active (h : ¬ ∀ i < c.numKeys, mask i = true) : ∃ i, Active c mask i := by
  push Not at h
  obtain ⟨i, hi, hne⟩ := h
  exact ⟨i, hi, Bool.eq_false_iff.mpr hne⟩

theorem Progress.searches (hl : 1 < levels.length) (hsorted : FilePicker.SortedLevels levels) (hsort : SortedKeys c)
    (hp : Progress c levels limit mask log rem) (hrs : ∃ p, Resumes c levels mask rem p s) :
    ∃ final, Searches c levels limit s mask log final ∧
      ∀ i < c.numKeys, final i = (filesFor (c.ikey i) levels).take (limit (c.userKey i) + 1) := by
  induction hm : todo c mask rem using Nat.strong_induction_on generalizing s mask log rem with
  | _ m ih =>
    by_cases ha : ∀ i < c.numKeys, mask i = true
    · exact ⟨log, .allDone ha, fun i hi => hp.done i hi (ha i hi)⟩
    obtain ⟨p, hrs⟩ := hrs
    have ht : turns levels p s < levels.length + (levels.getD 0 []).length + 2 := by
      rw [turns]
      split
      · omega
      · omega
    obtain ⟨r, s', hrn, hsp⟩ := getNextFileLoop_spec hl hsorted hsort (exists_active ha) hrs ht
    cases r with
    | none =>
      refine ⟨log, .noFile ha hrn, fun i hi => ?_⟩
      cases hv : mask i with
      | true => exact hp.done i hi hv
      | false =>
        have hsh := hp.short i ⟨hi, hv⟩
        rw [← hp.account i ⟨hi, hv⟩, hsp.2 i ⟨hi, hv⟩, append_nil, take_of_length_le (by omega)]
    | some f =>
      obtain ⟨rem', hr⟩ := hsp
      have hp' := hp.looked hr
      obtain ⟨p', hrs'⟩ := hr.resumes _ (fun i hi => (active_marked.mp hi).1)
        (fun i hi hv => active_marked.mpr ⟨hi, fun h => Bool.false_ne_true (hv.symm.trans h.1)⟩) hp'.mask_alike
      obtain ⟨final, hs, hf⟩ := ih _ (hm ▸ hr.todo_lt) hp' ⟨p', hrs'⟩ rfl
      exact ⟨final, .lookup ha hrn hs, hf⟩

theorem Searches.unique {final final' : ℕ → List (FdWithKeyRange κ)} (h : Searches c levels limit s mask log final)
    (h' : Searches c levels limit s mask log final') : final = final' := by
  induction h with
  | allDone hd =>
    cases h' with
    | allDone => rfl
    | noFile hl | lookup hl => exact absurd hd hl
  | noFile hl hr =>
    cases h' with
    | allDone hd => exact absurd hd hl
    | noFile => rfl
    | lookup _ hr' =>
      rw [hr] at hr'
      cases hr'
  | lookup hl hr _ ih =>
    cases h' with
    | allDone hd => exact absurd hd hl
    | noFile _ hr' =>
      rw [hr] at hr'
      cases hr'
    | lookup _ hr' hn' =>
      rw [hr] at hr'
      cases hr'
      exact ih hn'

theorem new_searches (hl : 1 < levels.length) (hsorted : FilePicker.SortedLevels levels) (hsort : SortedKeys c)
    (limit : κ → ℕ) :
    ∃ s final, FilePickerMultiGet.new c levels (fun _ => false) = some s ∧
      Searches c levels limit s (fun _ => false) (fun _ => []) final ∧
      ∀ i < c.numKeys, final i = (filesFor (c.ikey i) levels).take (limit (c.userKey i) + 1) := by
  have hrange (i : ℕ) (hi : Active c (fun _ => false) i) : (wholeRange c fun _ => false).start ≤ i :=
    (visits_iff.mp (wholeRange_visits.mpr hi)).1
  have hp : Progress c levels limit (fun _ => false) (fun _ => []) fun i => filesFor (c.ikey i) levels := by
    refine ⟨fun _ _ => rfl, fun _ _ => Nat.zero_le _, fun _ _ h => absurd h Bool.false_ne_true, fun _ _ _ _ _ => rfl, ?_⟩
    intro i j _ _ hk
    rw [MultiGetContext.ikey, MultiGetContext.ikey, hk]
  let range := wholeRange c fun _ => false
  let s0 : FilePickerMultiGet := ⟨0, fun _ => {}, range.start, range.start, range.start, false, range, range, false⟩
  have hpr : Preparing c levels (fun _ => false) (fun i => filesFor (c.ikey i) levels) s0 :=
    ⟨rfl, rfl, rfl, hrange, fun _ _ => .inl ⟨rfl, rfl⟩, fun _ _ _ => ⟨rfl, rfl⟩, fun _ _ => rfl⟩
  obtain ⟨s, hr, hsp⟩ := prepareLevels_spec hpr (show levels = levels.drop s0.currLevel from rfl)
    fun h : false = true => absurd h Bool.false_ne_true
  rcases hsp with ⟨hended, hnl⟩ | ⟨hrd, -⟩
  · refine ⟨s, fun _ => [], hr, ?_, fun i hi => ?_⟩
    · by_cases ha : ∀ i < c.numKeys, (fun _ => false : ℕ → Bool) i = true
      · exact .allDone ha
      · have hn : getNextFile c levels (fun _ => false) s = some (none, s) := by
          rw [getNextFile, getNextFileLoop, if_pos hended]
        exact .noFile ha hn
    · rw [hnl i ⟨hi, rfl⟩, take_nil]
  · obtain ⟨final, hs, hf⟩ := hp.searches hl hsorted hsort ⟨0, .inl hrd⟩
    exact ⟨s, final, hr, hs, hf⟩

/-- With more than one level, every key of a batch is searched in the files that a `FilePicker` returns for it, up to
the lookup that marks it done. -/
theorem searches_eq_filePicker (hlen : 1 < levels.length) (hsorted : FilePicker.SortedLevels levels)
    (c : MultiGetContext κ) (hsort : SortedKeys c) (limit : κ → ℕ) :
    ∃ s, FilePickerMultiGet.new c levels (fun _ => false) = some s ∧
      (∃ final, Searches c levels limit s (fun _ => false) (fun _ => []) final) ∧
      ∀ final, Searches c levels limit s (fun _ => false) (fun _ => []) final →
        ∀ i < c.numKeys, ∃ t files, FilePicker.new levels (c.ikey i) = some t ∧
          FilePicker.Returns levels (c.ikey i) t files ∧ final i = files.take (limit (c.userKey i) + 1) := by
  obtain ⟨s, final, hn, hs, hf⟩ := new_searches hlen hsorted hsort limit
  refine ⟨s, hn, ⟨final, hs⟩, fun final' hs' i hi => ?_⟩
  obtain ⟨t, hr, hiv, hp⟩ := FilePicker.new_spec levels (c.ikey i)
  refine ⟨t, filesFor (c.ikey i) levels, hr, hp ▸ hiv.returns hlen hsorted, ?_⟩
  rw [hs'.unique hs]
  exact hf i hi

theorem searches_eq_filePicker_duplicates :
    let levels : List (List (FdWithKeyRange ℕ)) :=
      [[⟨1, ⟨0, 900⟩, ⟨9, 901⟩⟩], [⟨2, ⟨1, 500⟩, ⟨3, 510⟩⟩, ⟨3, ⟨3, 505⟩, ⟨4, 500⟩⟩], [⟨4, ⟨2, 100⟩, ⟨3, 90⟩⟩]]
    let c : MultiGetContext ℕ := ⟨3, fun i => if i < 2 then 3 else 4, 515⟩
    let limit : ℕ → ℕ := fun _ => 1
    ∃ s, FilePickerMultiGet.new c levels (fun _ => false) = some s ∧
      (∃ final, Searches c levels limit s (fun _ => false) (fun _ => []) final) ∧
      ∀ final, Searches c levels limit s (fun _ => false) (fun _ => []) final →
        ∀ i < c.numKeys, ∃ t files, FilePicker.new levels (c.ikey i) = some t ∧
          FilePicker.Returns levels (c.ikey i) t files ∧ final i = files.take (limit (c.userKey i) + 1) := by
  intro levels c limit
  have hsorted : FilePicker.SortedLevels levels := by
    intro l hp hlt
    have hl : l = 1 ∨ l = 2 := by
      have : l < 3 := hlt
      omega
    rcases hl with rfl | rfl
    · exact ⟨by decide +kernel, by decide +kernel⟩
    · exact ⟨by decide +kernel, by decide +kernel⟩
  have hsort : SortedKeys c := by
    intro i j hle _
    change (if i < 2 then 3 else 4) ≤ if j < 2 then 3 else 4
    split
    · split
      · omega
      · omega
    · rw [if_neg (by omega)]
  exact searches_eq_filePicker (by decide) hsorted c hsort limit

end

end FilePickerMultiGet

end ZenFSPlus.Db
