import ZenFSPlus.Db.MultiGetPicker

namespace ZenFSPlus.Db

open List Function

namespace MultiGetRange

theorem stepOver_spec (masked : ℕ → Bool) (count i : ℕ) :
    i ≤ stepOver masked count i ∧ stepOver masked count i ≤ i + count ∧
      (∀ m, i ≤ m → m < stepOver masked count i → masked m = true) ∧
      (stepOver masked count i < i + count → masked (stepOver masked count i) = false) := by
  induction count generalizing i with
  | zero => exact ⟨le_rfl, le_rfl, fun m h1 h2 => absurd h2 (not_lt.mpr h1), fun h => absurd h (lt_irrefl _)⟩
  | succ count ih =>
    rw [stepOver]
    split
    · rename_i hmask
      obtain ⟨hle, hub, ha, he⟩ := ih (i + 1)
      refine ⟨by omega, by omega, fun m h1 h2 => ?_, fun h => he (by omega)⟩
      rcases eq_or_lt_of_le h1 with rfl | h1
      · exact hmask
      · exact ha m h1 h2
    · rename_i hmask
      exact ⟨le_rfl, by omega, fun m h1 h2 => absurd h2 (not_lt.mpr h1), fun _ => by simpa using hmask⟩

variable {mask : ℕ → Bool} {r : MultiGetRange} {i : ℕ}

theorem iter_spec (hi : i ≤ r.stop) : i ≤ r.iter mask i ∧ r.iter mask i ≤ r.stop ∧
      (∀ m, i ≤ m → m < r.iter mask i → r.masked mask m = true) ∧
      (r.iter mask i < r.stop → r.masked mask (r.iter mask i) = false) := by
  obtain ⟨hle, hub, ha, he⟩ := stepOver_spec (r.masked mask) (r.stop - i) i
  have heq : i + (r.stop - i) = r.stop := by omega
  rw [heq] at hub he
  exact ⟨hle, hub, ha, he⟩

theorem visits_iff : r.visits mask i = true ↔ r.start ≤ i ∧ i < r.stop ∧ mask i = false ∧ r.skipMask i = false := by
  simp [visits, masked, and_assoc]

end MultiGetRange

theorem Standing.largest_le {κ : Type} [LinearOrder κ] {files : List (FdWithKeyRange κ)} {ikey : InternalKey κ}
    {start i m : ℕ} {f : FdWithKeyRange κ} (hs : SortedLevel files) (h : Standing files ikey start i)
    (hge : files.length ≤ i) (hf : files[m]? = some f) : f.largestKey.userKey ≤ ikey.userKey := by
  cases h with
  | first hlt => omega
  | @later j g _ hg hk _ =>
    obtain ⟨hm, rfl⟩ := List.getElem?_eq_some_iff.mp hf
    obtain ⟨hj, rfl⟩ := List.getElem?_eq_some_iff.mp hg
    rw [← hk]
    rcases eq_or_lt_of_le (show m ≤ j by omega) with rfl | hlt
    · exact le_refl _
    · exact pairwise_iff_getElem.mp hs.pairwise_largest m j hm hj hlt

namespace FilePickerMultiGet

variable {κ : Type} [LinearOrder κ] {ls : List (List (FdWithKeyRange κ))} {ikey : InternalKey κ}
  {level p : ℕ} {x : FilePickerContext} {f : FdWithKeyRange κ}

def rest (levels : List (List (FdWithKeyRange κ))) (level : ℕ) (ikey : InternalKey κ) (passed : Bool)
    (x : FilePickerContext) : List (FdWithKeyRange κ) :=
  (if passed ∧ 0 < level then []
    else ((levels.getD level []).drop x.currIndexInCurrLevel).filter
      (if level = 0 then inRange ikey.userKey else wanted ikey)) ++ wantedFiles ikey (levels.drop (level + 1))

structure Waiting (levels : List (List (FdWithKeyRange κ))) (level p : ℕ) (ikey : InternalKey κ) (x : FilePickerContext) :
    Prop where
  top : level = 0 → x.currIndexInCurrLevel = p ∧ x.searchLeftBound = 0 ∧ x.searchRightBound = kLevelMaxIndex
  below : 0 < level → Standing (levels.getD level []) ikey x.startIndexInCurrLevel x.currIndexInCurrLevel

structure Passed (levels : List (List (FdWithKeyRange κ))) (level p : ℕ) (k : κ) (x : FilePickerContext) : Prop where
  top : level = 0 → x.currIndexInCurrLevel = p + 1 ∧ x.searchLeftBound = 0 ∧ x.searchRightBound = kLevelMaxIndex
  below : 0 < level → Bounds (levels.getD (level + 1) []) k x.searchLeftBound x.searchRightBound

theorem rest_top (passed : Bool) : rest ls 0 ikey passed x =
    ((ls.getD 0 []).drop x.currIndexInCurrLevel).filter (inRange ikey.userKey) ++ wantedFiles ikey (ls.drop 1) := by
  simp [rest]

theorem rest_waiting (hlevel : 0 < level) : rest ls level ikey false x =
    ((ls.getD level []).drop x.currIndexInCurrLevel).filter (wanted ikey) ++
      wantedFiles ikey (ls.drop (level + 1)) := by
  simp [rest, ne_of_gt hlevel]

theorem rest_passed (hlevel : 0 < level) : rest ls level ikey true x = wantedFiles ikey (ls.drop (level + 1)) := by
  simp [rest, hlevel]

theorem rest_top_cons (hf : (ls.getD 0 [])[x.currIndexInCurrLevel]? = some f) (passed : Bool) :
    rest ls 0 ikey false x = (if inRange ikey.userKey f then [f] else []) ++ rest ls 0 ikey passed x.nextFile := by
  rw [rest_top, rest_top, drop_eq_cons hf, filter_cons]
  split
  · rfl
  · rfl

theorem hit_eq_inRange (k : κ) (f : FdWithKeyRange κ) :
    decide (¬ (cmpSmallest k f = .lt ∨ cmpLargest k f = .gt)) = inRange k f := by
  rw [Bool.eq_iff_iff, decide_eq_true_iff, outside_iff, not_not]

theorem inRange_of_cmpLargest_eq {k : κ} (h : cmpLargest k f = .eq) : inRange k f = true := by
  by_contra hn
  rcases outside_iff.mpr hn with hlt | hgt
  · rw [cmpLargest, if_pos hlt] at h
    cases h
  · rw [hgt] at h
    cases h

theorem userKey_of_cmpLargest_eq {k : κ} (h : cmpLargest k f = .eq) : k = f.largestKey.userKey := by
  rw [cmpLargest] at h
  split at h
  · cases h
  · exact compare_eq_iff_eq.mp h

structure Compared (levels : List (List (FdWithKeyRange κ))) (level p : ℕ) (ikey : InternalKey κ) (f : FdWithKeyRange κ)
    (x y : FilePickerContext) : Prop where
  passed : Passed levels level p ikey.userKey y
  rest_eq : rest levels level ikey false x =
    (if inRange ikey.userKey f then [f] else []) ++ rest levels level ikey true y

theorem compareKey_spec (hln : 1 < ls.length) (hsr : FilePicker.SortedLevels ls) (hlevel : level < ls.length)
    (hw : Waiting ls level p ikey x) (hf : (ls.getD level [])[x.currIndexInCurrLevel]? = some f) :
    ∃ y, compareKey ls level ikey.userKey f x = some (y, inRange ikey.userKey f, cmpLargest ikey.userKey f) ∧
      y.currIndexInCurrLevel = x.currIndexInCurrLevel ∧ y.startIndexInCurrLevel = x.startIndexInCurrLevel ∧
      (level = 0 → y = x) ∧
      (0 < level → Bounds (ls.getD (level + 1) []) ikey.userKey y.searchLeftBound y.searchRightBound) ∧
      (cmpLargest ikey.userKey f ≠ .eq → Compared ls level p ikey f x (if level = 0 then y.nextFile else y)) := by
  unfold compareKey
  rw [if_pos (.inl hln), hit_eq_inRange]
  by_cases h0 : level = 0
  · subst h0
    obtain ⟨hc, hlf, hr⟩ := hw.top rfl
    refine ⟨x, if_pos rfl, rfl, rfl, fun _ => rfl, fun h => absurd h (lt_irrefl 0), fun _ => ?_⟩
    rw [if_pos rfl]
    refine ⟨⟨fun _ => ⟨congrArg (· + 1) hc, hlf, hr⟩, fun h => absurd h (lt_irrefl 0)⟩, ?_⟩
    exact rest_top_cons hf true
  · have hp := Nat.pos_of_ne_zero h0
    have hs := hsr level hp hlevel
    have hst := hw.below hp
    obtain ⟨left, right, hix, hwt⟩ := getNextLevelIndex_spec hp hlevel hsr hf
      (InternalKey.userKey_le_of_le (hst.le_largest hs hf)) (fun g hi hg => hst.prev_le hi hg)
    rw [if_neg h0, if_pos (hst.smallest_ge hs hf), hix]
    refine ⟨_, rfl, rfl, rfl, fun h => absurd h h0, fun _ => .inr hwt, fun hne => ?_⟩
    rw [if_neg h0]
    refine ⟨⟨fun h => absurd h h0, fun _ => .inr hwt⟩, ?_⟩
    rw [rest_waiting hp, rest_passed hp]
    by_cases hsm : cmpSmallest ikey.userKey f = .lt
    · rw [Standing.filter_of_lt hs hf hsm, if_neg (outside_iff.mp (.inl hsm))]
    have hl : cmpLargest ikey.userKey f = .lt := by
      cases h : cmpLargest ikey.userKey f with
      | lt => rfl
      | eq => exact absurd h hne
      | gt => exact absurd h (hst.cmpLargest_ne hs hf)
    have hin : inRange ikey.userKey f = true := by
      by_contra hn
      rcases outside_iff.mpr hn with h | h
      · exact hsm h
      · exact hst.cmpLargest_ne hs hf h
    rw [hst.filter_of_inside hs hf hsm hl, if_pos hin]

variable {y : FilePickerContext}

theorem Waiting.nextFile (hsr : FilePicker.SortedLevels ls) (hlevel : level < ls.length)
    (hw : Waiting ls level p ikey x) (hf : (ls.getD level [])[x.currIndexInCurrLevel]? = some f)
    (heq : cmpLargest ikey.userKey f = .eq)
    (hc : y.currIndexInCurrLevel = x.currIndexInCurrLevel) (hst : y.startIndexInCurrLevel = x.startIndexInCurrLevel)
    (ht : level = 0 → y = x) :
    rest ls level ikey false x = f :: rest ls level ikey false y.nextFile ∧
      (0 < level → Waiting ls level p ikey y.nextFile) ∧ (level = 0 → Passed ls level p ikey.userKey y.nextFile) := by
  by_cases h0 : level = 0
  · subst h0
    obtain ⟨hp, hl, hr⟩ := hw.top rfl
    rw [ht rfl]
    refine ⟨?_, fun h => absurd h (lt_irrefl 0),
      fun _ => ⟨fun _ => ⟨congrArg (· + 1) hp, hl, hr⟩, fun h => absurd h (lt_irrefl 0)⟩⟩
    rw [rest_top_cons hf false, if_pos (inRange_of_cmpLargest_eq heq)]
    rfl
  · have hps := Nat.pos_of_ne_zero h0
    obtain ⟨hfl, hs⟩ := (hw.below hps).filter_of_eq (hsr level hps hlevel) hf heq
    refine ⟨?_, fun _ => ⟨fun h => absurd h h0, fun _ => ?_⟩, fun h => absurd h h0⟩
    · rw [rest_waiting hps, rest_waiting hps, hfl]
      simp only [FilePickerContext.nextFile, hc]
      rfl
    · simp only [FilePickerContext.nextFile, hc, hst]
      exact hs

variable {c : MultiGetContext κ} {mask : ℕ → Bool} {s : FilePickerMultiGet} {rem : ℕ → List (FdWithKeyRange κ)}
  {i j m : ℕ}

def Active (c : MultiGetContext κ) (valueMask : ℕ → Bool) (i : ℕ) : Prop := i < c.numKeys ∧ valueMask i = false

def InLevel (c : MultiGetContext κ) (valueMask : ℕ → Bool) (s : FilePickerMultiGet) (i : ℕ) : Prop :=
  Active c valueMask i ∧ s.currentLevelRange.skipMask i = false

structure Ready (c : MultiGetContext κ) (levels : List (List (FdWithKeyRange κ))) (valueMask : ℕ → Bool)
    (rem : ℕ → List (FdWithKeyRange κ)) (p : ℕ) (s : FilePickerMultiGet) : Prop where
  notEnded : s.searchEnded = false
  lt : s.currLevel < levels.length
  settled : s.maybeRepeatKey = false
  stop : s.currentLevelRange.stop = c.numKeys
  start : ∀ i, Active c valueMask i → s.currentLevelRange.start ≤ i
  le : s.batchIter ≤ c.numKeys
  current : s.batchIter < c.numKeys → InLevel c valueMask s s.batchIter
  waiting : ∀ i, InLevel c valueMask s i → s.batchIter ≤ i →
    Waiting levels s.currLevel p (c.ikey i) (s.fpCtxArray i) ∧
      rem i = rest levels s.currLevel (c.ikey i) false (s.fpCtxArray i)
  passed : ∀ i, Active c valueMask i → (i < s.batchIter ∨ s.currentLevelRange.skipMask i = true) →
    Passed levels s.currLevel p (c.userKey i) (s.fpCtxArray i) ∧
      rem i = rest levels s.currLevel (c.ikey i) true (s.fpCtxArray i)
  skipped : ∀ i, Active c valueMask i → s.currentLevelRange.skipMask i = true →
    0 < s.currLevel ∧ (levels.getD s.currLevel []).filter (wanted (c.ikey i)) = [] ∧
      (s.fpCtxArray i).searchLeftBound = 0 ∧ (s.fpCtxArray i).searchRightBound = kLevelMaxIndex
  apart : ∀ i j, InLevel c valueMask s i → InLevel c valueMask s j → i < s.batchIter → s.batchIter ≤ j →
    c.userKey i ≠ c.userKey j
  twins : ∀ i j, InLevel c valueMask s i → InLevel c valueMask s j → s.batchIter ≤ i → s.batchIter ≤ j →
    c.userKey i = c.userKey j → (s.fpCtxArray i).currIndexInCurrLevel = (s.fpCtxArray j).currIndexInCurrLevel
  fresh : 0 < s.currLevel → ∀ i, InLevel c valueMask s i → s.batchIter ≤ i →
    (s.fpCtxArray i).currIndexInCurrLevel = (s.fpCtxArray i).startIndexInCurrLevel ∨ c.userKey i = c.userKey s.batchIter
  bounds : 0 < s.currLevel → s.batchIter < c.numKeys →
    (s.fpCtxArray s.batchIter).currIndexInCurrLevel ≠ (s.fpCtxArray s.batchIter).startIndexInCurrLevel →
    Bounds (levels.getD (s.currLevel + 1) []) (c.userKey s.batchIter) (s.fpCtxArray s.batchIter).searchLeftBound
      (s.fpCtxArray s.batchIter).searchRightBound
  topFile : s.currLevel = 0 → p < (levels.getD 0 []).length

def SortedKeys (c : MultiGetContext κ) : Prop := ∀ i j, i ≤ j → j < c.numKeys → c.userKey i ≤ c.userKey j

theorem SortedKeys.between (h : SortedKeys c) (him : i ≤ m) (hmj : m ≤ j) (hj : j < c.numKeys)
    (heq : c.userKey i = c.userKey j) : c.userKey m = c.userKey j :=
  le_antisymm (h m j hmj hj) (heq ▸ h i m him (hmj.trans_lt hj))

section

variable {t : FileScan κ}

structure Scanned (c : MultiGetContext κ) (levels : List (List (FdWithKeyRange κ))) (valueMask : ℕ → Bool) (p : ℕ)
    (s : FilePickerMultiGet) (t : FileScan κ) : Prop where
  le : s.batchIter ≤ t.batchIter
  le_numKeys : t.batchIter ≤ c.numKeys
  current : t.batchIter < c.numKeys → InLevel c valueMask s t.batchIter
  same : ∀ i, (InLevel c valueMask s i → i < s.batchIter ∨ t.batchIter ≤ i) →
    t.fpCtxArray i = s.fpCtxArray i ∧ t.skipMask i = s.currentLevelRange.skipMask i
  compared : ∀ i f, InLevel c valueMask s i → s.batchIter ≤ i → i < t.batchIter →
    (levels.getD s.currLevel [])[(s.fpCtxArray i).currIndexInCurrLevel]? = some f →
    cmpLargest (c.userKey i) f ≠ .eq ∧ t.skipMask i = !inRange (c.userKey i) f ∧
      Compared levels s.currLevel p (c.ikey i) f (s.fpCtxArray i) (t.fpCtxArray i)
  cmpLargest_ne : t.cmpLargest ≠ .eq
  hit : t.fileHit = true → t.f = (levels.getD s.currLevel [])[t.currFileIndex]? ∧
    ∃ i f, InLevel c valueMask s i ∧ s.batchIter ≤ i ∧ i < t.batchIter ∧
      (s.fpCtxArray i).currIndexInCurrLevel = t.currFileIndex ∧ t.f = some f ∧ inRange (c.userKey i) f = true
  hits : ∀ i f, InLevel c valueMask s i → s.batchIter ≤ i → i < t.batchIter →
    (levels.getD s.currLevel [])[(s.fpCtxArray i).currIndexInCurrLevel]? = some f → inRange (c.userKey i) f = true →
    t.fileHit = true ∧ (s.fpCtxArray i).currIndexInCurrLevel = t.currFileIndex
  duplicate : t.fileHit = true → ∀ i j, InLevel c valueMask s i → InLevel c valueMask s j → s.batchIter ≤ i →
    i < t.batchIter → t.batchIter ≤ j → c.userKey i = c.userKey j →
    (s.fpCtxArray j).currIndexInCurrLevel = t.currFileIndex
  miss : t.fileHit = false →
    t.currFileIndex = fileIndexAt (levels.getD s.currLevel []) s.currentLevelRange s.fpCtxArray t.batchIter

omit [LinearOrder κ] in
theorem next_spec (hr : s.currentLevelRange.stop = c.numKeys) (hi : i < c.numKeys) :
    i < s.currentLevelRange.next mask i ∧ s.currentLevelRange.next mask i ≤ c.numKeys ∧
      (∀ m, i < m → m < s.currentLevelRange.next mask i → ¬ InLevel c mask s m) ∧
      (s.currentLevelRange.next mask i < c.numKeys → InLevel c mask s (s.currentLevelRange.next mask i)) := by
  obtain ⟨hle, hub, ha, he⟩ := @MultiGetRange.iter_spec mask s.currentLevelRange (i + 1) (by omega)
  rw [hr] at hub he
  refine ⟨hle, hub, fun m h1 h2 hm => ?_, fun h => ?_⟩
  · have hmask := ha m h1 h2
    rw [MultiGetRange.masked, hm.1.2, hm.2] at hmask
    cases hmask
  · have hmask := Bool.or_eq_false_iff.mp (he h)
    exact ⟨⟨h, hmask.1⟩, hmask.2⟩

def HasFiles (c : MultiGetContext κ) (levels : List (List (FdWithKeyRange κ))) (valueMask : ℕ → Bool)
    (s : FilePickerMultiGet) : Prop :=
  ∀ i, InLevel c valueMask s i → s.batchIter ≤ i →
    ∃ f, (levels.getD s.currLevel [])[(s.fpCtxArray i).currIndexInCurrLevel]? = some f

theorem Scanned.currIndex_eq (hr : s.currentLevelRange.stop = c.numKeys) (hs : Scanned c ls mask p s t)
    (hlt : t.batchIter < c.numKeys)
    (hc : (s.fpCtxArray t.batchIter).currIndexInCurrLevel = t.currFileIndex ∨ t.fileHit = false) :
    (s.fpCtxArray t.batchIter).currIndexInCurrLevel = t.currFileIndex := by
  rcases hc with h | h
  · exact h
  · rw [hs.miss h, fileIndexAt, if_pos (by rw [hr]; exact ne_of_lt hlt)]

theorem Scanned.step (hst : SortedKeys c) (hrd : Ready c ls mask rem p s)
    (hs : Scanned c ls mask p s t) (hlt : t.batchIter < c.numKeys)
    (hcn : (s.fpCtxArray t.batchIter).currIndexInCurrLevel = t.currFileIndex ∨ t.fileHit = false)
    (hf : (ls.getD s.currLevel [])[(s.fpCtxArray t.batchIter).currIndexInCurrLevel]? = some f)
    (hne : cmpLargest (c.userKey t.batchIter) f ≠ .eq)
    (hy : Compared ls s.currLevel p (c.ikey t.batchIter) f (s.fpCtxArray t.batchIter)
      (if s.currLevel = 0 then y.nextFile else y)) :
    Scanned c ls mask p s (passKey ls mask s.currLevel s.currentLevelRange
      (t.compared f y (inRange (c.userKey t.batchIter) f) (cmpLargest (c.userKey t.batchIter) f))) := by
  have hidx := hs.currIndex_eq hrd.stop hlt hcn
  have hat := hs.current hlt
  obtain ⟨hnt, hn, hgp, hnx⟩ := @next_spec κ c mask s t.batchIter hrd.stop hlt
  set u := passKey ls mask s.currLevel s.currentLevelRange
    (t.compared f y (inRange (c.userKey t.batchIter) f) (cmpLargest (c.userKey t.batchIter) f)) with hu
  have hh : u.fileHit = (t.fileHit || inRange (c.userKey t.batchIter) f) := rfl
  have hix (h : u.fileHit = true) : u.currFileIndex = t.currFileIndex := if_pos h
  have hct {i : ℕ} (hi : i ≠ t.batchIter) : u.fpCtxArray i = t.fpCtxArray i ∧ u.skipMask i = t.skipMask i := by
    constructor
    · change (if s.currLevel = 0 then _ else _ : ℕ → FilePickerContext) i = _
      split
      · exact (update_of_ne hi _ _).trans (update_of_ne hi _ _)
      · exact update_of_ne hi _ _
    · change (if inRange (c.userKey t.batchIter) f then t.skipMask else _) i = _
      split
      · rfl
      · exact update_of_ne hi _ _
  have hsl : u.fpCtxArray t.batchIter = if s.currLevel = 0 then y.nextFile else y := by
    change (if s.currLevel = 0 then _ else _ : ℕ → FilePickerContext) t.batchIter = _
    split
    · exact (update_self _ _ _).trans (congrArg FilePickerContext.nextFile (update_self _ _ _))
    · exact update_self _ _ _
  have hsk : u.skipMask t.batchIter = !inRange (c.userKey t.batchIter) f := by
    change (if inRange (c.userKey t.batchIter) f then t.skipMask else _) t.batchIter = _
    cases hin : inRange (c.userKey t.batchIter) f with
    | true => exact (hs.same _ fun _ => .inr le_rfl).2.trans hat.2
    | false => exact update_self _ _ _
  -- a key in front of the next one is the one just compared or was compared before
  have hc {i : ℕ} (hi : InLevel c mask s i) (hlt' : i < u.batchIter) : i < t.batchIter ∨ i = t.batchIter := by
    rcases Nat.lt_trichotomy i t.batchIter with h | h | h
    · exact .inl h
    · exact .inr h
    · exact absurd hi (hgp i h hlt')
  constructor
  case le => exact hs.le.trans hnt.le
  case le_numKeys => exact hn
  case current => exact hnx
  case same =>
    intro i hi
    have hne : i ≠ t.batchIter := by
      rintro rfl
      rcases hi hat with h | h
      · exact absurd h (not_lt.mpr hs.le)
      · exact absurd h (not_le.mpr hnt)
    obtain ⟨h1, h2⟩ := hs.same i fun hin => (hi hin).imp_right fun h => hnt.le.trans h
    exact ⟨(hct hne).1.trans h1, (hct hne).2.trans h2⟩
  case compared =>
    intro i g hi hle hlt' hg
    rcases hc hi hlt' with h | rfl
    · rw [(hct (ne_of_lt h)).1, (hct (ne_of_lt h)).2]
      exact hs.compared i g hi hle h hg
    rw [hf] at hg
    cases hg
    rw [hsl]
    exact ⟨hne, hsk, hy⟩
  case cmpLargest_ne => exact hne
  case hit =>
    intro h
    rw [hix h, ← hidx]
    refine ⟨hf.symm, ?_⟩
    by_cases ho : t.fileHit = true
    · obtain ⟨heq, i, g, hi, hle, hlt', hcr, hg, hin⟩ := hs.hit ho
      rw [← hidx, hf] at heq
      rw [heq] at hg
      cases hg
      exact ⟨i, f, hi, hle, hlt'.trans hnt, hcr.trans hidx.symm, rfl, hin⟩
    · rw [hh, Bool.eq_false_iff.mpr ho, Bool.false_or] at h
      exact ⟨t.batchIter, f, hat, hs.le, hnt, rfl, rfl, h⟩
  case hits =>
    intro i g hi hle hlt' hg hin
    rcases hc hi hlt' with h | rfl
    · obtain ⟨h1, h2⟩ := hs.hits i g hi hle h hg hin
      have h3 : u.fileHit = true := by rw [hh, h1, Bool.true_or]
      exact ⟨h3, h2.trans (hix h3).symm⟩
    · rw [hf] at hg
      cases hg
      have h3 : u.fileHit = true := by rw [hh, hin, Bool.or_true]
      exact ⟨h3, hidx.trans (hix h3).symm⟩
  case duplicate =>
    intro h i j hi hj hle hlt' hle' heq
    rw [hix h, ← hidx]
    have hi' : i ≤ t.batchIter := (hc hi hlt').elim le_of_lt le_of_eq
    have hj' : t.batchIter ≤ j := hnt.le.trans hle'
    exact hrd.twins j t.batchIter hj hat (hs.le.trans hj') hs.le (hst.between hi' hj' hj.1.1 heq).symm
  case miss =>
    intro h
    have heq : u.currFileIndex = fileIndexAt (ls.getD s.currLevel []) s.currentLevelRange u.fpCtxArray u.batchIter :=
      if_neg (show ¬ u.fileHit = true from Bool.eq_false_iff.mp h)
    have hsame : u.fpCtxArray u.batchIter = s.fpCtxArray u.batchIter :=
      (hct (ne_of_gt hnt)).1.trans (hs.same _ fun _ => .inr hnt.le).1
    rw [heq, fileIndexAt, fileIndexAt, hsame]

def Exits (c : MultiGetContext κ) (levels : List (List (FdWithKeyRange κ))) (valueMask : ℕ → Bool) (p : ℕ)
    (s : FilePickerMultiGet) (t : FileScan κ) : Prop :=
  Scanned c levels valueMask p s t ∧ (t.batchIter = c.numKeys ∨
    t.fileHit = true ∧ (s.fpCtxArray t.batchIter).currIndexInCurrLevel ≠ t.currFileIndex)

structure Breaks (c : MultiGetContext κ) (levels : List (List (FdWithKeyRange κ))) (valueMask : ℕ → Bool) (p : ℕ)
    (s : FilePickerMultiGet) (t : FileScan κ) (f : FdWithKeyRange κ) (y : FilePickerContext) : Prop where
  scanned : Scanned c levels valueMask p s t
  lt : t.batchIter < c.numKeys
  currIndex_eq : (s.fpCtxArray t.batchIter).currIndexInCurrLevel = t.currFileIndex
  file : (levels.getD s.currLevel [])[(s.fpCtxArray t.batchIter).currIndexInCurrLevel]? = some f
  eq : cmpLargest (c.userKey t.batchIter) f = .eq
  currIndex : y.currIndexInCurrLevel = (s.fpCtxArray t.batchIter).currIndexInCurrLevel
  startIndex : y.startIndexInCurrLevel = (s.fpCtxArray t.batchIter).startIndexInCurrLevel
  top : s.currLevel = 0 → y = s.fpCtxArray t.batchIter
  bounds : 0 < s.currLevel →
    Bounds (levels.getD (s.currLevel + 1) []) (c.userKey t.batchIter) y.searchLeftBound y.searchRightBound

def breakScan (c : MultiGetContext κ) (valueMask : ℕ → Bool) (s : FilePickerMultiGet) (t : FileScan κ)
    (f : FdWithKeyRange κ) (y : FilePickerContext) : FileScan κ :=
  { t.compared f y true .eq with
    upperKey := skipDuplicates c valueMask s.currentLevelRange t.batchIter s.currentLevelRange.stop
      (s.currentLevelRange.next valueMask t.batchIter) }

theorem scanKeys_spec (hl : 1 < ls.length) (hsr : FilePicker.SortedLevels ls) (hso : SortedKeys c)
    (hrd : Ready c ls mask rem p s) (hfl : HasFiles c ls mask s) {fuel : ℕ}
    (hs : Scanned c ls mask p s t) (hfu : c.numKeys < fuel + t.batchIter) :
    ∃ t', scanKeys c ls mask s.currLevel s.currentLevelRange fuel t = some t' ∧ (Exits c ls mask p s t' ∨
        ∃ t0 f y, Breaks c ls mask p s t0 f y ∧ t' = breakScan c mask s t0 f y) := by
  induction fuel generalizing t with
  | zero => exact absurd hs.le_numKeys (by omega)
  | succ fuel ih =>
    rw [scanKeys]
    have hct := (hs.same t.batchIter fun _ => .inr le_rfl).1
    rw [hrd.stop, hct]
    by_cases he : t.batchIter = c.numKeys
    · rw [if_neg fun h => h.1 he]
      exact ⟨t, rfl, .inl ⟨hs, .inl he⟩⟩
    by_cases hcn : (s.fpCtxArray t.batchIter).currIndexInCurrLevel = t.currFileIndex ∨ t.fileHit = false
    · have hlt := Nat.lt_of_le_of_ne hs.le_numKeys he
      have hat := hs.current hlt
      obtain ⟨f, hf⟩ := hfl t.batchIter hat hs.le
      obtain ⟨y, hc, hcr, hst, ht, hb, hcm⟩ := compareKey_spec hl hsr hrd.lt (hrd.waiting t.batchIter hat hs.le).1 hf
      have hc' : compareKey ls s.currLevel (c.userKey t.batchIter) f (s.fpCtxArray t.batchIter) =
        some (y, inRange (c.userKey t.batchIter) f, cmpLargest (c.userKey t.batchIter) f) := hc
      rw [if_pos ⟨he, hcn⟩, hf]
      dsimp only
      rw [hc']
      dsimp only
      by_cases heq : cmpLargest (c.userKey t.batchIter) f = .eq
      · rw [if_pos heq, heq, inRange_of_cmpLargest_eq heq]
        refine ⟨_, rfl, .inr ⟨t, f, y, ⟨hs, hlt, hs.currIndex_eq hrd.stop hlt hcn, hf, heq, hcr, hst, ht, hb⟩, ?_⟩⟩
        rw [breakScan, hrd.stop]
      rw [if_neg heq]
      apply ih (hs.step hso hrd hlt hcn hf heq (hcm heq))
      have := (@next_spec κ c mask s t.batchIter hrd.stop hlt).1
      change c.numKeys < fuel + s.currentLevelRange.next mask t.batchIter
      omega
    · rw [if_neg fun h => hcn h.2]
      rw [not_or, Bool.not_eq_false] at hcn
      exact ⟨t, rfl, .inl ⟨hs, .inr ⟨hcn.2, hcn.1⟩⟩⟩

theorem skipDuplicates_spec (hs : SortedKeys c) (hr : s.currentLevelRange.stop = c.numKeys) {d upper : ℕ}
    (hle : i < upper) (hub : upper ≤ c.numKeys) (hd : c.numKeys ≤ d + upper)
    (hin : upper < c.numKeys → InLevel c mask s upper)
    (ha : ∀ m, InLevel c mask s m → i ≤ m → m < upper → c.userKey m = c.userKey i) :
    let u := skipDuplicates c mask s.currentLevelRange i d upper
    i < u ∧ u ≤ c.numKeys ∧ (u < c.numKeys → InLevel c mask s u) ∧
      (∀ m, InLevel c mask s m → i ≤ m → m < u → c.userKey m = c.userKey i) ∧
      ∀ m, m < c.numKeys → u ≤ m → c.userKey i ≠ c.userKey m := by
  induction d generalizing upper with
  | zero =>
    refine ⟨hle, hub, hin, ha, fun m hm hge => ?_⟩
    rw [skipDuplicates] at hge
    omega
  | succ d ih =>
    rw [skipDuplicates, hr]
    by_cases hc : upper ≠ c.numKeys ∧ c.userKey i = c.userKey upper
    · rw [if_pos hc]
      have hlt := Nat.lt_of_le_of_ne hub hc.1
      obtain ⟨hnt, hn, hg, hnx⟩ := @next_spec κ c mask s upper hr hlt
      refine ih (hle.trans hnt) hn (by omega) hnx fun m hm h1 h2 => ?_
      rcases Nat.lt_trichotomy m upper with h | h | h
      · exact ha m hm h1 h
      · rw [h, hc.2]
      · exact absurd hm (hg m h h2)
    · rw [if_neg hc]
      refine ⟨hle, hub, hin, ha, fun m hm hge heq => hc ⟨by omega, ?_⟩⟩
      rw [heq]
      exact (hs.between hle.le hge hm heq).symm

end

section

variable {s' : FilePickerMultiGet} {mask' : ℕ → Bool} {rem' : ℕ → List (FdWithKeyRange κ)}

theorem Ready.advance (hrd : Ready c ls mask rem p s) (hlevel : s'.currLevel = s.currLevel)
    (hrange : s'.currentLevelRange = s.currentLevelRange) (hended : s'.searchEnded = false)
    (hrepeat : s'.maybeRepeatKey = false) (hlt : s.batchIter < s'.batchIter) (hle : s'.batchIter ≤ c.numKeys)
    (hmask : ∀ i, Active c mask' i → Active c mask i)
    (hcurrent : s'.batchIter < c.numKeys → InLevel c mask' s' s'.batchIter)
    (hsame : ∀ i, (InLevel c mask s i → s'.batchIter ≤ i) → s'.fpCtxArray i = s.fpCtxArray i)
    (hpassed : ∀ i, Active c mask' i → (i < s'.batchIter ∨ s.currentLevelRange.skipMask i = true) →
      Passed ls s.currLevel p (c.userKey i) (s'.fpCtxArray i) ∧
        rem' i = rest ls s.currLevel (c.ikey i) true (s'.fpCtxArray i))
    (hrem : ∀ i, InLevel c mask s i → s'.batchIter ≤ i → rem' i = rem i)
    (hapart : ∀ i j, InLevel c mask s i → InLevel c mask s j → s.batchIter ≤ i → i < s'.batchIter →
      s'.batchIter ≤ j → c.userKey i ≠ c.userKey j) : Ready c ls mask' rem' p s' := by
  have hin (i : ℕ) (hi : InLevel c mask' s' i) : InLevel c mask s i := ⟨hmask i hi.1, hrange ▸ hi.2⟩
  have hct (i : ℕ) (hi : s'.batchIter ≤ i) : s'.fpCtxArray i = s.fpCtxArray i := hsame i fun _ => hi
  have hf (hp : 0 < s.currLevel) (i : ℕ) (hi : InLevel c mask s i) (hb : s'.batchIter ≤ i) :
      (s.fpCtxArray i).currIndexInCurrLevel = (s.fpCtxArray i).startIndexInCurrLevel := by
    rcases hrd.fresh hp i hi (hlt.le.trans hb) with h | h
    · exact h
    · exact absurd h.symm (hapart _ i (hrd.current (hlt.trans_le hle)) hi le_rfl hlt hb)
  constructor
  case notEnded => exact hended
  case lt => exact hlevel ▸ hrd.lt
  case settled => exact hrepeat
  case stop => exact hrange ▸ hrd.stop
  case start => exact fun i hi => hrange ▸ hrd.start i (hmask i hi)
  case le => exact hle
  case current => exact hcurrent
  case waiting =>
    intro i hi hb
    rw [hlevel, hct i hb, hrem i (hin i hi) hb]
    exact hrd.waiting i (hin i hi) (hlt.le.trans hb)
  case passed =>
    intro i hi hb
    rw [hlevel]
    exact hpassed i hi (hrange ▸ hb)
  case skipped =>
    intro i hi hs
    rw [hrange] at hs
    rw [hlevel, hsame i fun h => absurd (h.2.symm.trans hs) Bool.false_ne_true]
    exact hrd.skipped i (hmask i hi) hs
  case apart =>
    intro i j hi hj hlt' hle'
    by_cases hb : s.batchIter ≤ i
    · exact hapart i j (hin i hi) (hin j hj) hb hlt' hle'
    · exact hrd.apart i j (hin i hi) (hin j hj) (Nat.lt_of_not_le hb) (hlt.le.trans hle')
  case twins =>
    intro i j hi hj hi' hj'
    rw [hct i hi', hct j hj']
    exact hrd.twins i j (hin i hi) (hin j hj) (hlt.le.trans hi') (hlt.le.trans hj')
  case fresh =>
    intro hp i hi hb
    rw [hlevel] at hp
    rw [hct i hb]
    exact .inl (hf hp i (hin i hi) hb)
  case bounds =>
    intro hp hb hne
    rw [hlevel] at hp
    rw [hct _ le_rfl] at hne
    exact absurd (hf hp _ (hin _ (hcurrent hb)) le_rfl) hne
  case topFile => exact fun h0 => hrd.topFile (hlevel ▸ h0)

end

section

variable {t : FileScan κ} {u : ℕ} {s' : FilePickerMultiGet}

theorem Scanned.inLevel (hs : Scanned c ls mask p s t) (hi : Active c mask i)
    (hsk : t.skipMask i = false) : InLevel c mask s i := by
  refine ⟨hi, Bool.eq_false_iff.mpr fun ht => ?_⟩
  rw [(hs.same i fun hin => absurd (hin.2.symm.trans ht) Bool.false_ne_true).2, ht] at hsk
  cases hsk

theorem Scanned.behind (hrd : Ready c ls mask rem p s) (hfl : HasFiles c ls mask s) (hs : Scanned c ls mask p s t)
    (hf : t.fileHit = true → (ls.getD s.currLevel [])[t.currFileIndex]? = some f) (hi : Active c mask i)
    (hlt : i < t.batchIter ∨ s.currentLevelRange.skipMask i = true) :
    Passed ls s.currLevel p (c.userKey i) (t.fpCtxArray i) ∧
      rem i = (if s.batchIter ≤ i ∧ t.skipMask i = false then [f] else []) ++
        rest ls s.currLevel (c.ikey i) true (t.fpCtxArray i) := by
  by_cases hc : InLevel c mask s i ∧ s.batchIter ≤ i
  · obtain ⟨hin, hle⟩ := hc
    have hlt : i < t.batchIter := hlt.resolve_right fun h => Bool.false_ne_true (hin.2.symm.trans h)
    obtain ⟨g, hg⟩ := hfl i hin hle
    obtain ⟨-, hsk, hpassed, hrs⟩ := hs.compared i g hin hle hlt hg
    refine ⟨hpassed, ?_⟩
    rw [(hrd.waiting i hin hle).2, hrs, hsk]
    cases hr : inRange (c.userKey i) g with
    | false => rw [if_neg (by simpa [MultiGetContext.ikey] using hr), if_neg (by simp)]
    | true =>
      obtain ⟨hh, hix⟩ := hs.hits i g hin hle hlt hg hr
      rw [hix, hf hh] at hg
      cases hg
      rw [if_pos (by simpa [MultiGetContext.ikey] using hr), if_pos ⟨hle, rfl⟩]
  · have hlt' : i < s.batchIter ∨ s.currentLevelRange.skipMask i = true := by
      by_contra hn
      rw [not_or, Bool.not_eq_true] at hn
      exact hc ⟨⟨hi, hn.2⟩, not_lt.mp hn.1⟩
    obtain ⟨hct, hsk⟩ := hs.same i fun hin => .inl (Nat.lt_of_not_le fun hle => hc ⟨hin, hle⟩)
    rw [hct, hsk, if_neg fun h => hc ⟨⟨hi, h.2⟩, h.1⟩]
    exact hrd.passed i hi hlt'

structure Pick (c : MultiGetContext κ) (levels : List (List (FdWithKeyRange κ))) (valueMask : ℕ → Bool) (p : ℕ)
    (s : FilePickerMultiGet) (t : FileScan κ) (u : ℕ) (f : FdWithKeyRange κ) : Prop where
  scanned : Scanned c levels valueMask p s t
  file : (levels.getD s.currLevel [])[t.currFileIndex]? = some f
  le : t.batchIter ≤ u
  le_numKeys : u ≤ c.numKeys
  current : u < c.numKeys → InLevel c valueMask s u
  apart : ∀ i j, InLevel c valueMask s i → InLevel c valueMask s j → s.batchIter ≤ i → i < u → u ≤ j →
    c.userKey i ≠ c.userKey j
  last : ∀ i, InLevel c valueMask s i → t.batchIter ≤ i → i < u →
    (s.fpCtxArray i).currIndexInCurrLevel = t.currFileIndex ∧ cmpLargest (c.userKey i) f = .eq
  hit : ∃ i, InLevel c valueMask s i ∧ s.batchIter ≤ i ∧ i < u ∧
    (s.fpCtxArray i).currIndexInCurrLevel = t.currFileIndex ∧ inRange (c.userKey i) f = true

theorem Exits.pick (hst : SortedKeys c) (het : Exits c ls mask p s t) (hh : t.fileHit = true) :
    ∃ f, t.f = some f ∧ Pick c ls mask p s t t.batchIter f := by
  obtain ⟨hs, he⟩ := het
  obtain ⟨hf, i, f, hi, hle, hlt, hc, hfl, hin⟩ := hs.hit hh
  refine ⟨f, hfl, ⟨hs, hf.symm.trans hfl, le_rfl, hs.le_numKeys, hs.current, ?_, ?_, i, hi, hle, hlt, hc, hin⟩⟩
  · intro i j hi hj hle hlt hle' heq
    -- then the key at which the loop ended is one more duplicate
    have hb : t.batchIter < c.numKeys := hle'.trans_lt hj.1.1
    have hk := hst.between hlt.le hle' hj.1.1 heq
    have hc := hs.duplicate hh i t.batchIter hi (hs.current hb) hle hlt le_rfl (heq.trans hk.symm)
    rcases he with h | h
    · exact absurd h (ne_of_lt hb)
    · exact h.2 hc
  · intro i _ h1 h2
    omega

theorem Breaks.pick (hst : SortedKeys c) (hrd : Ready c ls mask rem p s) (hb : Breaks c ls mask p s t f y) :
    let r := breakScan c mask s t f y
    t.batchIter < r.upperKey ∧ Pick c ls mask p s t r.upperKey f := by
  have hs := hb.scanned
  have hat := hs.current hb.lt
  obtain ⟨hnt, hn, hg, hnx⟩ := @next_spec κ c mask s t.batchIter hrd.stop hb.lt
  have hsp := skipDuplicates_spec hst hrd.stop (d := s.currentLevelRange.stop) hnt hn
    (by rw [hrd.stop]; omega) hnx fun m hm h1 h2 => by
      rcases eq_or_lt_of_le h1 with rfl | h
      · rfl
      · exact absurd hm (hg m h h2)
  obtain ⟨hlt, hle, hin, he, ho⟩ := hsp
  refine ⟨hlt, hs, ?_, hlt.le, hle, hin, ?_, ?_, t.batchIter, hat, hs.le, hlt, hb.currIndex_eq,
    inRange_of_cmpLargest_eq hb.eq⟩
  · rw [← hb.currIndex_eq]
    exact hb.file
  · intro i j hi hj hle' hlt' hge heq
    apply ho j hj.1.1 hge
    by_cases h : t.batchIter ≤ i
    · rw [← he i hi h hlt', heq]
    · exact hst.between (Nat.le_of_not_le h) (hlt.le.trans hge) hj.1.1 heq
  · intro i hi hle' hlt'
    have hk := he i hi hle' hlt'
    rw [hk, ← hb.currIndex_eq]
    exact ⟨hrd.twins i t.batchIter hi hat (hs.le.trans hle') hs.le hk, hb.eq⟩

theorem Pick.lookup_iff (hpc : Pick c ls mask p s t u f) (hf : HasFiles c ls mask s)
    (hin : InLevel c mask s i) (hle : s.batchIter ≤ i) (hlt : i < u) : t.skipMask i = false ↔
      (s.fpCtxArray i).currIndexInCurrLevel = t.currFileIndex ∧ inRange (c.userKey i) f = true := by
  have hs := hpc.scanned
  by_cases h : i < t.batchIter
  · obtain ⟨g, hg⟩ := hf i hin hle
    rw [(hs.compared i g hin hle h hg).2.1, Bool.not_eq_false']
    constructor
    · intro hr
      obtain ⟨-, hi⟩ := hs.hits i g hin hle h hg hr
      rw [hi, hpc.file] at hg
      cases hg
      exact ⟨hi, hr⟩
    · rintro ⟨hi, hr⟩
      rw [hi, hpc.file] at hg
      cases hg
      exact hr
  · obtain ⟨hi, heq⟩ := hpc.last i hin (not_lt.mp h) hlt
    rw [(hs.same i fun _ => .inr (not_lt.mp h)).2, hin.2]
    exact ⟨fun _ => ⟨hi, inRange_of_cmpLargest_eq heq⟩, fun _ => rfl⟩

theorem Pick.alike (hrd : Ready c ls mask rem p s) (hpc : Pick c ls mask p s t u f)
    (hsr : FilePicker.SortedLevels ls) (hfl : HasFiles c ls mask s)
    (hi : Active c mask i) (hj : Active c mask j) (hk : c.userKey i = c.userKey j)
    (h : s.batchIter ≤ i ∧ i < u ∧ t.skipMask i = false) : s.batchIter ≤ j ∧ j < u ∧ t.skipMask j = false := by
  obtain ⟨hle, hlt, hs⟩ := h
  have hin := hpc.scanned.inLevel hi hs
  obtain ⟨hix, hrange⟩ := (hpc.lookup_iff hfl hin hle hlt).mp hs
  have hjn : InLevel c mask s j := by
    refine ⟨hj, Bool.eq_false_iff.mpr fun ht => ?_⟩
    obtain ⟨hp, hn, -⟩ := hrd.skipped j hj ht
    have hf : (ls.getD s.currLevel [])[(s.fpCtxArray i).currIndexInCurrLevel]? = some f := hix ▸ hpc.file
    have hw := ((hrd.waiting i hin hle).1.below hp).wanted_file (hsr _ hp hrd.lt) hf
      fun hlt => outside_iff.mp (.inl hlt) hrange
    have hik : c.ikey i = c.ikey j := by rw [MultiGetContext.ikey, MultiGetContext.ikey, hk]
    rw [hik] at hw
    exact filter_eq_nil_iff.mp hn f (mem_of_getElem? hf) hw
  have hle' : s.batchIter ≤ j := not_lt.mp fun hlt => hrd.apart j i hjn hin hlt hle hk.symm
  have hlt' : j < u := Nat.lt_of_not_le fun hge => hpc.apart i j hin hjn hle hlt hge hk
  refine ⟨hle', hlt', (hpc.lookup_iff hfl hjn hle' hlt').mpr ⟨?_, hk ▸ hrange⟩⟩
  rw [← hix]
  exact hrd.twins j i hjn hin hle' hle hk.symm

structure Picked (c : MultiGetContext κ) (valueMask : ℕ → Bool) (s : FilePickerMultiGet) (t : FileScan κ) (u : ℕ)
    (s' : FilePickerMultiGet) : Prop where
  level : s'.currLevel = s.currLevel
  range : s'.currentLevelRange = s.currentLevelRange
  notEnded : s'.searchEnded = false
  upperKey : s'.upperKey = u
  fileRange : s'.currentFileRange = ⟨s.batchIter, u, t.skipMask⟩
  same : ∀ i, (InLevel c valueMask s i → i < t.batchIter ∨ u ≤ i) → s'.fpCtxArray i = t.fpCtxArray i
  last : ∀ i, InLevel c valueMask s i → t.batchIter ≤ i → i < u → ∃ y : FilePickerContext,
    s'.fpCtxArray i = y.nextFile ∧ y.currIndexInCurrLevel = (s.fpCtxArray i).currIndexInCurrLevel ∧
      y.startIndexInCurrLevel = (s.fpCtxArray i).startIndexInCurrLevel ∧ (s.currLevel = 0 → y = s.fpCtxArray i)

def remAfter (c : MultiGetContext κ) (levels : List (List (FdWithKeyRange κ))) (s' : FilePickerMultiGet) (t : FileScan κ)
    (i : ℕ) : List (FdWithKeyRange κ) :=
  rest levels s'.currLevel (c.ikey i) (decide (i < t.batchIter) || s'.currentLevelRange.skipMask i) (s'.fpCtxArray i)

omit [LinearOrder κ] in
theorem Picked.visits_iff (hpk : Picked c mask s t u s') (hi : Active c mask i) :
    s'.currentFileRange.visits mask i = true ↔ s.batchIter ≤ i ∧ i < u ∧ t.skipMask i = false := by
  rw [MultiGetRange.visits_iff, hpk.fileRange]
  exact ⟨fun h => ⟨h.1, h.2.1, h.2.2.2⟩, fun h => ⟨h.1, h.2.1, hi.2, h.2.2⟩⟩

section

variable (hrd : Ready c ls mask rem p s) (hsr : FilePicker.SortedLevels ls)
  (hpc : Pick c ls mask p s t u f) (hpk : Picked c mask s t u s')

include hrd hsr hpc hpk

theorem Picked.last_spec (hin : InLevel c mask s i) (hle : t.batchIter ≤ i) (hlt : i < u) :
    let r := s'.fpCtxArray i
    rem i = f :: rest ls s.currLevel (c.ikey i) false r ∧ (0 < s.currLevel → Waiting ls s.currLevel p (c.ikey i) r) ∧
      (s.currLevel = 0 → Passed ls s.currLevel p (c.userKey i) r) := by
  obtain ⟨y, hy, hc, hs, ht⟩ := hpk.last i hin hle hlt
  obtain ⟨hi, heq⟩ := hpc.last i hin hle hlt
  obtain ⟨hw, hrem⟩ := hrd.waiting i hin (hpc.scanned.le.trans hle)
  have hf : (ls.getD s.currLevel [])[(s.fpCtxArray i).currIndexInCurrLevel]? = some f := hi ▸ hpc.file
  rw [hrem, hy]
  exact hw.nextFile hsr hrd.lt hf heq hc hs ht

theorem Picked.account (hfl : HasFiles c ls mask s) (hi : Active c mask i) :
    rem i = (if s'.currentFileRange.visits mask i then [f] else []) ++ remAfter c ls s' t i := by
  simp only [hpk.visits_iff hi]
  rw [remAfter, hpk.level, hpk.range]
  by_cases hlt : i < t.batchIter ∨ s.currentLevelRange.skipMask i = true
  · have hsame := hpk.same i fun hin => .inl (hlt.resolve_right fun h => Bool.false_ne_true (hin.2.symm.trans h))
    obtain ⟨-, hrem⟩ := hpc.scanned.behind hrd hfl (fun _ => hpc.file) hi hlt
    have hf : (decide (i < t.batchIter) || s.currentLevelRange.skipMask i) = true := by simpa using hlt
    rw [hsame, hf, hrem]
    congr 1
    apply if_congr _ rfl rfl
    constructor
    · rintro ⟨hle, hs⟩
      refine ⟨hle, ?_, hs⟩
      rcases hlt with h | h
      · exact h.trans_le hpc.le
      · exact absurd ((hpc.scanned.inLevel hi hs).2.symm.trans h) Bool.false_ne_true
    · rintro ⟨hle, -, hs⟩
      exact ⟨hle, hs⟩
  · rw [not_or, Bool.not_eq_true] at hlt
    have hin : InLevel c mask s i := ⟨hi, hlt.2⟩
    have hle := not_lt.mp hlt.1
    have hf : (decide (i < t.batchIter) || s.currentLevelRange.skipMask i) = false := by simpa using And.intro hle hlt.2
    obtain ⟨hct, hs⟩ := hpc.scanned.same i fun _ => .inr hle
    rw [hf]
    by_cases hu : i < u
    · rw [if_pos ⟨hpc.scanned.le.trans hle, hu, hs.trans hlt.2⟩]
      exact (hpk.last_spec hrd hsr hpc hin hle hu).1
    · rw [if_neg fun h => hu h.2.1, hpk.same i fun _ => .inr (not_lt.mp hu), hct]
      exact (hrd.waiting i hin (hpc.scanned.le.trans hle)).2

variable {mask' : ℕ → Bool} {r : FilePickerMultiGet}
  (hkp : ∀ i, Active c mask' i → Active c mask i)
  (hon : ∀ i, Active c mask i → s'.currentFileRange.visits mask i = false → Active c mask' i)
  (hlevel : r.currLevel = s'.currLevel) (hrange : r.currentLevelRange = s'.currentLevelRange)
  (hended : r.searchEnded = false) (hrepeat : r.maybeRepeatKey = false) (hct : r.fpCtxArray = s'.fpCtxArray)

include hkp

omit hsr in
theorem Picked.passed (hfl : HasFiles c ls mask s) (hi : Active c mask' i)
    (hlt : i < t.batchIter ∨ s.currentLevelRange.skipMask i = true) :
    Passed ls s.currLevel p (c.userKey i) (s'.fpCtxArray i) ∧
      remAfter c ls s' t i = rest ls s.currLevel (c.ikey i) true (s'.fpCtxArray i) := by
  have hsame := hpk.same i fun hin => .inl (hlt.resolve_right fun h => Bool.false_ne_true (hin.2.symm.trans h))
  obtain ⟨hpassed, -⟩ := hpc.scanned.behind hrd hfl (fun _ => hpc.file) (hkp i hi) hlt
  have hf : (decide (i < t.batchIter) || s.currentLevelRange.skipMask i) = true := by simpa using hlt
  rw [remAfter, hpk.level, hpk.range, hf, hsame]
  exact ⟨hpassed, rfl⟩

include hon hlevel hrange hended hrepeat hct

theorem Picked.advance (hfl : HasFiles c ls mask s) (hb : r.batchIter = u)
    (hd : ∀ i, InLevel c mask s i → t.batchIter ≤ i → i < u → Active c mask' i → s.currLevel = 0) :
    Ready c ls mask' (remAfter c ls s' t) p r := by
  obtain ⟨a, ha, hal, halt, -⟩ := hpc.hit
  apply hrd.advance (hlevel.trans hpk.level) (hrange.trans hpk.range) hended hrepeat
  case hlt => exact hb ▸ hal.trans_lt halt
  case hle => exact hb ▸ hpc.le_numKeys
  case hmask => exact hkp
  case hcurrent =>
    intro hlt
    rw [hb] at hlt ⊢
    have hin := hpc.current hlt
    refine ⟨hon u hin.1 (Bool.eq_false_iff.mpr fun h => ?_), ?_⟩
    · exact lt_irrefl u ((hpk.visits_iff hin.1).mp h).2.1
    · rw [hrange, hpk.range]
      exact hin.2
  case hsame =>
    intro i hi
    rw [hb] at hi
    rw [hct, hpk.same i fun h => .inr (hi h)]
    exact (hpc.scanned.same i fun h => .inr (hpc.le.trans (hi h))).1
  case hpassed =>
    intro i hi hlt
    rw [hct]
    rw [hb] at hlt
    by_cases h : i < t.batchIter ∨ s.currentLevelRange.skipMask i = true
    · exact hpk.passed hrd hpc hkp hfl hi h
    rw [not_or, Bool.not_eq_true] at h
    have hin : InLevel c mask s i := ⟨hkp i hi, h.2⟩
    have hlt : i < u := hlt.resolve_right (Bool.eq_false_iff.mp h.2)
    have h0 := hd i hin (not_lt.mp h.1) hlt hi
    refine ⟨(hpk.last_spec hrd hsr hpc hin (not_lt.mp h.1) hlt).2.2 h0, ?_⟩
    rw [remAfter, hpk.level, h0, rest_top, rest_top]
  case hrem =>
    intro i hin hle
    rw [hb] at hle
    have hge := hpc.le.trans hle
    have hf : (decide (i < t.batchIter) || s.currentLevelRange.skipMask i) = false := by
      simpa using And.intro hge hin.2
    rw [remAfter, hpk.level, hpk.range, hf, hpk.same i fun _ => .inr hle, (hpc.scanned.same i fun _ => .inr hge).1]
    exact (hrd.waiting i hin (hpc.scanned.le.trans hge)).2.symm
  case hapart =>
    intro i j hi hj hle hlt hge
    rw [hb] at hlt hge
    exact hpc.apart i j hi hj hle hlt hge

omit hon in
theorem Picked.stay (hst : SortedKeys c) (hfs : HasFiles c ls mask s) (hb : r.batchIter = t.batchIter)
    (hp : 0 < s.currLevel) (hlt : t.batchIter < u) (hac : Active c mask' t.batchIter)
    (hbn : Bounds (ls.getD (s.currLevel + 1) []) (c.userKey t.batchIter)
      (s'.fpCtxArray t.batchIter).searchLeftBound (s'.fpCtxArray t.batchIter).searchRightBound) :
    Ready c ls mask' (remAfter c ls s' t) p r := by
  have hs := hpc.scanned
  have hat : InLevel c mask s t.batchIter := hs.current hac.1
  have hlevel' := hlevel.trans hpk.level
  have hrange' := hrange.trans hpk.range
  have hin {i : ℕ} (hi : InLevel c mask' r i) : InLevel c mask s i := ⟨hkp i hi.1, hrange' ▸ hi.2⟩
  have ha {i : ℕ} (hu : u ≤ i) : s'.fpCtxArray i = s.fpCtxArray i :=
    (hpk.same i fun _ => .inr hu).trans (hs.same i fun _ => .inr (hpc.le.trans hu)).1
  have hk {i : ℕ} (hi : InLevel c mask s i) (hle : t.batchIter ≤ i) (hlt' : i < u) :
      c.userKey i = c.userKey t.batchIter := by
    rw [userKey_of_cmpLargest_eq (hpc.last i hi hle hlt').2,
      userKey_of_cmpLargest_eq (hpc.last t.batchIter hat le_rfl hlt).2]
  have hc {i : ℕ} (hi : InLevel c mask s i) (hle : t.batchIter ≤ i) (hlt' : i < u) :
      (s'.fpCtxArray i).currIndexInCurrLevel = t.currFileIndex + 1 := by
    obtain ⟨y, hy, hc, -⟩ := hpk.last i hi hle hlt'
    rw [hy, ← (hpc.last i hi hle hlt').1, ← hc]
    rfl
  constructor
  case notEnded => exact hended
  case lt => exact hlevel' ▸ hrd.lt
  case settled => exact hrepeat
  case stop => exact hrange' ▸ hrd.stop
  case start => exact fun i hi => hrange' ▸ hrd.start i (hkp i hi)
  case le => exact hb ▸ hs.le_numKeys
  case current =>
    intro _
    rw [hb]
    exact ⟨hac, hrange' ▸ hat.2⟩
  case waiting =>
    intro i hi hle
    rw [hb] at hle
    rw [hct, hlevel']
    have hi := hin hi
    have hfl : (decide (i < t.batchIter) || s.currentLevelRange.skipMask i) = false := by
      simpa using And.intro hle hi.2
    rw [remAfter, hpk.level, hpk.range, hfl]
    refine ⟨?_, rfl⟩
    by_cases hu : i < u
    · exact (hpk.last_spec hrd hsr hpc hi hle hu).2.1 hp
    · rw [ha (not_lt.mp hu)]
      exact (hrd.waiting i hi (hs.le.trans hle)).1
  case passed =>
    intro i hi hlt'
    rw [hb, hrange'] at hlt'
    rw [hct, hlevel']
    exact hpk.passed hrd hpc hkp hfs hi hlt'
  case skipped =>
    intro i hi hsk
    rw [hrange'] at hsk
    have hn (hin : InLevel c mask s i) : False := Bool.false_ne_true (hin.2.symm.trans hsk)
    rw [hlevel', hct, hpk.same i fun h => (hn h).elim, (hs.same i fun h => (hn h).elim).1]
    exact hrd.skipped i (hkp i hi) hsk
  case apart =>
    intro i j hi hj hlt' hle heq
    rw [hb] at hlt' hle
    by_cases ho : s.batchIter ≤ i
    · -- the loop would have ended at the first of the two
      have hj' := hj.1.1
      have heq' := heq.trans (hst.between hlt'.le hle hj' heq).symm
      obtain ⟨hix, hl⟩ := hpc.last t.batchIter hat le_rfl hlt
      have hcr := hrd.twins i t.batchIter (hin hi) hat ho hs.le heq'
      have hf : (ls.getD s.currLevel [])[(s.fpCtxArray i).currIndexInCurrLevel]? = some f := by
        rw [hcr, hix]
        exact hpc.file
      exact (hs.compared i f (hin hi) ho hlt' hf).1 (heq' ▸ hl)
    · exact hrd.apart i j (hin hi) (hin hj) (Nat.lt_of_not_le ho) (hs.le.trans hle) heq
  case twins =>
    intro i j hi hj hle hle' heq
    rw [hb] at hle hle'
    rw [hct]
    by_cases hiu : i < u
    · have hju : j < u := Nat.lt_of_not_le fun hge =>
        hpc.apart i j (hin hi) (hin hj) (hs.le.trans hle) hiu hge heq
      rw [hc (hin hi) hle hiu, hc (hin hj) hle' hju]
    · have hju : u ≤ j := not_lt.mp fun hlt' =>
        hpc.apart j i (hin hj) (hin hi) (hs.le.trans hle') hlt' (not_lt.mp hiu) heq.symm
      rw [ha (not_lt.mp hiu), ha hju]
      exact hrd.twins i j (hin hi) (hin hj) (hs.le.trans hle) (hs.le.trans hle') heq
  case fresh =>
    intro _ i hi hle
    rw [hb] at hle ⊢
    rw [hct]
    by_cases hiu : i < u
    · exact .inr (hk (hin hi) hle hiu)
    · rw [ha (not_lt.mp hiu)]
      refine (hrd.fresh hp i (hin hi) (hs.le.trans hle)).imp_right fun heq => ?_
      exact (hst.between hs.le hle hi.1.1 heq.symm).symm
  case bounds =>
    intro _ _ _
    rw [hlevel', hb, hct]
    exact hbn
  case topFile => exact fun h0 => absurd (hlevel'.symm.trans h0) (ne_of_gt hp)

end

end

end FilePickerMultiGet

end ZenFSPlus.Db
