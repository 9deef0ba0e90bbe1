import Mathlib.Data.List.GetD
import Mathlib.Data.List.TakeDrop
import ZenFSPlus.Db.FileIndexer

/-!
`FilePicker`: the files that may hold a key, level by level.
-/

namespace ZenFSPlus.Db

open List InternalKey

variable {κ : Type} [LinearOrder κ]

def findFileInRange (files : List (FdWithKeyRange κ)) (ikey : InternalKey κ) (left right : ℕ) : ℕ :=
  left + (((files.take right).drop left).takeWhile fun f => f.largestKey < ikey).length

/-- The search of `PrepareNextLevel` in a level other than 0: the index of the first file and the right bound, which
is set to the last file if there was none. -/
def searchLevel (files : List (FdWithKeyRange κ)) (ikey : InternalKey κ) (left right : ℤ) : Option (ℕ × ℤ) :=
  if left ≤ right then
    let right := if right = kLevelMaxIndex then (files.length : ℤ) - 1 else right
    let startIndex := findFileInRange files ikey left.toNat (right + 1).toNat
    if (startIndex : ℤ) = right + 1 then none else some (startIndex, right)
  else none

structure FilePicker where
  currLevel : ℕ
  searchLeftBound : ℤ
  searchRightBound : ℤ
  searchEnded : Bool
  currIndexInCurrLevel : ℕ
  startIndexInCurrLevel : ℕ
  deriving DecidableEq

namespace FilePicker

variable (levels : List (List (FdWithKeyRange κ))) (ikey : InternalKey κ)

def skipLevel (s : FilePicker) : FilePicker :=
  { s with searchLeftBound := 0, searchRightBound := kLevelMaxIndex, currLevel := s.currLevel + 1 }

/-- The loop of `PrepareNextLevel` over the levels from `curr_level_` on; `none` if an assertion fails. -/
def prepareLevels : List (List (FdWithKeyRange κ)) → FilePicker → Option FilePicker
  | [], s => some { s with searchEnded := true }
  | files :: rest, s =>
    if files = [] then
      if s.searchLeftBound = 0 ∧ (s.searchRightBound = -1 ∨ s.searchRightBound = kLevelMaxIndex) then
        prepareLevels rest s.skipLevel
      else none
    else if s.currLevel = 0 then some { s with startIndexInCurrLevel := 0, currIndexInCurrLevel := 0 }
    else
      match searchLevel files ikey s.searchLeftBound s.searchRightBound with
      | none => prepareLevels rest s.skipLevel
      | some r => some { s with
          searchRightBound := r.2, startIndexInCurrLevel := r.1, currIndexInCurrLevel := r.1 }

def prepareNextLevel (s : FilePicker) : Option FilePicker :=
  prepareLevels ikey (levels.drop (s.currLevel + 1)) { s with currLevel := s.currLevel + 1 }

def new : Option FilePicker := prepareLevels ikey levels ⟨0, 0, kLevelMaxIndex, false, 0, 0⟩

def returnFile (f : FdWithKeyRange κ) (cmpLargest : Ordering) (s : FilePicker) :
    Option (Option (FdWithKeyRange κ) × FilePicker) :=
  if 0 < s.currLevel ∧ cmpLargest = .lt then (prepareNextLevel levels ikey s).map fun s => (some f, s)
  else some (some f, { s with currIndexInCurrLevel := s.currIndexInCurrLevel + 1 })

def scanFiles : List (FdWithKeyRange κ) → FilePicker → Option (Option (FdWithKeyRange κ) × FilePicker)
  | [], s => some (none, s)
  | f :: rest, s =>
    let smallest := cmpSmallest ikey.userKey f
    let largest := cmpLargest ikey.userKey f
    if 1 < levels.length ∨ 3 < (levels.getD s.currLevel []).length then
      if s.currLevel = 0 then
        if smallest = .lt ∨ largest = .gt then
          scanFiles rest { s with currIndexInCurrLevel := s.currIndexInCurrLevel + 1 }
        else returnFile levels ikey f largest s
      else if s.currIndexInCurrLevel = s.startIndexInCurrLevel ∨ smallest ≠ .gt then
        match (updateIndex levels).getNextLevelIndex s.currLevel s.currIndexInCurrLevel smallest largest with
        | none => none
        | some b =>
          let s := { s with searchLeftBound := b.1, searchRightBound := b.2 }
          if smallest = .lt ∨ largest = .gt then some (none, s) else returnFile levels ikey f largest s
      else none
    else returnFile levels ikey f .lt s

def getNextFileLoop : ℕ → FilePicker → Option (Option (FdWithKeyRange κ) × FilePicker)
  | 0, _ => none
  | fuel + 1, s =>
    if s.searchEnded then some (none, s)
    else
      match scanFiles levels ikey ((levels.getD s.currLevel []).drop s.currIndexInCurrLevel) s with
      | none => none
      | some (some f, s) => some (some f, s)
      | some (none, s) => (prepareNextLevel levels ikey s).bind (getNextFileLoop fuel)

/-- `GetNextFile`: the file, if there is one more; `none` if an assertion fails. -/
def getNextFile (s : FilePicker) : Option (Option (FdWithKeyRange κ) × FilePicker) :=
  getNextFileLoop levels ikey (levels.length + 1) s

inductive Returns : FilePicker → List (FdWithKeyRange κ) → Prop
  | done {s s' : FilePicker} (h : getNextFile levels ikey s = some (none, s')) : Returns s []
  | more {s s' : FilePicker} {f : FdWithKeyRange κ} {fs : List (FdWithKeyRange κ)}
    (h : getNextFile levels ikey s = some (some f, s')) (hfs : Returns s' fs) : Returns s (f :: fs)

end FilePicker

def inRange (k : κ) (f : FdWithKeyRange κ) : Bool := f.smallestKey.userKey ≤ k ∧ k ≤ f.largestKey.userKey

def wanted (ikey : InternalKey κ) (f : FdWithKeyRange κ) : Bool := inRange ikey.userKey f && decide (ikey ≤ f.largestKey)

def wantedFiles (ikey : InternalKey κ) (levels : List (List (FdWithKeyRange κ))) : List (FdWithKeyRange κ) :=
  levels.flatMap fun files => files.filter (wanted ikey)

def filesFor (ikey : InternalKey κ) : List (List (FdWithKeyRange κ)) → List (FdWithKeyRange κ)
  | [] => []
  | files :: levels => files.filter (inRange ikey.userKey) ++ wantedFiles ikey levels

section

variable {files : List (FdWithKeyRange κ)} {ikey : InternalKey κ} {left right : ℤ} {f g : FdWithKeyRange κ} {i : ℕ}

theorem inRange_iff {k : κ} : inRange k f = true ↔ f.smallestKey.userKey ≤ k ∧ k ≤ f.largestKey.userKey := by
  simp [inRange]

theorem wanted_iff : wanted ikey f = true ↔
    f.smallestKey.userKey ≤ ikey.userKey ∧ f.largestKey.userKey ≥ ikey.userKey ∧ ikey ≤ f.largestKey := by
  simp [wanted, inRange, and_assoc]

theorem outside_iff {k : κ} : (cmpSmallest k f = .lt ∨ cmpLargest k f = .gt) ↔ ¬ inRange k f = true := by
  rw [inRange_iff, not_and_or, not_le, not_le, cmpLargest]
  by_cases hlt : cmpSmallest k f = .lt
  · have hk : k < f.smallestKey.userKey := compare_lt_iff_lt.mp hlt
    simp [hlt, hk]
  · have hk : ¬ k < f.smallestKey.userKey := fun h => hlt (compare_lt_iff_lt.mpr h)
    rw [if_neg hlt, compare_gt_iff_gt]
    simp [hlt, hk]

theorem not_wanted_of_lt (h : f.largestKey < ikey) : wanted ikey f = false := by
  rw [Bool.eq_false_iff, Ne, wanted_iff]
  exact fun hw => absurd hw.2.2 (not_le.mpr h)

theorem not_wanted_of_userKey_lt (h : ikey.userKey < f.smallestKey.userKey) : wanted ikey f = false := by
  rw [Bool.eq_false_iff, Ne, wanted_iff]
  exact fun hw => absurd hw.1 (not_le.mpr h)

theorem Bounds.below (h : Bounds files ikey.userKey left right) (hi : (i : ℤ) < left) (hf : files[i]? = some f) :
    f.largestKey < ikey := by
  rcases h with ⟨rfl, -⟩ | h
  · omega
  · exact lt_of_userKey_lt (h.below i f hi hf)

theorem searchLevel_spec (h : Bounds files ikey.userKey left right) (hne : files ≠ []) :
    match searchLevel files ikey left right with
    | none => files.filter (wanted ikey) = []
    | some r => r.1 < files.length ∧ (∀ f ∈ files.take r.1, f.largestKey < ikey) ∧
        ∀ f, files[r.1]? = some f → ikey ≤ f.largestKey := by
  have hps := length_pos_iff.mpr hne
  have hn (hal : ∀ (i : ℕ) f, files[i]? = some f → wanted ikey f = false) : files.filter (wanted ikey) = [] := by
    rw [filter_eq_nil_iff]
    intro f hf
    obtain ⟨i, hi⟩ := mem_iff_getElem?.mp hf
    simp [hal i f hi]
  -- bounds with the right one as it is after the first test
  have hb : left ≤ right → ∃ right', (if right = kLevelMaxIndex then (files.length : ℤ) - 1 else right) = right' ∧
      0 ≤ left ∧ left ≤ right' ∧ right' ≤ (files.length : ℤ) - 1 ∧
      ∀ (i : ℕ) f, right' < i → files[i]? = some f → wanted ikey f = false := by
    intro hle
    have he (i : ℕ) (f : FdWithKeyRange κ) (hi : (files.length : ℤ) - 1 < i) (hf : files[i]? = some f) :
        wanted ikey f = false := by
      have := (List.getElem?_eq_some_iff.mp hf).1
      omega
    by_cases hm : right = kLevelMaxIndex
    · refine ⟨_, if_pos hm, ?_⟩
      rcases h with ⟨rfl, -⟩ | h
      · exact ⟨by omega, by omega, by omega, he⟩
      · have := h.right_le
        exact ⟨h.nonneg, by omega, by omega, he⟩
    · refine ⟨_, if_neg hm, ?_⟩
      rcases h with ⟨-, hr⟩ | h
      · exact absurd hr hm
      · exact ⟨h.nonneg, hle, h.right_le, fun i f hi hf => not_wanted_of_userKey_lt (h.above i f hi hf)⟩
  unfold searchLevel
  by_cases hle : left ≤ right
  · obtain ⟨right', hr, hl, hle', hls, ha⟩ := hb hle
    rw [if_pos hle, hr]
    dsimp only
    unfold findFileInRange
    set part := (files.take (right' + 1).toNat).drop left.toNat with hp
    have hg (j : ℕ) (hj : j < (right' + 1).toNat - left.toNat) : part[j]? = files[left.toNat + j]? := by
      rw [hp, List.getElem?_drop, List.getElem?_take_of_lt (by omega)]
    have hlen : part.length = (right' + 1).toNat - left.toNat := by
      rw [hp, length_drop, length_take]
      omega
    set found := (part.takeWhile fun f => f.largestKey < ikey).length with hfn
    have hfl : found ≤ part.length := ( takeWhile_prefix _).length_le
    have hlw (i : ℕ) (f : FdWithKeyRange κ) (hi : i < left.toNat + found) (hf : files[i]? = some f) :
        f.largestKey < ikey := by
      by_cases hil : (i : ℤ) < left
      · exact h.below hil hf
      have hj : part[i - left.toNat]? = some f := by
        rw [hg _ (by omega), ← hf]
        congr 1
        omega
      simpa using of_lt_takeWhile (show i - left.toNat < found by omega) hj
    by_cases he : ((left.toNat + found : ℕ) : ℤ) = right' + 1
    · rw [if_pos he]
      refine hn fun i f hf => ?_
      by_cases hi : right' < i
      · exact ha i f hi hf
      · exact not_wanted_of_lt (hlw i f (by omega) hf)
    · rw [if_neg he]
      refine ⟨by omega, fun f hf => ?_, fun f hf => ?_⟩
      · obtain ⟨i, hi⟩ := mem_iff_getElem?.mp hf
        rw [List.getElem?_take] at hi
        split at hi
        · exact hlw i f (by omega) hi
        · cases hi
      · have hf' : part[found]? = some f := by
          rw [hg _ (by omega)]
          exact hf
        simpa using not_of_getElem?_takeWhile hf'
  · rw [if_neg hle]
    refine hn fun i f hf => ?_
    rcases h with ⟨rfl, rfl⟩ | h
    · exact absurd (show (0 : ℤ) ≤ kLevelMaxIndex by decide) hle
    have := h.left_le
    by_cases hi : (i : ℤ) < left
    · exact not_wanted_of_lt (lt_of_userKey_lt (h.below i f hi hf))
    · exact not_wanted_of_userKey_lt (h.above i f (by omega) hf)

end

section

variable {files : List (FdWithKeyRange κ)} {ikey : InternalKey κ} {f g : FdWithKeyRange κ} {start i : ℕ}

/-- Where the search of a sorted level stands. -/
inductive Standing (files : List (FdWithKeyRange κ)) (ikey : InternalKey κ) (start : ℕ) : ℕ → Prop
  | first (hlt : start < files.length) (hbelow : ∀ f ∈ files.take start, f.largestKey < ikey)
    (hle : ∀ f, files[start]? = some f → ikey ≤ f.largestKey) : Standing files ikey start start
  | later {i : ℕ} {g : FdWithKeyRange κ} (hi : start ≤ i) (hg : files[i]? = some g) (hkey : g.largestKey.userKey = ikey.userKey)
    (hle : ikey ≤ g.largestKey) : Standing files ikey start (i + 1)

omit [LinearOrder κ] in
theorem drop_eq_cons (hf : files[i]? = some f) : files.drop i = f :: files.drop (i + 1) := by
  obtain ⟨hlt, rfl⟩ := List.getElem?_eq_some_iff.mp hf
  exact drop_eq_getElem_cons hlt

theorem filter_drop_start (hb : ∀ f ∈ files.take start, f.largestKey < ikey) :
    (files.drop start).filter (wanted ikey) = files.filter (wanted ikey) := by
  have hn : (files.take start).filter (wanted ikey) = [] := by
    rw [filter_eq_nil_iff]
    intro f hf
    rw [Bool.not_eq_true]
    exact not_wanted_of_lt (hb f hf)
  conv_rhs => rw [← take_append_drop start files, filter_append, hn, nil_append]

theorem SortedLevel.lt_of_mem_drop (hs : SortedLevel files) (hf : files[i]? = some f) (hg : g ∈ files.drop (i + 1)) :
    f.largestKey < g.smallestKey := by
  have hp := hs.apart.sublist (drop_sublist i files)
  rw [drop_eq_cons hf] at hp
  exact (pairwise_cons.mp hp).1 g hg

theorem SortedLevel.lt_of_succ (hs : SortedLevel files) (hg : files[i]? = some g) (hf : files[i + 1]? = some f) :
    g.largestKey < f.smallestKey := by
  refine hs.lt_of_mem_drop hg ?_
  rw [drop_eq_cons hf]
  exact mem_cons_self

theorem Standing.start_le (h : Standing files ikey start i) : start ≤ i := by
  cases h with
  | first => exact le_rfl
  | later hi => exact Nat.le_succ_of_le hi

theorem Standing.lt_length (h : Standing files ikey start i) (hi : i = start) : i < files.length := by
  cases h with
  | first hlt => exact hlt
  | later hle => omega

theorem Standing.le_largest (hs : SortedLevel files) (h : Standing files ikey start i) (hf : files[i]? = some f) :
    ikey ≤ f.largestKey := by
  cases h with
  | first _ _ hle => exact hle f hf
  | later _ hg _ hle =>
    exact hle.trans ((hs.lt_of_succ hg hf).le.trans (hs.ordered f (mem_of_getElem? hf)))

theorem Standing.prev_le (h : Standing files ikey start i) (hi : 0 < i) (hg : files[i - 1]? = some g) :
    g.largestKey.userKey ≤ ikey.userKey := by
  cases h with
  | first hlt hb _ =>
    refine userKey_le_of_le (hb g ?_).le
    rw [mem_iff_getElem?]
    exact ⟨start - 1, by rw [List.getElem?_take_of_lt (by omega)]; exact hg⟩
  | later _ hg' hk _ =>
    rw [Nat.add_sub_cancel, hg'] at hg
    cases hg
    exact hk.le

section

variable (hs : SortedLevel files)

include hs

theorem Standing.smallest_ge (h : Standing files ikey start i) (hf : files[i]? = some f) :
    i = start ∨ cmpSmallest ikey.userKey f ≠ .gt := by
  cases h with
  | first => exact .inl rfl
  | later _ hg hk _ =>
    right
    rw [cmpSmallest, Ne, compare_gt_iff_gt, ← hk]
    exact not_lt.mpr (userKey_le_of_le (hs.lt_of_succ hg hf).le)

theorem Standing.cmpLargest_ne (h : Standing files ikey start i) (hf : files[i]? = some f) :
    cmpLargest ikey.userKey f ≠ .gt := by
  unfold cmpLargest
  split
  · exact nofun
  · rw [Ne, compare_gt_iff_gt]
    exact not_lt.mpr (userKey_le_of_le (h.le_largest hs hf))

theorem Standing.filter_of_lt (hf : files[i]? = some f) (hlt : cmpSmallest ikey.userKey f = .lt) :
    (files.drop i).filter (wanted ikey) = [] := by
  have hkf : ikey.userKey < f.smallestKey.userKey := compare_lt_iff_lt.mp hlt
  rw [drop_eq_cons hf, filter_eq_nil_iff]
  intro g hg
  rw [Bool.not_eq_true]
  rcases mem_cons.mp hg with rfl | hg
  · exact not_wanted_of_userKey_lt hkf
  · refine not_wanted_of_userKey_lt (hkf.trans_le ((hs.userKey_le (mem_of_getElem? hf)).trans ?_))
    exact userKey_le_of_le (hs.lt_of_mem_drop hf hg).le

section

variable (h : Standing files ikey start i) (hf : files[i]? = some f)

include h hf

theorem Standing.wanted_file (hge : cmpSmallest ikey.userKey f ≠ .lt) : wanted ikey f = true := by
  have hle := h.le_largest hs hf
  rw [cmpSmallest, Ne, compare_lt_iff_lt, not_lt] at hge
  exact wanted_iff.mpr ⟨hge, userKey_le_of_le hle, hle⟩

theorem Standing.filter_of_inside (hge : cmpSmallest ikey.userKey f ≠ .lt) (hlt : cmpLargest ikey.userKey f = .lt) :
    (files.drop i).filter (wanted ikey) = [f] := by
  rw [cmpLargest, if_neg hge, compare_lt_iff_lt] at hlt
  rw [drop_eq_cons hf, filter_cons_of_pos (h.wanted_file hs hf hge), filter_eq_nil_iff.mpr]
  intro g hg
  rw [Bool.not_eq_true]
  exact not_wanted_of_userKey_lt (hlt.trans_le (userKey_le_of_le (hs.lt_of_mem_drop hf hg).le))

theorem Standing.filter_of_eq (heq : cmpLargest ikey.userKey f = .eq) :
    (files.drop i).filter (wanted ikey) = f :: (files.drop (i + 1)).filter (wanted ikey) ∧
      Standing files ikey start (i + 1) := by
  have hge : cmpSmallest ikey.userKey f ≠ .lt := by
    intro hlt
    rw [cmpLargest, if_pos hlt] at heq
    cases heq
  rw [cmpLargest, if_neg hge, compare_eq_iff_eq] at heq
  constructor
  · rw [drop_eq_cons hf, filter_cons_of_pos (h.wanted_file hs hf hge)]
  · exact .later h.start_le hf heq.symm (h.le_largest hs hf)

end

end

end

namespace FilePicker

variable {levels : List (List (FdWithKeyRange κ))} {ikey : InternalKey κ} {s : FilePicker}

structure Inv (levels : List (List (FdWithKeyRange κ))) (ikey : InternalKey κ) (s : FilePicker) : Prop where
  lt : s.searchEnded = false → s.currLevel < levels.length
  top : s.searchEnded = false → s.currLevel = 0 → s.searchLeftBound = 0 ∧ s.searchRightBound = kLevelMaxIndex
  standing : s.searchEnded = false → 0 < s.currLevel →
    Standing (levels.getD s.currLevel []) ikey s.startIndexInCurrLevel s.currIndexInCurrLevel
  bounds : s.searchEnded = false → 0 < s.currLevel → s.currIndexInCurrLevel ≠ s.startIndexInCurrLevel →
    Bounds (levels.getD (s.currLevel + 1) []) ikey.userKey s.searchLeftBound s.searchRightBound

def pending (levels : List (List (FdWithKeyRange κ))) (ikey : InternalKey κ) (s : FilePicker) : List (FdWithKeyRange κ) :=
  if s.searchEnded then []
  else
    ((levels.getD s.currLevel []).drop s.currIndexInCurrLevel).filter
        (if s.currLevel = 0 then inRange ikey.userKey else wanted ikey) ++
      wantedFiles ikey (levels.drop (s.currLevel + 1))

def SortedLevels (levels : List (List (FdWithKeyRange κ))) : Prop :=
  ∀ l, 0 < l → l < levels.length → SortedLevel (levels.getD l [])

theorem wantedFiles_cons (files : List (FdWithKeyRange κ)) (rest : List (List (FdWithKeyRange κ))) :
    wantedFiles ikey (files :: rest) = files.filter (wanted ikey) ++ wantedFiles ikey rest := flatMap_cons

theorem prepareLevels_spec {rest : List (List (FdWithKeyRange κ))} (hrs : rest = levels.drop s.currLevel)
    (hended : s.searchEnded = false)
    (hbn : Bounds (levels.getD s.currLevel []) ikey.userKey s.searchLeftBound s.searchRightBound)
    (ht : s.currLevel = 0 → s.searchLeftBound = 0 ∧ s.searchRightBound = kLevelMaxIndex) :
    ∃ t, prepareLevels ikey rest s = some t ∧ t.Inv levels ikey ∧ s.currLevel ≤ t.currLevel ∧
      t.pending levels ikey = if s.currLevel = 0 then filesFor ikey levels else wantedFiles ikey rest := by
  induction rest generalizing s with
  | nil =>
    refine ⟨{ s with searchEnded := true }, rfl, ⟨nofun, nofun, nofun, nofun⟩, le_rfl, ?_⟩
    split
    · rename_i h0
      rw [h0, drop_zero] at hrs
      rw [← hrs]
      rfl
    · rfl
  | cons files rest ih =>
    have hlt : s.currLevel < levels.length := by
      by_contra hge
      rw [drop_eq_nil_of_le (not_lt.mp hge)] at hrs
      cases hrs
    have hc := drop_eq_getElem_cons hlt
    rw [← hrs, List.cons.injEq] at hc
    have hfl : levels.getD s.currLevel [] = files := by
      rw [getD_eq_getElem _ _ hlt, hc.1]
    rw [hfl] at hbn
    -- a level without files for the key is passed over
    have hsk (hn : files.filter (wanted ikey) = []) (h0 : s.currLevel = 0 → files = []) :
        ∃ t, prepareLevels ikey rest s.skipLevel = some t ∧ t.Inv levels ikey ∧ s.currLevel ≤ t.currLevel ∧
          t.pending levels ikey = if s.currLevel = 0 then filesFor ikey levels else wantedFiles ikey (files :: rest) := by
      obtain ⟨t, hrn, hinv, hle, hp⟩ := ih (s := s.skipLevel) hc.2 hended (.inl ⟨rfl, rfl⟩) (fun _ => ⟨rfl, rfl⟩)
      refine ⟨t, hrn, hinv, (Nat.le_succ _).trans hle, ?_⟩
      rw [hp, if_neg (show ¬ s.skipLevel.currLevel = 0 from Nat.succ_ne_zero _)]
      split
      · rename_i hz
        have hl : levels = files :: rest := by rw [hrs, hz, drop_zero]
        rw [hl, filesFor, h0 hz]
        rfl
      · rw [wantedFiles_cons, hn, nil_append]
    rw [prepareLevels]
    by_cases hn : files = []
    · rw [if_pos hn, if_pos]
      · exact hsk (by rw [hn]; rfl) (fun _ => hn)
      · rcases hbn with hb | hb
        · exact ⟨hb.1, .inr hb.2⟩
        have h1 := hb.nonneg
        have h2 := hb.left_le
        have h3 := hb.right_le
        rw [hn, length_nil] at h3
        exact ⟨by omega, .inl (by omega)⟩
    · rw [if_neg hn]
      by_cases h0 : s.currLevel = 0
      · rw [if_pos h0]
        refine ⟨_, rfl, ⟨fun _ => hlt, fun _ _ => ht h0, fun _ hps => ?_, fun _ hps => ?_⟩, le_rfl, ?_⟩
        · exact absurd h0 (ne_of_gt hps)
        · exact absurd h0 (ne_of_gt hps)
        · have hl : levels = files :: rest := by rw [hrs, h0, drop_zero]
          rw [if_pos h0, pending]
          simp only [hended, h0, hl]
          rfl
      · rw [if_neg h0]
        have hsr := searchLevel_spec hbn hn
        cases hfn : searchLevel files ikey s.searchLeftBound s.searchRightBound with
        | none =>
          rw [hfn] at hsr
          exact hsk hsr fun hz => absurd hz h0
        | some r =>
          rw [hfn] at hsr
          obtain ⟨hr, hbl, hge⟩ := hsr
          refine ⟨_, rfl, ⟨fun _ => hlt, fun _ hz => absurd hz h0, fun _ _ => ?_, fun _ _ hne => absurd rfl hne⟩,
            le_rfl, ?_⟩
          · rw [hfl]
            exact .first hr hbl hge
          · rw [if_neg h0, pending]
            simp only [hended, h0, hfl, Bool.false_eq_true, if_false]
            rw [wantedFiles_cons, ← hc.2]
            rw [filter_drop_start hbl]

theorem prepareNextLevel_spec (hended : s.searchEnded = false)
    (hb : Bounds (levels.getD (s.currLevel + 1) []) ikey.userKey s.searchLeftBound s.searchRightBound) :
    ∃ t, prepareNextLevel levels ikey s = some t ∧ t.Inv levels ikey ∧ s.currLevel < t.currLevel ∧
      t.pending levels ikey = wantedFiles ikey (levels.drop (s.currLevel + 1)) := by
  obtain ⟨t, hr, hinv, hle, hp⟩ :=
    prepareLevels_spec (s := { s with currLevel := s.currLevel + 1 }) rfl hended hb fun h => absurd h (Nat.succ_ne_zero _)
  exact ⟨t, hr, hinv, hle, hp⟩

theorem Inv.top_succ (h : s.Inv levels ikey) (h0 : s.currLevel = 0) :
    Inv levels ikey { s with currIndexInCurrLevel := s.currIndexInCurrLevel + 1 } :=
  ⟨h.lt, h.top, fun _ hp => absurd h0 (ne_of_gt hp), fun _ hp => absurd h0 (ne_of_gt hp)⟩

theorem scanTop_spec (hlen : 1 < levels.length) (hinv : s.Inv levels ikey) (hended : s.searchEnded = false)
    (h0 : s.currLevel = 0) {files : List (FdWithKeyRange κ)}
    (hfl : files = (levels.getD 0 []).drop s.currIndexInCurrLevel) :
    ∃ r t, scanFiles levels ikey files s = some (r, t) ∧ t.searchEnded = false ∧ t.currLevel = 0 ∧
      t.Inv levels ikey ∧ s.pending levels ikey = r.toList ++ t.pending levels ikey ∧
      (r = none → t.pending levels ikey = wantedFiles ikey (levels.drop 1)) := by
  induction files generalizing s with
  | nil =>
    refine ⟨none, s, rfl, hended, h0, hinv, rfl, fun _ => ?_⟩
    rw [pending, hended, h0, ← hfl]
    rfl
  | cons f rest ih =>
    have hr : rest = (levels.getD 0 []).drop (s.currIndexInCurrLevel + 1) := by
      rw [← tail_drop, ← hfl, tail_cons]
    have hpn : s.pending levels ikey = (if inRange ikey.userKey f then [f] else []) ++
        FilePicker.pending levels ikey { s with currIndexInCurrLevel := s.currIndexInCurrLevel + 1 } := by
      simp only [pending, hended, h0, ← hfl, ← hr, Bool.false_eq_true, if_true, if_false, filter_cons]
      split
      · rfl
      · rfl
    rw [scanFiles, if_pos (.inl hlen), if_pos h0]
    by_cases hin : inRange ikey.userKey f = true
    · rw [if_neg fun h => outside_iff.mp h hin, returnFile, if_neg fun h => absurd h0 (ne_of_gt h.1)]
      refine ⟨some f, _, rfl, hended, h0, hinv.top_succ h0, ?_, nofun⟩
      rw [hpn, if_pos hin]
      rfl
    · rw [if_pos (outside_iff.mpr hin)]
      obtain ⟨r, t, hrn, hended', h0', hinv', hp, hn⟩ := ih (s := { s with
        currIndexInCurrLevel := s.currIndexInCurrLevel + 1 }) (hinv.top_succ h0) hended h0 hr
      refine ⟨r, t, hrn, hended', h0', hinv', ?_, hn⟩
      rw [hpn, if_neg hin, nil_append, hp]

theorem pending_of_pos (hended : s.searchEnded = false) (hp : 0 < s.currLevel) : s.pending levels ikey =
    ((levels.getD s.currLevel []).drop s.currIndexInCurrLevel).filter (wanted ikey) ++
      wantedFiles ikey (levels.drop (s.currLevel + 1)) := by
  rw [pending, hended, if_neg Bool.false_ne_true, if_neg (ne_of_gt hp)]

section

variable (hlen : 1 < levels.length) (hsorted : SortedLevels levels) (hinv : s.Inv levels ikey)

include hlen hsorted hinv

theorem scanLevel_spec (hended : s.searchEnded = false) (hps : 0 < s.currLevel) :
    ∃ r t, scanFiles levels ikey ((levels.getD s.currLevel []).drop s.currIndexInCurrLevel) s = some (r, t) ∧
      match r with
      | some f => t.Inv levels ikey ∧ s.pending levels ikey = f :: t.pending levels ikey
      | none => t.searchEnded = false ∧ t.currLevel = s.currLevel ∧
          Bounds (levels.getD (s.currLevel + 1) []) ikey.userKey t.searchLeftBound t.searchRightBound ∧
          s.pending levels ikey = wantedFiles ikey (levels.drop (s.currLevel + 1)) := by
  have hlt := hinv.lt hended
  have hs := hsorted s.currLevel hps hlt
  have hst := hinv.standing hended hps
  set files := levels.getD s.currLevel [] with hfl
  cases hf : files[s.currIndexInCurrLevel]? with
  | none =>
    have hge : files.length ≤ s.currIndexInCurrLevel := List.getElem?_eq_none_iff.mp hf
    rw [drop_eq_nil_of_le hge]
    refine ⟨none, s, rfl, hended, rfl, hinv.bounds hended hps fun he => ?_, ?_⟩
    · exact absurd (hst.lt_length he) (not_lt.mpr hge)
    · rw [pending_of_pos hended hps, ← hfl, drop_eq_nil_of_le hge]
      rfl
  | some f =>
    obtain ⟨left, right, hix, hw⟩ := getNextLevelIndex_spec hps hlt hsorted hf
      (userKey_le_of_le (hst.le_largest hs hf)) (fun g hi hg => hst.prev_le hi hg)
    rw [drop_eq_cons hf, scanFiles, if_pos (.inl hlen), if_neg (ne_of_gt hps), if_pos (hst.smallest_ge hs hf), hix]
    dsimp only
    by_cases hsm : cmpSmallest ikey.userKey f = .lt
    · rw [if_pos (.inl hsm)]
      refine ⟨none, _, rfl, hended, rfl, .inr hw, ?_⟩
      rw [pending_of_pos hended hps, ← hfl, Standing.filter_of_lt hs hf hsm, nil_append]
    rw [if_neg (not_or.mpr ⟨hsm, hst.cmpLargest_ne hs hf⟩), returnFile]
    cases hl : cmpLargest ikey.userKey f with
    | lt =>
      obtain ⟨t, hr, hinv', -, hp⟩ := @prepareNextLevel_spec κ _ levels ikey
        { s with searchLeftBound := left, searchRightBound := right } hended (.inr hw)
      rw [if_pos ⟨hps, rfl⟩, hr]
      refine ⟨some f, t, rfl, hinv', ?_⟩
      rw [pending_of_pos hended hps, ← hfl, hst.filter_of_inside hs hf hsm hl, hp]
      rfl
    | eq =>
      obtain ⟨hft, hst'⟩ := hst.filter_of_eq hs hf hl
      rw [if_neg fun h => nomatch h.2]
      refine ⟨some f, _, rfl, ⟨fun _ => hlt, fun _ h0 => absurd h0 (ne_of_gt hps), fun _ _ => hst',
        fun _ _ _ => .inr hw⟩, ?_⟩
      rw [pending_of_pos hended hps, ← hfl, hft]
      let t : FilePicker :=
        ⟨s.currLevel, left, right, s.searchEnded, s.currIndexInCurrLevel + 1, s.startIndexInCurrLevel⟩
      exact congrArg (f :: ·) (pending_of_pos (s := t) hended hps).symm
    | gt => exact absurd hl (hst.cmpLargest_ne hs hf)

theorem getNextFileLoop_spec {fuel : ℕ} (hfl : 0 < fuel)
    (hll : s.searchEnded = false → levels.length < fuel + s.currLevel) :
    ∃ r t, getNextFileLoop levels ikey fuel s = some (r, t) ∧ t.Inv levels ikey ∧
      s.pending levels ikey = r.toList ++ t.pending levels ikey ∧ (r = none → s.pending levels ikey = []) := by
  induction fuel generalizing s with
  | zero => omega
  | succ fuel ih =>
    rw [getNextFileLoop]
    cases he : s.searchEnded with
    | true =>
      rw [if_pos rfl]
      have hnl : s.pending levels ikey = [] := by rw [pending, he, if_pos rfl]
      exact ⟨none, s, rfl, hinv, rfl, fun _ => hnl⟩
    | false =>
      rw [if_neg Bool.false_ne_true]
      have hlt := hinv.lt he
      have hl := hll he
      -- the next level, once this one has no more files
      have hn {t : FilePicker} (he' : t.searchEnded = false) (hlv : t.currLevel = s.currLevel)
          (hb : Bounds (levels.getD (t.currLevel + 1) []) ikey.userKey t.searchLeftBound t.searchRightBound)
          (hpn : s.pending levels ikey = wantedFiles ikey (levels.drop (t.currLevel + 1))) :
          ∃ r u, (prepareNextLevel levels ikey t).bind (getNextFileLoop levels ikey fuel) = some (r, u) ∧
            u.Inv levels ikey ∧ s.pending levels ikey = r.toList ++ u.pending levels ikey ∧
            (r = none → s.pending levels ikey = []) := by
        obtain ⟨u, hr, hinv', hgt, hp⟩ := prepareNextLevel_spec he' hb
        rw [hr, Option.bind_some, hpn, ← hp]
        exact ih hinv' (by omega) (fun _ => by omega)
      by_cases h0 : s.currLevel = 0
      · obtain ⟨r, t, hr, he', h0', hinv', hp, hnn⟩ := scanTop_spec hlen hinv he h0 rfl
        rw [h0, hr]
        cases r with
        | some f => exact ⟨some f, t, rfl, hinv', hp, nofun⟩
        | none =>
          refine hn he' (h0'.trans h0.symm) (.inl (hinv'.top he' h0')) ?_
          rw [hp, hnn rfl, h0']
          rfl
      · obtain ⟨r, t, hr, hsp⟩ := scanLevel_spec hlen hsorted hinv he (Nat.pos_of_ne_zero h0)
        rw [hr]
        cases r with
        | some f => exact ⟨some f, t, rfl, hsp.1, hsp.2, nofun⟩
        | none =>
          obtain ⟨he', hlv, hb, hp⟩ := hsp
          exact hn he' hlv (hlv ▸ hb) (hlv ▸ hp)

theorem Inv.returns : Returns levels ikey s (s.pending levels ikey) := by
  generalize hfs : s.pending levels ikey = fs
  induction fs generalizing s with
  | nil =>
    obtain ⟨r, t, hr, -, hp, -⟩ := getNextFileLoop_spec hlen hsorted hinv (Nat.succ_pos levels.length) fun _ => by omega
    rw [hfs] at hp
    cases r with
    | none => exact .done hr
    | some f => cases hp
  | cons f fs ih =>
    obtain ⟨r, t, hr, hinv', hp, hn⟩ :=
      getNextFileLoop_spec hlen hsorted hinv (Nat.succ_pos levels.length) fun _ => by omega
    rw [hfs] at hp hn
    cases r with
    | none => cases hn rfl
    | some g =>
      obtain ⟨rfl, hfs'⟩ := List.cons.inj hp
      exact .more hr (ih hinv' hfs'.symm)

end

theorem new_spec (levels : List (List (FdWithKeyRange κ))) (ikey : InternalKey κ) :
    ∃ s, FilePicker.new levels ikey = some s ∧ s.Inv levels ikey ∧ s.pending levels ikey = filesFor ikey levels := by
  obtain ⟨s, hr, hinv, -, hp⟩ := @prepareLevels_spec κ _ levels ikey
    ⟨0, 0, kLevelMaxIndex, false, 0, 0⟩ levels rfl rfl (.inl ⟨rfl, rfl⟩) (fun _ => ⟨rfl, rfl⟩)
  rw [if_pos rfl] at hp
  exact ⟨s, hr, hinv, hp⟩

/-- With more than one level, `GetNextFile` returns the files for the key in the order of the search. -/
theorem returns_filesFor (hlen : 1 < levels.length) (hsorted : SortedLevels levels) (ikey : InternalKey κ) :
    ∃ s, FilePicker.new levels ikey = some s ∧ Returns levels ikey s (filesFor ikey levels) := by
  obtain ⟨s, hr, hinv, hp⟩ := new_spec levels ikey
  refine ⟨s, hr, ?_⟩
  rw [← hp]
  exact hinv.returns hlen hsorted

theorem returns_filesFor_shared_boundary :
    let levels : List (List (FdWithKeyRange ℕ)) :=
      [[⟨1, ⟨0, 900⟩, ⟨9, 901⟩⟩], [⟨2, ⟨1, 500⟩, ⟨3, 520⟩⟩, ⟨3, ⟨3, 510⟩, ⟨4, 500⟩⟩], [⟨4, ⟨2, 100⟩, ⟨3, 90⟩⟩]]
    ∃ s, FilePicker.new levels ⟨3, 515⟩ = some s ∧
      Returns levels ⟨3, 515⟩ s [⟨1, ⟨0, 900⟩, ⟨9, 901⟩⟩, ⟨3, ⟨3, 510⟩, ⟨4, 500⟩⟩, ⟨4, ⟨2, 100⟩, ⟨3, 90⟩⟩] := by
  intro levels
  have hsorted : SortedLevels levels := by
    intro l hp hlt
    have hl : l = 1 ∨ l = 2 := by
      have : l < 3 := hlt
      omega
    rcases hl with rfl | rfl
    · exact ⟨by decide +kernel, by decide +kernel⟩
    · exact ⟨by decide +kernel, by decide +kernel⟩
  have hfl : filesFor (⟨3, 515⟩ : InternalKey ℕ) levels =
      [⟨1, ⟨0, 900⟩, ⟨9, 901⟩⟩, ⟨3, ⟨3, 510⟩, ⟨4, 500⟩⟩, ⟨4, ⟨2, 100⟩, ⟨3, 90⟩⟩] := by decide +kernel
  rw [← hfl]
  exact returns_filesFor (by decide) hsorted ⟨3, 515⟩

end FilePicker

end ZenFSPlus.Db
