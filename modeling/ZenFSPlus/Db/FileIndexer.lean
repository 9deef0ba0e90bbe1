import Mathlib.Data.List.TakeWhile
import ZenFSPlus.Db.DbFormat

/-!
`db/file_indexer.cc`: for every file of a level the range of files of the next level that the comparison of a
key with its ends leaves. A level has less than 2^31 files, so that indices are `int32_t`.
-/

namespace ZenFSPlus.Db

open List

structure FdWithKeyRange (κ : Type) where
  number : ℕ
  smallestKey : InternalKey κ
  largestKey : InternalKey κ
  deriving DecidableEq

structure IndexLevel where
  smallestLb : List ℤ := []
  largestLb : List ℤ := []
  smallestRb : List ℤ := []
  largestRb : List ℤ := []

structure FileIndexer where
  numLevels : ℕ
  nextLevelIndex : ℕ → IndexLevel
  levelRb : ℕ → ℤ

def kLevelMaxIndex : ℤ := 2147483647

section

variable {α : Type} (cmpOp : α → α → Ordering)

def calculateLB (lowerSize : ℕ) : List α → List α → ℕ → List ℤ
  | [], _, _ => []
  | _ :: upper, [], lowerIdx => (lowerSize : ℤ) :: calculateLB lowerSize upper [] lowerIdx
  | u :: upper, l :: lower, lowerIdx =>
    if cmpOp u l = .gt then calculateLB lowerSize (u :: upper) lower (lowerIdx + 1)
    else (lowerIdx : ℤ) :: calculateLB lowerSize upper (l :: lower) lowerIdx
termination_by upper lower => upper.length + lower.length

def calculateRB : List α → List α → List ℤ
  | [], _ => []
  | _ :: upper, [] => -1 :: calculateRB upper []
  | u :: upper, l :: lower =>
    if cmpOp u l = .lt then calculateRB (u :: upper) lower
    else (lower.length : ℤ) :: calculateRB upper (l :: lower)
termination_by upper lower => upper.length + lower.length

end

section

variable {κ : Type} [LinearOrder κ]

def indexLevel (upper lower : List (FdWithKeyRange κ)) : IndexLevel where
  smallestLb := calculateLB (fun a b => compare a.smallestKey.userKey b.largestKey.userKey) lower.length upper lower 0
  largestLb := calculateLB (fun a b => compare a.largestKey.userKey b.largestKey.userKey) lower.length upper lower 0
  smallestRb := (calculateRB (fun a b => compare a.smallestKey.userKey b.smallestKey.userKey)
    upper.reverse lower.reverse).reverse
  largestRb := (calculateRB (fun a b => compare a.largestKey.userKey b.smallestKey.userKey)
    upper.reverse lower.reverse).reverse

def updateIndex (levels : List (List (FdWithKeyRange κ))) : FileIndexer where
  numLevels := levels.length
  nextLevelIndex level :=
    if 1 ≤ level ∧ level + 1 < levels.length then indexLevel (levels.getD level []) (levels.getD (level + 1) []) else {}
  levelRb level := if 1 ≤ level then ((levels.getD level []).length : ℤ) - 1 else -1

end

/-- `GetNextLevelIndex`: the left and the right bound; `none` if an assertion fails. -/
def FileIndexer.getNextLevelIndex (x : FileIndexer) (level fileIndex : ℕ) (cmpSmallest cmpLargest : Ordering) :
    Option (ℤ × ℤ) :=
  if level = 0 then none
  else if level + 1 = x.numLevels then some (0, -1)
  else if x.numLevels ≤ level + 1 ∨ x.levelRb level < fileIndex then none
  else
    let index := x.nextLevelIndex level
    let bounds := match cmpSmallest, cmpLargest with
      | .lt, _ => (if 0 < fileIndex then index.largestLb.getD (fileIndex - 1) 0 else 0, index.smallestRb.getD fileIndex (-1))
      | .eq, _ => (index.smallestLb.getD fileIndex 0, index.smallestRb.getD fileIndex (-1))
      | .gt, .lt => (index.smallestLb.getD fileIndex 0, index.largestRb.getD fileIndex (-1))
      | .gt, .eq => (index.largestLb.getD fileIndex 0, index.largestRb.getD fileIndex (-1))
      | .gt, .gt => (index.largestLb.getD fileIndex 0, x.levelRb (level + 1))
    if 0 ≤ bounds.1 ∧ bounds.1 ≤ bounds.2 + 1 ∧ bounds.2 ≤ x.levelRb (level + 1) then some bounds else none

section

variable {α κ : Type} [LinearOrder κ] {f g : α → κ}

theorem calculateLB_eq (lowerSize : ℕ) {upper lower : List α} (hu : upper.Pairwise fun u v => f u ≤ f v)
    {li : ℕ} (hs : li + lower.length = lowerSize) :
    calculateLB (fun u l => compare (f u) (g l)) lowerSize upper lower li =
      upper.map fun u => ((li + (lower.takeWhile fun l => g l < f u).length : ℕ) : ℤ) := by
  induction upper, lower, li using calculateLB.induct (fun u l => compare (f u) (g l)) with
  | case1 => simp [calculateLB]
  | case2 u upper li ih =>
    rw [calculateLB, ih hu.of_cons hs]
    simp only [length_nil, Nat.add_zero] at hs
    simp [hs]
  | case3 u upper l lower li hc ih =>
    rw [calculateLB, if_pos hc, ih hu (by simp only [length_cons] at hs; omega)]
    have hlt : g l < f u := compare_gt_iff_gt.mp hc
    refine map_congr_left fun v hv => ?_
    have hv' : g l < f v := by
      rcases mem_cons.mp hv with rfl | hv
      · exact hlt
      · exact hlt.trans_le ((pairwise_cons.mp hu).1 v hv)
    rw [takeWhile_cons, if_pos (by simpa using hv'), length_cons]
    congr 1
    omega
  | case4 u upper l lower li hc ih =>
    rw [calculateLB, if_neg hc, ih hu.of_cons hs, map_cons]
    have hle : ¬ g l < f u := fun h => hc (compare_gt_iff_gt.mpr h)
    rw [takeWhile_cons, if_neg (by simpa using hle)]
    rfl

theorem calculateRB_eq {upper lower : List α} (hu : upper.Pairwise fun u v => f v ≤ f u) :
    calculateRB (fun u l => compare (f u) (g l)) upper lower =
      upper.map fun u => (lower.length : ℤ) - (lower.takeWhile fun l => f u < g l).length - 1 := by
  induction upper, lower using calculateRB.induct (fun u l => compare (f u) (g l)) with
  | case1 => simp [calculateRB]
  | case2 u upper ih =>
    rw [calculateRB, ih hu.of_cons]
    simp
  | case3 u upper l lower hc ih =>
    rw [calculateRB, if_pos hc, ih hu]
    have hlt : f u < g l := compare_lt_iff_lt.mp hc
    refine map_congr_left fun v hv => ?_
    have hv' : f v < g l := by
      rcases mem_cons.mp hv with rfl | hv
      · exact hlt
      · exact ((pairwise_cons.mp hu).1 v hv).trans_lt hlt
    rw [takeWhile_cons, if_pos (by simpa using hv'), length_cons, length_cons]
    push_cast
    omega
  | case4 u upper l lower hc ih =>
    rw [calculateRB, if_neg hc, ih hu.of_cons, map_cons]
    have hle : ¬ f u < g l := fun h => hc (compare_lt_iff_lt.mpr h)
    rw [takeWhile_cons, if_neg (by simpa using hle)]
    simp

end

section

variable {κ : Type} [LinearOrder κ] {files upper lower : List (FdWithKeyRange κ)} {k a b : κ} {left right : ℤ}

structure SortedLevel (files : List (FdWithKeyRange κ)) : Prop where
  ordered : ∀ f ∈ files, f.smallestKey ≤ f.largestKey
  apart : files.Pairwise fun f g => f.largestKey < g.smallestKey

theorem SortedLevel.userKey_le (h : SortedLevel files) {f : FdWithKeyRange κ} (hf : f ∈ files) :
    f.smallestKey.userKey ≤ f.largestKey.userKey := InternalKey.userKey_le_of_le (h.ordered f hf)

theorem SortedLevel.pairwise_smallest (h : SortedLevel files) :
    files.Pairwise fun f g => f.smallestKey.userKey ≤ g.smallestKey.userKey := by
  refine h.apart.imp_of_mem fun hf _ hlt => ?_
  exact (h.userKey_le hf).trans (InternalKey.userKey_le_of_le hlt.le)

theorem SortedLevel.pairwise_largest (h : SortedLevel files) :
    files.Pairwise fun f g => f.largestKey.userKey ≤ g.largestKey.userKey := by
  refine h.apart.imp_of_mem fun _ hg hlt => ?_
  exact (InternalKey.userKey_le_of_le hlt.le).trans (h.userKey_le hg)

structure Within (files : List (FdWithKeyRange κ)) (k : κ) (left right : ℤ) : Prop where
  nonneg : 0 ≤ left
  left_le : left ≤ right + 1
  right_le : right ≤ (files.length : ℤ) - 1
  below : ∀ (i : ℕ) f, (i : ℤ) < left → files[i]? = some f → f.largestKey.userKey < k
  above : ∀ (i : ℕ) f, right < i → files[i]? = some f → k < f.smallestKey.userKey

def Bounds (files : List (FdWithKeyRange κ)) (k : κ) (left right : ℤ) : Prop :=
  (left = 0 ∧ right = kLevelMaxIndex) ∨ Within files k left right

theorem of_lt_takeWhile {α : Type} {p : α → Bool} {l : List α} {i : ℕ} {x : α}
    (hi : i < (l.takeWhile p).length) (hx : l[i]? = some x) : p x = true := by
  rw [← takeWhile_append_dropWhile (p := p) (l := l), List.getElem?_append_left hi] at hx
  exact mem_takeWhile_imp (mem_of_getElem? hx)

theorem not_of_getElem?_takeWhile {α : Type} {p : α → Bool} {l : List α} {x : α}
    (hx : l[(l.takeWhile p).length]? = some x) : p x = false := by
  induction l with
  | nil => simp at hx
  | cons y l ih =>
    rw [takeWhile_cons] at hx
    split at hx
    · exact ih hx
    · rename_i hy
      cases hx
      simpa using hy

theorem within_of_le (ho : ∀ f ∈ files, f.smallestKey.userKey ≤ f.largestKey.userKey) (ha : a ≤ k) (hb : k ≤ b) :
    Within files k ((files.takeWhile fun f => f.largestKey.userKey < a).length : ℕ)
      ((files.length : ℤ) - (files.reverse.takeWhile fun f => b < f.smallestKey.userKey).length - 1) := by
  set lb := (files.takeWhile fun f => f.largestKey.userKey < a).length with hlb
  set skipped := (files.reverse.takeWhile fun f => b < f.smallestKey.userKey).length with hs
  have hlw (i : ℕ) (f : FdWithKeyRange κ) (hi : i < lb) (hf : files[i]? = some f) : f.largestKey.userKey < a := by
    simpa using of_lt_takeWhile hi hf
  have hh (i : ℕ) (f : FdWithKeyRange κ) (hi : files.length ≤ i + skipped) (hf : files[i]? = some f) :
      b < f.smallestKey.userKey := by
    have hlt := (List.getElem?_eq_some_iff.mp hf).1
    have hr : files.reverse[files.length - 1 - i]? = some f := by
      rw [List.getElem?_reverse (by omega), ← hf]
      congr 1
      omega
    simpa using of_lt_takeWhile (show files.length - 1 - i < skipped by omega) hr
  have hl : lb ≤ files.length := ( takeWhile_prefix _).length_le
  have hsk : skipped ≤ files.length := by
    rw [← length_reverse]
    exact ( takeWhile_prefix _).length_le
  constructor
  · omega
  · -- a file below the left and above the right bound would end before it begins
    by_contra hlt
    have hi : lb - 1 < files.length := by omega
    have hg := List.getElem?_eq_getElem hi
    have h1 := hlw _ _ (by omega) hg
    have h2 := hh _ _ (by omega) hg
    have h3 := ho _ (getElem_mem hi)
    exact absurd (h3.trans_lt h1) (not_lt.mpr ((ha.trans hb).trans h2.le))
  · omega
  · intro i f hi hf
    exact (hlw i f (by omega) hf).trans_le ha
  · intro i f hi hf
    exact hb.trans_lt (hh i f (by omega) hf)

theorem Within.zero_left (h : Within files k left right) : Within files k 0 right where
  __ := h
  nonneg := Int.le_refl 0
  left_le := h.nonneg.trans h.left_le
  below i f hi := by omega

def cmpSmallest (k : κ) (f : FdWithKeyRange κ) : Ordering := compare k f.smallestKey.userKey

def cmpLargest (k : κ) (f : FdWithKeyRange κ) : Ordering :=
  if cmpSmallest k f = .lt then .lt else compare k f.largestKey.userKey

variable {ls : List (List (FdWithKeyRange κ))} {level i : ℕ} {f : FdWithKeyRange κ}

theorem getD_map {α : Type} {l : List α} {x : α} (h : α → ℤ) (d : ℤ) (hx : l[i]? = some x) :
    (l.map h).getD i d = h x := by
  rw [getD_eq_getElem?_getD, List.getElem?_map, hx]
  rfl

theorem getNextLevelIndex_spec (hlevel : 0 < level) (hlt : level < ls.length)
    (hsr : ∀ l, 0 < l → l < ls.length → SortedLevel (ls.getD l []))
    (hf : (ls.getD level [])[i]? = some f) (hle : k ≤ f.largestKey.userKey)
    (hp : ∀ g, 0 < i → (ls.getD level [])[i - 1]? = some g → g.largestKey.userKey ≤ k) :
    ∃ left right, (updateIndex ls).getNextLevelIndex level i (cmpSmallest k f) (cmpLargest k f) =
      some (left, right) ∧ Within (ls.getD (level + 1) []) k left right := by
  unfold FileIndexer.getNextLevelIndex
  rw [if_neg (by omega)]
  by_cases hls : level + 1 = ls.length
  · refine ⟨0, -1, if_pos hls, ?_⟩
    rw [getD_eq_getElem?_getD, List.getElem?_eq_none (by omega)]
    exact ⟨by omega, by omega, by simp, by simp, by simp⟩
  have hii : ¬ ((updateIndex ls).numLevels ≤ level + 1 ∨ (updateIndex ls).levelRb level < i) := by
    have hi := (List.getElem?_eq_some_iff.mp hf).1
    simp only [updateIndex]
    rw [if_pos (by omega)]
    omega
  rw [if_neg (show ¬ level + 1 = (updateIndex ls).numLevels from hls), if_neg hii]
  set upper := ls.getD level [] with hup
  set lower := ls.getD (level + 1) [] with hlw
  have hu := hsr level hlevel hlt
  have hl := hsr (level + 1) (by omega) (by omega)
  have ho : ∀ f ∈ lower, f.smallestKey.userKey ≤ f.largestKey.userKey := fun f hf => hl.userKey_le hf
  have hix : (updateIndex ls).nextLevelIndex level = indexLevel upper lower := by
    simp only [updateIndex]
    rw [if_pos (by omega)]
  have hrb : (updateIndex ls).levelRb (level + 1) = (lower.length : ℤ) - 1 := by
    simp only [updateIndex]
    rw [if_pos (by omega)]
  have hlb {key : FdWithKeyRange κ → κ} (hk : upper.Pairwise fun f g => key f ≤ key g) {j : ℕ} {g : FdWithKeyRange κ}
      (hg : upper[j]? = some g) :
      (calculateLB (fun a b => compare (key a) b.largestKey.userKey) lower.length upper lower 0).getD j 0 =
        ((lower.takeWhile fun f => f.largestKey.userKey < key g).length : ℕ) := by
    rw [calculateLB_eq lower.length hk (Nat.zero_add _), getD_map _ _ hg, Nat.zero_add]
  have hrb' {key : FdWithKeyRange κ → κ} (hk : upper.Pairwise fun f g => key f ≤ key g) {j : ℕ} {g : FdWithKeyRange κ}
      (hg : upper[j]? = some g) :
      (calculateRB (fun a b => compare (key a) b.smallestKey.userKey) upper.reverse lower.reverse).reverse.getD j (-1) =
        (lower.length : ℤ) - (lower.reverse.takeWhile fun f => key g < f.smallestKey.userKey).length - 1 := by
    rw [calculateRB_eq (pairwise_reverse.mpr hk), ← map_reverse, reverse_reverse, getD_map _ _ hg, length_reverse]
  -- the assertions at the end follow from what is to be shown of the bounds
  have hfn {left right : ℤ} (hw : Within lower k left right) : ∃ left' right',
      (if 0 ≤ left ∧ left ≤ right + 1 ∧ right ≤ (updateIndex ls).levelRb (level + 1) then some (left, right)
        else none) = some (left', right') ∧ Within lower k left' right' :=
    ⟨left, right, if_pos ⟨hw.nonneg, hw.left_le, hrb ▸ hw.right_le⟩, hw⟩
  rw [hix, indexLevel]
  dsimp only
  cases hs : cmpSmallest k f with
  | lt =>
    have hkf : k < f.smallestKey.userKey := compare_lt_iff_lt.mp hs
    simp only
    by_cases hi : 0 < i
    · have hi' : i - 1 < upper.length := by
        have := (List.getElem?_eq_some_iff.mp hf).1
        omega
      have hg := List.getElem?_eq_getElem hi'
      rw [if_pos hi, hlb hu.pairwise_largest hg, hrb' hu.pairwise_smallest hf]
      exact hfn (within_of_le ho (hp _ hi hg) hkf.le)
    · rw [if_neg hi, hrb' hu.pairwise_smallest hf]
      exact hfn (within_of_le ho (le_refl k) hkf.le).zero_left
  | eq =>
    have hkf : k = f.smallestKey.userKey := compare_eq_iff_eq.mp hs
    simp only
    rw [hlb hu.pairwise_smallest hf, hrb' hu.pairwise_smallest hf]
    exact hfn (within_of_le ho hkf.ge hkf.le)
  | gt =>
    have hkf : f.smallestKey.userKey < k := compare_gt_iff_gt.mp hs
    cases hc : cmpLargest k f with
    | lt =>
      simp only
      rw [hlb hu.pairwise_smallest hf, hrb' hu.pairwise_largest hf]
      exact hfn (within_of_le ho hkf.le hle)
    | eq =>
      have hkl : k = f.largestKey.userKey := by
        rw [cmpLargest, hs] at hc
        exact compare_eq_iff_eq.mp hc
      simp only
      rw [hlb hu.pairwise_largest hf, hrb' hu.pairwise_largest hf]
      exact hfn (within_of_le ho hkl.ge hle)
    | gt =>
      rw [cmpLargest, hs] at hc
      exact absurd (compare_gt_iff_gt.mp hc) (not_lt.mpr hle)

end

end ZenFSPlus.Db
