import Mathlib.Algebra.GroupWithZero.Nat
import Mathlib.Data.List.Destutter
import ZenFSPlus.Db.FileIndexer

/-!
`CompactionJob::GenSubcompactionBoundaries`: the keys of the input files cut the key space into ranges, which are put
together to subcompactions of about the mean size.
-/

namespace ZenFSPlus.Db.CompactionJob

open List

variable {κ : Type} (approximateSize : InternalKey κ → InternalKey κ → ℕ)
  (startLvl outLvl : ℕ) (inputs : List (ℕ × List (FdWithKeyRange κ)))

def levelBounds (lvl : ℕ) (files : List (FdWithKeyRange κ)) : List (InternalKey κ) :=
  if lvl = 0 then files.flatMap fun f => [f.smallestKey, f.largestKey]
  else files.head?.toList.map FdWithKeyRange.smallestKey ++ files.getLast?.toList.map FdWithKeyRange.largestKey ++
    if lvl = outLvl then files.tail.map FdWithKeyRange.smallestKey else []

/-- The limit of each range and its size. -/
def ranges : List (InternalKey κ) → List (κ × ℕ)
  | a :: b :: bounds => (b.userKey, approximateSize a b) :: ranges (b :: bounds)
  | _ => []

/-- The grouping loop, for the mean `total / parts`. -/
def group (total parts : ℕ) : List (κ × ℕ) → ℕ → ℕ → List κ × List ℕ
  | r :: s :: rest, subcompactions, sum =>
    if subcompactions ≠ 1 ∧ total ≤ (sum + r.2) * parts then
      (group total parts (s :: rest) (subcompactions - 1) 0).map (r.1 :: ·) ((sum + r.2) :: ·)
    else group total parts (s :: rest) subcompactions (sum + r.2)
  | rs, _, sum => ([], [sum + (rs.map Prod.snd).sum])

/-- `maxOutputFiles` are the files that the target size gives for a sum. -/
def genSubcompactionBoundaries (maxSubcompactions : ℕ) (maxOutputFiles : ℕ → ℕ) (rs : List (κ × ℕ)) : List κ × List ℕ :=
  let sum := (rs.map Prod.snd).sum
  let subcompactions := min rs.length (min maxSubcompactions (maxOutputFiles sum))
  if 1 < subcompactions then group sum subcompactions rs subcompactions 0 else ([], [sum])

/-- The key ranges of the subcompactions in `Prepare`. -/
def prepare : Option κ → List κ → List (Option κ × Option κ)
  | start, [] => [(start, none)]
  | start, b :: boundaries => (start, some b) :: prepare (some b) boundaries

theorem limits_eq : ∀ bounds : List (InternalKey κ),
    (ranges approximateSize bounds).map Prod.fst = bounds.tail.map InternalKey.userKey
  | [] | [_] => rfl
  | _ :: b :: bounds => congrArg (b.userKey :: ·) (limits_eq (b :: bounds))

structure Groups (rs : List (κ × ℕ)) (subcompactions sum : ℕ) (p : List κ × List ℕ) : Prop where
  limits : p.1 <+ rs.map Prod.fst
  length : p.1.length ≤ subcompactions - 1
  sizes : p.2.length = p.1.length + 1
  sum : p.2.sum = sum + (rs.map Prod.snd).sum

theorem group_groups (total parts : ℕ) (rs : List (κ × ℕ)) {subs : ℕ} (hp : 0 < subs) (sum : ℕ) :
    Groups rs subs sum (group total parts rs subs sum) := by
  fun_induction group total parts rs subs sum with
  | case1 r s rest subs sum h ih =>
    obtain ⟨hl, hln, hs, hsm⟩ := ih (by omega)
    refine ⟨hl.cons_cons _, ?_, congrArg Nat.succ hs, ?_⟩
    · simp only [Prod.map_fst, length_cons]
      omega
    · simp only [Prod.map_snd, map_cons, sum_cons] at hsm ⊢
      omega
  | case2 r s rest subs sum h ih =>
    obtain ⟨hl, hln, hs, hsm⟩ := ih hp
    refine ⟨hl.cons _, hln, hs, ?_⟩
    simp only [map_cons, sum_cons] at hsm ⊢
    omega
  | case3 => exact ⟨nil_sublist _, Nat.zero_le _, rfl, by simp⟩

variable [LinearOrder κ]

def bounds : List (InternalKey κ) :=
  let keys := inputs.flatMap fun i => if startLvl ≤ i.1 ∧ i.1 ≤ outLvl then levelBounds outLvl i.1 i.2 else []
  (keys.mergeSort fun a b => a.userKey ≤ b.userKey).destutter fun a b => a.userKey ≠ b.userKey

def contains (k : κ) (r : Option κ × Option κ) : Bool := r.1.all (· ≤ k) && r.2.all (k < ·)

theorem bounds_increasing : (bounds startLvl outLvl inputs).Pairwise fun a b => a.userKey < b.userKey := by
  have hs : (bounds startLvl outLvl inputs).Pairwise fun a b => a.userKey ≤ b.userKey := by
    refine ((pairwise_mergeSort ?_ ?_ _).imp of_decide_eq_true).sublist (destutter_sublist _ _)
    · simpa using fun a b c => le_trans
    · simpa using fun a b => le_total _ _
  have hne := isChain_iff_getElem.mp (isChain_destutter _ _ : (bounds startLvl outLvl inputs).IsChain _)
  rw [← pairwise_map (f := InternalKey.userKey) (R := (· < ·)), ← isChain_iff_pairwise, isChain_map,
    isChain_iff_getElem]
  exact fun i hi => (pairwise_iff_getElem.mp hs i (i + 1) (by omega) hi i.lt_succ_self).lt_of_ne (hne i hi)

theorem countP_prepare {k : κ} {start : Option κ} {boundaries : List κ} (h : boundaries.Pairwise (· < ·))
    (hst : ∀ s ∈ start, ∀ b ∈ boundaries, s < b) :
    (prepare start boundaries).countP (contains k) = if start.all (· ≤ k) then 1 else 0 := by
  induction boundaries generalizing start with
  | nil => simp [prepare, contains]
  | cons b boundaries ih =>
    obtain ⟨hb, h⟩ := pairwise_cons.mp h
    rw [prepare, countP_cons, ih h (by simpa using hb)]
    rcases lt_or_ge k b with hk | hk
    · simp [contains, hk, not_le.mpr hk]
    · have ha : start.all (· ≤ k) = true :=
        (Option.all_eq_true _ _).mpr fun s hs => decide_eq_true ((hst s hs b mem_cons_self).le.trans hk)
      simp [contains, hk, not_lt.mpr hk, ha]

/-- The bounds increase, and so do the boundaries of the subcompactions; there are fewer of these than
`max_subcompactions`, the sizes add up to the estimate for all ranges, and every user key is in the range of
exactly one subcompaction. -/
theorem subcompactions_partition (maxSubcompactions : ℕ) (maxOutputFiles : ℕ → ℕ) :
    (bounds startLvl outLvl inputs).Pairwise (fun a b => a.userKey < b.userKey) ∧
    let rs := ranges approximateSize (bounds startLvl outLvl inputs)
    let p := genSubcompactionBoundaries maxSubcompactions maxOutputFiles rs
    p.1.Pairwise (· < ·) ∧ p.1.length ≤ maxSubcompactions - 1 ∧ p.2.length = p.1.length + 1 ∧
      p.2.sum = (rs.map Prod.snd).sum ∧ ∀ k, (prepare none p.1).countP (contains k) = 1 := by
  refine ⟨bounds_increasing startLvl outLvl inputs, ?_⟩
  intro rs p
  have hg : Groups rs maxSubcompactions 0 p := by
    unfold p genSubcompactionBoundaries
    dsimp only
    split
    · obtain ⟨hl, hln, hs, hsm⟩ := group_groups (rs.map Prod.snd).sum _ rs (Nat.zero_lt_of_lt ‹_›) 0
      exact ⟨hl, hln.trans (by omega), hs, hsm⟩
    · exact ⟨nil_sublist _, Nat.zero_le _, rfl, by simp⟩
  have hi : p.1.Pairwise (· < ·) := by
    refine Pairwise.sublist hg.limits ?_
    rw [limits_eq]
    exact pairwise_map.mpr (bounds_increasing startLvl outLvl inputs).tail
  refine ⟨hi, hg.length, hg.sizes, hg.sum.trans (Nat.zero_add _), fun k => ?_⟩
  exact countP_prepare hi (by simp)

end ZenFSPlus.Db.CompactionJob
