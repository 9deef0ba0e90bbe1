import ZenFSPlus.Zoad.Partition
import Mathlib.Data.List.ReduceOption

namespace ZenFSPlus.Zoad.System

open Lib List

variable {s : System} {bound k : ℕ}

def Dealt (s : System) (bound k : ℕ) : Prop :=
  s.inactiveIzgQueue = (rotation distance bound k).map Izg.mk

theorem distance_pos : 0 < distance := by decide

theorem Dealt.front (h : Dealt s bound k) : ∃ rest, s.inactiveIzgQueue = ⟨lane distance bound k⟩ :: rest ∧
      (rotation distance bound (k + 1)).map Izg.mk = rest ++ [⟨lane distance bound (k + distance)⟩] := by
  refine ⟨(rotation distance bound k).tail.map Izg.mk, ?_, ?_⟩
  · rw [h, rotation_eq_cons distance_pos, map_cons, tail_cons]
  · rw [rotation_succ distance_pos, map_append, map_cons, map_nil]

theorem allocZone_of_lt (h : Dealt s bound k) (hk : k < bound) (hb : bound ≤ 2147483648) (p : ℕ) :
    s.allocZone p = (some k, { s with
      inactiveIzgQueue := (rotation distance bound (k + 1)).map Izg.mk
      partitions := Function.update s.partitions p { s.partitions p with
        zoneVector := (s.partitions p).zoneVector ++ [k] } }) := by
  obtain ⟨rest, hq, hn⟩ := h.front
  have hi : i32 (k : ℤ) = k := i32_of_range (by omega) (by omega)
  simp only [allocZone, hq, Izg.getNextZone, lane_of_lt distance_pos hk, hi, hn]
  rw [if_neg (by omega)]
  rfl

theorem allocZone_of_le (h : Dealt s bound k) (hk : bound ≤ k) (p : ℕ) : s.allocZone p = (none, s) := by
  obtain ⟨rest, hq, -⟩ := h.front
  rw [lane_of_le distance_pos hk] at hq
  simp [allocZone, hq, Izg.getNextZone]
  rw [← hq]

theorem identifyIzg_dealt (hq : s.inactiveIzgQueue = []) (h : 32 ≤ s.zns.znsGetTotalZone) :
    Dealt s.identifyIzg s.zns.znsGetTotalZone.toNat 0 := by
  have hlt : s.zns.znsGetTotalZone < 2147483648 := by
    unfold Zns.znsGetTotalZone i32
    split <;> omega
  have hm : s.zns.znsGetTotalZone % 4294967296 = s.zns.znsGetTotalZone := by omega
  simp only [Dealt, identifyIzg, hq, hm, nil_append, Lib.rotation, map_map]
  apply map_congr_left
  intro i hi
  have hi' : i < 32 := mem_range.mp hi
  simp [lane_of_lt distance_pos (show i < s.zns.znsGetTotalZone.toNat by omega)]

theorem allocIzg_frame (s : System) (flags iolevel : ℕ) :
    (s.allocIzg flags iolevel).2.inactiveIzgQueue = s.inactiveIzgQueue ∧
      (s.allocIzg flags iolevel).2.partitions = s.partitions := by
  by_cases hm : flags = maxPartition
  · rw [allocIzg, if_pos hm]
    exact ⟨rfl, rfl⟩
  by_cases hq : flags = qosPartition
  · rw [allocIzg, if_neg hm, if_pos hq]
    generalize i32 (iolevel : ℤ) = num
    by_cases hn : num < 0 ∨ (s.availableIzgCnt : ℤ) < num
    · simp only [if_pos hn, and_self]
    · simp only [if_neg hn, and_self]
  · rw [allocIzg, if_neg hm, if_neg hq]
    exact ⟨rfl, rfl⟩

theorem mklp_queue (s : System) (rb : Mem UInt8) (lpName : String) (flags iolevel : ℕ) :
    (s.mklp rb lpName flags iolevel).2.inactiveIzgQueue = s.inactiveIzgQueue := by
  have ha := (s.allocIzg_frame flags iolevel).1
  unfold mklp
  cases h : s.allocIzg flags iolevel with
  | mk cnt s' =>
    rw [h] at ha
    dsimp only
    split
    · exact ha
    · exact ha

theorem zMklp_queue (s : System) (rb : Mem UInt8) (uid : ℕ) (lpName : String) (flags iolevel : ℕ) :
    (s.zMklp rb uid lpName flags iolevel).2.inactiveIzgQueue = s.inactiveIzgQueue := by
  have hm := s.mklp_queue rb lpName flags iolevel
  unfold zMklp
  cases h : s.mklp rb lpName flags iolevel with
  | mk p s' =>
    rw [h] at hm
    cases s.userToPartitionMap uid with
    | none => cases p <;> exact hm
    | some ps =>
      dsimp only
      split
      · rfl
      · cases p <;> exact hm

theorem allocZone_dealt (h : Dealt s bound k) (hb : bound ≤ 2147483648) (p : ℕ) :
    (s.allocZone p).1 = (if k < bound then some k else none) ∧
      Dealt (s.allocZone p).2 bound (if k < bound then k + 1 else k) := by
  by_cases hk : k < bound
  · rw [if_pos hk, if_pos hk, allocZone_of_lt h hk hb p]
    exact ⟨rfl, rfl⟩
  · rw [if_neg hk, if_neg hk, allocZone_of_le h (Nat.le_of_not_lt hk) p]
    exact ⟨rfl, h⟩

theorem allocZones_results (h : Dealt s bound k) (hb : bound ≤ 2147483648) (ps : List ℕ) : (s.allocZones ps).1 =
      (range' k ps.length).map fun i => if i < bound then some i else none := by
  induction ps generalizing s k with
  | nil => rfl
  | cons p ps ih =>
    obtain ⟨hz, hd⟩ := allocZone_dealt h hb p
    simp only [allocZones, length_cons, range'_succ, map_cons, hz]
    congr 1
    by_cases hk : k < bound
    · rw [if_pos hk] at hd
      exact ih hd
    -- once the zones are gone the queue does not move, and no later call succeeds
    rw [if_neg hk] at hd
    rw [ih hd]
    have hn (j : ℕ) (hj : k ≤ j) : (range' j ps.length).map
        (fun i => if i < bound then some i else none) = replicate ps.length none := by
      rw [eq_replicate_iff]
      refine ⟨by simp, ?_⟩
      intro z hz
      obtain ⟨i, hi, rfl⟩ := mem_map.mp hz
      have := (mem_range'_1.mp hi).1
      exact if_neg (by omega)
    rw [hn k (Nat.le_refl k), hn (k + 1) (Nat.le_succ k)]

theorem reduceOption_results (n bound : ℕ) :
    ((range n).map fun i => if i < bound then some i else none).reduceOption = range (min n bound) := by
  induction n with
  | zero => simp
  | succ n ih =>
    rw [range_succ, map_append, reduceOption_append, ih]
    by_cases hn : n < bound
    · have h1 : min n bound = n := by omega
      have h2 : min (n + 1) bound = n + 1 := by omega
      simp [hn, h1, h2, range_succ]
    · have h1 : min n bound = bound := by omega
      have h2 : min (n + 1) bound = bound := by omega
      simp [hn, h1, h2]

theorem identifyIzg_results (hq : s.inactiveIzgQueue = []) (h : 32 ≤ s.zns.znsGetTotalZone)
    (ps : List ℕ) : (s.identifyIzg.allocZones ps).1 = (range ps.length).map fun i =>
        if i < s.zns.znsGetTotalZone.toNat then some i else none := by
  have hlt : s.zns.znsGetTotalZone < 2147483648 := by
    unfold Zns.znsGetTotalZone i32
    split <;> omega
  rw [allocZones_results (identifyIzg_dealt hq h) (by omega) ps, range_eq_range']

/-- The `k`-th successful call gets zone `k - 1`, and a call fails exactly when every zone has been handed out. -/
theorem zones_in_order (hq : s.inactiveIzgQueue = []) (h : 32 ≤ s.zns.znsGetTotalZone) (ps : List ℕ) :
    let total := s.zns.znsGetTotalZone.toNat
    let results := (s.identifyIzg.allocZones ps).1
    results.length = ps.length ∧ (∀ k zone : ℕ, results.reduceOption[k]? = some zone → zone = k) ∧
      results.reduceOption.Nodup ∧
      (∀ i j a b : ℕ, i < j → j < i + 32 → results.reduceOption[i]? = some a →
        results.reduceOption[j]? = some b → a % 32 ≠ b % 32) ∧
      ∀ i < ps.length, results[i]? = some none ↔ ∀ zone < total, some zone ∈ results.take i := by
  intro total results
  have hr : results = (range ps.length).map fun i => if i < total then some i else none := identifyIzg_results hq h ps
  have hal : results.reduceOption = range (min ps.length total) := by
    rw [hr, reduceOption_results]
  have hg (k zone : ℕ) (hk : results.reduceOption[k]? = some zone) : zone = k := by
    obtain ⟨hlt, rfl⟩ := List.getElem?_eq_some_iff.mp hk
    simp [hal]
  refine ⟨by simp [hr], hg, ?_, ?_, ?_⟩
  · rw [hal]
    exact nodup_range
  · intro i j a b hij hj ha hb
    rw [hg i a ha, hg j b hb]
    omega
  · intro i hi
    have hi' : results[i]? = some (if i < total then some i else none) := by simp [hr, hi]
    have ht : results.take i = (range i).map fun i => if i < total then some i else none := by
      rw [hr, ← map_take, take_range, Nat.min_eq_left (Nat.le_of_lt hi)]
    rw [hi', ht]
    constructor
    · intro hn zone hz
      have hti : total ≤ i := by
        by_contra hlt
        simp [Nat.lt_of_not_le hlt] at hn
      exact mem_map.mpr ⟨zone, mem_range.mpr (by omega), if_pos hz⟩
    · intro hzn
      have hti : ¬ i < total := by
        intro hlt
        obtain ⟨j, hj, hji⟩ := mem_map.mp (hzn i hlt)
        have hj' := mem_range.mp hj
        rw [if_pos (by omega)] at hji
        cases hji
        omega
      rw [if_neg hti]

theorem zones_in_order_three_calls :
    let s := System.init (Zns.formatted 384 33 16)
    32 ≤ s.zns.znsGetTotalZone ∧ ∀ k zone : ℕ,
      (s.identifyIzg.allocZones [1, 2, 1]).1.reduceOption[k]? = some zone → zone = k := by
  have ht : 32 ≤ (System.init (Zns.formatted 384 33 16)).zns.znsGetTotalZone := by decide
  exact ⟨ht, (zones_in_order rfl ht [1, 2, 1]).2.1⟩

end ZenFSPlus.Zoad.System
