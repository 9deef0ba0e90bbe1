import Mathlib.Tactic.Common

/-!
Numbers dealt out from a rotating queue of lanes. A lane holds every `d`-th
number below a bound; the front lane gives its first number and goes to the back.
-/

namespace ZenFSPlus.Lib

def lane (d bound j : ℕ) : List ℕ := List.range' j ((bound - j + d - 1) / d) d

def rotation (d bound k : ℕ) : List (List ℕ) := (List.range d).map fun i => lane d bound (k + i)

variable {d bound : ℕ}

theorem lane_of_le (hd : 0 < d) {j : ℕ} (h : bound ≤ j) : lane d bound j = [] := by
  have hz : bound - j = 0 := by omega
  have hq : (bound - j + d - 1) / d = 0 := Nat.div_eq_of_lt (by omega)
  rw [lane, hq, List.range'_zero]

theorem lane_of_lt (hd : 0 < d) {j : ℕ} (h : j < bound) : lane d bound j = j :: lane d bound (j + d) := by
  have hq : (bound - j + d - 1) / d = (bound - (j + d) + d - 1) / d + 1 := by
    by_cases hle : j + d ≤ bound
    · have he : bound - j + d - 1 = bound - (j + d) + d - 1 + d := by omega
      rw [he, Nat.add_div_right _ hd]
    · -- the lane ends with `j`
      have h1 : bound - j + d - 1 = bound - j - 1 + d := by omega
      rw [h1, Nat.add_div_right _ hd, Nat.div_eq_of_lt (by omega), Nat.div_eq_of_lt (by omega)]
  rw [lane, hq, List.range'_succ, lane]

theorem rotation_eq_cons (hd : 0 < d) (k : ℕ) :
    rotation d bound k = lane d bound k :: (List.range (d - 1)).map fun i => lane d bound (k + 1 + i) := by
  obtain ⟨e, rfl⟩ : ∃ e, d = e + 1 := ⟨d - 1, by omega⟩
  simp [rotation, List.range_succ_eq_map, Function.comp_def, Nat.add_assoc, Nat.add_comm 1]

theorem rotation_succ (hd : 0 < d) (k : ℕ) :
    rotation d bound (k + 1) = (rotation d bound k).tail ++ [lane d bound (k + d)] := by
  obtain ⟨e, rfl⟩ : ∃ e, d = e + 1 := ⟨d - 1, by omega⟩
  rw [rotation_eq_cons hd k, List.tail_cons]
  simp [rotation, List.range_succ, Nat.add_assoc, Nat.add_comm 1]

end ZenFSPlus.Lib
