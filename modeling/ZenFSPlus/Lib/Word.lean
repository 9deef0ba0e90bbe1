import Mathlib.Data.Int.Notation
import Mathlib.Tactic.Common

/-!
Arithmetic of the fixed-width integer types of C.
-/

namespace ZenFSPlus.Lib

def u32 (n : ℕ) : ℕ := n % 4294967296

def u64 (n : ℕ) : ℕ := n % 18446744073709551616

def sub32 (a b : ℕ) : ℕ := if b ≤ a then a - b else a + 4294967296 - b

def sub64 (a b : ℕ) : ℕ := if b ≤ a then a - b else a + 18446744073709551616 - b

def i32 (x : ℤ) : ℤ :=
  if x % 4294967296 < 2147483648 then x % 4294967296 else x % 4294967296 - 4294967296

def ceilDiv (a b : ℕ) : ℕ := if a % b = 0 then a / b else a / b + 1

theorem u32_of_lt {n : ℕ} (h : n < 4294967296) : u32 n = n := Nat.mod_eq_of_lt h

theorem u32_lt (n : ℕ) : u32 n < 4294967296 := Nat.mod_lt n (by decide)

theorem u64_of_lt {n : ℕ} (h : n < 18446744073709551616) : u64 n = n := Nat.mod_eq_of_lt h

theorem u64_le (n : ℕ) : u64 n ≤ n := Nat.mod_le n _

theorem u64_lt (n : ℕ) : u64 n < 18446744073709551616 := Nat.mod_lt n (by decide)

theorem sub32_of_le {a b : ℕ} (h : b ≤ a) : sub32 a b = a - b := if_pos h

theorem sub64_of_le {a b : ℕ} (h : b ≤ a) : sub64 a b = a - b := if_pos h

theorem i32_of_range {x : ℤ} (hl : -2147483648 ≤ x) (hu : x < 2147483648) : i32 x = x := by
  unfold i32
  split <;> omega

theorem ceilDiv_spec {a b : ℕ} (hb : 0 < b) : a ≤ b * ceilDiv a b ∧ ∀ k, b * k < a ↔ k < ceilDiv a b := by
  have hm := Nat.div_add_mod a b
  have hlt := Nat.mod_lt a hb
  unfold ceilDiv
  split
  · rename_i h0
    refine ⟨by omega, fun k => ?_⟩
    rw [Nat.lt_div_iff_mul_lt' (Nat.dvd_of_mod_eq_zero h0)]
  rename_i h0
  rw [Nat.mul_succ]
  refine ⟨by omega, fun k => ?_⟩
  rw [Nat.lt_succ_iff, Nat.le_div_iff_mul_le hb, Nat.mul_comm]
  constructor
  · exact Nat.le_of_lt
  · intro hle
    refine Nat.lt_of_le_of_ne hle ?_
    rintro rfl
    exact h0 (by rw [Nat.mul_comm, Nat.mul_mod_right])

end ZenFSPlus.Lib
