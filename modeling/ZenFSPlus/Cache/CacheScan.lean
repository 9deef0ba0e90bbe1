import ZenFSPlus.Cache.LRUHandleTable
import ZenFSPlus.Lib.Word

/-!
`ShardedCache::ApplyToAllEntries`: rounds over the shards, some buckets of each at a time.
-/

namespace ZenFSPlus.Cache

open Lib (u32)

def uint32Max : ℕ := 2 ^ 32 - 1

/-- The range of buckets and the new `state` of `ApplyToSomeEntries` in a table of `2 ^ bits` buckets. -/
def someEntries (bits averageEntriesPerLock state : ℕ) : ℕ × ℕ × ℕ :=
  let indexBegin := state >>> (32 - bits)
  let indexEnd := u32 (indexBegin + averageEntriesPerLock)
  if 2 ^ bits ≤ indexEnd then (indexBegin, 2 ^ bits, uint32Max)
  else (indexBegin, indexEnd, u32 (indexEnd <<< (32 - bits)))

def aeplIn32 (averageEntriesPerLock : ℕ) : ℕ := min (min uint32Max averageEntriesPerLock) 1

/-- `states[s]` after some rounds, where `bits` are the sizes that the tables have in each round. -/
def scanState (averageEntriesPerLock : ℕ) (bits : ℕ → ℕ → ℕ) (s : ℕ) : ℕ → ℕ
  | 0 => 0
  | round + 1 =>
    let state := scanState averageEntriesPerLock bits s round
    if state ≠ uint32Max then (someEntries (bits round s) (aeplIn32 averageEntriesPerLock) state).2.2 else state

def remainingWork (averageEntriesPerLock : ℕ) (bits : ℕ → ℕ → ℕ) (numShards round : ℕ) : Bool :=
  (List.range numShards).any fun s => scanState averageEntriesPerLock bits s round ≠ uint32Max

theorem aeplIn32_of_pos {a : ℕ} (ha : 1 ≤ a) : aeplIn32 a = 1 := Nat.min_eq_right (Nat.le_min.mpr ⟨by decide, ha⟩)

theorem someEntries_one {bits p : ℕ} (hbt : 1 ≤ bits ∧ bits ≤ 31) (hp : p < uint32Max) :
    let r := someEntries bits 1 p
    r.2.1 = r.1 + 1 ∧ r.1 < 2 ^ bits ∧ p < r.2.2 ∧ r.2.2 ≤ uint32Max := by
  have hpw : 2 ^ bits * 2 ^ (32 - bits) = 2 ^ 32 := by rw [← Nat.pow_add, Nat.add_sub_cancel' (by omega)]
  have hb : p / 2 ^ (32 - bits) < 2 ^ bits := by
    rw [Nat.div_lt_iff_lt_mul (Nat.two_pow_pos _), hpw]
    exact Nat.lt_trans hp (by decide)
  have hl : 2 ^ bits ≤ 2 ^ 31 := Nat.pow_le_pow_right (by decide) hbt.2
  have hn := Nat.lt_mul_of_div_lt (Nat.lt_succ_self (p / 2 ^ (32 - bits))) (Nat.two_pow_pos _)
  simp only [someEntries, Nat.shiftRight_eq_div_pow, Nat.shiftLeft_eq]
  generalize p / 2 ^ (32 - bits) = b at hb hn ⊢
  rw [show u32 (b + 1) = b + 1 from Nat.mod_eq_of_lt (by omega)]
  split
  · exact ⟨by dsimp only; omega, hb, hp, Nat.le_refl _⟩
  have hlt : (b + 1) * 2 ^ (32 - bits) < 2 ^ bits * 2 ^ (32 - bits) :=
    Nat.mul_lt_mul_of_pos_right (by omega) (Nat.two_pow_pos _)
  rw [hpw] at hlt
  rw [show u32 ((b + 1) * 2 ^ (32 - bits)) = _ from Nat.mod_eq_of_lt hlt]
  exact ⟨rfl, hb, hn, Nat.le_pred_of_lt hlt⟩

theorem scanState_advances {a : ℕ} {bits : ℕ → ℕ → ℕ} (ha : 1 ≤ a) (hb : ∀ n s, 1 ≤ bits n s ∧ bits n s ≤ 31)
    (s round : ℕ) : min round uint32Max ≤ scanState a bits s round ∧ scanState a bits s round ≤ uint32Max := by
  induction round with
  | zero => exact ⟨Nat.zero_le _, Nat.zero_le _⟩
  | succ round ih =>
    rw [scanState, aeplIn32_of_pos ha]
    split
    · rename_i hne
      obtain ⟨-, -, hlt, hle⟩ := someEntries_one (hb round s) (Nat.lt_of_le_of_ne ih.2 hne)
      exact ⟨by omega, hle⟩
    · rename_i heq
      rw [not_not.mp heq]
      exact ⟨Nat.min_le_right _ _, Nat.le_refl _⟩

end ZenFSPlus.Cache
