import ZenFSPlus.Zoad.StripeWrite

namespace ZenFSPlus.Zoad

open Lib List

/-- How many of `units` units zone `k` of `n` gets. -/
def unitCount (n units k : ℕ) : ℕ := if k < units % n then units / n + 1 else units / n

/-- The number of units in the rows below `r`, and in row `r` in front of zone `k`. -/
def unitAt (n units r k : ℕ) : ℕ :=
  ((range r).map fun r' => (range n).countP fun k' => decide (r' < unitCount n units k')).sum +
    (range k).countP fun k' => decide (r < unitCount n units k')

variable {n rows : ℕ}

theorem unitCount_mul (hn : 0 < n) (k : ℕ) : unitCount n (rows * n) k = rows := by
  simp [unitCount, Nat.mul_div_cancel rows hn]

theorem unitAt_mul (hn : 0 < n) {r : ℕ} (hr : r < rows) (k : ℕ) : unitAt n (rows * n) r k = r * n + k := by
  have hrw : ((range r).map fun r' => (range n).countP fun _ => decide (r' < rows)) = (range r).map fun _ => n := by
    refine map_congr_left fun r' hr' => ?_
    have hlt : r' < rows := Nat.lt_trans (mem_range.mp hr') hr
    simp [hlt]
  simp only [unitAt, unitCount_mul hn, hrw]
  simp [hr, map_const', Nat.mul_comm]

def twoZones : Zns := ⟨1536, 2, 4, 0, fun zone => ⟨zone * 1536, zone * 1536⟩, fun _ => 0⟩

end ZenFSPlus.Zoad
