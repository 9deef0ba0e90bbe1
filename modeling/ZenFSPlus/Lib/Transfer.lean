import ZenFSPlus.Lib.Memory
import Mathlib.Data.List.GetD
import Mathlib.Data.List.Sort

/-!
Transfers of cells of equal size from one memory to another, the cells numbered by row
and lane.
-/

namespace ZenFSPlus.Lib

open Function

variable {α : Type} {size : ℕ} {src m m' m1 m2 : Mem α} {C D : Set (ℕ × ℕ)}

/-- `m'` is `m` after the cell at `c.1` has received the cell at `c.2` of `src`, for all
`c` in `C`. -/
structure Moved (size : ℕ) (src : Mem α) (C : Set (ℕ × ℕ)) (m m' : Mem α) : Prop where
  copied : ∀ c ∈ C, m'.load c.1 size = src.load c.2 size
  kept : ∀ a, (∀ c ∈ C, a < c.1 ∨ c.1 + size ≤ a) → m' a = m a

theorem Moved.refl (size : ℕ) (src m : Mem α) : Moved size src ∅ m m :=
  ⟨fun c hc => absurd hc (Set.notMem_empty c), fun _ _ => rfl⟩

theorem Moved.of_copy (size : ℕ) (src m : Mem α) (d s : ℕ) : Moved size src {(d, s)} m (m.copy d src s size) := by
  constructor
  · rintro c rfl
    exact Mem.load_copy m src d s size
  · intro a ha
    exact Mem.copy_of_notMem m src d s size a (ha (d, s) rfl)

theorem Moved.load_of_disjoint (h : Moved size src C m m') {a k : ℕ}
    (hd : ∀ c ∈ C, a + k ≤ c.1 ∨ c.1 + size ≤ a) : m'.load a k = m.load a k := by
  rw [Mem.load_eq_iff]
  intro i hi
  refine h.kept (a + i) fun c hc => ?_
  have := hd c hc
  omega

theorem Moved.trans (h1 : Moved size src C m m1) (h2 : Moved size src D m1 m2)
    (hd : ∀ c ∈ C, ∀ d ∈ D, c.1 + size ≤ d.1 ∨ d.1 + size ≤ c.1) :
    Moved size src (C ∪ D) m m2 := by
  constructor
  · rintro c (hc | hc)
    · rw [h2.load_of_disjoint (hd c hc), h1.copied c hc]
    · exact h2.copied c hc
  · intro a ha
    rw [h2.kept a fun c hc => ha c (.inr hc), h1.kept a fun c hc => ha c (.inl hc)]

theorem Moved.eq_copy (h : Moved size src C m m') {b : Mem α} {d k : ℕ}
    (hin : ∀ x < k, ∃ s, (d + x * size, s) ∈ C ∧ src.load s size = b.load (x * size) size)
    (ho : ∀ c ∈ C, ∃ x < k, c.1 = d + x * size) : m' = m.copy d b 0 (k * size) := by
  funext a
  by_cases ha : d ≤ a ∧ a < d + k * size
  · have hs : 0 < size := Nat.pos_of_ne_zero fun h0 => by simp [h0] at ha; omega
    obtain ⟨i, rfl⟩ : ∃ i, a = d + i := ⟨a - d, by omega⟩
    obtain ⟨s, hm, hsr⟩ := hin (i / size) (Nat.div_lt_of_lt_mul (by rw [Nat.mul_comm]; omega))
    have hcl := (Mem.load_eq_iff _ _ _ _ _).mp ((h.copied _ hm).trans hsr) (i % size) (Nat.mod_lt i hs)
    rw [Nat.add_assoc, Nat.div_add_mod' i size] at hcl
    rw [Mem.copy_of_mem _ _ _ _ _ _ (by omega), Nat.zero_add, hcl]
  · rw [Mem.copy_of_notMem _ _ _ _ _ _ (by omega)]
    refine h.kept a fun c hc => ?_
    obtain ⟨x, hx, hc⟩ := ho c hc
    have := Nat.mul_le_mul_right size hx
    rw [Nat.succ_mul] at this
    omega

def cells (n : ℕ) (done : ℕ → ℕ) (cell : ℕ → ℕ → ℕ × ℕ) : Set (ℕ × ℕ) :=
  {c | ∃ j < n, ∃ r < done j, c = cell r j}

variable {n : ℕ} {done done' : ℕ → ℕ} {cell : ℕ → ℕ → ℕ × ℕ}

theorem mem_cells {r j : ℕ} (hj : j < n) (hr : r < done j) : cell r j ∈ cells n done cell := ⟨j, hj, r, hr, rfl⟩

theorem cells_zero : cells n (fun _ => 0) cell = ∅ := by
  ext c
  simp [cells]

theorem cells_congr (h : ∀ j < n, done j = done' j) : cells n done cell = cells n done' cell := by
  ext c
  constructor
  · rintro ⟨j, hj, r, hr, rfl⟩
    exact ⟨j, hj, r, h j hj ▸ hr, rfl⟩
  · rintro ⟨j, hj, r, hr, rfl⟩
    exact ⟨j, hj, r, (h j hj).symm ▸ hr, rfl⟩

theorem cells_update {j : ℕ} (hj : j < n) : cells n (update done j (done j + 1)) cell =
      cells n done cell ∪ {cell (done j) j} := by
  ext c
  constructor
  · rintro ⟨i, hi, r, hr, rfl⟩
    by_cases hij : i = j
    · subst hij
      rw [update_self] at hr
      rcases Nat.lt_succ_iff_lt_or_eq.mp hr with hr | rfl
      · exact .inl (mem_cells hi hr)
      · exact .inr rfl
    · rw [update_of_ne hij] at hr
      exact .inl (mem_cells hi hr)
  · rintro (⟨i, hi, r, hr, rfl⟩ | rfl)
    · refine mem_cells hi ?_
      by_cases hij : i = j
      · subst hij
        rw [update_self]
        omega
      · rwa [update_of_ne hij]
    · refine mem_cells hj ?_
      rw [update_self]
      omega

theorem insertionSort_replicate (n k : ℕ) : (List.replicate n k).insertionSort (· ≤ ·) = List.replicate n k :=
  List.Pairwise.insertionSort_eq (List.pairwise_replicate.mpr (.inr (Nat.le_refl k)))

theorem row_lane_lt {k r j : ℕ} (hr : r < k) (hj : j < n) : r * n + j < k * n := by
  calc r * n + j < (r + 1) * n := by rw [Nat.succ_mul]; omega
    _ ≤ k * n := Nat.mul_le_mul_right n hr

theorem set_map_range {β : Type} (f : ℕ → β) (n j : ℕ) (v : β) :
    ((List.range n).map f).set j v = (List.range n).map (update f j v) := by
  apply List.ext_getElem
  · simp
  · intro i h1 h2
    by_cases hij : i = j
    · subst hij
      simp
    · simp [hij, Ne.symm hij]

theorem map_eq_map_range {α β : Type} (l : List α) (d : α) (f : α → β) :
    l.map f = (List.range l.length).map fun j => f (l.getD j d) := by
  apply List.ext_getElem
  · simp
  · intro i h1 h2
    have hi : i < l.length := by simpa using h1
    simp [hi]

theorem load_eq_of_cells {k a b : ℕ} (h : ∀ r < k, ∀ j < n, m.load (a + (r * n + j) * size) size =
      m'.load (b + (r * n + j) * size) size) :
    m.load a (k * n * size) = m'.load b (k * n * size) := by
  rw [Mem.load_eq_iff]
  intro i hi
  have hs : 0 < size := Nat.pos_of_ne_zero fun h0 => by simp [h0] at hi
  have hn : 0 < n := Nat.pos_of_ne_zero fun h0 => by simp [h0] at hi
  have hu : i / size < k * n := Nat.div_lt_of_lt_mul (by rwa [Nat.mul_comm])
  have hr : i / size / n < k := Nat.div_lt_of_lt_mul (by rwa [Nat.mul_comm])
  have hj : i / size % n < n := Nat.mod_lt _ hn
  have hc := (Mem.load_eq_iff _ _ _ _ _).mp (h _ hr _ hj) (i % size) (Nat.mod_lt _ hs)
  have hun : i / size / n * n + i / size % n = i / size := Nat.div_add_mod' _ _
  rw [hun, Nat.add_assoc, Nat.add_assoc, Nat.div_add_mod' i size] at hc
  exact hc

end ZenFSPlus.Lib
