import Mathlib.Tactic.Common

/-!
Memory as a function from addresses, block copies between memories, and the
contents of an address range as a list.
-/

namespace ZenFSPlus.Lib

open List

variable {α : Type}

abbrev Mem (α : Type) := ℕ → α

namespace Mem

def copy (dst : Mem α) (d : ℕ) (src : Mem α) (s n : ℕ) : Mem α :=
  fun i => if d ≤ i ∧ i < d + n then src (s + (i - d)) else dst i

def load (m : Mem α) (a n : ℕ) : List α := (range n).map fun i => m (a + i)

@[simp] theorem length_load (m : Mem α) (a n : ℕ) : (m.load a n).length = n := by simp [load]

@[simp] theorem load_zero (m : Mem α) (a : ℕ) : m.load a 0 = [] := rfl

@[simp] theorem getElem_load (m : Mem α) (a n i : ℕ) (h : i < (m.load a n).length) :
    (m.load a n)[i] = m (a + i) := by simp [load]

theorem load_eq_iff (m m' : Mem α) (a b n : ℕ) : m.load a n = m'.load b n ↔ ∀ i < n, m (a + i) = m' (b + i) := by
  simp [load, map_inj_left]

theorem load_add (m : Mem α) (a n k : ℕ) : m.load a (n + k) = m.load a n ++ m.load (a + n) k := by
  simp [load, range_add, Function.comp_def, Nat.add_assoc]

theorem take_load (m : Mem α) (a n k : ℕ) : (m.load a n).take k = m.load a (min k n) := by
  simp [load, ← map_take, take_range]

theorem drop_load (m : Mem α) (a n k : ℕ) : (m.load a n).drop k = m.load (a + k) (n - k) := by
  apply ext_getElem
  · simp
  · intro i h1 h2
    simp [Nat.add_assoc]

theorem load_eq_take_drop (m : Mem α) (a n : ℕ) (l : List α) (o : ℕ)
    (h : ∀ i < n, l[o + i]? = some (m (a + i))) : m.load a n = (l.drop o).take n := by
  apply ext_getElem?
  intro i
  by_cases hi : i < n
  · simp [hi, h i hi, load]
  · simp [List.getElem?_take, hi, load]

section

variable (dst src : Mem α)

include dst src

theorem copy_of_mem (d s n i : ℕ) (h : i < n) : dst.copy d src s n (d + i) = src (s + i) := by
  simp [copy, h]

theorem copy_zero_of_mem (s n i : ℕ) (h : i < n) : dst.copy 0 src s n i = src (s + i) := by
  simp [copy, h]

theorem copy_of_notMem (d s n i : ℕ) (h : i < d ∨ d + n ≤ i) : dst.copy d src s n i = dst i := by
  simp only [copy]
  rw [if_neg (by omega)]

@[simp] theorem copy_zero (d s : ℕ) : dst.copy d src s 0 = dst := by
  funext i
  exact copy_of_notMem dst src d s 0 i (by omega)

theorem load_copy (d s n : ℕ) : (dst.copy d src s n).load d n = src.load s n := by
  rw [load_eq_iff]
  exact fun i hi => copy_of_mem dst src d s n i hi

theorem load_copy_of_disjoint (d s n a k : ℕ) (h : a + k ≤ d ∨ d + n ≤ a) :
    (dst.copy d src s n).load a k = dst.load a k := by
  rw [load_eq_iff]
  intro i hi
  exact copy_of_notMem dst src d s n (a + i) (by omega)

theorem load_copy_append (d s n : ℕ) : (dst.copy d src s n).load 0 (d + n) = dst.load 0 d ++ src.load s n := by
  rw [load_add, load_copy_of_disjoint _ _ _ _ _ _ _ (by omega), Nat.zero_add, load_copy]

end

end Mem

structure Slice (α : Type) where
  data : Mem α
  size : ℕ

namespace Slice

def bytes (s : Slice α) : List α := s.data.load 0 s.size

def drop (s : Slice α) (n : ℕ) : Slice α := ⟨fun i => s.data (n + i), s.size - n⟩

@[simp] theorem length_bytes (s : Slice α) : s.bytes.length = s.size := by simp [bytes]

theorem bytes_of_size_zero {s : Slice α} (h : s.size = 0) : s.bytes = [] := by simp [bytes, h]

@[simp] theorem size_drop (s : Slice α) (n : ℕ) : (s.drop n).size = s.size - n := rfl

theorem bytes_drop (s : Slice α) (n : ℕ) : (s.drop n).bytes = s.data.load n (s.size - n) := by
  simp [bytes, drop, Mem.load]

theorem bytes_split (s : Slice α) (n : ℕ) (h : n ≤ s.size) : s.bytes = s.data.load 0 n ++ (s.drop n).bytes := by
  rw [bytes_drop, bytes]
  conv_lhs => rw [← Nat.add_sub_cancel' h, Mem.load_add, Nat.zero_add]

def concat (l : List (Slice α)) : List α := l.flatMap bytes

@[simp] theorem concat_nil : concat ([] : List (Slice α)) = [] := rfl

@[simp] theorem concat_append (l l' : List (Slice α)) : concat (l ++ l') = concat l ++ concat l' := by
  simp [concat]

@[simp] theorem concat_singleton (s : Slice α) : concat [s] = s.bytes := by simp [concat]

def splice (junk : Mem α) : List (Slice α) → Mem α
  | [], i => junk i
  | s :: l, i => if i < s.size then s.data i else splice junk l (i - s.size)

theorem load_splice (junk : Mem α) (l : List (Slice α)) : Mem.load (splice junk l) 0 (concat l).length = concat l := by
  induction l with
  | nil => rfl
  | cons s l ih =>
    have hc : concat (s :: l) = s.bytes ++ concat l := rfl
    rw [hc, length_append, length_bytes, Mem.load_add, Nat.zero_add]
    congr 1
    · exact (Mem.load_eq_iff _ _ _ _ _).mpr fun i hi => by simp [splice, hi]
    · refine Eq.trans ((Mem.load_eq_iff _ _ _ _ _).mpr fun i hi => ?_) ih
      have hs : ¬ s.size + i < s.size := by omega
      simp [splice, hs]

theorem getElem?_concat (junk : Mem α) (l : List (Slice α)) (i : ℕ) (h : i < (concat l).length) :
    (concat l)[i]? = some (splice junk l i) := by
  conv_lhs => rw [← load_splice junk l]
  simp [Mem.load, h]

end Slice

end ZenFSPlus.Lib
