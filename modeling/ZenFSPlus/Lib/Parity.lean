import Mathlib.Tactic.Common

/-!
Sums over the field of two elements: the parity of a sequence of bits, and the product of a word
of coefficients with a column of bits.
-/

namespace ZenFSPlus.Lib

def parity (f : ℕ → Bool) : ℕ → Bool
  | 0 => false
  | n + 1 => parity f n ^^ f n

variable {f g : ℕ → Bool} {m n : ℕ}

theorem parity_congr (h : ∀ k < n, f k = g k) : parity f n = parity g n := by
  induction n with
  | zero => rfl
  | succ n ih =>
    rw [parity, parity, ih (fun k hk => h k (Nat.lt_succ_of_lt hk)), h n (Nat.lt_succ_self n)]

theorem parity_eq_false (h : ∀ k < n, f k = false) : parity f n = false := by
  induction n with
  | zero => rfl
  | succ n ih =>
    rw [parity, ih (fun k hk => h k (Nat.lt_succ_of_lt hk)), h n (Nat.lt_succ_self n), Bool.xor_false]

theorem parity_xor (f g : ℕ → Bool) (n : ℕ) : parity (fun k => f k ^^ g k) n = (parity f n ^^ parity g n) := by
  induction n with
  | zero => rfl
  | succ n ih =>
    simp only [parity, ih]
    cases parity f n <;> cases parity g n <;> cases f n <;> cases g n <;> rfl

theorem parity_add (f : ℕ → Bool) (m n : ℕ) : parity f (m + n) = (parity f m ^^ parity (fun k => f (m + k)) n) := by
  induction n with
  | zero => simp [parity]
  | succ n ih => rw [← Nat.add_assoc, parity, ih, parity, Bool.xor_assoc]

theorem parity_eq_head_xor (f : ℕ → Bool) (hn : 0 < n) : parity f n = (f 0 ^^ parity (fun k => f (k + 1)) (n - 1)) := by
  have hs := parity_add f 1 (n - 1)
  rw [Nat.add_sub_cancel' hn] at hs
  rw [hs]
  simp only [parity, Bool.false_xor, Nat.add_comm 1]

variable {r : ℕ}

def dot (cr : BitVec r) (column : ℕ → Bool) (i : ℕ) : Bool :=
  parity (fun k => cr.getLsbD k && column (i + k)) r

theorem dot_xor (a b : BitVec r) (col : ℕ → Bool) (i : ℕ) : dot (a ^^^ b) col i = (dot a col i ^^ dot b col i) := by
  unfold dot
  rw [← parity_xor]
  apply parity_congr
  intro k _
  rw [BitVec.getLsbD_xor, Bool.and_xor_distrib_right]

theorem dot_ushiftRight {cr : BitVec r} {t : ℕ} (h : ∀ k < t, cr.getLsbD k = false) (col : ℕ → Bool)
    (i : ℕ) : dot (cr >>> t) col (i + t) = dot cr col i := by
  have hh : parity (fun k => cr.getLsbD (t + k) && col (i + t + k)) r = dot cr col i := by
    by_cases htr : t ≤ r
    · have hs := parity_add (fun k => cr.getLsbD k && col (i + k)) t (r - t)
      rw [Nat.add_sub_cancel' htr, parity_eq_false (n := t) (fun k hk => by simp [h k hk]), Bool.false_xor] at hs
      rw [dot, hs]
      have hr := parity_add (fun k => cr.getLsbD (t + k) && col (i + t + k)) (r - t) t
      rw [Nat.sub_add_cancel htr] at hr
      rw [hr, parity_eq_false (n := t), Bool.xor_false]
      · apply parity_congr
        intro k _
        rw [Nat.add_assoc]
      · intro k _
        rw [BitVec.getLsbD_of_ge _ _ (by omega), Bool.false_and]
    · rw [dot, parity_eq_false, parity_eq_false]
      · intro k hk
        simp [h k (by omega)]
      · intro k _
        rw [BitVec.getLsbD_of_ge _ _ (by omega), Bool.false_and]
  rw [← hh, dot]
  apply parity_congr
  intro k _
  rw [BitVec.getLsbD_ushiftRight]

theorem parity_two_words (cr : BitVec r) {x y : BitVec r} {col : ℕ → Bool} {base s : ℕ} (hs : s ≤ r)
    (hx : ∀ t < r, x.getLsbD t = col (base + t)) (hy : ∀ t < r, y.getLsbD t = col (base + r + t)) :
    parity ((x &&& cr <<< s) ^^^ (y &&& cr >>> (r - s))).getLsbD r = dot cr col (base + s) := by
  have hl : parity (fun t => (x &&& cr <<< s).getLsbD t) r =
      parity (fun k => cr.getLsbD k && col (base + s + k)) (r - s) := by
    have hsp := parity_add (fun t => (x &&& cr <<< s).getLsbD t) s (r - s)
    rw [Nat.add_sub_cancel' hs] at hsp
    rw [hsp, parity_eq_false (n := s) (fun t ht => by simp [ht]), Bool.false_xor]
    apply parity_congr
    intro k hk
    have hsk : s + k < r := by omega
    rw [BitVec.getLsbD_and, BitVec.getLsbD_shiftLeft, hx _ hsk, ← Nat.add_assoc, Bool.and_comm,
      decide_eq_true hsk, decide_eq_false (Nat.not_lt.mpr (Nat.le_add_right s k)), Nat.add_sub_cancel_left]
    rfl
  have hr : parity (fun t => (y &&& cr >>> (r - s)).getLsbD t) r =
      parity (fun t => cr.getLsbD (r - s + t) && col (base + s + (r - s + t))) s := by
    have hsp := parity_add (fun t => (y &&& cr >>> (r - s)).getLsbD t) s (r - s)
    rw [Nat.add_sub_cancel' hs] at hsp
    rw [hsp, parity_eq_false (n := r - s), Bool.xor_false]
    · apply parity_congr
      intro t ht
      have hb : base + s + (r - s + t) = base + r + t := by omega
      rw [BitVec.getLsbD_and, BitVec.getLsbD_ushiftRight, hy t (by omega), hb, Bool.and_comm]
    · intro k _
      rw [BitVec.getLsbD_and, BitVec.getLsbD_ushiftRight, BitVec.getLsbD_of_ge cr _ (by omega), Bool.and_false]
  have hd := parity_add (fun k => cr.getLsbD k && col (base + s + k)) (r - s) s
  rw [Nat.sub_add_cancel hs] at hd
  rw [dot, hd, ← hl, ← hr, ← parity_xor]
  apply parity_congr
  intro t _
  rw [BitVec.getLsbD_xor]

def trailingZeros (cr : BitVec r) : ℕ := ((List.range r).find? fun k => cr.getLsbD k).getD r

theorem trailingZeros_spec {cr : BitVec r} (h : cr ≠ 0) :
    cr.getLsbD (trailingZeros cr) = true ∧ ∀ k < trailingZeros cr, cr.getLsbD k = false := by
  unfold trailingZeros
  cases hf : (List.range r).find? (fun k => cr.getLsbD k) with
  | none =>
    refine absurd (BitVec.eq_of_getLsbD_eq fun k hk => ?_) h
    have hk' := List.find?_eq_none.mp hf k (List.mem_range.mpr hk)
    simpa using hk'
  | some t =>
    rw [List.find?_range_eq_some] at hf
    refine ⟨hf.1, fun k hk => ?_⟩
    simpa using hf.2.2 k hk

end ZenFSPlus.Lib
