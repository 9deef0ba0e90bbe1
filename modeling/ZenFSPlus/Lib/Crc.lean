import Mathlib.Tactic.Common

/-!
Reflected cyclic redundancy checks of any width and polynomial, with the register complemented before and after.
-/

namespace ZenFSPlus.Lib.Crc

open List

variable {w : ℕ} (p : BitVec w)

def shift (s : BitVec w) : BitVec w := if s.getLsbD 0 then s >>> 1 ^^^ p else s >>> 1

def shifts : ℕ → BitVec w → BitVec w
  | 0, s => s
  | n + 1, s => shifts n (shift p s)

def absorb (s : BitVec w) (b : UInt8) : BitVec w := shifts p 8 (s ^^^ b.toBitVec.setWidth w)

def remainder (s : BitVec w) (bs : List UInt8) : BitVec w := bs.foldl (absorb p) s

def extend (crc : BitVec w) (bs : List UInt8) : BitVec w := ~~~remainder p (~~~crc) bs

def combine (crc1 crc2 : BitVec w) (n : ℕ) : BitVec w :=
  remainder p crc1 (replicate n 0) ^^^ crc2

theorem shift_xor (s t : BitVec w) : shift p (s ^^^ t) = shift p s ^^^ shift p t := by
  have hc (a b : BitVec w) : a ^^^ b = a ^^^ p ^^^ (b ^^^ p) := by
    rw [BitVec.xor_assoc, BitVec.xor_comm b, ← BitVec.xor_assoc p, BitVec.xor_self, BitVec.zero_xor]
  simp only [shift, BitVec.getLsbD_xor, BitVec.ushiftRight_xor_distrib]
  cases s.getLsbD 0 <;> cases t.getLsbD 0 <;> simp
  · apply BitVec.xor_assoc
  · ac_rfl
  · apply hc

theorem shifts_xor (n : ℕ) (s t : BitVec w) : shifts p n (s ^^^ t) = shifts p n s ^^^ shifts p n t := by
  induction n generalizing s t with
  | zero => rfl
  | succ n ih => rw [shifts, shift_xor, ih, shifts, shifts]

theorem absorb_xor (s t : BitVec w) (b : UInt8) : absorb p (s ^^^ t) b = absorb p s b ^^^ absorb p t 0 := by
  have hz : t ^^^ (0 : UInt8).toBitVec.setWidth w = t := by simp
  rw [absorb, absorb, absorb, hz, ← shifts_xor]
  congr 1
  ac_rfl

theorem remainder_xor (s t : BitVec w) (bs : List UInt8) :
    remainder p (s ^^^ t) bs = remainder p s bs ^^^ remainder p t (replicate bs.length 0) := by
  induction bs generalizing s t with
  | nil => rfl
  | cons b bs ih =>
    simp only [remainder, length_cons, replicate_succ, foldl_cons, absorb_xor] at *
    exact ih _ _

theorem extend_append (crc : BitVec w) (a b : List UInt8) : extend p crc (a ++ b) = extend p (extend p crc a) b := by
  simp only [extend, remainder, foldl_append, BitVec.not_not]

theorem combine_extend (crc : BitVec w) (bs : List UInt8) :
    combine p crc (extend p 0 bs) bs.length = extend p crc bs := by
  have hc : ~~~crc = ~~~0#w ^^^ crc := by
    rw [BitVec.not_zero, BitVec.xor_comm, BitVec.xor_allOnes]
  rw [combine, extend, extend, hc, remainder_xor, BitVec.xor_comm]
  apply BitVec.eq_of_getLsbD_eq
  intro i hi
  simp only [BitVec.getLsbD_xor, BitVec.getLsbD_not, hi, decide_true, Bool.true_and]
  exact Bool.not_xor _ _

end ZenFSPlus.Lib.Crc
