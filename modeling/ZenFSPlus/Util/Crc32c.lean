import ZenFSPlus.Lib.Crc

/-!
`util/crc32c.h`. `Extend` is CRC-32C bit by bit, which the table-driven and the hardware versions compute
as well, and `Crc32cCombine` is what it is documented to be.
-/

namespace ZenFSPlus.Util.Crc32c

open Lib

def polynomial : BitVec 32 := 0x82f63b78

def extend (initCrc : BitVec 32) (data : List UInt8) : BitVec 32 := Crc.extend polynomial initCrc data

def crc32cCombine (crc1 crc2 : BitVec 32) (crc2len : ℕ) : BitVec 32 :=
  Crc.combine polynomial crc1 crc2 crc2len

def value (data : List UInt8) : BitVec 32 := extend 0 data

def kMaskDelta : BitVec 32 := 0xa282ead8

def mask (crc : BitVec 32) : BitVec 32 := (crc >>> 15 ||| crc <<< 17) + kMaskDelta

def unmask (maskedCrc : BitVec 32) : BitVec 32 :=
  let rot := maskedCrc - kMaskDelta
  rot >>> 17 ||| rot <<< 15

theorem extend_value (a b : List UInt8) : extend (value a) b = value (a ++ b) := (Crc.extend_append _ _ _ _).symm

theorem crc32cCombine_value (a b : List UInt8) : crc32cCombine (value a) (value b) b.length = value (a ++ b) :=
  (Crc.combine_extend _ _ _).trans (extend_value a b)

theorem unmask_mask (crc : BitVec 32) : unmask (mask crc) = crc := by
  rw [unmask, mask, BitVec.add_sub_cancel]
  apply BitVec.eq_of_getLsbD_eq
  intro i hi
  simp only [BitVec.getLsbD_or, BitVec.getLsbD_ushiftRight, BitVec.getLsbD_shiftLeft]
  rcases Nat.lt_or_ge i 15 with h | h
  · have hr : crc.getLsbD (15 + (17 + i)) = false := BitVec.getLsbD_of_ge _ _ (by omega)
    have hl : 17 + i - 17 = i := by omega
    simp [h, hr, hl, show 17 + i < 32 by omega]
  have hr : 15 + (i - 15) = i := by omega
  have hn : ¬ i < 15 := by omega
  have hlw : i - 15 < 17 := by omega
  have ho : crc.getLsbD (15 + (17 + i)) = false := BitVec.getLsbD_of_ge _ _ (by omega)
  simp [hi, hr, hn, hlw, ho]

/-- The check value of the nine digits. -/
example : value [49, 50, 51, 52, 53, 54, 55, 56, 57] = 0xe3069283 := by decide +kernel

end ZenFSPlus.Util.Crc32c
