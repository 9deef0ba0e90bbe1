import Mathlib.Algebra.Group.Nat.Defs
import ZenFSPlus.Lib.Memory

namespace ZenFSPlus.Util

open Lib

def roundup (x y : ℕ) : ℕ := (x + y - 1) / y * y

def rounddown (x y : ℕ) : ℕ := x / y * y

def truncateToPageBoundary (pageSize s : ℕ) : ℕ := s - (s &&& (pageSize - 1))

theorem dvd_roundup (x y : ℕ) : y ∣ roundup x y := Nat.dvd_mul_left _ _

theorem dvd_rounddown (x y : ℕ) : y ∣ rounddown x y := Nat.dvd_mul_left _ _

theorem rounddown_le (x y : ℕ) : rounddown x y ≤ x := Nat.div_mul_le_self x y

theorem lt_rounddown_add {x y : ℕ} (hy : 0 < y) : x < rounddown x y + y := by
  unfold rounddown
  have h1 := Nat.div_add_mod x y
  have h2 := Nat.mod_lt x hy
  rw [Nat.mul_comm]
  omega

theorem le_roundup {x y : ℕ} (hy : 0 < y) : x ≤ roundup x y := by
  have := lt_rounddown_add (x := x + y - 1) hy
  unfold rounddown at this
  unfold roundup
  omega

theorem roundup_lt_add {x y : ℕ} (hy : 0 < y) : roundup x y < x + y := by
  have := Nat.div_mul_le_self (x + y - 1) y
  unfold roundup
  omega

theorem roundup_le_of_dvd {x y m : ℕ} (hy : 0 < y) (hm : y ∣ m) (hx : x ≤ m) : roundup x y ≤ m := by
  obtain ⟨k, rfl⟩ := hm
  unfold roundup
  rw [Nat.mul_comm y k]
  apply Nat.mul_le_mul_right
  apply Nat.le_of_lt_succ
  apply (Nat.div_lt_iff_lt_mul hy).mpr
  rw [Nat.succ_mul, Nat.mul_comm k y]
  omega

theorem rounddown_sub {x y a : ℕ} (hy : 0 < y) (ha : y ∣ a) (h : a ≤ x) : a + rounddown (x - a) y = rounddown x y := by
  obtain ⟨k, rfl⟩ := ha
  obtain ⟨r, rfl⟩ := Nat.exists_eq_add_of_le h
  unfold rounddown
  rw [Nat.add_sub_cancel_left, Nat.mul_add_div hy, Nat.add_mul, Nat.mul_comm y k]

theorem truncateToPageBoundary_eq (k s : ℕ) : truncateToPageBoundary (2 ^ k) s = rounddown s (2 ^ k) := by
  have hm := Nat.div_add_mod s (2 ^ k)
  rw [truncateToPageBoundary, rounddown, Nat.and_two_pow_sub_one_eq_mod, Nat.mul_comm]
  omega

structure AlignedBuffer where
  alignment : ℕ
  capacity : ℕ
  cursize : ℕ
  buf : Mem UInt8

namespace AlignedBuffer

def empty : AlignedBuffer := ⟨0, 0, 0, fun _ => 0⟩

/-- `fresh` is what the new memory holds before it is written. -/
def allocateNewBuffer (b : AlignedBuffer) (fresh : Mem UInt8) (requestedCapacity : ℕ) (copyData : Bool)
    (copyOffset copyLen : ℕ) : AlignedBuffer :=
  let copyLen := if 0 < copyLen then copyLen else b.cursize
  if copyData ∧ requestedCapacity < copyLen then b
  else if copyData then
    { b with
      capacity := roundup requestedCapacity b.alignment
      cursize := copyLen
      buf := fresh.copy 0 b.buf copyOffset copyLen }
  else
    { b with
      capacity := roundup requestedCapacity b.alignment
      cursize := 0
      buf := fresh }

/-- `Append`: what fits of the source, and how much that is. -/
def append (b : AlignedBuffer) (src : List UInt8) : AlignedBuffer × ℕ :=
  let toCopy := min src.length (b.capacity - b.cursize)
  ({ b with
    cursize := b.cursize + toCopy
    buf := b.buf.copy b.cursize (fun i => src.getD i 0) 0 toCopy }, toCopy)

def padWith (b : AlignedBuffer) (padSize : ℕ) (padding : UInt8) : AlignedBuffer :=
  { b with
    cursize := b.cursize + padSize
    buf := b.buf.copy b.cursize (fun _ => padding) 0 padSize }

def padToAlignmentWith (b : AlignedBuffer) (padding : UInt8) : AlignedBuffer :=
  b.padWith (roundup b.cursize b.alignment - b.cursize) padding

def refitTail (b : AlignedBuffer) (tailOffset tailSize : ℕ) : AlignedBuffer :=
  { b with
    cursize := tailSize
    buf := b.buf.copy 0 b.buf tailOffset tailSize }

def size (b : AlignedBuffer) (cursize : ℕ) : AlignedBuffer := { b with cursize := cursize }

def bytes (b : AlignedBuffer) : List UInt8 := b.buf.load 0 b.cursize

variable (b : AlignedBuffer)

@[simp] theorem length_bytes : b.bytes.length = b.cursize := by simp [bytes]

theorem load_getD (src : List UInt8) {n : ℕ} (hn : n ≤ src.length) :
    Mem.load (fun i => src.getD i 0) 0 n = src.take n := by
  have := Mem.load_eq_take_drop (fun i => src.getD i 0) 0 n src 0 (by
    intro i hi
    have hlt : i < src.length := by omega
    simp [hlt])
  simpa using this

theorem bytes_append (src : List UInt8) :
    (b.append src).1.bytes = b.bytes ++ src.take (min src.length (b.capacity - b.cursize)) := by
  rw [append, bytes, Mem.load_copy_append, load_getD _ (by omega)]
  rfl

theorem bytes_padWith (padSize : ℕ) (padding : UInt8) :
    (b.padWith padSize padding).bytes = b.bytes ++ List.replicate padSize padding := by
  rw [padWith, bytes, Mem.load_copy_append, bytes]
  congr 1
  apply List.ext_getElem <;> simp

theorem bytes_allocateNewBuffer (fresh : Mem UInt8) (rc : ℕ) :
    (b.allocateNewBuffer fresh rc true 0 0).bytes = b.bytes := by
  unfold allocateNewBuffer
  simp only [Nat.lt_irrefl, if_false, if_true, true_and]
  split
  · rfl
  · rw [bytes, bytes, Mem.load_copy]

end AlignedBuffer

end ZenFSPlus.Util
