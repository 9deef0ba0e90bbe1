import Mathlib.Algebra.Group.Nat.Defs
import ZenFSPlus.Lib.Word

/-!
`util/coding.h` and `util/coding.cc`: little-endian integers of fixed width, `Varint32` and
length-prefixed slices. A decoder takes the input and returns what is left of it.
-/

namespace ZenFSPlus.Util

open List
open Lib (u32 u32_of_lt)

abbrev Bytes := List UInt8

def encodeFixed : ℕ → ℕ → Bytes
  | 0, _ => []
  | n + 1, value => UInt8.ofNat value :: encodeFixed n (value >>> 8)

def decodeFixed : Bytes → ℕ
  | [] => 0
  | b :: bs => b.toNat ||| decodeFixed bs <<< 8

def encodeFixed16 (value : ℕ) : Bytes := encodeFixed 2 value

def encodeFixed32 (value : ℕ) : Bytes := encodeFixed 4 value

def encodeFixed64 (value : ℕ) : Bytes := encodeFixed 8 value

def decodeFixed16 (bs : Bytes) : ℕ := decodeFixed (bs.take 2)

def decodeFixed32 (bs : Bytes) : ℕ := decodeFixed (bs.take 4)

def encodeVarint32 (v : ℕ) : Bytes :=
  if v < 1 <<< 7 then [.ofNat v]
  else if v < 1 <<< 14 then [.ofNat (v ||| 128), .ofNat (v >>> 7)]
  else if v < 1 <<< 21 then [.ofNat (v ||| 128), .ofNat (v >>> 7 ||| 128), .ofNat (v >>> 14)]
  else if v < 1 <<< 28 then
    [.ofNat (v ||| 128), .ofNat (v >>> 7 ||| 128), .ofNat (v >>> 14 ||| 128), .ofNat (v >>> 21)]
  else
    [.ofNat (v ||| 128), .ofNat (v >>> 7 ||| 128), .ofNat (v >>> 14 ||| 128), .ofNat (v >>> 21 ||| 128),
      .ofNat (v >>> 28)]

def getVarint32PtrFallback : List ℕ → ℕ → Bytes → Option (ℕ × Bytes)
  | [], _, _ => none
  | _ :: _, _, [] => none
  | shift :: shifts, result, byte :: p =>
    if byte.toNat &&& 128 ≠ 0 then
      getVarint32PtrFallback shifts (result ||| u32 ((byte.toNat &&& 127) <<< shift)) p
    else some (result ||| u32 (byte.toNat <<< shift), p)

def getVarint32 (input : Bytes) : Option (ℕ × Bytes) :=
  match input with
  | [] => getVarint32PtrFallback [0, 7, 14, 21, 28] 0 []
  | result :: p =>
    if result.toNat &&& 128 = 0 then some (result.toNat, p)
    else getVarint32PtrFallback [0, 7, 14, 21, 28] 0 (result :: p)

def getVarintPtr (bits : ℕ) : List ℕ → ℕ → Bytes → Option (ℕ × Bytes)
  | [], _, _ => none
  | _ :: _, _, [] => none
  | shift :: shifts, result, byte :: p =>
    if byte.toNat &&& 128 ≠ 0 then getVarintPtr bits shifts (result ||| (byte.toNat &&& 127) <<< shift % 2 ^ bits) p
    else some (result ||| byte.toNat <<< shift % 2 ^ bits, p)

def getVarint64 (input : Bytes) : Option (ℕ × Bytes) := getVarintPtr 64 [0, 7, 14, 21, 28, 35, 42, 49, 56, 63] 0 input

def encodeVarintLoop : ℕ → ℕ → Bytes
  | 0, v => [.ofNat v]
  | n + 1, v => if 128 ≤ v then .ofNat (v &&& 127 ||| 128) :: encodeVarintLoop n (v >>> 7) else [.ofNat v]

def encodeVarint64 (v : ℕ) : Bytes := encodeVarintLoop 9 v

def getFixed64 (input : Bytes) : Option (ℕ × Bytes) :=
  if input.length < 8 then none else some (decodeFixed (input.take 8), input.drop 8)

def putLengthPrefixedSlice (value : Bytes) : Bytes := encodeVarint32 (u32 value.length) ++ value

def getLengthPrefixedSlice (input : Bytes) : Option (Bytes × Bytes) :=
  match getVarint32 input with
  | none => none
  | some (len, input) => if len ≤ input.length then some (input.take len, input.drop len) else none

theorem length_encodeFixed (n value : ℕ) : (encodeFixed n value).length = n := by
  induction n generalizing value with
  | zero => rfl
  | succ n ih => rw [encodeFixed, length_cons, ih]

theorem or_shiftLeft_eight {b : ℕ} (hb : b < 256) (n : ℕ) : b ||| n <<< 8 = b + 256 * n := by
  rw [Nat.or_comm, Nat.shiftLeft_eq, mul_comm, ← Nat.two_pow_add_eq_or_of_lt (i := 8) hb]
  omega

theorem decodeFixed_encodeFixed (n value : ℕ) : decodeFixed (encodeFixed n value) = value % 256 ^ n := by
  induction n generalizing value with
  | zero => rw [Nat.pow_zero, Nat.mod_one]; rfl
  | succ n ih =>
    rw [encodeFixed, decodeFixed, ih, or_shiftLeft_eight (UInt8.toNat_lt _), UInt8.toNat_ofNat',
      Nat.shiftRight_eq_div_pow, Nat.pow_succ' (m := 256), Nat.mod_mul (a := 256)]

theorem decodeFixed_replicate (n : ℕ) : decodeFixed (replicate n 0) = 0 := by
  induction n with
  | zero => rfl
  | succ n ih =>
    rw [replicate_succ, decodeFixed, ih]
    rfl

theorem decodeFixed16_append (v : ℕ) (bs : Bytes) : decodeFixed16 (encodeFixed16 v ++ bs) = v % 2 ^ 16 := by
  have hp : 256 ^ 2 = 2 ^ 16 := by decide
  rw [decodeFixed16, encodeFixed16, take_left' (length_encodeFixed 2 v), decodeFixed_encodeFixed, hp]

theorem decodeFixed32_append (v : ℕ) (bs : Bytes) : decodeFixed32 (encodeFixed32 v ++ bs) = v % 2 ^ 32 := by
  have hp : 256 ^ 4 = 2 ^ 32 := by decide
  rw [decodeFixed32, encodeFixed32, take_left' (length_encodeFixed 4 v), decodeFixed_encodeFixed, hp]

theorem getFixed64_put {v : ℕ} (hv : v < 2 ^ 64) (rest : Bytes) : getFixed64 (encodeFixed64 v ++ rest) = some (v, rest) := by
  have hl := length_encodeFixed 8 v
  have hp : 256 ^ 8 = 2 ^ 64 := by decide
  rw [getFixed64, encodeFixed64, length_append, hl, if_neg (by omega), take_left' hl,
    drop_left' hl, decodeFixed_encodeFixed, hp, Nat.mod_eq_of_lt hv]

section

theorem and_128_eq_zero : ∀ b < 256, b &&& 128 = 0 ↔ b < 128 := by
  decide +kernel

theorem or_128 : ∀ b < 256, b ||| 128 = b % 128 + 128 := by
  decide +kernel

theorem toNat_ofNat_or (v : ℕ) : (UInt8.ofNat (v ||| 128)).toNat = v % 128 + 128 := by
  rw [UInt8.toNat_ofNat']
  have hm : (v ||| 128) % 2 ^ 8 = v % 256 ||| 128 := Nat.or_mod_two_pow
  rw [hm, or_128 _ (Nat.mod_lt _ (by decide))]
  omega

def varint : ℕ → ℕ → Bytes
  | 0, v => [.ofNat v]
  | n + 1, v => if v < 128 then [.ofNat v] else .ofNat (v ||| 128) :: varint n (v >>> 7)

theorem encodeVarint32_eq (v : ℕ) : encodeVarint32 v = varint 4 v := by
  simp only [encodeVarint32, varint, ← Nat.shiftRight_add, Nat.reduceAdd, Nat.reduceShiftLeft]
  simp only [Nat.shiftRight_eq_div_pow]
  split
  · rfl
  rename_i h1
  have h2 : v / 2 ^ 7 < 128 ↔ v < 16384 := by omega
  have h3 : v / 2 ^ 14 < 128 ↔ v < 2097152 := by omega
  have h4 : v / 2 ^ 21 < 128 ↔ v < 268435456 := by omega
  simp only [h2, h3, h4]
  split
  · rfl
  · split
    · rfl
    · split <;> rfl

theorem encodeVarintLoop_eq (n v : ℕ) : encodeVarintLoop n v = varint n v := by
  induction n generalizing v with
  | zero => rfl
  | succ n ih =>
    rw [encodeVarintLoop, varint, ih]
    by_cases hv : v < 128
    · rw [if_neg (Nat.not_le.mpr hv), if_pos hv]
    have hb : UInt8.ofNat (v &&& 127 ||| 128) = UInt8.ofNat (v ||| 128) := by
      apply UInt8.toNat_inj.mp
      rw [toNat_ofNat_or, toNat_ofNat_or, Nat.and_two_pow_sub_one_eq_mod _ 7]
      omega
    rw [if_pos (Nat.not_lt.mp hv), if_neg hv, hb]

theorem length_varint_le (n v : ℕ) : (varint n v).length ≤ n + 1 := by
  induction n generalizing v with
  | zero => exact Nat.le_refl 1
  | succ n ih =>
    rw [varint]
    split
    · simp
    · have := ih (v >>> 7)
      rw [length_cons]
      omega

theorem length_encodeVarint64_le (v : ℕ) : (encodeVarint64 v).length ≤ 10 := by
  rw [encodeVarint64, encodeVarintLoop_eq]
  exact length_varint_le 9 v

theorem getVarint32PtrFallback_eq (shifts : List ℕ) (res : ℕ) (p : Bytes) :
    getVarint32PtrFallback shifts res p = getVarintPtr 32 shifts res p := by
  induction shifts generalizing res p with
  | nil => rfl
  | cons shift shifts ih =>
    cases p with
    | nil => rfl
    | cons byte p =>
      rw [getVarint32PtrFallback, getVarintPtr, ih]
      rfl

theorem or_shiftLeft_mod {bits res d shift : ℕ} (hr : res < 2 ^ shift) (hd : d * 2 ^ shift < 2 ^ bits) :
    res ||| d <<< shift % 2 ^ bits = res + d * 2 ^ shift := by
  rw [Nat.shiftLeft_eq, Nat.mod_eq_of_lt hd, Nat.or_comm, mul_comm, ← Nat.two_pow_add_eq_or_of_lt hr]
  omega

theorem getVarintPtr_last {bits shift v res : ℕ} {shifts : List ℕ} (rest : Bytes)
    (hr : res < 2 ^ shift) (hv : v < 128) (hf : v * 2 ^ shift < 2 ^ bits) :
    getVarintPtr bits (shift :: shifts) res ([.ofNat v] ++ rest) = some (res + v * 2 ^ shift, rest) := by
  have hb : (UInt8.ofNat v).toNat = v := by
    rw [UInt8.toNat_ofNat', Nat.mod_eq_of_lt]
    omega
  have h0 : v &&& 128 = 0 := (and_128_eq_zero v (by omega)).mpr hv
  rw [singleton_append, getVarintPtr, hb, if_neg (not_not_intro h0), or_shiftLeft_mod hr hf]

theorem getVarintPtr_varint {bits : ℕ} (n shift : ℕ) {v res : ℕ} (rest : Bytes) (hr : res < 2 ^ shift)
    (hv : v < 128 ^ (n + 1)) (hf : v * 2 ^ shift < 2 ^ bits) :
    getVarintPtr bits ((range (n + 1)).map fun i => shift + 7 * i) res (varint n v ++ rest) =
      some (res + v * 2 ^ shift, rest) := by
  rw [range_succ_eq_map, map_cons, map_map, Nat.mul_zero, Nat.add_zero]
  induction n generalizing shift v res with
  | zero => exact getVarintPtr_last rest hr hv hf
  | succ n ih =>
    rw [varint]
    split
    · exact getVarintPtr_last rest hr ‹_› hf
    have hh : ¬ v % 128 + 128 &&& 128 = 0 := by
      rw [and_128_eq_zero _ (by omega)]
      omega
    have hl : v % 128 + 128 &&& 127 = v % 128 := by
      rw [Nat.and_two_pow_sub_one_eq_mod _ 7]
      omega
    have hd : v % 128 * 2 ^ shift < 2 ^ bits := Nat.lt_of_le_of_lt (Nat.mul_le_mul_right _ (Nat.mod_le v 128)) hf
    rw [cons_append, getVarintPtr, toNat_ofNat_or, if_pos hh, hl, or_shiftLeft_mod hr hd]
    -- what is left is the varint of the higher digits, from the next shift on
    have hp : 2 ^ (shift + 7) = 128 * 2 ^ shift := by rw [Nat.pow_add, mul_comm]
    have hsp : v = v % 128 + 128 * (v >>> 7) := by
      rw [Nat.shiftRight_eq_div_pow]
      omega
    have hsm : v * 2 ^ shift = v % 128 * 2 ^ shift + v >>> 7 * 2 ^ (shift + 7) := by
      rw [hp, Nat.mul_left_comm, ← Nat.mul_assoc, ← Nat.add_mul, ← hsp]
    have hr' : res + v % 128 * 2 ^ shift < 2 ^ (shift + 7) := by
      have hle : v % 128 * 2 ^ shift ≤ 127 * 2 ^ shift := Nat.mul_le_mul_right _ (by omega)
      omega
    have hv' : v >>> 7 < 128 ^ (n + 1) := by
      rw [Nat.pow_succ'] at hv
      omega
    have hs : (fun i => shift + 7 * i) ∘ Nat.succ = fun i => shift + 7 + 7 * i := by
      funext i
      rw [Function.comp_apply, Nat.mul_succ]
      omega
    rw [hsm, ← add_assoc, ← ih (shift + 7) hr' hv' (by omega), hs, range_succ_eq_map,
      map_cons, map_map, Nat.mul_zero, Nat.add_zero]

theorem getVarint64_encodeVarint64 {v : ℕ} (hv : v < 2 ^ 64) (rest : Bytes) :
    getVarint64 (encodeVarint64 v ++ rest) = some (v, rest) := by
  rw [encodeVarint64, encodeVarintLoop_eq]
  have hf : v * 2 ^ 0 < 2 ^ 64 := by omega
  have h := getVarintPtr_varint 9 0 rest Nat.one_pos (by omega) hf
  rwa [Nat.pow_zero, mul_one, zero_add] at h

theorem getVarintPtr_length {bits : ℕ} {shifts : List ℕ} {res v : ℕ} {p rest : Bytes}
    (h : getVarintPtr bits shifts res p = some (v, rest)) : rest.length < p.length := by
  induction shifts generalizing res p with
  | nil => simp [getVarintPtr] at h
  | cons shift shifts ih =>
    cases p with
    | nil => simp [getVarintPtr] at h
    | cons byte p =>
      rw [getVarintPtr] at h
      split at h
      · exact Nat.lt_succ_of_lt (ih h)
      · cases h
        exact Nat.lt_succ_self _

variable {input rest : Bytes}

theorem getVarint32_length_lt {v : ℕ} (h : getVarint32 input = some (v, rest)) : rest.length < input.length := by
  unfold getVarint32 at h
  split at h
  · rw [getVarint32PtrFallback_eq] at h
    exact getVarintPtr_length h
  split at h
  · cases h
    exact Nat.lt_succ_self _
  · rw [getVarint32PtrFallback_eq] at h
    exact getVarintPtr_length h

theorem getVarint32_length {v : ℕ} (h : getVarint32 input = some (v, rest)) :
    rest.length ≤ input.length := Nat.le_of_lt (getVarint32_length_lt h)

theorem getLengthPrefixedSlice_length {value input rest : Bytes}
    (h : getLengthPrefixedSlice input = some (value, rest)) : rest.length ≤ input.length := by
  unfold getLengthPrefixedSlice at h
  split at h
  · cases h
  rename_i len input' hv
  split at h
  · cases h
    rw [length_drop]
    exact Nat.le_trans (Nat.sub_le _ _) (getVarint32_length hv)
  · cases h

theorem getVarint32_encodeVarint32 {v : ℕ} (hv : v < 2 ^ 32) (rest : Bytes) :
    getVarint32 (encodeVarint32 v ++ rest) = some (v, rest) := by
  rw [encodeVarint32_eq]
  have hl : getVarint32PtrFallback [0, 7, 14, 21, 28] 0 (varint 4 v ++ rest) = some (v, rest) := by
    have hf : v * 2 ^ 0 < 2 ^ 32 := by omega
    have h := getVarintPtr_varint 4 0 rest Nat.one_pos (by omega) hf
    rw [getVarint32PtrFallback_eq]
    rwa [Nat.pow_zero, mul_one, zero_add] at h
  rw [varint] at hl ⊢
  split
  · rename_i hlt
    have hb : (UInt8.ofNat v).toNat = v := by
      rw [UInt8.toNat_ofNat', Nat.mod_eq_of_lt]
      omega
    rw [singleton_append, getVarint32, hb, if_pos ((and_128_eq_zero v (by omega)).mpr hlt)]
  · rename_i hge
    rw [if_neg hge] at hl
    have hh : ¬ v % 128 + 128 &&& 128 = 0 := by
      rw [and_128_eq_zero _ (by omega)]
      omega
    rw [cons_append, getVarint32, toNat_ofNat_or, if_neg hh]
    exact hl

theorem getLengthPrefixedSlice_put {value : Bytes} (hv : value.length < 2 ^ 32) (rest : Bytes) :
    getLengthPrefixedSlice (putLengthPrefixedSlice value ++ rest) = some (value, rest) := by
  rw [putLengthPrefixedSlice, u32_of_lt hv, append_assoc, getLengthPrefixedSlice, getVarint32_encodeVarint32 hv]
  simp

end

end ZenFSPlus.Util
