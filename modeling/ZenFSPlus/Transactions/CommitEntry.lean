import Mathlib.Algebra.Group.Nat.Defs
import Mathlib.Tactic.Common

/-!
`CommitEntry64b`: a slot of the commit cache packs the prepare sequence number, without the bits its index gives, and
the distance of the commit sequence number.
-/

namespace ZenFSPlus.Transactions

def kMaxSequenceNumber : ℕ := 2 ^ 56 - 1

structure CommitEntry where
  prepSeq : ℕ
  commitSeq : ℕ
  deriving DecidableEq

structure CommitEntry64bFormat where
  indexBits : ℕ

namespace CommitEntry64bFormat

variable (format : CommitEntry64bFormat)

def padBits : ℕ := 8

def prepBits : ℕ := 64 - padBits - format.indexBits

def commitBits : ℕ := 64 - format.prepBits

def commitFilter : BitVec 64 := 1#64 <<< format.commitBits - 1#64

def deltaUpperbound : BitVec 64 := 1#64 <<< format.commitBits

end CommitEntry64bFormat

structure CommitEntry64b where
  rep : BitVec 64 := 0#64
  deriving DecidableEq

namespace CommitEntry64b

open CommitEntry64bFormat

def ofEntry (format : CommitEntry64bFormat) (entry : CommitEntry) : Except String CommitEntry64b :=
  let ps := BitVec.ofNat 64 entry.prepSeq
  let delta := BitVec.ofNat 64 entry.commitSeq - ps + 1#64
  if format.deltaUpperbound ≤ delta then
    .error ("commit_seq >> prepare_seq. The allowed distance is " ++ toString format.deltaUpperbound.toNat ++
      " commit_seq is " ++ toString entry.commitSeq ++ " prepare_seq is " ++ toString entry.prepSeq)
  else .ok ⟨(ps <<< padBits &&& ~~~format.commitFilter) ||| delta⟩

/-- `Parse`; `none` for an empty entry. -/
def parse (format : CommitEntry64bFormat) (indexedSeq : ℕ) (e : CommitEntry64b) : Option CommitEntry :=
  let delta := e.rep &&& format.commitFilter
  if delta = 0#64 then none
  else
    let prepUp := (e.rep &&& ~~~format.commitFilter) >>> padBits
    let prepSeq := prepUp ||| BitVec.ofNat 64 indexedSeq
    some ⟨prepSeq.toNat, (prepSeq + delta - 1#64).toNat⟩

variable {format : CommitEntry64bFormat}

theorem commitBits_eq (h : format.commitBits < 64) : format.commitBits = padBits + format.indexBits := by
  unfold commitBits prepBits padBits at *
  omega

theorem getLsbD_commitFilter (h : format.commitBits < 64) (j : ℕ) :
    format.commitFilter.getLsbD j = decide (j < format.commitBits) := by
  have hp : 2 ^ format.commitBits < 2 ^ 64 := Nat.pow_lt_pow_right (by decide) h
  have hps := Nat.two_pow_pos format.commitBits
  have ht : format.commitFilter.toNat = 2 ^ format.commitBits - 1 := by
    unfold commitFilter
    rw [BitVec.toNat_sub, BitVec.toNat_shiftLeft, Nat.shiftLeft_eq]
    simp only [BitVec.toNat_ofNat]
    omega
  rw [← BitVec.testBit_toNat, ht, Nat.testBit_two_pow_sub_one]

variable {delta : BitVec 64}

theorem lt_of_lt_deltaUpperbound (h : ¬ format.deltaUpperbound ≤ delta) :
    format.commitBits < 64 ∧ delta.toNat < 2 ^ format.commitBits := by
  rw [BitVec.not_le, BitVec.lt_def, deltaUpperbound, BitVec.toNat_shiftLeft, Nat.shiftLeft_eq] at h
  simp only [BitVec.toNat_ofNat] at h
  rcases Nat.lt_or_ge format.commitBits 64 with hlt | hge
  · rw [Nat.mod_eq_of_lt (a := 1 % 2 ^ 64 * _)] at h
    · exact ⟨hlt, by simpa using h⟩
    · have := Nat.pow_lt_pow_right (show 1 < 2 by decide) hlt
      omega
  · obtain ⟨n, hn⟩ := Nat.exists_eq_add_of_le hge
    rw [hn, Nat.pow_add] at h
    simp at h

theorem getLsbD_of_lt {x : BitVec 64} {k j : ℕ} (h : x.toNat < 2 ^ k) (hj : k ≤ j) : x.getLsbD j = false := by
  rw [← BitVec.testBit_toNat]
  exact Nat.testBit_lt_two_pow (Nat.lt_of_lt_of_le h (Nat.pow_le_pow_right (by decide) hj))

theorem and_commitFilter (ps : BitVec 64) (hb : format.commitBits < 64) (hd : delta.toNat < 2 ^ format.commitBits) :
    ((ps <<< padBits &&& ~~~format.commitFilter) ||| delta) &&& format.commitFilter = delta := by
  apply BitVec.eq_of_getLsbD_eq
  intro j hj
  simp only [BitVec.getLsbD_and, BitVec.getLsbD_or, BitVec.getLsbD_not, getLsbD_commitFilter hb]
  by_cases hjk : j < format.commitBits
  · simp [hjk]
  · simp [hjk, getLsbD_of_lt hd (Nat.le_of_not_lt hjk)]

theorem prepUp_or_index {ps : ℕ} (hb : format.commitBits < 64)
    (hps : ps < 2 ^ 56) (hd : delta.toNat < 2 ^ format.commitBits) :
    (((BitVec.ofNat 64 ps <<< padBits &&& ~~~format.commitFilter) ||| delta) &&& ~~~format.commitFilter) >>> padBits |||
      BitVec.ofNat 64 (ps % 2 ^ format.indexBits) = BitVec.ofNat 64 ps := by
  have hk := commitBits_eq hb
  apply BitVec.eq_of_getLsbD_eq
  intro j hj
  simp only [BitVec.getLsbD_and, BitVec.getLsbD_or, BitVec.getLsbD_not, BitVec.getLsbD_ushiftRight,
    BitVec.getLsbD_shiftLeft, getLsbD_commitFilter hb, BitVec.getLsbD_ofNat, Nat.testBit_mod_two_pow]
  by_cases hl : j < format.indexBits
  · have : padBits + j < format.commitBits := by omega
    simp [hl, this]
  have hh : ¬ padBits + j < format.commitBits := by omega
  rcases Nat.lt_or_ge (padBits + j) 64 with h64 | h64
  · have hp : ¬ padBits + j < padBits := by omega
    rw [getLsbD_of_lt hd (Nat.le_of_not_lt hh)]
    simp [hl, hh, hp, h64, hj]
  have hz : ps.testBit j = false := by
    apply Nat.testBit_lt_two_pow
    apply Nat.lt_of_lt_of_le hps
    exact Nat.pow_le_pow_right (by decide) (by unfold padBits at h64; omega)
  have h64' : ¬ padBits + j < 64 := by omega
  simp [hl, h64', hz]

theorem parse_ofEntry {entry : CommitEntry} {e : CommitEntry64b} (h : ofEntry format entry = .ok e)
    (hle : entry.prepSeq ≤ entry.commitSeq) (hm : entry.commitSeq ≤ kMaxSequenceNumber) :
    parse format (entry.prepSeq % 2 ^ format.indexBits) e = some entry := by
  obtain ⟨ps, cs⟩ := entry
  unfold kMaxSequenceNumber at hm
  simp only at hle hm
  simp only [ofEntry] at h
  split at h
  · cases h
  rename_i hb
  cases Except.ok.inj h
  obtain ⟨hbt, hd⟩ := lt_of_lt_deltaUpperbound hb
  have hand := and_commitFilter (BitVec.ofNat 64 ps) hbt hd
  have hor := prepUp_or_index hbt (show ps < 2 ^ 56 by omega) hd
  simp only [parse, hand, hor]
  rw [if_neg]
  · congr 2
    · rw [BitVec.toNat_ofNat]
      omega
    · have hcs : BitVec.ofNat 64 ps + (BitVec.ofNat 64 cs - BitVec.ofNat 64 ps + 1#64) - 1#64 = BitVec.ofNat 64 cs := by
        bv_omega
      rw [hcs, BitVec.toNat_ofNat]
      omega
  · intro hz
    have := congrArg BitVec.toNat hz
    simp only [BitVec.toNat_add, BitVec.toNat_sub, BitVec.toNat_ofNat] at this
    omega

/-- Every pair within the distance of the format is packed and read back from its slot. -/
theorem ofEntry_roundtrip {ps cs : ℕ} (hle : ps ≤ cs) (hcs : cs < 2 ^ 56)
    (hd : cs - ps + 1 < format.deltaUpperbound.toNat) :
    ∃ e, ofEntry format ⟨ps, cs⟩ = .ok e ∧ parse format (ps % 2 ^ format.indexBits) e = some ⟨ps, cs⟩ ∧
      e ≠ {} ∧ ∀ i, parse format i {} = none := by
  have hz (i : ℕ) : parse format i {} = none := by simp [parse]
  have hdl : (BitVec.ofNat 64 cs - BitVec.ofNat 64 ps + 1#64).toNat = cs - ps + 1 := by bv_omega
  have ho : ¬ format.deltaUpperbound ≤ BitVec.ofNat 64 cs - BitVec.ofNat 64 ps + 1#64 := by
    rw [BitVec.le_def, hdl]
    omega
  obtain ⟨e, he⟩ : ∃ e, ofEntry format ⟨ps, cs⟩ = .ok e := ⟨_, if_neg ho⟩
  have hp := parse_ofEntry he hle (Nat.le_sub_one_of_lt hcs)
  refine ⟨e, he, hp, ?_, hz⟩
  rintro rfl
  rw [hz] at hp
  cases hp

theorem ofEntry_roundtrip_five : ∃ e, ofEntry ⟨4⟩ ⟨20, 25⟩ = .ok e ∧ parse ⟨4⟩ (20 % 2 ^ 4) e = some ⟨20, 25⟩ ∧
    e ≠ {} ∧ ∀ i, parse ⟨4⟩ i {} = none :=
  ofEntry_roundtrip (by decide) (by decide) (by decide)

end CommitEntry64b

end ZenFSPlus.Transactions
