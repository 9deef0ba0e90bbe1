import Mathlib.Algebra.Group.Nat.Defs
import ZenFSPlus.Db.DbFormat

namespace ZenFSPlus.Db

structure UserComparator (κ : Type) [LinearOrder κ] where
  size : κ → ℕ
  findShortestSeparator : κ → κ → κ
  findShortSuccessor : κ → κ
  separator_mem : ∀ a b, a < b → a ≤ findShortestSeparator a b ∧ findShortestSeparator a b < b
  separator_self : ∀ a, findShortestSeparator a a = a

namespace InternalKey

variable {κ : Type} [LinearOrder κ] (c : UserComparator κ)

def kMaxSequenceNumber : ℕ := 2 ^ 56 - 1

def kValueTypeForSeek : ℕ := 0x14

def packSequenceAndType (seq type : ℕ) : ℕ := seq * 2 ^ 8 + type

def findShortestSeparator (start limit : InternalKey κ) : InternalKey κ :=
  let tmp := c.findShortestSeparator start.userKey limit.userKey
  if c.size tmp ≤ c.size start.userKey ∧ start.userKey < tmp then
    ⟨tmp, packSequenceAndType kMaxSequenceNumber kValueTypeForSeek⟩
  else start

def findShortSuccessor (key : InternalKey κ) : InternalKey κ :=
  let tmp := c.findShortSuccessor key.userKey
  if c.size tmp ≤ c.size key.userKey ∧ key.userKey < tmp then
    ⟨tmp, packSequenceAndType kMaxSequenceNumber kValueTypeForSeek⟩
  else key

variable {c} {a b : InternalKey κ}

theorem le_findShortestSeparator : a ≤ findShortestSeparator c a b := by
  unfold findShortestSeparator
  dsimp only
  split
  · rename_i h
    exact (lt_of_userKey_lt h.2).le
  · exact le_refl a

theorem findShortestSeparator_lt (h : a < b) : findShortestSeparator c a b < b := by
  unfold findShortestSeparator
  dsimp only
  split
  · rename_i ht
    apply lt_of_userKey_lt
    rcases lt_iff.mp h with hlt | ⟨heq, -⟩
    · exact (c.separator_mem _ _ hlt).2
    · rw [heq, c.separator_self] at ht
      exact absurd ht.2 (lt_irrefl _)
  · exact h

theorem le_findShortSuccessor : a ≤ findShortSuccessor c a := by
  unfold findShortSuccessor
  dsimp only
  split
  · rename_i h
    exact (lt_of_userKey_lt h.2).le
  · exact le_refl a

end InternalKey

end ZenFSPlus.Db
