import Mathlib.Algebra.GroupWithZero.Nat
import Mathlib.Data.List.Lex
import Mathlib.Order.Fin.Basic
import ZenFSPlus.Db.KeyShortening

/-!
The bytewise comparator: byte strings in lexicographic order, and its separators.
-/

namespace ZenFSPlus.Util

open ZenFSPlus.Db List

abbrev Byte := Fin 256

@[instance] theorem byteNeZero : NeZero 256 := ⟨by decide⟩

def bytewiseShortSuccessor : List Byte → List Byte
  | [] => []
  | a :: key => if a.val < 255 then [a + 1] else a :: bytewiseShortSuccessor key

def bytewiseShortestSeparator : List Byte → List Byte → List Byte
  | [], _ => []
  | start, [] => start
  | a :: start, b :: limit =>
    if a = b then a :: bytewiseShortestSeparator start limit
    else if b ≤ a then a :: start
    else if limit ≠ [] ∨ a.val + 1 < b.val then [a + 1]
    -- incrementing this byte would reach the limit
    else a :: bytewiseShortSuccessor start

theorem val_add_one {a : Byte} (h : a.val < 255) : (a + 1).val = a.val + 1 := by
  rw [Fin.val_add]
  exact Nat.mod_eq_of_lt (show a.val + 1 < 256 by omega)

theorem lt_add_one {a : Byte} (h : a.val < 255) : a < a + 1 := by
  rw [Fin.lt_def, val_add_one h]
  exact Nat.lt_succ_self _

theorem cons_le_cons_self (a : Byte) {s t : List Byte} (h : s ≤ t) : a :: s ≤ a :: t := by
  rw [← not_lt, cons_lt_cons_iff, not_or, not_and]
  exact ⟨lt_irrefl a, fun _ => not_lt.mpr h⟩

theorem le_bytewiseShortSuccessor (key : List Byte) : key ≤ bytewiseShortSuccessor key := by
  induction key with
  | nil => exact le_refl _
  | cons a key ih =>
    unfold bytewiseShortSuccessor
    split
    · rename_i h
      exact (cons_lt_cons_iff.mpr (.inl (lt_add_one h))).le
    · exact cons_le_cons_self a ih

theorem le_bytewiseShortestSeparator (start limit : List Byte) : start ≤ bytewiseShortestSeparator start limit := by
  induction start, limit using bytewiseShortestSeparator.induct with
  | case1 limit => exact le_refl _
  | case2 start h =>
    cases start with
    | nil => exact (h rfl).elim
    | cons a start => exact le_refl _
  | case3 start b limit ih =>
    rw [bytewiseShortestSeparator, if_pos rfl]
    exact cons_le_cons_self b ih
  | case4 a start b limit hne hle =>
    rw [bytewiseShortestSeparator, if_neg hne, if_pos hle]
  | case5 a start b limit hne hle h =>
    rw [bytewiseShortestSeparator, if_neg hne, if_neg hle, if_pos h]
    have hlt : a.val < b.val := not_le.mp hle
    exact (cons_lt_cons_iff.mpr (.inl (lt_add_one (by omega)))).le
  | case6 a start b limit hne hle h =>
    rw [bytewiseShortestSeparator, if_neg hne, if_neg hle, if_neg h]
    exact cons_le_cons_self a (le_bytewiseShortSuccessor start)

theorem bytewiseShortestSeparator_lt {start limit : List Byte} (hlt : start < limit) :
    bytewiseShortestSeparator start limit < limit := by
  induction start, limit using bytewiseShortestSeparator.induct with
  | case1 limit => exact hlt
  | case2 start h => exact absurd hlt (by simp)
  | case3 start b limit ih =>
    rw [bytewiseShortestSeparator, if_pos rfl, cons_lt_cons_iff]
    rcases cons_lt_cons_iff.mp hlt with h | ⟨-, h⟩
    · exact absurd h (lt_irrefl b)
    · exact .inr ⟨rfl, ih h⟩
  | case4 a start b limit hne hle =>
    rwa [bytewiseShortestSeparator, if_neg hne, if_pos hle]
  | case5 a start b limit hne hle h =>
    rw [bytewiseShortestSeparator, if_neg hne, if_neg hle, if_pos h, cons_lt_cons_iff]
    have hab : a.val < b.val := not_le.mp hle
    have hn := val_add_one (a := a) (by omega)
    by_cases hs : a.val + 1 < b.val
    · exact .inl (Fin.lt_def.mpr (by omega))
    refine .inr ⟨Fin.ext (by omega), ?_⟩
    rcases h with h | h
    · obtain ⟨x, rest, rfl⟩ := exists_cons_of_ne_nil h
      exact nil_lt_cons x rest
    · exact absurd h hs
  | case6 a start b limit hne hle h =>
    rw [bytewiseShortestSeparator, if_neg hne, if_neg hle, if_neg h, cons_lt_cons_iff]
    exact .inl (not_le.mp hle)

theorem bytewiseShortestSeparator_self (key : List Byte) : bytewiseShortestSeparator key key = key := by
  induction key with
  | nil => rfl
  | cons a key ih => rw [bytewiseShortestSeparator, if_pos rfl, ih]

theorem bytewiseShortestSeparator_eq_take {start limit : List Byte} {n : ℕ} (hs : n ≤ start.length)
    (hlm : n ≤ limit.length) (hne : start.take n ≠ limit.take n)
    (hl : n ≤ (bytewiseShortestSeparator start limit).length)
    (heq : (bytewiseShortestSeparator start limit).take n = limit.take n) :
    bytewiseShortestSeparator start limit = limit.take n := by
  induction start, limit using bytewiseShortestSeparator.induct generalizing n with
  | case1 limit =>
    rw [Nat.le_zero.mp hs] at hne
    exact absurd rfl hne
  | case2 start h =>
    rw [Nat.le_zero.mp hlm] at hne
    exact absurd rfl hne
  | case3 start b limit ih =>
    rw [bytewiseShortestSeparator, if_pos rfl] at hl heq ⊢
    cases n with
    | zero => exact absurd rfl hne
    | succ n =>
      simp only [take_succ_cons, List.cons.injEq, true_and, ne_eq] at hne heq ⊢
      exact ih (Nat.le_of_succ_le_succ hs) (Nat.le_of_succ_le_succ hlm) hne (Nat.le_of_succ_le_succ hl) heq
  | case4 a start b limit hab hle =>
    rw [bytewiseShortestSeparator, if_neg hab, if_pos hle] at heq
    exact absurd heq hne
  | case5 a start b limit hab hle h =>
    rw [bytewiseShortestSeparator, if_neg hab, if_neg hle, if_pos h] at hl heq ⊢
    cases n with
    | zero => exact absurd rfl hne
    | succ n =>
      have hn : n = 0 := Nat.le_zero.mp (Nat.le_of_succ_le_succ hl)
      subst hn
      exact heq
  | case6 a start b limit hab hle h =>
    rw [bytewiseShortestSeparator, if_neg hab, if_neg hle, if_neg h] at heq
    cases n with
    | zero => exact absurd rfl hne
    | succ n =>
      simp only [take_succ_cons, List.cons.injEq] at heq
      exact absurd heq.1 hab

def bytewiseComparator : UserComparator (List Byte) where
  size := List.length
  findShortestSeparator := bytewiseShortestSeparator
  findShortSuccessor := bytewiseShortSuccessor
  separator_mem _ _ h := ⟨le_bytewiseShortestSeparator _ _, bytewiseShortestSeparator_lt h⟩
  separator_self := bytewiseShortestSeparator_self

end ZenFSPlus.Util
