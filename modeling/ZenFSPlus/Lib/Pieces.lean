import Mathlib.Data.List.Nodup

/-!
Cutting a list greedily into pieces without repeats. A piece ends before the first element it has already
seen; with `forget` a new piece does not remember the element it begins with.
-/

namespace ZenFSPlus.Lib

open List

variable {κ : Type}

def seenAfter (forget : Bool) (k : κ) : List κ := if forget then [] else [k]

theorem seenAfter_subset {forget : Bool} {k : κ} {seen : List κ} : seenAfter forget k ⊆ k :: seen := by
  cases forget <;> simp [seenAfter]

/-- The list in at most `n + 1` pieces without repeats. -/
def Splits (forget : Bool) (n : ℕ) (ks : List κ) : Prop :=
  ∃ (first : List κ) (pieces : List (List κ)), ks = first ++ pieces.flatten ∧ first.Nodup ∧
    pieces.length ≤ n ∧ ∀ p ∈ pieces, (if forget then p.tail else p).Nodup

theorem Splits.forget {n : ℕ} {ks : List κ} (h : Splits false n ks) : Splits true n ks := by
  obtain ⟨first, pcs, hks, hn, hl, hpc⟩ := h
  exact ⟨first, pcs, hks, hn, hl, fun p hp => (hpc p hp).tail⟩

variable [DecidableEq κ]

def cuts (forget : Bool) : List κ → List κ → ℕ
  | _, [] => 0
  | seen, k :: ks => if k ∈ seen then cuts forget (seenAfter forget k) ks + 1 else cuts forget (k :: seen) ks

variable {forget : Bool} {seen ks first : List κ} {n : ℕ}

def seenFrom (forget : Bool) : List κ → List κ → List κ
  | seen, [] => seen
  | seen, k :: ks => if k ∈ seen then seenFrom forget (seenAfter forget k) ks else seenFrom forget (k :: seen) ks

theorem seenFrom_concat (k : κ) : seenFrom forget seen (ks ++ [k]) =
    if k ∈ seenFrom forget seen ks then seenAfter forget k else k :: seenFrom forget seen ks := by
  induction ks generalizing seen with
  | nil => rfl
  | cons k' ks ih =>
    rw [cons_append, seenFrom, seenFrom]
    split <;> exact ih

theorem cuts_concat (k : κ) : cuts forget seen (ks ++ [k]) =
    if k ∈ seenFrom forget seen ks then cuts forget seen ks + 1 else cuts forget seen ks := by
  induction ks generalizing seen with
  | nil => rfl
  | cons k' ks ih =>
    rw [cons_append, cuts, cuts, seenFrom]
    split
    · rw [ih]
      split <;> rfl
    · exact ih

theorem cuts_le : (∀ seen seen' : List κ, seen ⊆ seen' → cuts forget seen ks ≤ cuts forget seen' ks) ∧
    ∀ seen seen' : List κ, cuts forget seen ks ≤ cuts forget seen' ks + 1 := by
  induction ks with
  | nil => simp [cuts]
  | cons k ks ih =>
    obtain ⟨hm, ho⟩ := ih
    constructor
    · intro seen seen' hs
      rw [cuts, cuts]
      by_cases hk : k ∈ seen
      · simp only [if_pos hk, if_pos (hs hk), Nat.le_refl]
      rw [if_neg hk]
      split
      · exact ho _ _
      · exact hm _ _ (cons_subset_cons k hs)
    · intro seen seen'
      rw [cuts, cuts]
      by_cases hk : k ∈ seen
      · rw [if_pos hk]
        split
        · omega
        · exact Nat.succ_le_succ (hm _ _ seenAfter_subset)
      · rw [if_neg hk]
        split
        · exact Nat.le_succ_of_le (ho _ _)
        · exact ho _ _

theorem cuts_append_of_fresh (rest : List κ) (hn : first.Nodup) (hf : ∀ x ∈ first, x ∉ seen) :
    cuts forget seen (first ++ rest) = cuts forget (first.reverse ++ seen) rest := by
  induction first generalizing seen with
  | nil => rfl
  | cons k first ih =>
    obtain ⟨hk, hn⟩ := nodup_cons.mp hn
    rw [cons_append, cuts, if_neg (hf k (by simp)), ih hn, reverse_cons, append_assoc]
    · rfl
    · intro x hx
      rw [mem_cons, not_or]
      exact ⟨fun h => hk (h ▸ hx), hf x (mem_cons_of_mem k hx)⟩

theorem cuts_flatten_le {pcs : List (List κ)} (h : ∀ p ∈ pcs, (if forget then p.tail else p).Nodup) :
    cuts forget seen pcs.flatten ≤ pcs.length := by
  induction pcs generalizing seen with
  | nil => simp [cuts]
  | cons p pcs ih =>
    obtain ⟨hp, hpc⟩ := forall_mem_cons.mp h
    cases p with
    | nil => exact Nat.le_succ_of_le (ih hpc)
    | cons k p =>
      have hn : p.Nodup := by
        cases forget with
        | false => exact hp.of_cons
        | true => exact hp
      have hf (x : κ) (hx : x ∈ p) : x ∉ seenAfter forget k := by
        cases forget with
        | false => simpa [seenAfter] using fun h : x = k => (nodup_cons.mp hp).1 (h ▸ hx)
        | true => simp [seenAfter]
      have hle : cuts forget (seenAfter forget k) (p ++ pcs.flatten) ≤ pcs.length := by
        rw [cuts_append_of_fresh _ hn hf]
        exact ih hpc
      rw [flatten_cons, cons_append, cuts, length_cons]
      split
      · exact Nat.succ_le_succ hle
      · exact Nat.le_trans (cuts_le.2 _ (seenAfter forget k)) (Nat.succ_le_succ hle)

theorem exists_pieces (h : cuts forget seen ks ≤ n) :
    ∃ (first : List κ) (pcs : List (List κ)), ks = first ++ pcs.flatten ∧ first.Nodup ∧ (∀ x ∈ first, x ∉ seen) ∧
      pcs.length ≤ n ∧ ∀ p ∈ pcs, (if forget then p.tail else p).Nodup := by
  induction ks generalizing seen n with
  | nil => exact ⟨[], [], rfl, .nil, by simp, Nat.zero_le n, by simp⟩
  | cons k ks ih =>
    rw [cuts] at h
    split at h
    · obtain ⟨m, rfl⟩ : ∃ m, n = m + 1 := ⟨n - 1, by omega⟩
      obtain ⟨first, pcs, rfl, hn, hf, hl, hp⟩ := ih (Nat.succ_le_succ_iff.mp h)
      refine ⟨[], (k :: first) :: pcs, rfl, .nil, by simp, Nat.succ_le_succ hl, ?_⟩
      refine forall_mem_cons.mpr ⟨?_, hp⟩
      cases forget with
      | true => exact hn
      | false => exact nodup_cons.mpr ⟨fun hk => hf k hk (by simp [seenAfter]), hn⟩
    · rename_i hk
      obtain ⟨first, pcs, rfl, hn, hf, hl, hp⟩ := ih h
      refine ⟨k :: first, pcs, rfl, ?_, ?_, hl, hp⟩
      · exact nodup_cons.mpr ⟨fun hm => hf k hm (by simp), hn⟩
      · exact forall_mem_cons.mpr ⟨hk, fun x hx hs => hf x hx (mem_cons_of_mem k hs)⟩

theorem cuts_le_iff : cuts forget [] ks ≤ n ↔ Splits forget n ks := by
  constructor
  · intro h
    obtain ⟨first, pcs, hks, hn, -, hl, hp⟩ := exists_pieces h
    exact ⟨first, pcs, hks, hn, hl, hp⟩
  · rintro ⟨first, pcs, rfl, hn, hl, hp⟩
    rw [cuts_append_of_fresh _ hn (by simp)]
    exact Nat.le_trans (cuts_flatten_le hp) hl

theorem cuts_eq_iff : cuts false [] ks = cuts true [] ks ↔ ∀ n, Splits true n ks → Splits false n ks := by
  simp only [← cuts_le_iff]
  constructor
  · intro h n hn
    rwa [h]
  · intro h
    apply Nat.le_antisymm (h _ (Nat.le_refl _))
    exact cuts_le_iff.mpr (cuts_le_iff.mp (Nat.le_refl _)).forget

end ZenFSPlus.Lib
