import Mathlib.Data.List.Pairwise
import Mathlib.Data.List.Sort

/-!
Cursors over a list of entries that is sorted by key.
-/

namespace ZenFSPlus.Lib

open List

variable {κ ν : Type} {entries : ℕ → List (κ × ν)}

theorem find?_eq_some_iff_first {r : κ → κ → Prop} (hr : ∀ a b, r a b → ¬ r b a) {l : List (κ × ν)}
    (hl : l.Pairwise fun e e' => r e.1 e'.1) {p : κ → Bool} {e : κ × ν} :
    l.find? (fun e => p e.1) = some e ↔ e ∈ l ∧ p e.1 = true ∧ ∀ e' ∈ l, p e'.1 = true → e' = e ∨ r e.1 e'.1 := by
  induction l with
  | nil => simp
  | cons x l ih =>
    obtain ⟨hx, hl⟩ := pairwise_cons.mp hl
    by_cases hp : p x.1 = true
    · rw [find?_cons_of_pos (p := fun e : κ × ν => p e.1) hp, Option.some.injEq]
      constructor
      · rintro rfl
        refine ⟨mem_cons_self, hp, fun e' he' _ => ?_⟩
        exact (mem_cons.mp he').imp id (hx e')
      · rintro ⟨he, -, hf⟩
        rcases mem_cons.mp he with rfl | he
        · rfl
        · rcases hf x mem_cons_self hp with hxe | hex
          · exact hxe
          · exact absurd hex (hr _ _ (hx e he))
    · rw [find?_cons_of_neg (p := fun e : κ × ν => p e.1) hp, ih hl]
      constructor
      · rintro ⟨he, hpe, hf⟩
        refine ⟨mem_cons_of_mem _ he, hpe, fun e' he' hpe' => ?_⟩
        rcases mem_cons.mp he' with rfl | he'
        · exact absurd hpe' hp
        · exact hf e' he' hpe'
      · rintro ⟨he, hpe, hf⟩
        rcases mem_cons.mp he with rfl | he
        · exact absurd hpe hp
        · exact ⟨he, hpe, fun e' he' => hf e' (mem_cons_of_mem _ he')⟩

theorem eq_of_key_eq [Preorder κ] {l : List (κ × ν)} (hl : l.Pairwise fun e e' => e.1 < e'.1) {e e' : κ × ν}
    (he : e ∈ l) (he' : e' ∈ l) (h : e.1 = e'.1) : e = e' := by
  by_contra hne
  have hk : l.Pairwise (Function.onFun (· ≠ ·) Prod.fst) := hl.imp ne_of_lt
  exact hk.forall he he' hne h

structure Cursor (κ ν : Type) where
  entries : List (κ × ν)
  cur : Option (κ × ν) := none

inductive CursorOp (κ : Type)
  | seekToFirst
  | seekToLast
  | seek (target : κ)
  | seekForPrev (target : κ)
  | next
  | prev

namespace Cursor

variable [LinearOrder κ] (c : Cursor κ ν)

def valid : Bool := c.cur.isSome

def seekToFirst : Cursor κ ν := { c with cur := c.entries.head? }

def seekToLast : Cursor κ ν := { c with cur := c.entries.getLast? }

def seek (target : κ) : Cursor κ ν := { c with cur := c.entries.find? fun e => target ≤ e.1 }

def seekForPrev (target : κ) : Cursor κ ν := { c with cur := c.entries.reverse.find? fun e => e.1 ≤ target }

def next : Cursor κ ν := { c with cur := c.cur.bind fun e => c.entries.find? fun e' => e.1 < e'.1 }

def prev : Cursor κ ν := { c with cur := c.cur.bind fun e => c.entries.reverse.find? fun e' => e'.1 < e.1 }

def step : CursorOp κ → Option (Cursor κ ν)
  | .seekToFirst => some c.seekToFirst
  | .seekToLast => some c.seekToLast
  | .seek target => some (c.seek target)
  | .seekForPrev target => some (c.seekForPrev target)
  | .next => if c.valid then some c.next else none
  | .prev => if c.valid then some c.prev else none

end Cursor

section

variable [LinearOrder κ]

def merged (n : ℕ) (entries : ℕ → List (κ × ν)) : List (κ × ν) :=
  ((range n).flatMap entries).insertionSort fun e e' => e.1 ≤ e'.1

theorem mem_merged {n : ℕ} {e : κ × ν} : e ∈ merged n entries ↔ ∃ i < n, e ∈ entries i := by
  simp [merged]

structure Apart (n : ℕ) (entries : ℕ → List (κ × ν)) : Prop where
  sorted : ∀ i < n, (entries i).Pairwise fun e e' => e.1 < e'.1
  distinct : ∀ i < n, ∀ j < n, i ≠ j → ∀ e ∈ entries i, ∀ e' ∈ entries j, e.1 ≠ e'.1

theorem Apart.sorted_merged {n : ℕ} (h : Apart n entries) : (merged n entries).Pairwise fun e e' => e.1 < e'.1 := by
  have hle : (merged n entries).Pairwise fun e e' => e.1 ≤ e'.1 := by
    have : Std.Total fun e e' : κ × ν => e.1 ≤ e'.1 := ⟨fun e e' => le_total e.1 e'.1⟩
    have : IsTrans (κ × ν) fun e e' => e.1 ≤ e'.1 := ⟨fun _ _ _ => le_trans⟩
    exact pairwise_insertionSort _ _
  have hne : ((range n).flatMap entries).Pairwise fun e e' => e.1 ≠ e'.1 := by
    rw [pairwise_flatMap]
    constructor
    · intro i hi
      exact (h.sorted i (mem_range.mp hi)).imp ne_of_lt
    · refine nodup_range.imp_of_mem fun hi hj hij e he e' he' => ?_
      exact h.distinct _ (mem_range.mp hi) _ (mem_range.mp hj) hij e he e' he'
  have hne' : (merged n entries).Pairwise fun e e' => e.1 ≠ e'.1 :=
    (Perm.pairwise_iff (fun h => Ne.symm h) (perm_insertionSort _ _)).mpr hne
  exact (hle.and hne').imp fun h => lt_of_le_of_ne h.1 h.2

end

end ZenFSPlus.Lib
