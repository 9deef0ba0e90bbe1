import Mathlib.Data.Multiset.AddSub
import Mathlib.Logic.Equiv.Basic
import ZenFSPlus.Lib.Run
import ZenFSPlus.Util.Heap

namespace ZenFSPlus.Util

open List

variable {α : Type}

structure ComparingHeap (α : Type) where
  cmp : α → α → Bool
  heap : BinaryHeap α := {}

inductive HeapOp (α : Type)
  | push (v : α)
  | pop
  | replaceTop (v : α)
  | clear

namespace HeapOp

def apply (h : ComparingHeap α) : HeapOp α → Option (BinaryHeap α)
  | push v => some (h.heap.push h.cmp v)
  | pop => h.heap.pop h.cmp
  | replaceTop v => h.heap.replaceTop h.cmp v
  | clear => some {}

open Classical in
/-- The elements that were pushed and not removed, when `c` are those before. -/
noncomputable def contents (h : ComparingHeap α) (c : Multiset α) : HeapOp α → Multiset α
  | push v => v ::ₘ c
  | pop => h.heap.top.elim c c.erase
  | replaceTop v => v ::ₘ h.heap.top.elim c c.erase
  | clear => 0

structure Holds (h : ComparingHeap α) (c : Multiset α) : Prop where
  weak : BinaryHeap.Weak h.cmp
  wf : h.heap.Wf h.cmp
  data : (h.heap.data : Multiset α) = c

theorem Holds.apply {h : ComparingHeap α} {c : Multiset α} {op : HeapOp α} {h' : BinaryHeap α} (hc : Holds h c)
    (ha : op.apply h = some h') : Holds ⟨h.cmp, h'⟩ (op.contents h c) := by
  obtain ⟨hw, hwf, rfl⟩ := hc
  cases op with
  | push v =>
    cases ha
    exact ⟨hw, hwf.push hw v, Multiset.coe_eq_coe.mpr (BinaryHeap.push_perm _ v)⟩
  | clear =>
    cases ha
    exact ⟨hw, BinaryHeap.wf_empty, rfl⟩
  | pop =>
    have hne : h.heap.data ≠ [] := fun hn => by simp [HeapOp.apply, BinaryHeap.pop, hn] at ha
    obtain ⟨x, rest, hd⟩ := exists_cons_of_ne_nil hne
    obtain ⟨t, ht, hwf', hp⟩ := hwf.pop (fun _ _ _ _ => rfl) hw hne
    cases ha.symm.trans ht
    refine ⟨hw, hwf', (Multiset.coe_eq_coe.mpr hp).trans ?_⟩
    simp [contents, BinaryHeap.top, hd]
  | replaceTop v =>
    have hne : h.heap.data ≠ [] := fun hn => by simp [HeapOp.apply, BinaryHeap.replaceTop, hn] at ha
    obtain ⟨x, rest, hd⟩ := exists_cons_of_ne_nil hne
    obtain ⟨t, ht, hwf', hp⟩ := hwf.replaceTop (fun _ _ _ _ => rfl) hw hne v
    cases ha.symm.trans ht
    refine ⟨hw, hwf', (Multiset.coe_eq_coe.mpr hp).trans ?_⟩
    simp [contents, BinaryHeap.top, hd]

end HeapOp

/-- A call on one of many heaps. -/
inductive HeapCall (α : Type)
  | onHeap (i : ℕ) (op : HeapOp α)
  | swap (i j : ℕ)

namespace HeapCall

open Function HeapOp

def step (s : ℕ → ComparingHeap α) : HeapCall α → Option (ℕ → ComparingHeap α)
  | onHeap i op => (op.apply (s i)).map fun h => update s i ⟨(s i).cmp, h⟩
  | swap i j => some (s ∘ Equiv.swap i j)

noncomputable def contents (s : ℕ → ComparingHeap α) (c : ℕ → Multiset α) : HeapCall α → ℕ → Multiset α
  | onHeap i op => update c i (op.contents (s i) (c i))
  | swap i j => c ∘ Equiv.swap i j

noncomputable def contentsAfter : (ℕ → ComparingHeap α) → (ℕ → Multiset α) → List (HeapCall α) → ℕ → Multiset α
  | _, c, [] => c
  | s, c, call :: calls => (call.step s).elim c fun s' => contentsAfter s' (call.contents s c) calls

variable {s s' : ℕ → ComparingHeap α} {c : ℕ → Multiset α}

theorem holds_step {call : HeapCall α} (h : ∀ i, Holds (s i) (c i)) (hs : step s call = some s') (j : ℕ) :
    Holds (s' j) (call.contents s c j) := by
  cases call with
  | onHeap i op =>
    obtain ⟨h', ha, rfl⟩ := Option.map_eq_some_iff.mp hs
    by_cases hj : j = i
    · subst hj
      simpa [contents] using (h j).apply ha
    · simpa [contents, hj] using h j
  | swap i k =>
    cases hs
    exact h _

theorem holds_run {calls : List (HeapCall α)} (h : ∀ i, Holds (s i) (c i)) (hr : Lib.run step s calls = some s')
    (i : ℕ) : Holds (s' i) (contentsAfter s c calls i) := by
  induction calls generalizing s c with
  | nil =>
    cases hr
    exact h i
  | cons call calls ih =>
    obtain ⟨t, ht, hr⟩ := Lib.run_cons.mp hr
    rw [contentsAfter, ht]
    exact ih (holds_step h ht) hr

/-- Whatever was called, the top of a heap is a greatest one of the elements pushed to it and not removed. -/
theorem top_greatest (cmp : ℕ → α → α → Bool) (hw : ∀ i, BinaryHeap.Weak (cmp i)) (calls : List (HeapCall α))
    (hrun : Lib.run step (fun i => ⟨cmp i, {}⟩) calls = some s) (i : ℕ) :
    let c := contentsAfter (fun i => ⟨cmp i, {}⟩) (fun _ => 0) calls i
    (s i).heap.data.length = c.card ∧ ((s i).heap.top = none ↔ c = 0) ∧
      ∀ t ∈ (s i).heap.top, t ∈ c ∧ ∀ x ∈ c, (s i).cmp t x = false := by
  have h := holds_run (c := fun _ => 0) (fun i => ⟨hw i, BinaryHeap.wf_empty, rfl⟩) hrun i
  intro c
  rw [show c = (s i).heap.data from h.data.symm]
  refine ⟨rfl, ?_, fun t ht => ⟨mem_of_mem_head? ht, fun x hx => h.wf.cmp_top h.weak ht hx⟩⟩
  rw [BinaryHeap.top, head?_eq_none_iff, Multiset.coe_eq_zero]

def swappedCalls : List (HeapCall ℕ) := [.onHeap 0 (.push 3), .onHeap 0 (.push 7), .swap 0 1]

theorem top_greatest_swapped : ∃ s, Lib.run step (fun _ => ⟨fun a b : ℕ => a < b, {}⟩) swappedCalls = some s ∧
    (s 1).heap.data.length = 2 := by
  refine ⟨_, rfl, (top_greatest (fun _ a b => a < b) (fun _ => ⟨fun a b => ?_, fun a b c => ?_⟩) swappedCalls rfl 1).1⟩
  · simpa using Nat.le_of_lt
  · simpa using fun hba hcb => Nat.le_trans hcb hba

end HeapCall

end ZenFSPlus.Util
