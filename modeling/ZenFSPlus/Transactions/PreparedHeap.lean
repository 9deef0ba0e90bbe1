import Mathlib.Data.List.Sort
import ZenFSPlus.Transactions.CommitEntry

/-!
`PreparedHeap`: a queue of ascending prepare sequence numbers that drops an erased element when it comes to the front.
-/

namespace ZenFSPlus.Transactions

open List

structure PreparedHeap where
  heap : List ℕ := []
  /-- The priority queue, smallest first. -/
  erasedHeap : List ℕ := []
  heapTop : ℕ := kMaxSequenceNumber
  heapTop_eq : heapTop = heap.headD kMaxSequenceNumber := by rfl

namespace PreparedHeap

def top (h : PreparedHeap) : ℕ := h.heapTop

def empty (h : PreparedHeap) : Bool := h.top == kMaxSequenceNumber

def push (h : PreparedHeap) (v : ℕ) : PreparedHeap where
  heap := h.heap ++ [v]
  erasedHeap := h.erasedHeap
  heapTop := if h.heap.isEmpty then v else h.heapTop
  heapTop_eq := by
    have := h.heapTop_eq
    cases hh : h.heap with
    | nil => rfl
    | cons x heap => simpa [hh] using this

def dropErased : List ℕ → List ℕ → List ℕ × List ℕ
  | heap, [] => (heap, [])
  | [], erased :: erasedHeap => ([], erased :: erasedHeap)
  | front :: heap, erased :: erasedHeap =>
    if erased ≤ front then dropErased (if front = erased then heap else front :: heap) erasedHeap
    else (front :: heap, erased :: erasedHeap)

def pop (h : PreparedHeap) : PreparedHeap where
  heap := (dropErased h.heap.tail h.erasedHeap).1
  erasedHeap :=
    if (dropErased h.heap.tail h.erasedHeap).1.isEmpty then [] else (dropErased h.heap.tail h.erasedHeap).2
  heapTop := (dropErased h.heap.tail h.erasedHeap).1.headD kMaxSequenceNumber

def erase (h : PreparedHeap) (seq : ℕ) : PreparedHeap :=
  if h.empty then h
  else if seq < h.top then h
  else if h.top = seq then h.pop
  else { h with erasedHeap := h.erasedHeap.orderedInsert (· ≤ ·) seq }

def Mem (h : PreparedHeap) (x : ℕ) : Prop := x ∈ h.heap ∧ x ∉ h.erasedHeap

structure Queue (heap erasedHeap : List ℕ) : Prop where
  sorted : heap.Pairwise (· < ·)
  erased_sorted : erasedHeap.Pairwise (· ≤ ·)
  erased_nodup : erasedHeap.Nodup
  erased_subset : ∀ e ∈ erasedHeap, e ∈ heap

structure WellFormed (h : PreparedHeap) : Prop extends Queue h.heap h.erasedHeap where
  front_not_erased : ∀ f ∈ h.heap.head?, f ∉ h.erasedHeap
  lt_max : ∀ x ∈ h.heap, x < kMaxSequenceNumber

variable {h : PreparedHeap} {x v : ℕ}

structure Dropped (heap erasedHeap heap' erasedHeap' : List ℕ) : Prop extends Queue heap' erasedHeap' where
  front_not_erased : ∀ f ∈ heap'.head?, f ∉ erasedHeap'
  sublist : heap'.Sublist heap
  mem_iff : ∀ x, x ∈ heap' ∧ x ∉ erasedHeap' ↔ x ∈ heap ∧ x ∉ erasedHeap

theorem dropped_dropErased {heap eh : List ℕ} (hq : Queue heap eh) :
    let r := dropErased heap eh
    Dropped heap eh r.1 r.2 := by
  induction eh generalizing heap with
  | nil =>
    have hnl : dropErased heap [] = (heap, []) := by cases heap <;> rfl
    rw [hnl]
    exact ⟨hq, fun _ _ => not_mem_nil, Sublist.refl _, fun _ => Iff.rfl⟩
  | cons e eh ih =>
    have hm := hq.erased_subset e (mem_cons_self ..)
    cases heap with
    | nil => cases hm
    | cons f heap =>
      obtain ⟨hf, hs⟩ := pairwise_cons.mp hq.sorted
      obtain ⟨he, hes⟩ := pairwise_cons.mp hq.erased_sorted
      obtain ⟨hne, hn⟩ := nodup_cons.mp hq.erased_nodup
      by_cases hle : e ≤ f
      · have heq : f = e := by
          rcases mem_cons.mp hm with h | h
          · exact h.symm
          · have := hf e h
            omega
        subst heq
        have hst : dropErased (f :: heap) (f :: eh) = dropErased heap eh := by
          simp [dropErased]
        have hq' : Queue heap eh := by
          refine ⟨hs, hes, hn, fun x hx => ?_⟩
          have hxf : x ≠ f := fun h => hne (h ▸ hx)
          exact mem_of_ne_of_mem hxf (hq.erased_subset x (mem_cons_of_mem _ hx))
        obtain ⟨hqu, hfr, hsb, hi⟩ := ih hq'
        rw [hst]
        refine ⟨hqu, hfr, hsb.cons _, fun x => (hi x).trans ?_⟩
        constructor
        · rintro ⟨hx, hxe⟩
          have hxf : x ≠ f := ne_of_gt (hf x hx)
          exact ⟨mem_cons_of_mem _ hx, not_mem_cons_of_ne_of_not_mem hxf hxe⟩
        · rintro ⟨hx, hxe⟩
          obtain ⟨hxf, hxe⟩ := ne_and_not_mem_of_not_mem_cons hxe
          exact ⟨mem_of_ne_of_mem hxf hx, hxe⟩
      · have hst : dropErased (f :: heap) (e :: eh) = (f :: heap, e :: eh) := by
          simp [dropErased, hle]
        rw [hst]
        refine ⟨hq, ?_, Sublist.refl _, fun _ => Iff.rfl⟩
        intro g hg hm
        cases hg
        rcases mem_cons.mp hm with h | h
        · omega
        · have := he f h
          omega

theorem WellFormed.init : WellFormed {} := ⟨⟨Pairwise.nil, Pairwise.nil, nodup_nil, nofun⟩, nofun, nofun⟩

theorem WellFormed.empty_iff (hw : WellFormed h) : h.empty = true ↔ h.heap = [] := by
  unfold empty top
  rw [h.heapTop_eq, beq_iff_eq]
  cases hh : h.heap with
  | nil => simp
  | cons f heap =>
    have := hw.lt_max f (hh ▸ mem_cons_self ..)
    simp only [headD_cons, reduceCtorEq, iff_false]
    omega

variable {heap : List ℕ}

theorem top_cons {f : ℕ} (hh : h.heap = f :: heap) : h.top = f := by
  rw [top, h.heapTop_eq, hh, headD_cons]

section

variable (hw : WellFormed h)

include hw

theorem WellFormed.top_le (hx : x ∈ h.heap) : h.top ≤ x := by
  cases hh : h.heap with
  | nil =>
    rw [hh] at hx
    cases hx
  | cons f heap =>
    rw [top_cons hh]
    rw [hh] at hx
    rcases mem_cons.mp hx with rfl | hx
    · exact le_rfl
    · exact le_of_lt ((pairwise_cons.mp (hh ▸ hw.sorted)).1 x hx)

theorem WellFormed.mem_top {f : ℕ} (hh : h.heap = f :: heap) : h.Mem f :=
  ⟨hh ▸ mem_cons_self .., hw.front_not_erased f (hh ▸ rfl)⟩

theorem WellFormed.push (hv : ∀ x ∈ h.heap, x < v) (hmx : v < kMaxSequenceNumber) :
    WellFormed (h.push v) ∧ ∀ x, (h.push v).Mem x ↔ h.Mem x ∨ x = v := by
  have hve : v ∉ h.erasedHeap := by
    intro hm
    exact lt_irrefl _ (hv v (hw.erased_subset v hm))
  refine ⟨⟨⟨?_, hw.erased_sorted, hw.erased_nodup, ?_⟩, ?_, ?_⟩, ?_⟩
  · apply pairwise_append.mpr
    refine ⟨hw.sorted, pairwise_singleton _ _, fun x hx y hy => ?_⟩
    rw [mem_singleton.mp hy]
    exact hv x hx
  · intro e he
    exact mem_append_left _ (hw.erased_subset e he)
  · intro f hf
    have hfr := hw.front_not_erased
    cases hh : h.heap with
    | nil =>
      simp only [PreparedHeap.push, hh, nil_append, head?_cons, Option.mem_some_iff] at hf
      exact hf ▸ hve
    | cons y heap =>
      simp only [PreparedHeap.push, hh, cons_append, head?_cons, Option.mem_some_iff] at hf
      exact hfr f (by rw [hh, ← hf]; rfl)
  · intro x hx
    rcases mem_append.mp hx with hx | hx
    · exact hw.lt_max x hx
    · rw [mem_singleton.mp hx]
      exact hmx
  · intro x
    simp only [Mem, PreparedHeap.push, mem_append, mem_singleton]
    constructor
    · rintro ⟨hx | hx, hxe⟩
      · exact .inl ⟨hx, hxe⟩
      · exact .inr hx
    · rintro (⟨hx, hxe⟩ | rfl)
      · exact ⟨.inl hx, hxe⟩
      · exact ⟨.inr rfl, hve⟩

theorem WellFormed.pop {f : ℕ} (hh : h.heap = f :: heap) :
    WellFormed h.pop ∧ h.pop.heap.length < h.heap.length ∧ (∀ x ∈ h.pop.heap, x ∈ h.heap) ∧
      ∀ x, h.pop.Mem x ↔ h.Mem x ∧ x ≠ f := by
  have hfe := hw.front_not_erased f (hh ▸ rfl)
  obtain ⟨hf, hs⟩ := pairwise_cons.mp (hh ▸ hw.sorted)
  have hq : Queue h.heap.tail h.erasedHeap := by
    rw [hh, tail_cons]
    refine ⟨hs, hw.erased_sorted, hw.erased_nodup, fun e he => ?_⟩
    have hef : e ≠ f := fun heq => hfe (heq ▸ he)
    exact mem_of_ne_of_mem hef (hh ▸ hw.erased_subset e he)
  have hd := dropped_dropErased hq
  -- with nothing left in the heap, nothing erased is left
  have hes : h.pop.erasedHeap = (dropErased h.heap.tail h.erasedHeap).2 := by
    simp only [PreparedHeap.pop]
    split
    · rename_i hep
      rw [List.isEmpty_iff] at hep
      symm
      apply eq_nil_iff_forall_not_mem.mpr
      intro e he
      have := hd.erased_subset e he
      rw [hep] at this
      cases this
    · rfl
  have hsb : ∀ x ∈ h.pop.heap, x ∈ h.heap := by
    intro x hx
    exact mem_of_mem_tail (hd.sublist.subset hx)
  refine ⟨⟨?_, ?_, ?_⟩, ?_, hsb, ?_⟩
  · rw [hes]
    exact hd.toQueue
  · rw [hes]
    exact hd.front_not_erased
  · intro x hx
    exact hw.lt_max x (hsb x hx)
  · have hl : h.pop.heap.length ≤ h.heap.tail.length := hd.sublist.length_le
    rw [hh, tail_cons] at hl
    rw [hh, length_cons]
    exact Nat.lt_succ_of_le hl
  · intro x
    have hi := hd.mem_iff x
    unfold Mem
    rw [hes]
    refine hi.trans ?_
    rw [hh, tail_cons, mem_cons]
    constructor
    · rintro ⟨hx, hxe⟩
      exact ⟨⟨.inr hx, hxe⟩, ne_of_gt (hf x hx)⟩
    · rintro ⟨⟨hx | hx, hxe⟩, hne⟩
      · exact absurd hx hne
      · exact ⟨hx, hxe⟩

theorem WellFormed.erase {seq : ℕ} (hsq : h.Mem seq ∨ ∀ x ∈ h.heap, seq < x) :
    WellFormed (h.erase seq) ∧ (∀ x ∈ (h.erase seq).heap, x ∈ h.heap) ∧
      ∀ x, (h.erase seq).Mem x ↔ h.Mem x ∧ x ≠ seq := by
  have hsame (hl : ∀ x ∈ h.heap, seq < x) : ∀ x, h.Mem x ↔ h.Mem x ∧ x ≠ seq := by
    intro x
    constructor
    · intro hx
      exact ⟨hx, ne_of_gt (hl x hx.1)⟩
    · exact And.left
  by_cases hn : h.heap = []
  · rw [PreparedHeap.erase, if_pos (hw.empty_iff.mpr hn)]
    exact ⟨hw, fun _ => id, hsame (by rw [hn]; nofun)⟩
  obtain ⟨f, heap, hh⟩ := exists_cons_of_ne_nil hn
  unfold PreparedHeap.erase
  have hne : ¬ h.empty = true := by
    rw [hw.empty_iff, hh]
    nofun
  rw [if_neg hne, top_cons hh]
  by_cases hlt : seq < f
  · rw [if_pos hlt]
    refine ⟨hw, fun _ => id, hsame fun x hx => lt_of_lt_of_le hlt ?_⟩
    exact top_cons hh ▸ hw.top_le hx
  have hm : h.Mem seq := by
    rcases hsq with hm | hl
    · exact hm
    · exact absurd (hl f (hh ▸ mem_cons_self ..)) hlt
  rw [if_neg hlt]
  by_cases heq : f = seq
  · rw [if_pos heq, ← heq]
    obtain ⟨hwf, -, hs, hi⟩ := hw.pop hh
    exact ⟨hwf, hs, hi⟩
  rw [if_neg heq]
  have hp := perm_orderedInsert (· ≤ ·) seq h.erasedHeap
  refine ⟨⟨⟨hw.sorted, ?_, ?_, ?_⟩, ?_, hw.lt_max⟩, fun _ => id, ?_⟩
  · exact hw.erased_sorted.orderedInsert seq _
  · exact hp.nodup_iff.mpr (nodup_cons.mpr ⟨hm.2, hw.erased_nodup⟩)
  · intro e he
    rcases mem_cons.mp (hp.mem_iff.mp he) with rfl | he
    · exact hm.1
    · exact hw.erased_subset e he
  · intro g hg hge
    rcases mem_cons.mp (hp.mem_iff.mp hge) with rfl | hge
    · rw [hh] at hg
      exact heq (Option.some.inj hg)
    · exact hw.front_not_erased g hg hge
  · intro x
    unfold Mem
    simp only [hp.mem_iff, mem_cons, not_or]
    tauto

end

/-- A run of the operations, with the values pushed and those popped or erased so far, the last one first. -/
inductive Run : PreparedHeap → List ℕ → List ℕ → Prop
  | init : Run {} [] []
  | push {h pushed removed v} : Run h pushed removed → (∀ x ∈ pushed, x < v) → Run (h.push v) (v :: pushed) removed
  | pop {h pushed removed} : Run h pushed removed → h.empty = false → Run h.pop pushed (h.top :: removed)
  | erase {h pushed removed seq} :
    Run h pushed removed → seq ∈ pushed → seq ∉ removed → Run (h.erase seq) pushed (seq :: removed)

variable {pushed removed : List ℕ}

theorem WellFormed.exists_cons (hw : WellFormed h) (hn : h.empty = false) : ∃ heap, h.heap = h.top :: heap := by
  have hne : h.heap ≠ [] := by
    intro hh
    rw [hw.empty_iff.mpr hh] at hn
    cases hn
  obtain ⟨f, heap, hh⟩ := exists_cons_of_ne_nil hne
  exact ⟨heap, top_cons hh ▸ hh⟩

theorem Run.wellFormed (hr : Run h pushed removed) (hmx : ∀ v ∈ pushed, v < kMaxSequenceNumber) :
    WellFormed h ∧ (∀ x ∈ h.heap, x ∈ pushed) ∧ (∀ x ∈ removed, x ∈ pushed) ∧
      ∀ x, h.Mem x ↔ x ∈ pushed ∧ x ∉ removed := by
  induction hr with
  | init => exact ⟨.init, fun _ => id, fun _ => id, fun x => by simp [Mem]⟩
  | @push h pushed removed v hr hv ih =>
    obtain ⟨hw, hs, hrm, hi⟩ := ih fun x hx => hmx x (mem_cons_of_mem _ hx)
    have hvr : v ∉ removed := fun hm => lt_irrefl _ (hv v (hrm v hm))
    obtain ⟨hwp, hip⟩ := hw.push (fun x hx => hv x (hs x hx)) (hmx v (mem_cons_self ..))
    refine ⟨hwp, fun x hx => ?_, fun x hx => mem_cons_of_mem _ (hrm x hx), fun x => ?_⟩
    · rcases mem_append.mp hx with hx | hx
      · exact mem_cons_of_mem _ (hs x hx)
      · exact mem_cons.mpr (.inl (mem_singleton.mp hx))
    · rw [hip, hi, mem_cons]
      constructor
      · rintro (⟨hx, hxr⟩ | rfl)
        · exact ⟨.inr hx, hxr⟩
        · exact ⟨.inl rfl, hvr⟩
      · rintro ⟨hx | hx, hxr⟩
        · exact .inr hx
        · exact .inl ⟨hx, hxr⟩
  | @pop h pushed removed hr hn ih =>
    obtain ⟨hw, hs, hrm, hi⟩ := ih hmx
    obtain ⟨heap, hh⟩ := hw.exists_cons hn
    obtain ⟨hwp, -, hsp, hip⟩ := hw.pop hh
    refine ⟨hwp, fun x hx => hs x (hsp x hx), ?_, fun x => ?_⟩
    · exact forall_mem_cons.mpr ⟨hs _ (hh ▸ mem_cons_self ..), hrm⟩
    · rw [hip, hi, mem_cons, not_or, and_comm (a := ¬ x = h.top), and_assoc]
  | @erase h pushed removed seq hr hm hne ih =>
    obtain ⟨hw, hs, hrm, hi⟩ := ih hmx
    obtain ⟨hwe, hse, hie⟩ := hw.erase (.inl ((hi seq).mpr ⟨hm, hne⟩))
    refine ⟨hwe, fun x hx => hs x (hse x hx), forall_mem_cons.mpr ⟨hm, hrm⟩, fun x => ?_⟩
    rw [hie, hi, mem_cons, not_or, and_comm (a := ¬ x = seq), and_assoc]

/-- With every pushed value below `kMaxSequenceNumber`, `empty` and `top` answer for the values not removed. -/
theorem Run.empty_iff_and_top (hr : Run h pushed removed) (hmx : ∀ v ∈ pushed, v < kMaxSequenceNumber) :
    (h.empty = true ↔ ∀ v ∈ pushed, v ∈ removed) ∧
      (h.empty = false → h.top ∈ pushed ∧ h.top ∉ removed ∧ ∀ v ∈ pushed, v ∉ removed → h.top ≤ v) := by
  obtain ⟨hw, hs, hrm, hi⟩ := hr.wellFormed hmx
  have hf (hn : h.empty = false) : h.top ∈ pushed ∧ h.top ∉ removed := by
    obtain ⟨heap, hh⟩ := hw.exists_cons hn
    exact (hi _).mp (hw.mem_top hh)
  refine ⟨⟨fun he v hv => ?_, fun ha => ?_⟩, fun hn => ⟨(hf hn).1, (hf hn).2, fun v hv hvr => ?_⟩⟩
  · by_contra hvr
    have hm := ((hi v).mpr ⟨hv, hvr⟩).1
    rw [hw.empty_iff.mp he] at hm
    cases hm
  · by_contra hn
    have hp := hf (Bool.eq_false_of_not_eq_true hn)
    exact hp.2 (ha _ hp.1)
  · exact hw.top_le ((hi v).mpr ⟨hv, hvr⟩).1

theorem Run.empty_iff_and_top_erased : let h := ((({} : PreparedHeap).push 3).push 7).erase 7
    (h.empty = true ↔ ∀ v ∈ [7, 3], v ∈ [7]) ∧
      (h.empty = false → h.top ∈ [7, 3] ∧ h.top ∉ [7] ∧ ∀ v ∈ [7, 3], v ∉ [7] → h.top ≤ v) :=
  Run.empty_iff_and_top (((Run.init.push (by decide)).push (by decide)).erase (by decide) (by decide)) (by decide)

theorem empty_of_push_kMaxSequenceNumber : let h := ({} : PreparedHeap).push kMaxSequenceNumber
    Run h [kMaxSequenceNumber] [] ∧ h.empty = true :=
  ⟨Run.init.push nofun, rfl⟩

end PreparedHeap

end ZenFSPlus.Transactions
