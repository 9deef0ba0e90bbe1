import Mathlib.Data.List.Find
import Mathlib.Order.WithBot
import ZenFSPlus.Lib.Cursor
import ZenFSPlus.Lib.Run
import ZenFSPlus.Util.Heap

/-!
`table/merging_iterator.cc` over children that are exact cursors, so that their status is always OK. The heaps
hold the numbers of the children.
-/

namespace ZenFSPlus.Table

open Lib ZenFSPlus.Util List Function

inductive Direction
  | forward
  | reverse
  deriving DecidableEq

structure MergingIterator (κ ν : Type) where
  /-- The number of children. -/
  n : ℕ
  prefixSeekMode : Bool
  children : ℕ → Cursor κ ν
  direction : Direction := .forward
  current : Option ℕ := none
  minHeap : BinaryHeap ℕ := {}
  /-- `none` until `InitMaxHeap`. -/
  maxHeap : Option (BinaryHeap ℕ) := none

variable {κ ν : Type} [LinearOrder κ]

def keyOf (children : ℕ → Cursor κ ν) (i : ℕ) : WithBot κ :=
  match (children i).cur with
  | some e => e.1
  | none => ⊥

def minIteratorComparator (children : ℕ → Cursor κ ν) (a b : ℕ) : Bool :=
  decide (keyOf children b < keyOf children a)

def maxIteratorComparator (children : ℕ → Cursor κ ν) (a b : ℕ) : Bool :=
  decide (keyOf children a < keyOf children b)

def addToHeapOrCheckStatus (cmp : (ℕ → Cursor κ ν) → ℕ → ℕ → Bool) (children : ℕ → Cursor κ ν)
    (heap : BinaryHeap ℕ) (i : ℕ) : BinaryHeap ℕ :=
  if (children i).valid then heap.push (cmp children) i else heap

def moveChildren (cmp : (ℕ → Cursor κ ν) → ℕ → ℕ → Bool) (move : ℕ → Cursor κ ν → Cursor κ ν)
    (children : ℕ → Cursor κ ν) : ℕ → (ℕ → Cursor κ ν) × BinaryHeap ℕ
  | 0 => (children, {})
  | i + 1 =>
    let r := moveChildren cmp move children i
    let children := update r.1 i (move i (r.1 i))
    (children, addToHeapOrCheckStatus cmp children r.2 i)

def settleTop (cmp : (ℕ → Cursor κ ν) → ℕ → ℕ → Bool) (children : ℕ → Cursor κ ν) (heap : BinaryHeap ℕ) (i : ℕ) :
    Option (BinaryHeap ℕ) :=
  if (children i).valid then heap.replaceTop (cmp children) i else heap.pop (cmp children)

namespace MergingIterator

variable (s : MergingIterator κ ν)

def entry : Option (κ × ν) := s.current.bind fun i => (s.children i).cur

def moveForward (move : ℕ → Cursor κ ν → Cursor κ ν) : MergingIterator κ ν :=
  let r := moveChildren minIteratorComparator move s.children s.n
  { s with
    children := r.1
    minHeap := r.2
    maxHeap := s.maxHeap.map fun _ => {}
    direction := .forward }

def moveReverse (move : ℕ → Cursor κ ν → Cursor κ ν) : MergingIterator κ ν :=
  let r := moveChildren maxIteratorComparator move s.children s.n
  { s with
    children := r.1
    minHeap := {}
    maxHeap := some r.2
    direction := .reverse }

def currentForward : Option ℕ := s.minHeap.top

def currentReverse : Option ℕ := s.maxHeap.bind BinaryHeap.top

def setCurrentForward : MergingIterator κ ν := { s with current := s.currentForward }

def setCurrentReverse : MergingIterator κ ν := { s with current := s.currentReverse }

def seekToFirst : MergingIterator κ ν := (s.moveForward fun _ c => c.seekToFirst).setCurrentForward

def seekToLast : MergingIterator κ ν := (s.moveReverse fun _ c => c.seekToLast).setCurrentReverse

def seek (target : κ) : MergingIterator κ ν := (s.moveForward fun _ c => c.seek target).setCurrentForward

def seekForPrev (target : κ) : MergingIterator κ ν :=
  (s.moveReverse fun _ c => c.seekForPrev target).setCurrentReverse

def switchToForward (target : κ) : MergingIterator κ ν :=
  s.moveForward fun i c =>
    if some i = s.current then c
    else
      let c := c.seek target
      if c.cur.map Prod.fst = some target then c.next else c

/-- `none` if the assertion at the end fails. -/
def switchToBackward (target : κ) : Option (MergingIterator κ ν) :=
  let t := s.moveReverse fun i c =>
    if some i = s.current then c
    else
      let c := c.seekForPrev target
      if c.cur.map Prod.fst = some target then c.prev else c
  let t := if t.prefixSeekMode then t else t.setCurrentReverse
  if t.current = t.currentReverse then some t else none

/-- The second part of `Next`: the current child moves on. `none` if an assertion fails. -/
def advanceForward : Option (MergingIterator κ ν) := do
  let i ← s.current
  if s.currentForward = some i then
    let children := update s.children i (s.children i).next
    let heap ← settleTop minIteratorComparator children s.minHeap i
    some (setCurrentForward { s with children := children, minHeap := heap })
  else none

def advanceReverse : Option (MergingIterator κ ν) := do
  let i ← s.current
  let maxHeap ← s.maxHeap
  if s.currentReverse = some i then
    let children := update s.children i (s.children i).prev
    let heap ← settleTop maxIteratorComparator children maxHeap i
    some (setCurrentReverse { s with children := children, maxHeap := some heap })
  else none

/-- `none` if the iterator is not valid or another assertion fails. -/
def next : Option (MergingIterator κ ν) := do
  let e ← s.entry
  if s.direction = .forward then s.advanceForward else (s.switchToForward e.1).advanceForward

def prev : Option (MergingIterator κ ν) := do
  let e ← s.entry
  if s.direction = .reverse then s.advanceReverse
  else
    let t ← s.switchToBackward e.1
    t.advanceReverse

def step : CursorOp κ → Option (MergingIterator κ ν)
  | .seekToFirst => some s.seekToFirst
  | .seekToLast => some s.seekToLast
  | .seek target => some (s.seek target)
  | .seekForPrev target => some (s.seekForPrev target)
  | .next => s.next
  | .prev => s.prev

end MergingIterator

/-- One of the two directions: which of two keys comes first, the entries in that order, and the order of the
heap. -/
structure Side (κ ν : Type) [LinearOrder κ] where
  before : κ → κ → Bool
  list : List (κ × ν) → List (κ × ν)
  cmp : (ℕ → Cursor κ ν) → ℕ → ℕ → Bool
  asymm : ∀ a b, before a b = true → ¬ before b a = true
  trans : ∀ a b c, before a b = true → before b c = true → before a c = true
  total : ∀ a b, a ≠ b → before a b = true ∨ before b a = true
  mem_list : ∀ l e, e ∈ list l ↔ e ∈ l
  sorted : ∀ l, l.Pairwise (fun e e' => e.1 < e'.1) → (list l).Pairwise fun e e' => before e.1 e'.1 = true
  weak : ∀ children, BinaryHeap.Weak (cmp children)
  cmp_congr : ∀ children children' i j, (children i).cur = (children' i).cur →
    (children j).cur = (children' j).cur → cmp children i j = cmp children' i j
  cmp_iff : ∀ children i j e e', (children i).cur = some e → (children j).cur = some e' →
    (cmp children i j = true ↔ before e'.1 e.1 = true)

omit [LinearOrder κ] in
theorem keyOf_congr {children cs' : ℕ → Cursor κ ν} {i : ℕ}
    (h : (children i).cur = (cs' i).cur) : keyOf children i = keyOf cs' i := by
  unfold keyOf
  rw [h]

omit [LinearOrder κ] in
theorem keyOf_eq {children : ℕ → Cursor κ ν} {i : ℕ} {e : κ × ν} (h : (children i).cur = some e) :
    keyOf children i = (e.1 : WithBot κ) := by
  unfold keyOf
  rw [h]

namespace Side

def forward : Side κ ν where
  before a b := decide (a < b)
  list l := l
  cmp := minIteratorComparator
  asymm a b h h' := lt_asymm (of_decide_eq_true h) (of_decide_eq_true h')
  trans a b c h h' := decide_eq_true (lt_trans (of_decide_eq_true h) (of_decide_eq_true h'))
  total a b h := (lt_or_gt_of_ne h).imp decide_eq_true decide_eq_true
  mem_list l e := Iff.rfl
  sorted l h := h.imp decide_eq_true
  weak children := by
    constructor
    · intro a b h
      exact decide_eq_false (lt_asymm (of_decide_eq_true h))
    · intro a b c h h'
      exact decide_eq_false (not_lt.mpr ((not_lt.mp (of_decide_eq_false h)).trans (not_lt.mp (of_decide_eq_false h'))))
  cmp_congr children children' i j hi hj := by
    unfold minIteratorComparator
    rw [keyOf_congr hi, keyOf_congr hj]
  cmp_iff children i j e e' hi hj := by
    unfold minIteratorComparator
    rw [keyOf_eq hi, keyOf_eq hj, decide_eq_true_iff, decide_eq_true_iff, WithBot.coe_lt_coe]

def reverse : Side κ ν where
  before a b := decide (b < a)
  list l := l.reverse
  cmp := maxIteratorComparator
  asymm a b h h' := lt_asymm (of_decide_eq_true h) (of_decide_eq_true h')
  trans a b c h h' := decide_eq_true (lt_trans (of_decide_eq_true h') (of_decide_eq_true h))
  total a b h := (lt_or_gt_of_ne h).symm.imp decide_eq_true decide_eq_true
  mem_list l e := mem_reverse
  sorted l h := pairwise_reverse.mpr (h.imp decide_eq_true)
  weak children := by
    constructor
    · intro a b h
      exact decide_eq_false (lt_asymm (of_decide_eq_true h))
    · intro a b c h h'
      exact decide_eq_false (not_lt.mpr ((not_lt.mp (of_decide_eq_false h')).trans (not_lt.mp (of_decide_eq_false h))))
  cmp_congr children children' i j hi hj := by
    unfold maxIteratorComparator
    rw [keyOf_congr hi, keyOf_congr hj]
  cmp_iff children i j e e' hi hj := by
    unfold maxIteratorComparator
    rw [keyOf_eq hi, keyOf_eq hj, decide_eq_true_iff, decide_eq_true_iff, WithBot.coe_lt_coe]

end Side

section

variable (S : Side κ ν) {n : ℕ} {es : ℕ → List (κ × ν)} {children : ℕ → Cursor κ ν} {heap : BinaryHeap ℕ}
  {p : κ → Bool} {i : ℕ} {e : κ × ν}

structure Positioned (n : ℕ) (entries : ℕ → List (κ × ν)) (p : κ → Bool) (children : ℕ → Cursor κ ν)
    (heap : BinaryHeap ℕ) : Prop where
  entries_eq : ∀ i < n, (children i).entries = entries i
  cur : ∀ i < n, (children i).cur = (S.list (entries i)).find? fun e => p e.1
  wf : heap.Wf (S.cmp children)
  nodup : heap.data.Nodup
  mem : ∀ i, i ∈ heap.data ↔ i < n ∧ (children i).valid = true

def Side.Closed (p : κ → Bool) : Prop := ∀ a b, S.before a b = true → p a = true → p b = true

variable {S}

theorem Positioned.top_mem (hp : Positioned S n es p children heap) (ht : heap.top = some i) :
    i < n ∧ ∃ e, (children i).cur = some e := by
  have hm := (hp.mem i).mp (mem_of_head? ht)
  exact ⟨hm.1, Option.isSome_iff_exists.mp hm.2⟩

theorem moveChildren_spec {move : ℕ → Cursor κ ν → Cursor κ ν} (he : ∀ i < n, (move i (children i)).entries = es i)
    (hc : ∀ i < n, (move i (children i)).cur = (S.list (es i)).find? fun e => p e.1) :
    let r := moveChildren S.cmp move children n
    Positioned S n es p r.1 r.2 := by
  have hl : ∀ m ≤ n, Positioned S m es p (moveChildren S.cmp move children m).1 (moveChildren S.cmp move children m).2 ∧
      ∀ i, m ≤ i → (moveChildren S.cmp move children m).1 i = children i := by
    intro m
    induction m with
    | zero =>
      intro _
      refine ⟨⟨nofun, nofun, BinaryHeap.wf_empty, nodup_nil, ?_⟩, fun _ _ => rfl⟩
      intro i
      simp [moveChildren]
    | succ m ih =>
      intro hm
      obtain ⟨hp, hrs⟩ := ih (by omega)
      set r := moveChildren S.cmp move children m with hr
      have hr' : moveChildren S.cmp move children (m + 1) = (update r.1 m (move m (r.1 m)),
            addToHeapOrCheckStatus S.cmp (update r.1 m (move m (r.1 m))) r.2 m) := rfl
      rw [hrs m (Nat.le_refl m)] at hr'
      rw [hr']
      dsimp only
      have ho {i : ℕ} (hi : i ≠ m) : update r.1 m (move m (children m)) i = r.1 i := update_of_ne hi _ _
      have hn : m ∉ r.2.data := fun hmm => Nat.lt_irrefl m ((hp.mem m).mp hmm).1
      have hwf : r.2.Wf (S.cmp (update r.1 m (move m (children m)))) := by
        refine hp.wf.congr fun a ha b hb => S.cmp_congr _ _ a b ?_ ?_
        · rw [ho fun h => hn (h ▸ ha)]
        · rw [ho fun h => hn (h ▸ hb)]
      refine ⟨⟨?_, ?_, ?_, ?_, ?_⟩, fun i hi => by rw [ho (by omega), hrs i (by omega)]⟩
      · intro i hi
        by_cases him : i = m
        · rw [him, update_self]
          exact he m (by omega)
        · rw [ho him]
          exact hp.entries_eq i (by omega)
      · intro i hi
        by_cases him : i = m
        · rw [him, update_self]
          exact hc m (by omega)
        · rw [ho him]
          exact hp.cur i (by omega)
      · unfold addToHeapOrCheckStatus
        split
        · exact hwf.push (S.weak _) m
        · exact hwf
      · unfold addToHeapOrCheckStatus
        split
        · exact (BinaryHeap.push_perm r.2 m).nodup_iff.mpr (nodup_cons.mpr ⟨hn, hp.nodup⟩)
        · exact hp.nodup
      · intro i
        unfold addToHeapOrCheckStatus
        by_cases him : i = m
        · subst him
          rw [update_self]
          split
          · rename_i hv
            simp [(BinaryHeap.push_perm r.2 i).mem_iff, hv]
          · rename_i hv
            simp [hn, hv]
        · have hmm := hp.mem i
          rw [ho him]
          split
          · rw [(BinaryHeap.push_perm r.2 m).mem_iff, mem_cons, hmm]
            constructor
            · rintro (h | h)
              · exact absurd h him
              · exact ⟨by omega, h.2⟩
            · exact fun h => .inr ⟨by omega, h.2⟩
          · rw [hmm]
            constructor
            · exact fun h => ⟨by omega, h.2⟩
            · exact fun h => ⟨by omega, h.2⟩
  exact (hl n (Nat.le_refl n)).1

section

variable (h : Apart n es) (hp : Positioned S n es p children heap)

include h hp

theorem Positioned.first (hi : i < n) : (children i).cur = some e ↔ e ∈ es i ∧ p e.1 = true ∧
      ∀ e' ∈ es i, p e'.1 = true → e' = e ∨ S.before e.1 e'.1 = true := by
  rw [hp.cur i hi, find?_eq_some_iff_first S.asymm (S.sorted _ (h.sorted i hi))]
  simp only [S.mem_list]

theorem Positioned.top_first (ht : heap.top = some i) (he : (children i).cur = some e) {j : ℕ} (hj : j < n)
    {e' : κ × ν} (hm : e' ∈ es j) (hp' : p e'.1 = true) : e' = e ∨ S.before e.1 e'.1 = true := by
  have hi := (hp.top_mem ht).1
  obtain ⟨f, hf⟩ : ∃ f, (children j).cur = some f := by
    rw [hp.cur j hj, ← Option.isSome_iff_exists, find?_isSome]
    exact ⟨e', (S.mem_list _ _).mpr hm, hp'⟩
  have hjm : j ∈ heap.data := (hp.mem j).mpr ⟨hj, by rw [Cursor.valid, hf]; rfl⟩
  have hc := hp.wf.cmp_top (S.weak children) ht hjm
  have hn : ¬ S.before f.1 e.1 = true := by
    rw [← S.cmp_iff children i j e f he hf, hc]
    exact Bool.false_ne_true
  have hef : f = e ∨ S.before e.1 f.1 = true := by
    by_cases hij : i = j
    · subst hij
      rw [he] at hf
      exact .inl (Option.some.inj hf).symm
    · have hne : e.1 ≠ f.1 := h.distinct i hi j hj hij e ((hp.first h hi).mp he).1 f ((hp.first h hj).mp hf).1
      exact .inr ((S.total _ _ hne).resolve_right hn)
  rcases ((hp.first h hj).mp hf).2.2 e' hm hp' with rfl | hb
  · exact hef
  · rcases hef with rfl | hef
    · exact .inr hb
    · exact .inr (S.trans _ _ _ hef hb)

theorem Positioned.top_eq :
    (heap.top.bind fun i => (children i).cur) = (S.list (merged n es)).find? fun e => p e.1 := by
  cases ht : heap.top with
  | none =>
    symm
    rw [Option.bind_none, find?_eq_none]
    intro e he hpe
    obtain ⟨i, hi, hm⟩ := mem_merged.mp ((S.mem_list _ _).mp he)
    have hs : (children i).valid = true := by
      rw [Cursor.valid, hp.cur i hi, find?_isSome]
      exact ⟨e, (S.mem_list _ _).mpr hm, hpe⟩
    have hd : heap.data = [] := head?_eq_none_iff.mp ht
    have := (hp.mem i).mpr ⟨hi, hs⟩
    simp [hd] at this
  | some i =>
    obtain ⟨hi, e, he⟩ := hp.top_mem ht
    symm
    rw [Option.bind_some, he, find?_eq_some_iff_first S.asymm (S.sorted _ h.sorted_merged)]
    obtain ⟨hm, hpe, -⟩ := (hp.first h hi).mp he
    refine ⟨(S.mem_list _ _).mpr (mem_merged.mpr ⟨i, hi, hm⟩), hpe, fun e' he' hp' => ?_⟩
    obtain ⟨j, hj, hm'⟩ := mem_merged.mp ((S.mem_list _ _).mp he')
    exact hp.top_first h ht he hj hm' hp'

theorem Positioned.advance (hcl : S.Closed p) (ht : heap.top = some i) (he : (children i).cur = some e)
    {c : Cursor κ ν} (hc : c.entries = es i)
    (hcr : c.cur = (S.list (es i)).find? fun e' => S.before e.1 e'.1) :
    ∃ heap', settleTop S.cmp (update children i c) heap i = some heap' ∧
      Positioned S n es (S.before e.1) (update children i c) heap' := by
  obtain ⟨hi, -⟩ := hp.top_mem ht
  have hei := (hp.first h hi).mp he
  have ho {j : ℕ} (hj : j ≠ i) : update children i c j = children j := update_of_ne hj _ _
  have hcr' (j : ℕ) (hj : j < n) : (update children i c j).cur = (S.list (es j)).find? fun e' => S.before e.1 e'.1 := by
    by_cases hji : j = i
    · rw [hji, update_self]
      exact hcr
    -- the other lists have no entry between, nor the key itself
    rw [ho hji, hp.cur j hj]
    refine find?_congr fun e' he' => ?_
    have hm := (S.mem_list _ _).mp he'
    rw [Bool.eq_iff_iff]
    constructor
    · intro hp'
      rcases hp.top_first h ht he hj hm hp' with rfl | hbf
      · exact absurd rfl (h.distinct i hi j hj (Ne.symm hji) e' hei.1 e' hm)
      · exact hbf
    · exact fun hbf => hcl _ _ hbf hei.2.1
  obtain ⟨rest, hd⟩ : ∃ rest, heap.data = i :: rest := head?_eq_some_iff.mp ht
  have hn := hp.nodup
  rw [hd, nodup_cons] at hn
  have har : ∀ a ∈ heap.data.tail, ∀ b ∈ heap.data.tail, S.cmp (update children i c) a b = S.cmp children a b := by
    rw [hd]
    intro a ha b hb
    refine S.cmp_congr _ _ a b ?_ ?_
    · rw [ho fun h => hn.1 (h ▸ ha)]
    · rw [ho fun h => hn.1 (h ▸ hb)]
  have hne : heap.data ≠ [] := by simp [hd]
  have hen (j : ℕ) (hj : j < n) : (update children i c j).entries = es j := by
    by_cases hji : j = i
    · rw [hji, update_self]
      exact hc
    · rw [ho hji]
      exact hp.entries_eq j hj
  have hr (j : ℕ) : j ∈ rest ↔ j ≠ i ∧ j < n ∧ (children j).valid = true := by
    have := hp.mem j
    rw [hd, mem_cons] at this
    constructor
    · exact fun hj => ⟨fun h => hn.1 (h ▸ hj), this.mp (.inr hj)⟩
    · exact fun ⟨hji, hj⟩ => (this.mpr hj).resolve_left hji
  rw [settleTop, update_self]
  cases hv : c.valid with
  | true =>
    obtain ⟨heap', hrn, hwf, hpr⟩ := hp.wf.replaceTop har (S.weak _) hne i
    rw [hd, tail_cons] at hpr
    refine ⟨heap', by rw [if_pos rfl]; exact hrn, hen, hcr', hwf, ?_, ?_⟩
    · exact hpr.nodup_iff.mpr (nodup_cons.mpr hn)
    · intro j
      rw [hpr.mem_iff, mem_cons, hr]
      by_cases hji : j = i
      · subst hji
        simp [hi, hv]
      · simp [hji]
  | false =>
    obtain ⟨heap', hrn, hwf, hpr⟩ := hp.wf.pop har (S.weak _) hne
    rw [hd, tail_cons] at hpr
    refine ⟨heap', by rw [if_neg Bool.false_ne_true]; exact hrn, hen, hcr', hwf, ?_, ?_⟩
    · exact hpr.nodup_iff.mpr hn.2
    · intro j
      rw [hpr.mem_iff, hr]
      by_cases hji : j = i
      · subst hji
        simp [hv]
      · simp [hji]

theorem Positioned.top_of_mem (hi : i < n) (he : (children i).cur = some e)
    (hl : ∀ j < n, ∀ e' ∈ es j, p e'.1 = true → ¬ S.before e'.1 e.1 = true) :
    heap.top = some i := by
  have hm : i ∈ heap.data := (hp.mem i).mpr ⟨hi, by rw [Cursor.valid, he]; rfl⟩
  obtain ⟨t, rest, hd⟩ := exists_cons_of_ne_nil (ne_nil_of_mem hm)
  have ht : heap.top = some t := by rw [BinaryHeap.top, hd, head?_cons]
  obtain ⟨htn, f, hf⟩ := hp.top_mem ht
  have hei := (hp.first h hi).mp he
  have hft := (hp.first h htn).mp hf
  rcases hp.top_first h ht hf hi hei.1 hei.2.1 with rfl | hb
  · by_cases hti : t = i
    · rw [ht, hti]
    · exact absurd rfl (h.distinct t htn i hi hti e hft.1 e hei.1)
  · exact absurd hb (hl t htn f hft.1 hft.2.1)

end

end

end ZenFSPlus.Table
