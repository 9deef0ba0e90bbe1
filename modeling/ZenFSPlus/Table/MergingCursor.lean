import ZenFSPlus.Table.MergingIterator

namespace ZenFSPlus.Table

open Lib ZenFSPlus.Util

variable {κ ν : Type} [LinearOrder κ] {n : ℕ} {es : ℕ → List (κ × ν)}

namespace MergingIterator

structure Forward (n : ℕ) (entries : ℕ → List (κ × ν)) (s : MergingIterator κ ν) : Prop where
  n_eq : s.n = n
  direction : s.direction = .forward
  current : s.current = s.currentForward
  positioned : ∃ p, Side.forward.Closed (ν := ν) p ∧ Positioned Side.forward n entries p s.children s.minHeap

structure Reverse (n : ℕ) (entries : ℕ → List (κ × ν)) (s : MergingIterator κ ν) : Prop where
  n_eq : s.n = n
  direction : s.direction = .reverse
  current : s.current = s.currentReverse
  positioned : ∃ heap p, s.maxHeap = some heap ∧ Side.reverse.Closed (ν := ν) p ∧
    Positioned Side.reverse n entries p s.children heap

structure Inv (n : ℕ) (entries : ℕ → List (κ × ν)) (s : MergingIterator κ ν) : Prop where
  n_eq : s.n = n
  entries_eq : ∀ i < n, (s.children i).entries = entries i
  side : s.current = none ∨ s.Forward n entries ∨ s.Reverse n entries

variable {s : MergingIterator κ ν} {p : κ → Bool} {e : κ × ν} {i : ℕ}

theorem Forward.inv (h : s.Forward n es) : s.Inv n es := by
  obtain ⟨p, -, hp⟩ := h.positioned
  exact ⟨h.n_eq, hp.entries_eq, .inr (.inl h)⟩

theorem Reverse.inv (h : s.Reverse n es) : s.Inv n es := by
  obtain ⟨heap, p, -, -, hp⟩ := h.positioned
  exact ⟨h.n_eq, hp.entries_eq, .inr (.inr h)⟩

omit [LinearOrder κ] in
theorem entry_eq_some : s.entry = some e ↔ ∃ i, s.current = some i ∧ (s.children i).cur = some e := by
  simp [entry, Option.bind_eq_some_iff]

theorem Inv.mem_entries (h : Apart n es) (hs : s.Inv n es) (hi : s.current = some i) :
    i < n ∧ ∃ e ∈ es i, (s.children i).cur = some e := by
  rcases hs.side with hn | hf | hr
  · rw [hi] at hn
    cases hn
  · obtain ⟨p, -, hp⟩ := hf.positioned
    have ht : s.minHeap.top = some i := hf.current.symm.trans hi
    obtain ⟨hin, e, he⟩ := hp.top_mem ht
    exact ⟨hin, e, ((hp.first h hin).mp he).1, he⟩
  · obtain ⟨heap, p, hh, -, hp⟩ := hr.positioned
    have ht : heap.top = some i := by
      have := hr.current.symm.trans hi
      rwa [currentReverse, hh] at this
    obtain ⟨hin, e, he⟩ := hp.top_mem ht
    exact ⟨hin, e, ((hp.first h hin).mp he).1, he⟩

section

variable {move : ℕ → Cursor κ ν → Cursor κ ν} (hs : s.Inv n es)
  (hmv : ∀ i c, (move i c).entries = c.entries)

include hs hmv

theorem moveForward_positioned (hc : ∀ i < n, (move i (s.children i)).cur = (es i).find? fun e => p e.1) :
    Positioned Side.forward n es p (s.moveForward move).children (s.moveForward move).minHeap := by
  have hen : ∀ i < n, (move i (s.children i)).entries = es i := fun i hi => (hmv i _).trans (hs.entries_eq i hi)
  have hsp := moveChildren_spec (S := Side.forward) hen hc
  rw [← hs.n_eq] at hsp ⊢
  exact hsp

theorem moveReverse_positioned (hc : ∀ i < n, (move i (s.children i)).cur = (es i).reverse.find? fun e => p e.1) :
    ∃ heap, (s.moveReverse move).maxHeap = some heap ∧
      Positioned Side.reverse n es p (s.moveReverse move).children heap := by
  have hen : ∀ i < n, (move i (s.children i)).entries = es i := fun i hi => (hmv i _).trans (hs.entries_eq i hi)
  have hsp := moveChildren_spec (S := Side.reverse) hen hc
  rw [← hs.n_eq] at hsp ⊢
  exact ⟨_, rfl, hsp⟩

theorem seek_forward (h : Apart n es) (hc : Side.forward.Closed (ν := ν) p)
    (hcr : ∀ i < n, (move i (s.children i)).cur = (es i).find? fun e => p e.1) :
    let r := (s.moveForward move).setCurrentForward
    r.Inv n es ∧ r.entry = (merged n es).find? fun e => p e.1 := by
  have hp := moveForward_positioned hs hmv hcr
  exact ⟨Forward.inv ⟨hs.n_eq, rfl, rfl, p, hc, hp⟩, hp.top_eq h⟩

theorem seek_reverse (h : Apart n es) (hc : Side.reverse.Closed (ν := ν) p)
    (hcr : ∀ i < n, (move i (s.children i)).cur = (es i).reverse.find? fun e => p e.1) :
    let r := (s.moveReverse move).setCurrentReverse
    r.Inv n es ∧ r.entry = (merged n es).reverse.find? fun e => p e.1 := by
  obtain ⟨heap, hh, hp⟩ := moveReverse_positioned hs hmv hcr
  refine ⟨Reverse.inv ⟨hs.n_eq, rfl, rfl, heap, p, hh, hc, hp⟩, ?_⟩
  have ht := hp.top_eq h
  rw [entry, setCurrentReverse, currentReverse, hh]
  exact ht

end

theorem Forward.advance (h : Apart n es) (hf : s.Forward n es) (he : s.entry = some e) :
    ∃ t, s.advanceForward = some t ∧ t.Inv n es ∧ t.entry = (merged n es).find? fun e' => e.1 < e'.1 := by
  obtain ⟨i, hi, hei⟩ := entry_eq_some.mp he
  obtain ⟨p, hc, hp⟩ := hf.positioned
  have ht : s.minHeap.top = some i := hf.current.symm.trans hi
  have hin := (hp.top_mem ht).1
  have hen : (s.children i).next.entries = es i := hp.entries_eq i hin
  have hcr : (s.children i).next.cur = (es i).find? fun e' => e.1 < e'.1 := by
    rw [Cursor.next, hei, hp.entries_eq i hin]
    rfl
  obtain ⟨heap, hh, hp'⟩ := hp.advance h hc ht hei hen hcr
  refine ⟨setCurrentForward { s with
    children := Function.update s.children i (s.children i).next, minHeap := heap }, ?_, ?_, ?_⟩
  · rw [advanceForward, hi]
    simp only [Option.bind_eq_bind, Option.bind_some, currentForward, ht, if_true]
    rw [show settleTop minIteratorComparator _ s.minHeap i = some heap from hh]
    rfl
  · refine Forward.inv ⟨hf.n_eq, hf.direction, rfl, _, ?_, hp'⟩
    exact fun a b hab ha => Side.forward.trans _ _ _ ha hab
  · exact hp'.top_eq h

theorem Reverse.advance (h : Apart n es) (hr : s.Reverse n es) (he : s.entry = some e) :
    ∃ t, s.advanceReverse = some t ∧ t.Inv n es ∧ t.entry = (merged n es).reverse.find? fun e' => e'.1 < e.1 := by
  obtain ⟨i, hi, hei⟩ := entry_eq_some.mp he
  obtain ⟨maxHeap, p, hm, hcl, hp⟩ := hr.positioned
  have hc : s.currentReverse = some i := hr.current.symm.trans hi
  have ht : maxHeap.top = some i := by rwa [currentReverse, hm] at hc
  have hin := (hp.top_mem ht).1
  have hen : (s.children i).prev.entries = es i := hp.entries_eq i hin
  have hcr : (s.children i).prev.cur = (es i).reverse.find? fun e' => e'.1 < e.1 := by
    rw [Cursor.prev, hei, hp.entries_eq i hin]
    rfl
  obtain ⟨heap, hh, hp'⟩ := hp.advance h hcl ht hei hen hcr
  refine ⟨setCurrentReverse { s with
    children := Function.update s.children i (s.children i).prev, maxHeap := some heap }, ?_, ?_, ?_⟩
  · rw [advanceReverse, hi, hm]
    simp only [Option.bind_eq_bind, Option.bind_some, hc, if_true]
    rw [show settleTop maxIteratorComparator _ maxHeap i = some heap from hh]
    rfl
  · refine Reverse.inv ⟨hr.n_eq, hr.direction, rfl, heap, _, rfl, ?_, hp'⟩
    exact fun a b hab ha => Side.reverse.trans _ _ _ ha hab
  · exact hp'.top_eq h

theorem find?_self (S : Side κ ν) {l : List (κ × ν)} (hl : l.Pairwise fun e e' => e.1 < e'.1) (he : e ∈ l) :
    (S.list l).find? (fun e' => !S.before e'.1 e.1) = some e := by
  refine (find?_eq_some_iff_first (p := fun k => !S.before k e.1) S.asymm (S.sorted l hl)).mpr ?_
  refine ⟨(S.mem_list _ _).mpr he, ?_, fun e' he' hn => ?_⟩
  · rw [Bool.not_eq_true', Bool.eq_false_iff]
    exact fun h => S.asymm _ _ h h
  · by_cases hk : e.1 = e'.1
    · exact .inl (eq_of_key_eq hl ((S.mem_list _ _).mp he') he hk.symm)
    · right
      refine (S.total _ _ hk).resolve_right fun h => ?_
      simp [h] at hn

theorem closed_not_before (S : Side κ ν) (k : κ) : S.Closed fun a => !S.before a k := by
  intro a b hab ha
  rw [Bool.not_eq_true', Bool.eq_false_iff] at ha ⊢
  exact fun hb => ha (S.trans _ _ _ hab hb)

section

variable (h : Apart n es) (hi : s.current = some i) (he : (s.children i).cur = some e) (hei : e ∈ es i)
  (hin : i < n)

include h hi he hei hin

theorem switched_cur (S : Side κ ν) {c : ℕ → Cursor κ ν} {step : Cursor κ ν → Cursor κ ν}
    (hc : ∀ j < n, (c j).cur = (S.list (es j)).find? fun e' => !S.before e'.1 e.1) (j : ℕ) (hj : j < n) :
    (if some j = s.current then s.children j else if (c j).cur.map Prod.fst = some e.1 then step (c j) else c j).cur =
      (S.list (es j)).find? fun e' => !S.before e'.1 e.1 := by
  by_cases hji : j = i
  · rw [if_pos (by rw [hi, hji]), hji, he]
    exact (find?_self S (h.sorted i hin) hei).symm
  have hne : ¬ some j = s.current := by simp [hi, hji]
  rw [if_neg hne, if_neg, hc j hj]
  intro hm
  obtain ⟨e', he', hk⟩ := Option.map_eq_some_iff.mp hm
  rw [hc j hj] at he'
  have hmm := (S.mem_list _ _).mp (List.mem_of_find?_eq_some he')
  exact h.distinct j hj i hin hji e' hmm e hei hk

omit hi he in
theorem switched_top {S : Side κ ν} {cs : ℕ → Cursor κ ν} {heap : BinaryHeap ℕ}
    (hp : Positioned S n es (fun a => !S.before a e.1) cs heap) :
    (cs i).cur = some e ∧ heap.top = some i := by
  have hc : (cs i).cur = some e := (hp.cur i hin).trans (find?_self S (h.sorted i hin) hei)
  refine ⟨hc, hp.top_of_mem h hin hc fun j _ e' _ hn hb => ?_⟩
  simp [hb] at hn

variable (hs : s.Inv n es)

include hs

theorem switchToForward_spec : (s.switchToForward e.1).Forward n es ∧ (s.switchToForward e.1).entry = some e := by
  have hp : Positioned Side.forward n es (fun a => !Side.forward.before (ν := ν) a e.1)
      (s.switchToForward e.1).children (s.switchToForward e.1).minHeap := by
    refine moveForward_positioned hs (fun j c => ?_) (switched_cur h hi he hei hin Side.forward fun j hj => ?_)
    · dsimp only
      split
      · rfl
      · split
        · rfl
        · rfl
    · rw [Cursor.seek, hs.entries_eq j hj]
      refine List.find?_congr fun e' _ => ?_
      rw [Side.forward, ← decide_not, decide_eq_decide, not_lt]
  obtain ⟨hc, ht⟩ := switched_top h hei hin hp
  refine ⟨⟨hs.n_eq, rfl, hi.trans ht.symm, _, closed_not_before _ _, hp⟩, ?_⟩
  exact entry_eq_some.mpr ⟨i, hi, hc⟩

theorem switchToBackward_spec : ∃ t, s.switchToBackward e.1 = some t ∧ t.Reverse n es ∧ t.entry = some e := by
  let move : ℕ → Cursor κ ν → Cursor κ ν := fun i c =>
    if some i = s.current then c
    else if (c.seekForPrev e.1).cur.map Prod.fst = some e.1 then (c.seekForPrev e.1).prev else c.seekForPrev e.1
  obtain ⟨heap, hh, hp⟩ : ∃ heap, (s.moveReverse move).maxHeap = some heap ∧
      Positioned Side.reverse n es (fun a => !Side.reverse.before (ν := ν) a e.1)
        (s.moveReverse move).children heap := by
    refine moveReverse_positioned hs (fun j c => ?_) (switched_cur h hi he hei hin Side.reverse fun j hj => ?_)
    · dsimp only [move]
      split
      · rfl
      · split
        · rfl
        · rfl
    · rw [Cursor.seekForPrev, hs.entries_eq j hj]
      refine List.find?_congr fun e' _ => ?_
      rw [Side.reverse, ← decide_not, decide_eq_decide, not_lt]
  obtain ⟨hcr, ht⟩ := switched_top h hei hin hp
  have hc : (s.moveReverse move).currentReverse = some i := by
    rw [currentReverse, hh]
    exact ht
  have hst : (s.moveReverse move).setCurrentReverse = s.moveReverse move := by
    rw [setCurrentReverse, hc, ← hi]
    rfl
  refine ⟨s.moveReverse move, ?_, ⟨hs.n_eq, rfl, hi.trans hc.symm, heap, _, hh, closed_not_before _ _, hp⟩,
    entry_eq_some.mpr ⟨i, hi, hcr⟩⟩
  change (let t := if (s.moveReverse move).prefixSeekMode then s.moveReverse move
    else (s.moveReverse move).setCurrentReverse
    if t.current = t.currentReverse then some t else none) = _
  rw [hst, ite_self]
  exact if_pos (hi.trans hc.symm)

end

theorem next_spec (h : Apart n es) (hs : s.Inv n es) (he : s.entry = some e) :
    ∃ t, s.next = some t ∧ t.Inv n es ∧ t.entry = (merged n es).find? fun e' => e.1 < e'.1 := by
  obtain ⟨i, hi, hc⟩ := entry_eq_some.mp he
  obtain ⟨hin, e', hei, he'⟩ := hs.mem_entries h hi
  cases hc.symm.trans he'
  rw [next, he]
  simp only [Option.bind_eq_bind, Option.bind_some]
  by_cases hd : s.direction = .forward
  · rw [if_pos hd]
    rcases hs.side with hn | hf | hr
    · rw [hi] at hn
      cases hn
    · exact hf.advance h he
    · rw [hr.direction] at hd
      cases hd
  · rw [if_neg hd]
    obtain ⟨hf, hen⟩ := switchToForward_spec h hi hc hei hin hs
    exact hf.advance h hen

theorem prev_spec (h : Apart n es) (hs : s.Inv n es) (he : s.entry = some e) :
    ∃ t, s.prev = some t ∧ t.Inv n es ∧ t.entry = (merged n es).reverse.find? fun e' => e'.1 < e.1 := by
  obtain ⟨i, hi, hc⟩ := entry_eq_some.mp he
  obtain ⟨hin, e', hei, he'⟩ := hs.mem_entries h hi
  cases hc.symm.trans he'
  rw [prev, he]
  simp only [Option.bind_eq_bind, Option.bind_some]
  by_cases hd : s.direction = .reverse
  · rw [if_pos hd]
    rcases hs.side with hn | hf | hr
    · rw [hi] at hn
      cases hn
    · rw [hf.direction] at hd
      cases hd
    · exact hr.advance h he
  · rw [if_neg hd]
    obtain ⟨t, ht, hr, hen⟩ := switchToBackward_spec h hi hc hei hin hs
    rw [ht, Option.bind_some]
    exact hr.advance h hen

def asCursor (n : ℕ) (entries : ℕ → List (κ × ν)) (s : MergingIterator κ ν) : Cursor κ ν :=
  ⟨merged n entries, s.entry⟩

omit [LinearOrder κ] in
theorem head?_eq_find? (l : List (κ × ν)) : l.head? = l.find? fun _ => true := by
  cases l with
  | nil => rfl
  | cons e l => rfl

theorem step_spec (h : Apart n es) (hs : s.Inv n es) (op : CursorOp κ) :
    (s.step op).map (asCursor n es) = (s.asCursor n es).step op ∧ ∀ t, s.step op = some t → t.Inv n es := by
  have hd {t : MergingIterator κ ν} {c : Cursor κ ν} (hop : s.step op = some t)
      (hc : (s.asCursor n es).step op = some c) (ht : t.Inv n es ∧ t.asCursor n es = c) :
      (s.step op).map (asCursor n es) = (s.asCursor n es).step op ∧ ∀ t, s.step op = some t → t.Inv n es := by
    rw [hop, hc, Option.map_some, ht.2]
    exact ⟨rfl, fun t' ht' => Option.some.inj ht' ▸ ht.1⟩
  have hen {t : MergingIterator κ ν} {o : Option (κ × ν)} (ht : t.Inv n es ∧ t.entry = o) :
      t.Inv n es ∧ t.asCursor n es = ⟨merged n es, o⟩ :=
    ⟨ht.1, by rw [asCursor, ht.2]⟩
  have hst (hnn : s.entry = none) : (s.asCursor n es).valid = false := by
    rw [Cursor.valid, asCursor, hnn]
    rfl
  have hv {e : κ × ν} (he : s.entry = some e) : (s.asCursor n es).valid = true := by
    rw [Cursor.valid, asCursor, he]
    rfl
  cases op with
  | seekToFirst =>
    refine hd rfl rfl ?_
    rw [Cursor.seekToFirst, head?_eq_find?]
    refine hen (seek_forward hs (fun _ _ => rfl) h (p := fun _ => true) (fun _ _ _ h => h) fun i hi => ?_)
    rw [Cursor.seekToFirst, hs.entries_eq i hi, head?_eq_find?]
  | seekToLast =>
    refine hd rfl rfl ?_
    rw [Cursor.seekToLast, ← List.head?_reverse, head?_eq_find?]
    refine hen (seek_reverse hs (fun _ _ => rfl) h (p := fun _ => true) (fun _ _ _ h => h) fun i hi => ?_)
    rw [Cursor.seekToLast, hs.entries_eq i hi, ← List.head?_reverse, head?_eq_find?]
  | seek tg =>
    refine hd rfl rfl (hen (seek_forward hs (fun _ _ => rfl) h (p := fun k => tg ≤ k) ?_ fun i hi => ?_))
    · exact fun a b hab ha => decide_eq_true ((of_decide_eq_true ha).trans (of_decide_eq_true hab).le)
    · rw [Cursor.seek, hs.entries_eq i hi]
  | seekForPrev tg =>
    refine hd rfl rfl (hen (seek_reverse hs (fun _ _ => rfl) h (p := fun k => k ≤ tg) ?_ fun i hi => ?_))
    · exact fun a b hab ha => decide_eq_true ((of_decide_eq_true hab).le.trans (of_decide_eq_true ha))
    · rw [Cursor.seekForPrev, hs.entries_eq i hi]
  | next =>
    cases he : s.entry with
    | none =>
      have hn : s.next = none := by
        rw [next, he]
        rfl
      rw [step, Cursor.step, hn, hst he]
      exact ⟨rfl, nofun⟩
    | some e =>
      obtain ⟨t, hn, hiv, hen'⟩ := next_spec h hs he
      refine hd hn (if_pos (hv he)) ?_
      have hc : s.asCursor n es = ⟨merged n es, some e⟩ := by rw [asCursor, he]
      rw [Cursor.next, hc]
      exact hen ⟨hiv, hen'⟩
  | prev =>
    cases he : s.entry with
    | none =>
      have hp : s.prev = none := by
        rw [prev, he]
        rfl
      rw [step, Cursor.step, hp, hst he]
      exact ⟨rfl, nofun⟩
    | some e =>
      obtain ⟨t, hp, hiv, hen'⟩ := prev_spec h hs he
      refine hd hp (if_pos (hv he)) ?_
      have hc : s.asCursor n es = ⟨merged n es, some e⟩ := by rw [asCursor, he]
      rw [Cursor.prev, hc]
      exact hen ⟨hiv, hen'⟩

/-- Any calls on a new iterator over `n` children give what they give on a cursor over the sorted union. -/
theorem run_eq_cursor (children : ℕ → Cursor κ ν) (prefixSeekMode : Bool)
    (h : Apart n fun i => (children i).entries) (ops : List (CursorOp κ)) :
    (run step ⟨n, prefixSeekMode, children, .forward, none, {}, none⟩ ops).map
        (asCursor n fun i => (children i).entries) =
      run Cursor.step ⟨merged n fun i => (children i).entries, none⟩ ops :=
  run_map (asCursor n fun i => (children i).entries) (Inv n fun i => (children i).entries)
    (fun _ op hs => step_spec h hs op) ⟨rfl, fun _ _ => rfl, .inl rfl⟩ ops

theorem run_eq_cursor_two_children :
    let children : ℕ → Cursor ℕ ℕ := fun i => ⟨if i = 0 then [(1, 10), (4, 40)] else [(2, 20), (3, 30)], none⟩
    ((run step ⟨2, false, children, .forward, none, {}, none⟩ [.seekToFirst, .next, .next, .prev, .next]).map
      (asCursor 2 fun i => (children i).entries)).map Cursor.cur = some (some (3, 30)) := by
  intro children
  have hapart : Apart 2 fun i => (children i).entries := ⟨by decide, by decide⟩
  rw [run_eq_cursor children false hapart]
  decide +kernel

end MergingIterator

end ZenFSPlus.Table
