import ZenFSPlus.Transactions.WritePreparedTxnDB

namespace ZenFSPlus.Transactions

open WritePreparedTxnDB List

structure Tracked (prepared removed : List ℕ) (max : ℕ) (heap : PreparedHeap) (delayed : Finset ℕ) (empty : Bool) :
    Prop where
  wf : heap.WellFormed
  heap_prepared : ∀ x ∈ heap.heap, x ∈ prepared
  mem_iff : ∀ p, heap.Mem p ∨ p ∈ delayed ↔ p ∈ prepared ∧ p ∉ removed
  delayed_le : ∀ p ∈ delayed, p ≤ max
  empty_iff : empty = true ↔ delayed = ∅

structure PreparedInv (prepared removed : List ℕ) (max : ℕ) (heap : PreparedHeap) (delayed : Finset ℕ) (empty : Bool) :
    Prop extends Tracked prepared removed max heap delayed empty where
  lt_heap : ∀ p, heap.Mem p → max < p

variable {prepared rem : List ℕ} {max nm : ℕ} {heap : PreparedHeap} {delayed : Finset ℕ} {empty : Bool}
  {db : WritePreparedTxnDB}

def PreparedOnly (prepared removed : List ℕ) (max : ℕ) (db db' : WritePreparedTxnDB) : Prop :=
  ∃ heap delayed empty, db' = { db with
      preparedTxns := heap
      delayedPrepared := delayed
      delayedPreparedEmpty := empty } ∧
    PreparedInv prepared removed max heap delayed empty

theorem Tracked.mono (h : Tracked prepared rem max heap delayed empty) (hle : max ≤ nm) :
    Tracked prepared rem nm heap delayed empty :=
  ⟨h.wf, h.heap_prepared, h.mem_iff, fun p hp => Nat.le_trans (h.delayed_le p hp) hle, h.empty_iff⟩

theorem Tracked.inv (h : Tracked prepared rem nm heap delayed empty)
    (hs : ¬ (!heap.empty && decide (heap.top ≤ nm)) = true) :
    PreparedInv prepared rem nm heap delayed empty := by
  refine ⟨h, fun p hp => ?_⟩
  have hne : ¬ heap.empty = true := by
    rw [h.wf.empty_iff]
    intro hn
    rw [PreparedHeap.Mem, hn] at hp
    cases hp.1
  have hle := h.wf.top_le hp.1
  simp only [hne, Bool.not_false, Bool.true_and, decide_eq_true_eq] at hs
  omega

theorem Tracked.move (h : Tracked prepared rem nm heap delayed empty) (hne : ¬ heap.empty = true)
    (hle : heap.top ≤ nm) :
    Tracked prepared rem nm heap.pop (insert heap.top delayed) false ∧ heap.pop.heap.length < heap.heap.length := by
  rw [h.wf.empty_iff] at hne
  obtain ⟨f, rest, hh⟩ := exists_cons_of_ne_nil hne
  obtain ⟨hwf, hl, hs, hm⟩ := h.wf.pop hh
  have ht := PreparedHeap.top_cons hh
  refine ⟨⟨hwf, fun x hx => h.heap_prepared x (hs x hx), fun p => ?_, fun p hp => ?_, ?_⟩, hl⟩
  · rw [← h.mem_iff p, hm, Finset.mem_insert, ht]
    constructor
    · rintro (⟨hp, -⟩ | rfl | hp)
      · exact .inl hp
      · exact .inl (h.wf.mem_top hh)
      · exact .inr hp
    · rintro (hp | hp)
      · by_cases hpf : p = f
        · exact .inr (.inl hpf)
        · exact .inl ⟨hp, hpf⟩
      · exact .inr (.inr hp)
  · rcases Finset.mem_insert.mp hp with rfl | hp
    · exact hle
    · exact h.delayed_le p hp
  · simp

theorem preparedOnly_checkPreparedLoop {rounds : ℕ} (db : WritePreparedTxnDB) (hr : db.preparedTxns.heap.length ≤ rounds)
    (h : Tracked prepared rem nm db.preparedTxns db.delayedPrepared db.delayedPreparedEmpty) :
    PreparedOnly prepared rem nm db (checkPreparedLoop nm rounds db) := by
  induction rounds generalizing db with
  | zero =>
    refine ⟨_, _, _, rfl, h.inv ?_⟩
    rw [h.wf.empty_iff.mpr (length_eq_zero_iff.mp (Nat.le_zero.mp hr))]
    nofun
  | succ rounds ih =>
    unfold checkPreparedLoop
    split
    · rename_i hgo
      simp only [Bool.and_eq_true, Bool.not_eq_true', decide_eq_true_eq] at hgo
      obtain ⟨ht, hl⟩ := h.move (by simp [hgo.1]) hgo.2
      obtain ⟨heap, delayed, empty, heq, hi⟩ := ih { db with
          delayedPrepared := insert db.preparedTxns.top db.delayedPrepared
          delayedPreparedEmpty := false
          preparedTxns := db.preparedTxns.pop } (Nat.le_of_lt_succ (Nat.lt_of_lt_of_le hl hr)) ht
      exact ⟨heap, delayed, empty, heq, hi⟩
    · rename_i hs
      exact ⟨_, _, _, rfl, h.inv hs⟩

theorem preparedOnly_checkPreparedAgainstMax (db : WritePreparedTxnDB)
    (h : Tracked prepared rem nm db.preparedTxns db.delayedPrepared db.delayedPreparedEmpty) :
    PreparedOnly prepared rem nm db (db.checkPreparedAgainstMax nm) := by
  unfold checkPreparedAgainstMax
  simp only
  split
  · exact preparedOnly_checkPreparedLoop db (Nat.le_refl _) h
  · rename_i hs
    exact ⟨_, _, _, rfl, h.inv hs⟩

theorem preparedOnly_addPrepared {seq : ℕ}
    (h : PreparedInv prepared rem db.futureMaxEvictedSeq db.preparedTxns db.delayedPrepared db.delayedPreparedEmpty)
    (hs : ∀ p ∈ prepared, p < seq) (hmx : seq < kMaxSequenceNumber) (hr : seq ∉ rem) :
    PreparedOnly (seq :: prepared) rem db.futureMaxEvictedSeq db (db.addPrepared seq) := by
  obtain ⟨hwf, hm⟩ := h.wf.push (fun x hx => hs x (h.heap_prepared x hx)) hmx
  have ht : Tracked (seq :: prepared) rem db.futureMaxEvictedSeq (db.preparedTxns.push seq)
      db.delayedPrepared db.delayedPreparedEmpty := by
    refine ⟨hwf, fun x hx => ?_, fun p => ?_, h.delayed_le, h.empty_iff⟩
    · rcases mem_append.mp hx with hx | hx
      · exact mem_cons_of_mem _ (h.heap_prepared x hx)
      · exact mem_singleton.mp hx ▸ mem_cons_self ..
    · have hp := h.mem_iff p
      rw [hm, mem_cons]
      constructor
      · rintro ((hh | rfl) | hd)
        · exact ⟨.inr (hp.mp (.inl hh)).1, (hp.mp (.inl hh)).2⟩
        · exact ⟨.inl rfl, hr⟩
        · exact ⟨.inr (hp.mp (.inr hd)).1, (hp.mp (.inr hd)).2⟩
      · rintro ⟨rfl | hpr, hn⟩
        · exact .inl (.inr rfl)
        · rcases hp.mpr ⟨hpr, hn⟩ with hh | hd
          · exact .inl (.inl hh)
          · exact .inr hd
  unfold addPrepared
  simp only
  split
  · obtain ⟨heap, delayed, empty, heq, hi⟩ := preparedOnly_checkPreparedAgainstMax
      { db with preparedTxns := db.preparedTxns.push seq } ht
    exact ⟨heap, delayed, empty, heq, hi⟩
  rename_i hlt
  refine ⟨_, _, _, rfl, ht, fun p hp => ?_⟩
  rcases (hm p).mp hp with hp | rfl
  · exact h.lt_heap p hp
  · omega

theorem removeOne_inv {p : ℕ} (hp : p ∈ prepared) (hnt : p ∉ rem)
    (h : PreparedInv prepared rem max db.preparedTxns db.delayedPrepared db.delayedPreparedEmpty) :
    ∃ heap delayed empty commits, db.removeOne p = { db with
        preparedTxns := heap
        delayedPrepared := delayed
        delayedPreparedEmpty := empty
        delayedPreparedCommits := commits } ∧
      PreparedInv prepared (p :: rem) max heap delayed empty ∧
      (∀ q, q ≠ p → commits q = db.delayedPreparedCommits q) ∧
      (∀ q c, commits q = some c → db.delayedPreparedCommits q = some c) := by
  have hpl : db.preparedTxns.Mem p ∨ ∀ x ∈ db.preparedTxns.heap, p < x := by
    rcases (h.mem_iff p).mpr ⟨hp, hnt⟩ with hhp | hd
    · exact .inl hhp
    right
    intro x hx
    obtain ⟨f, rest, hh⟩ := exists_cons_of_ne_nil (ne_nil_of_mem hx)
    have ht := h.lt_heap f (h.wf.mem_top hh)
    have hle := h.wf.top_le hx
    have := h.delayed_le p hd
    rw [PreparedHeap.top_cons hh] at hle
    omega
  obtain ⟨hwf, hs, hm⟩ := h.wf.erase hpl
  have hi (q : ℕ) : (db.preparedTxns.erase p).Mem q ∨ q ∈ db.delayedPrepared.erase p ↔ q ∈ prepared ∧ q ∉ p :: rem := by
    have hq := h.mem_iff q
    rw [hm, Finset.mem_erase, mem_cons, not_or]
    tauto
  have hhp : ∀ q, (db.preparedTxns.erase p).Mem q → max < q := fun q hq => h.lt_heap q ((hm q).mp hq).1
  unfold removeOne
  simp only
  split
  · rename_i he
    rw [decide_eq_true_eq] at he
    refine ⟨_, _, _, _, rfl, ⟨⟨hwf, fun x hx => h.heap_prepared x (hs x hx), fun q => ?_, h.delayed_le, h.empty_iff⟩,
      hhp⟩, fun _ _ => rfl, fun _ _ => id⟩
    rw [← hi q, he, Finset.erase_empty]
  · rename_i hn
    rw [decide_eq_true_eq] at hn
    refine ⟨_, _, _, _, rfl, ⟨⟨hwf, fun x hx => h.heap_prepared x (hs x hx), hi, fun q hq => ?_, ?_⟩, hhp⟩,
      fun q hq => Function.update_of_ne hq _ _, fun q c hc => ?_⟩
    · exact h.delayed_le q (Finset.mem_of_mem_erase hq)
    · have hf : ¬ db.delayedPreparedEmpty = true := fun hf => hn (h.empty_iff.mp hf)
      by_cases hl : db.delayedPrepared.erase p = ∅
      · simp [hl, hn]
      · simp [hl, hn, hf]
    · by_cases hqp : q = p
      · rw [hqp, Function.update_self] at hc
        cases hc
      · rwa [Function.update_of_ne hqp] at hc

end ZenFSPlus.Transactions
