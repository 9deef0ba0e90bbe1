import ZenFSPlus.Db.RangeTombstoneFragmenter

namespace ZenFSPlus.Db

open List
open Lib (Piece Ordered Sweep pieceAt valuesAt cut reaching)

variable {K : Type}

namespace FragmentedRangeTombstoneList

variable {l : FragmentedRangeTombstoneList K} {a b : K} {seqnums : List ℕ}

def Valid (l : FragmentedRangeTombstoneList K) : Prop :=
  ∀ f ∈ l.tombstones, f.seqStartIdx ≤ f.seqEndIdx ∧ f.seqEndIdx ≤ l.tombstoneSeqs.length

def view (l : FragmentedRangeTombstoneList K) : List (Piece K (List ℕ)) :=
  l.tombstones.map fun f => ⟨f.startKey, f.endKey, l.seqs f⟩

theorem Valid.add (h : l.Valid) : (l.add a b seqnums).Valid := by
  intro f hf
  rcases mem_append.mp hf with hf | hf
  · have hl := h f hf
    simp only [FragmentedRangeTombstoneList.add, length_append]
    omega
  · rw [mem_singleton.mp hf]
    simp [FragmentedRangeTombstoneList.add]

theorem Valid.view_add (h : l.Valid) : (l.add a b seqnums).view = l.view ++ [⟨a, b, seqnums⟩] := by
  have ho (f : RangeTombstoneStack K) (hf : f ∈ l.tombstones) : (l.add a b seqnums).seqs f = l.seqs f := by
    rw [seqs, FragmentedRangeTombstoneList.add, take_append_of_le_length (h f hf).2, seqs]
  simp only [view, FragmentedRangeTombstoneList.add, map_append, map_singleton]
  congr 1
  · apply map_congr_left
    intro f hf
    rw [← ho f hf, FragmentedRangeTombstoneList.add]
  · rw [seqs, take_of_length_le (by simp), drop_left]

variable [LinearOrder K] {k : K}

theorem covers_iff {seq : ℕ} : l.Covers k seq ↔ ∃ p ∈ l.view, p.Contains k ∧ seq ∈ p.value := by
  simp [Covers, view, Piece.Contains, and_assoc]

theorem maxCoveringTombstoneSeqnum_eq (ub : ℕ) :
    l.maxCoveringTombstoneSeqnum ub k = ((valuesAt l.view k).find? (· ≤ ub)).getD 0 := by
  simp only [maxCoveringTombstoneSeqnum, valuesAt, pieceAt, view, find?_map, Function.comp_def]
  cases l.tombstones.find? fun f => k < f.endKey with
  | none => rfl
  | some f =>
    simp only [Option.map_some, Option.filter]
    by_cases hs : f.startKey ≤ k
    · cases hq : (l.seqs f).find? (· ≤ ub) <;> simp [hs, hq]
    · cases (l.seqs f).find? (· ≤ ub) <;> simp [hs]

end FragmentedRangeTombstoneList

structure Encodes (forCompaction : Bool) (snapshots : List ℕ) (l : FragmentedRangeTombstoneList K)
    (ps : List (Piece K (List ℕ))) : Prop where
  valid : l.Valid
  view : l.view = ps.map (Piece.map (seqnumsToFlush forCompaction snapshots))

variable {ps : List (Piece K (List ℕ))}

theorem Encodes.add {fc : Bool} {snaps : List ℕ} {l : FragmentedRangeTombstoneList K}
    (h : Encodes fc snaps l ps) (cur next : K) (seqs : List ℕ) : Encodes fc snaps
      (l.add cur next (seqnumsToFlush fc snaps seqs)) (ps ++ [⟨cur, next, seqs⟩]) := by
  refine ⟨h.valid.add, ?_⟩
  rw [h.valid.view_add, h.view, map_append]
  rfl

variable [LinearOrder K]

def RangeTombstone.piece (t : RangeTombstone K) : Piece K ℕ := ⟨t.startKey, t.endKey, t.seq⟩

def sweepStep (s : Sweep K ℕ) (t : RangeTombstone K) : Sweep K ℕ :=
  let s := if s.cur < t.startKey then s.advance t.startKey else s
  ⟨s.cur, emplace (t.endKey, t.seq) s.ends, s.pieces⟩

def fragments : List (RangeTombstone K) → List (Piece K (List ℕ))
  | [] => []
  | t :: ts =>
    let s := (t :: ts).foldl sweepStep ⟨t.startKey, [], []⟩
    match s.ends.getLast? with
    | none => s.pieces
    | some e => s.pieces ++ cut e.1 s.ends s.cur

section

variable {s : Sweep K ℕ} {begun : List (Piece K ℕ)} {t : RangeTombstone K} {ts : List (RangeTombstone K)}

theorem sweepStep_cur (h : s.cur ≤ t.startKey) : (sweepStep s t).cur = t.startKey := by
  unfold sweepStep
  split
  · rfl
  · exact le_antisymm h (not_lt.mp ‹_›)

theorem sweepStep_covers (h : s.Covers begun) (hle : s.cur ≤ t.startKey) :
    (sweepStep s t).Covers (t.piece :: begun) := by
  have hb {s' : Sweep K ℕ} (h' : s'.Covers begun) (hc : t.startKey = s'.cur) :
      Sweep.Covers ⟨s'.cur, emplace (t.endKey, t.seq) s'.ends, s'.pieces⟩ (t.piece :: begun) :=
    h'.begin hc t.start_le_end (emplace_sorted h'.sorted) fun e => mem_emplace
  unfold sweepStep
  split
  · exact hb (h.advance ‹_›) rfl
  · exact hb h (le_antisymm (not_lt.mp ‹_›) hle)

theorem foldl_sweepStep_covers (h : s.Covers begun) (hle : ∀ t ∈ ts, s.cur ≤ t.startKey)
    (hsr : ts.Pairwise fun t t' => t.startKey ≤ t'.startKey) :
    (ts.foldl sweepStep s).Covers ((ts.map RangeTombstone.piece).reverse ++ begun) := by
  induction ts generalizing s begun with
  | nil => exact h
  | cons t ts ih =>
    obtain ⟨hf, hr⟩ := pairwise_cons.mp hsr
    have hs := sweepStep_covers h (hle t (by simp))
    have hc := sweepStep_cur (hle t (by simp))
    rw [map_cons, reverse_cons, append_assoc]
    exact ih hs (fun t' ht => hc ▸ hf t' ht) hr

theorem fragments_spec (hs : ts.Pairwise fun t t' => t.startKey ≤ t'.startKey) :
    Ordered (fragments ts) ∧ (∀ p ∈ fragments ts, p.value ≠ []) ∧
      ∀ k seq, (∃ p ∈ fragments ts, p.Contains k ∧ seq ∈ p.value) ↔
        ∃ t ∈ ts, t.startKey ≤ k ∧ k < t.endKey ∧ t.seq = seq := by
  cases ts with
  | nil => exact ⟨⟨by simp [fragments], by simp [fragments]⟩, by simp [fragments], by simp [fragments]⟩
  | cons t ts =>
    have hle : ∀ t' ∈ t :: ts, t.startKey ≤ t'.startKey := forall_mem_cons.mpr ⟨le_refl _, (pairwise_cons.mp hs).1⟩
    have hcv := foldl_sweepStep_covers (Sweep.covers_nil t.startKey) hle hs
    rw [append_nil] at hcv
    have hen (k : K) (seq : ℕ) : (∃ d ∈ ((t :: ts).map RangeTombstone.piece).reverse,
        d.Contains k ∧ d.value = seq) ↔ ∃ t' ∈ t :: ts, t'.startKey ≤ k ∧ k < t'.endKey ∧ t'.seq = seq := by
      simp [RangeTombstone.piece, Piece.Contains, and_assoc, or_comm]
    simp only [← hen, fragments]
    generalize (t :: ts).foldl sweepStep _ = s at hcv
    cases hl : s.ends.getLast? with
    | none =>
      have hn := getLast?_eq_none_iff.mp hl
      exact ⟨hcv.ordered, hcv.value_ne_nil, hcv.mem_iff (by simp [hn])⟩
    | some e =>
      rcases hcv.lt_last hl with hlt | hal
      · have ha := hcv.advance hlt
        exact ⟨ha.ordered, ha.value_ne_nil, ha.mem_iff fun e' he => hcv.le_last hl e' (Sweep.mem_reaching.mp he).1⟩
      · simp only [Lib.cut_of_forall_eq hal, append_nil]
        exact ⟨hcv.ordered, hcv.value_ne_nil, hcv.mem_iff fun e' he => (hal e' he).le⟩

end

section

variable {fc : Bool} {snaps : List ℕ} {l : FragmentedRangeTombstoneList K}
  {es : List (K × ℕ)} {cur next : K} {s : FragmentState K} {a : Sweep K ℕ} {t : RangeTombstone K}
  {ts : List (RangeTombstone K)} {begun : List (Piece K ℕ)}

theorem flushLoop_of_forall_eq (h : ∀ e ∈ es, e.1 = cur) : flushLoop fc snaps next es cur l = (l, []) := by
  induction es with
  | nil => rfl
  | cons e es ih =>
    rw [flushLoop, if_pos (h e (by simp)).symm]
    exact ih fun e' he => h e' (mem_cons_of_mem _ he)

section

variable (h : Encodes fc snaps l ps)

include h

theorem Encodes.ordered (ho : Ordered ps) : Ordered l.view := h.view ▸ ho.map _

theorem Encodes.valuesAt (k : K) : valuesAt l.view k = seqnumsToFlush fc snaps (Lib.valuesAt ps k) := by
  rw [h.view, Lib.valuesAt_map]
  cases fc <;> rfl

theorem flushLoop_spec (hlt : cur < next) (hc : ∀ e ∈ es, cur ≤ e.1) (hsr : es.Pairwise fun e e' => e.1 ≤ e'.1) :
    let r := flushLoop fc snaps next es cur l
    Encodes fc snaps r.1 (ps ++ cut next es cur) ∧ r.2 = reaching next es := by
  induction es generalizing cur l ps with
  | nil => exact ⟨by simpa [flushLoop, cut] using h, rfl⟩
  | cons e es ih =>
    obtain ⟨hf, hr⟩ := pairwise_cons.mp hsr
    have hs (hne : ¬ next ≤ e.1) : reaching next (e :: es) = reaching next es := by
      simp [reaching, hne]
    rw [flushLoop, cut]
    split
    · rename_i heq
      rw [hs (heq ▸ not_le.mpr hlt)]
      exact ih h hlt (fun e' he => hc e' (mem_cons_of_mem _ he)) hr
    split
    · rename_i hn
      refine ⟨h.add _ _ _, (filter_eq_self.mpr ?_).symm⟩
      simpa using ⟨hn, fun k q he => hn.trans (hf (k, q) he)⟩
    · rename_i hn
      rw [hs hn]
      have ha := ih (h.add cur e.1 ((e :: es).map Prod.snd)) (not_le.mp hn) hf hr
      rwa [append_assoc] at ha

end

structure Simulates (forCompaction : Bool) (snapshots : List ℕ) (s : FragmentState K) (a : Sweep K ℕ) :
    Prop where
  cur : s.curStartKey = a.cur
  ends : s.curEndKeys = a.ends
  encodes : Encodes forCompaction snapshots s.list a.pieces

section

variable (h : Simulates fc snaps s a) (hcv : a.Covers begun)

include h hcv

theorem Simulates.flush (hlt : a.cur < next) :
    Simulates fc snaps (flushCurrentTombstones fc snaps next s) (a.advance next) := by
  have hf := flushLoop_spec h.encodes hlt hcv.le_ends hcv.sorted
  rw [← h.cur, ← h.ends] at hf
  refine ⟨rfl, ?_, ?_⟩
  · rw [Sweep.advance, ← h.ends]
    exact hf.2
  · rw [Sweep.advance, ← h.cur, ← h.ends]
    exact hf.1

theorem Simulates.addTombstone (hle : a.cur ≤ t.startKey) :
    Simulates fc snaps (addTombstone fc snaps s t) (sweepStep a t) := by
  unfold Db.addTombstone sweepStep
  by_cases hlt : a.cur < t.startKey
  · have hf := h.flush hcv hlt
    rw [if_pos hlt]
    split
    · exact ⟨rfl, congrArg (emplace _) hf.ends, hf.encodes⟩
    -- nothing to flush: the sweep moves over a gap
    rename_i hn
    have hn : a.ends = [] := by
      rw [← h.ends]
      by_contra he
      exact hn ⟨he, h.cur ▸ hlt.ne⟩
    refine ⟨rfl, ?_, ?_⟩
    · simp [h.ends, hn, Sweep.advance, reaching]
    · simpa [hn, Sweep.advance, cut] using h.encodes
  · have heq : a.cur = t.startKey := le_antisymm hle (not_lt.mp hlt)
    rw [if_neg hlt, if_neg fun hne => hne.2 (h.cur.trans heq)]
    exact ⟨heq.symm, congrArg (emplace _) h.ends, h.encodes⟩

theorem Simulates.foldl (hle : ∀ t ∈ ts, a.cur ≤ t.startKey) (hs : ts.Pairwise fun t t' => t.startKey ≤ t'.startKey) :
    Simulates fc snaps (ts.foldl (Db.addTombstone fc snaps) s) (ts.foldl sweepStep a) := by
  induction ts generalizing s a begun with
  | nil => exact h
  | cons t ts ih =>
    obtain ⟨hf, hr⟩ := pairwise_cons.mp hs
    have ht := hle t (by simp)
    exact ih (h.addTombstone hcv ht) (sweepStep_covers hcv ht) (fun t' ht' => (sweepStep_cur ht).symm ▸ hf t' ht') hr

end

theorem fragmentTombstones_encodes [Inhabited K] (hsr : ts.Pairwise fun t t' => t.startKey ≤ t'.startKey) :
    Encodes fc snaps (fragmentTombstones fc snaps ts) (fragments ts) := by
  have he : Encodes fc snaps (.empty : FragmentedRangeTombstoneList K) [] :=
    ⟨by simp [FragmentedRangeTombstoneList.Valid, FragmentedRangeTombstoneList.empty], rfl⟩
  cases ts with
  | nil => exact he
  | cons t ts =>
    have hle : ∀ t' ∈ t :: ts, t.startKey ≤ t'.startKey := forall_mem_cons.mpr ⟨le_refl _, (pairwise_cons.mp hsr).1⟩
    have hcv := foldl_sweepStep_covers (Sweep.covers_nil t.startKey) hle hsr
    have hsm : Simulates fc snaps ((t :: ts).foldl (addTombstone fc snaps) ⟨t.startKey, [], .empty⟩)
        ((t :: ts).foldl sweepStep ⟨t.startKey, [], []⟩) :=
      Simulates.foldl ⟨rfl, rfl, he⟩ (Sweep.covers_nil t.startKey) hle hsr
    -- the key the loop starts with is never compared with an end key
    have hs : (t :: ts).foldl (addTombstone fc snaps) ⟨default, [], .empty⟩ =
        (t :: ts).foldl (addTombstone fc snaps) ⟨t.startKey, [], .empty⟩ := by
      simp [addTombstone]
    rw [fragmentTombstones, hs, fragments]
    generalize (t :: ts).foldl (addTombstone fc snaps) _ = s at hsm
    generalize (t :: ts).foldl sweepStep _ = a at hsm hcv
    simp only [hsm.ends]
    cases hl : a.ends.getLast? with
    | none => exact hsm.encodes
    | some e =>
      rcases hcv.lt_last hl with hlt | ha
      · exact (hsm.flush hcv hlt).encodes
      · simp only [flushCurrentTombstones, hsm.ends, hsm.cur, flushLoop_of_forall_eq ha,
          Lib.cut_of_forall_eq ha, append_nil]
        exact hsm.encodes

end

section

variable {snaps seqs : List ℕ} {s seq ns : ℕ}

theorem exists_snapshot_below (hs : snaps.Pairwise (· ≤ ·)) (hmm : s ∈ snaps) (hlt : s < seq) :
    ∃ m, (snaps.takeWhile (· < seq)).getLast? = some m ∧ s ≤ m := by
  induction snaps with
  | nil => cases hmm
  | cons x xs ih =>
    obtain ⟨hx, hxs⟩ := pairwise_cons.mp hs
    have hxs' : x ≤ s := by
      rcases mem_cons.mp hmm with rfl | hmm
      · exact le_refl _
      · exact hx s hmm
    rw [takeWhile_cons_of_pos (by simpa using hxs'.trans_lt hlt), getLast?_cons]
    rcases mem_cons.mp hmm with rfl | hmm
    · refine ⟨_, rfl, ?_⟩
      cases hl : (xs.takeWhile (· < seq)).getLast? with
      | none => exact le_refl _
      | some m => exact hx m ((takeWhile_sublist _).subset (mem_of_getLast? hl))
    · obtain ⟨m, hm, hle⟩ := ih hxs hmm
      exact ⟨m, by rw [hm]; rfl, hle⟩

theorem find?_preserved (hs : snaps.Pairwise (· ≤ ·)) (hle : s ≤ ns) (hmm : s ∈ snaps ∨ s = ns) :
    (preserved snaps ns seqs).find? (· ≤ s) = seqs.find? (· ≤ s) := by
  induction seqs generalizing ns with
  | nil => rfl
  | cons seq seqs ih =>
    rw [preserved]
    split_ifs with hn
    · by_cases hsq : seq ≤ s
      · split <;> simp [hsq]
      have hsn : s ∈ snaps := hmm.resolve_right fun heq => hsq (heq ▸ hn)
      obtain ⟨m, hm, hsm⟩ := exists_snapshot_below hs hsn (not_le.mp hsq)
      rw [hm, find?_cons_of_neg (by simpa using hsq), find?_cons_of_neg (by simpa using hsq)]
      exact ih hsm (.inl hsn)
    · rw [find?_cons_of_neg (by simp; omega)]
      exact ih hle hmm

theorem preserved_sublist (snaps : List ℕ) (ns : ℕ) (seqs : List ℕ) : (preserved snaps ns seqs).Sublist seqs := by
  induction seqs generalizing ns with
  | nil => exact .slnil
  | cons seq seqs ih =>
    rw [preserved]
    split
    · split
      · exact (nil_sublist seqs).cons_cons seq
      · exact (ih _).cons_cons seq
    · exact (ih _).cons seq

theorem seqnumsToFlush_sorted (fc : Bool) (snaps seqs : List ℕ) : (seqnumsToFlush fc snaps seqs).Pairwise (· ≥ ·) := by
  unfold seqnumsToFlush
  have hs : (seqs.insertionSort (· ≥ ·)).Pairwise (· ≥ ·) := pairwise_insertionSort (· ≥ ·) seqs
  cases fc with
  | false => exact hs
  | true => exact hs.sublist (preserved_sublist snaps _ _)

theorem find?_seqnumsToFlush (hs : snaps.Pairwise (· ≤ ·))
    (hm : s ∈ snaps ∨ s = kMaxSequenceNumber) (hsq : ∀ q ∈ seqs, q ≤ kMaxSequenceNumber) :
    (seqnumsToFlush true snaps seqs).find? (· ≤ s) = (seqnumsToFlush false [] seqs).find? (· ≤ s) := by
  simp only [seqnumsToFlush, if_true, Bool.false_eq_true, if_false]
  have hsr : ∀ q ∈ seqs.insertionSort (· ≥ ·), q ≤ kMaxSequenceNumber := by
    simpa using hsq
  rcases le_or_gt s kMaxSequenceNumber with hle | hgt
  · exact find?_preserved hs hle hm
  -- above the largest sequence number a snapshot sees as much as the latest read
  have ha {qs : List ℕ} (h : ∀ q ∈ qs, q ≤ kMaxSequenceNumber) :
      qs.find? (· ≤ s) = qs.find? (· ≤ kMaxSequenceNumber) := by
    cases qs with
    | nil => rfl
    | cons q qs =>
      have hq := h q (by simp)
      rw [find?_cons_of_pos (by simpa using hq.trans hgt.le), find?_cons_of_pos (by simpa using hq)]
  rw [ha hsr, ha fun q hq => hsr q ((preserved_sublist _ _ _).subset hq)]
  exact find?_preserved hs (le_refl _) (.inr rfl)

theorem isGreatest_iff_find? {p : ℕ} (h : seqs.Pairwise (· ≥ ·)) :
    IsGreatest {q | q ∈ seqs ∧ q ≤ s} p ↔ seqs.find? (· ≤ s) = some p := by
  induction seqs with
  | nil => simp [IsGreatest]
  | cons q seqs ih =>
    obtain ⟨hq, hr⟩ := pairwise_cons.mp h
    by_cases hqs : q ≤ s
    · rw [find?_cons_of_pos (by simpa using hqs), Option.some.injEq]
      have hg : IsGreatest {p | p ∈ q :: seqs ∧ p ≤ s} q := by
        refine ⟨⟨by simp, hqs⟩, ?_⟩
        rintro p ⟨hp, -⟩
        rcases mem_cons.mp hp with rfl | hp
        · exact le_refl _
        · exact hq p hp
      exact ⟨fun hp => hg.unique hp, fun hp => hp ▸ hg⟩
    · rw [find?_cons_of_neg (by simpa using hqs), ← ih hr]
      have hs : {p | p ∈ q :: seqs ∧ p ≤ s} = {p | p ∈ seqs ∧ p ≤ s} := by
        ext p
        simp only [Set.mem_ofPred_eq, mem_cons]
        constructor
        · rintro ⟨rfl | hp, hps⟩
          · exact absurd hps hqs
          · exact ⟨hp, hps⟩
        · exact fun ⟨hp, hps⟩ => ⟨.inr hp, hps⟩
      rw [hs]

end

namespace FragmentedRangeTombstoneList

variable [Inhabited K]

theorem make_encodes (std : StdSort K) (ts : List (RangeTombstone K)) :
    ∃ ts', ts'.Perm ts ∧ (ts'.Pairwise fun t t' => t.startKey ≤ t'.startKey) ∧
      ∀ fc snaps, Encodes fc snaps (make std fc snaps ts) (fragments ts') := by
  unfold make
  split
  · have hs := isSorted_pairwise ‹_›
    exact ⟨ts, .refl _, hs, fun _ _ => fragmentTombstones_encodes hs⟩
  · have hs := isSorted_pairwise (std.sorted ts)
    exact ⟨_, std.perm ts, hs, fun _ _ => fragmentTombstones_encodes hs⟩

theorem fragments_cover_exactly (std : StdSort K) (snapshots : List ℕ) (ts : List (RangeTombstone K)) :
    let l := make std false snapshots ts
    (l.tombstones.Pairwise fun f g => f.startKey < g.startKey) ∧
      (l.tombstones.Pairwise fun f g => f.endKey ≤ g.startKey) ∧
      (∀ f ∈ l.tombstones, f.startKey < f.endKey ∧ f.seqStartIdx < f.seqEndIdx ∧
        f.seqEndIdx ≤ l.tombstoneSeqs.length ∧ (l.seqs f).Pairwise (· ≥ ·)) ∧
      ∀ k seq, l.Covers k seq ↔ ∃ t ∈ ts, t.startKey ≤ k ∧ k < t.endKey ∧ t.seq = seq := by
  obtain ⟨ts', hpr, hsr, he⟩ := make_encodes std ts
  obtain ⟨ho, hh, hc⟩ := fragments_spec hsr
  intro l
  have he : Encodes false snapshots l (fragments ts') := he false snapshots
  have hl := he.ordered ho
  have hne (f : RangeTombstoneStack K) (hf : f ∈ l.tombstones) : f.startKey < f.endKey :=
    hl.nonempty ⟨f.startKey, f.endKey, l.seqs f⟩ (mem_map_of_mem hf)
  have ha : l.tombstones.Pairwise fun f g => f.endKey ≤ g.startKey := pairwise_map.mp hl.apart
  refine ⟨ha.imp_of_mem fun hf _ h => (hne _ hf).trans_le h, ha, fun f hf => ?_, fun k seq => ?_⟩
  · have hm : ⟨f.startKey, f.endKey, l.seqs f⟩ ∈ l.view := mem_map_of_mem hf
    rw [he.view] at hm
    obtain ⟨p, hp, hpf⟩ := mem_map.mp hm
    have hs : seqnumsToFlush false snapshots p.value = l.seqs f := congrArg Piece.value hpf
    have hps : 0 < (l.seqs f).length := by
      rw [← hs, seqnumsToFlush, if_neg Bool.false_ne_true, length_insertionSort]
      exact length_pos_of_ne_nil (hh p hp)
    obtain ⟨-, hln⟩ := he.valid f hf
    refine ⟨hne f hf, ?_, hln, hs ▸ seqnumsToFlush_sorted false snapshots _⟩
    simp only [seqs, length_drop, length_take] at hps
    omega
  · have hv : l.Covers k seq ↔ seq ∈ Lib.valuesAt (fragments ts') k := by
      rw [covers_iff, ← hl.mem_valuesAt, he.valuesAt]
      simp [seqnumsToFlush]
    rw [hv, ho.mem_valuesAt, hc k seq]
    simp only [hpr.mem_iff]

theorem compaction_keeps_covering (std : StdSort K) (ts : List (RangeTombstone K)) (snapshots : List ℕ)
    (hsnapshots : snapshots.Pairwise (· ≤ ·)) (s : ℕ) (hs : s ∈ snapshots ∨ s = kMaxSequenceNumber) (k : K) :
    let l := make std false [] ts
    let l' := make std true snapshots ts
    (∀ seq, IsGreatest {q | l'.Covers k q ∧ q ≤ s} seq ↔ IsGreatest {q | l.Covers k q ∧ q ≤ s} seq) ∧
      l'.maxCoveringTombstoneSeqnum s k = l.maxCoveringTombstoneSeqnum s k := by
  obtain ⟨ts', -, hsr, he⟩ := make_encodes std ts
  obtain ⟨ho, -, hc⟩ := fragments_spec hsr
  have hl := he false []
  have hl' := he true snapshots
  have hsq (q : ℕ) (hq : q ∈ Lib.valuesAt (fragments ts') k) : q ≤ kMaxSequenceNumber := by
    obtain ⟨t, -, -, -, rfl⟩ := (hc k q).mp (ho.mem_valuesAt.mp hq)
    exact t.seq_le
  have hf := find?_seqnumsToFlush hsnapshots hs hsq
  intro l l'
  constructor
  · intro seq
    simp only [covers_iff, ← (hl.ordered ho).mem_valuesAt, ← (hl'.ordered ho).mem_valuesAt, l, l']
    rw [hl.valuesAt, hl'.valuesAt, isGreatest_iff_find? (seqnumsToFlush_sorted _ _ _),
      isGreatest_iff_find? (seqnumsToFlush_sorted _ _ _), hf]
  · rw [maxCoveringTombstoneSeqnum_eq, maxCoveringTombstoneSeqnum_eq, hl.valuesAt, hl'.valuesAt, hf]

theorem compaction_keeps_covering_three_tombstones :
    let ts : List (RangeTombstone ℕ) :=
      [⟨3, 9, 5, by decide, by decide⟩, ⟨1, 6, 9, by decide, by decide⟩, ⟨3, 9, 2, by decide, by decide⟩]
    isSorted ts = false ∧ (make insertionStdSort true [4] ts).tombstoneSeqs = [9, 9, 2, 5, 2] ∧
      (make insertionStdSort true [4] ts).maxCoveringTombstoneSeqnum 4 4 =
        (make insertionStdSort false [] ts).maxCoveringTombstoneSeqnum 4 4 :=
  ⟨by decide +kernel, by decide +kernel,
    (compaction_keeps_covering insertionStdSort _ [4] (by decide) 4 (by decide) 4).2⟩

end FragmentedRangeTombstoneList

end ZenFSPlus.Db
