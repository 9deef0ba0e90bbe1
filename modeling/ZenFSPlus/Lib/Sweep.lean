import Mathlib.Order.Lattice
import Mathlib.Tactic.Common

/-!
Functions that are constant on pieces of a linear order, and the cuts of a sweep over intervals: `es`
are the ends of the intervals that have begun, in their order, with a value each.
-/

namespace ZenFSPlus.Lib

open List

variable {K V W : Type} [LinearOrder K]

structure Piece (K V : Type) where
  start : K
  stop : K
  value : V

namespace Piece

def Contains (p : Piece K V) (k : K) : Prop := p.start ≤ k ∧ k < p.stop

instance (p : Piece K V) (k : K) : Decidable (p.Contains k) := inferInstanceAs (Decidable (_ ∧ _))

def map (f : V → W) (p : Piece K V) : Piece K W := ⟨p.start, p.stop, f p.value⟩

end Piece

structure Ordered (ps : List (Piece K V)) : Prop where
  nonempty : ∀ p ∈ ps, p.start < p.stop
  apart : ps.Pairwise fun p q => p.stop ≤ q.start

def pieceAt (ps : List (Piece K V)) (k : K) : Option (Piece K V) :=
  (ps.find? fun p => k < p.stop).filter fun p => p.start ≤ k

def valuesAt (ps : List (Piece K (List V))) (k : K) : List V := ((pieceAt ps k).map Piece.value).getD []

variable {ps qs : List (Piece K V)} {p : Piece K V} {k a b : K}

theorem Ordered.append (hp : Ordered ps) (hq : Ordered qs) (hps : ∀ p ∈ ps, p.stop ≤ a)
    (hqs : ∀ q ∈ qs, a ≤ q.start) : Ordered (ps ++ qs) where
  nonempty := forall_mem_append.mpr ⟨hp.nonempty, hq.nonempty⟩
  apart := pairwise_append.mpr ⟨hp.apart, hq.apart, fun p hp q hq => (hps p hp).trans (hqs q hq)⟩

theorem Ordered.map (h : Ordered ps) (f : V → W) : Ordered (ps.map (Piece.map f)) where
  nonempty := by
    intro p hp
    obtain ⟨q, hq, rfl⟩ := mem_map.mp hp
    exact h.nonempty q hq
  apart := pairwise_map.mpr h.apart

theorem Ordered.of_cons (h : Ordered (p :: ps)) : Ordered ps :=
  ⟨fun q hq => h.nonempty q (mem_cons_of_mem _ hq), h.apart.of_cons⟩

theorem Ordered.pieceAt_eq_some (h : Ordered ps) : pieceAt ps k = some p ↔ p ∈ ps ∧ p.Contains k := by
  induction ps with
  | nil => simp [pieceAt]
  | cons q ps ih =>
    have hl (r : Piece K V) (hr : r ∈ ps) : q.stop ≤ r.start := rel_of_pairwise_cons h.apart hr
    by_cases hk : k < q.stop
    · have hat : pieceAt (q :: ps) k = if q.start ≤ k then some q else none := by
        simp [pieceAt, hk, Option.filter]
      rw [hat]
      constructor
      · intro hp
        split at hp
        · cases hp
          exact ⟨by simp, ‹_›, hk⟩
        · cases hp
      · rintro ⟨hp, hc⟩
        rcases mem_cons.mp hp with rfl | hp
        · rw [if_pos hc.1]
        · exact absurd (hk.trans_le ((hl p hp).trans hc.1)) (lt_irrefl k)
    · have hat : pieceAt (q :: ps) k = pieceAt ps k := by simp [pieceAt, hk]
      rw [hat, ih h.of_cons, mem_cons]
      constructor
      · exact fun ⟨hp, hc⟩ => ⟨.inr hp, hc⟩
      · rintro ⟨rfl | hp, hc⟩
        · exact absurd hc.2 hk
        · exact ⟨hp, hc⟩

theorem pieceAt_map (f : V → W) (ps : List (Piece K V)) (k : K) :
    pieceAt (ps.map (Piece.map f)) k = (pieceAt ps k).map (Piece.map f) := by
  induction ps with
  | nil => rfl
  | cons q ps ih =>
    by_cases hk : k < q.stop
    · by_cases hs : q.start ≤ k <;> simp [pieceAt, Piece.map, Option.filter, hk, hs]
    · simpa [pieceAt, Piece.map, hk] using ih

theorem Ordered.mem_valuesAt {ps : List (Piece K (List V))} (h : Ordered ps) {v : V} :
    v ∈ valuesAt ps k ↔ ∃ p ∈ ps, p.Contains k ∧ v ∈ p.value := by
  unfold valuesAt
  cases hp : pieceAt ps k with
  | none =>
    have hn (p : Piece K (List V)) (hm : p ∈ ps) : ¬ p.Contains k := fun hc => by
      rw [h.pieceAt_eq_some.mpr ⟨hm, hc⟩] at hp
      cases hp
    simp only [Option.map_none, Option.getD_none, not_mem_nil, false_iff]
    rintro ⟨p, hm, hc, -⟩
    exact hn p hm hc
  | some p =>
    have hm := h.pieceAt_eq_some.mp hp
    constructor
    · exact fun hv => ⟨p, hm.1, hm.2, hv⟩
    · rintro ⟨q, hq, hc, hv⟩
      have heq : pieceAt ps k = some q := h.pieceAt_eq_some.mpr ⟨hq, hc⟩
      rw [hp] at heq
      cases heq
      exact hv

theorem valuesAt_map {f : List V → List W} (hf : f [] = []) (ps : List (Piece K (List V))) (k : K) :
    valuesAt (ps.map (Piece.map f)) k = f (valuesAt ps k) := by
  rw [valuesAt, pieceAt_map, valuesAt]
  cases pieceAt ps k with
  | none => exact hf.symm
  | some p => rfl

/-- The pieces from `cur` to `next`, one up to every end on the way. -/
def cut (next : K) : List (K × V) → K → List (Piece K (List V))
  | [], _ => []
  | e :: es, cur =>
    if cur = e.1 then cut next es cur
    else if next ≤ e.1 then [⟨cur, next, (e :: es).map Prod.snd⟩]
    else ⟨cur, e.1, (e :: es).map Prod.snd⟩ :: cut next es e.1

def reaching (next : K) (es : List (K × V)) : List (K × V) := es.filter fun e => next ≤ e.1

variable {es : List (K × V)} {e : K × V} {cur next : K}

theorem cut_of_forall_eq (h : ∀ e ∈ es, e.1 = cur) : cut next es cur = [] := by
  induction es with
  | nil => rfl
  | cons e es ih =>
    rw [cut, if_pos (h e (by simp)).symm]
    exact ih fun e' he => h e' (mem_cons_of_mem _ he)

theorem cut_value_ne_nil {p : Piece K (List V)} (hp : p ∈ cut next es cur) : p.value ≠ [] := by
  induction es generalizing cur with
  | nil => cases hp
  | cons e es ih =>
    rw [cut] at hp
    split at hp
    · exact ih hp
    split at hp
    · rw [mem_singleton.mp hp]
      exact cons_ne_nil _ _
    · rcases mem_cons.mp hp with rfl | hp
      · exact cons_ne_nil _ _
      · exact ih hp

section

variable (hlt : cur < next) (hcr : ∀ e ∈ es, cur ≤ e.1) (hsr : es.Pairwise fun e e' => e.1 ≤ e'.1)

include hlt hcr hsr

theorem cut_within : Ordered (cut next es cur) ∧ ∀ p ∈ cut next es cur, cur ≤ p.start ∧ p.stop ≤ next := by
  induction es generalizing cur with
  | nil => exact ⟨⟨by simp [cut], by simp [cut]⟩, by simp [cut]⟩
  | cons e es ih =>
    have hle := hcr e (by simp)
    rw [pairwise_cons] at hsr
    rw [cut]
    split
    · exact ih hlt (fun e' he => hcr e' (mem_cons_of_mem _ he)) hsr.2
    rename_i hne
    have hs : cur < e.1 := lt_of_le_of_ne hle hne
    split
    · exact ⟨⟨by simpa using hlt, by simp⟩, by simp⟩
    rename_i hn
    obtain ⟨ho, hin⟩ := ih (not_le.mp hn) hsr.1 hsr.2
    refine ⟨⟨?_, ?_⟩, ?_⟩
    · exact forall_mem_cons.mpr ⟨hs, ho.nonempty⟩
    · exact pairwise_cons.mpr ⟨fun q hq => (hin q hq).1, ho.apart⟩
    · refine forall_mem_cons.mpr ⟨⟨le_refl _, (not_le.mp hn).le⟩, fun p hp => ?_⟩
      exact ⟨hle.trans (hin p hp).1, (hin p hp).2⟩

theorem mem_cut (hk : cur ≤ k) (hk' : k < next) (v : V) :
    (∃ p ∈ cut next es cur, p.Contains k ∧ v ∈ p.value) ↔ ∃ e ∈ es, k < e.1 ∧ e.2 = v := by
  induction es generalizing cur with
  | nil => simp [cut]
  | cons e es ih =>
    have hle := hcr e (by simp)
    have hcr' (e' : K × V) (he : e' ∈ es) := hcr e' (mem_cons_of_mem _ he)
    obtain ⟨hf, hr⟩ := pairwise_cons.mp hsr
    -- up to the end of the first interval all of them go on
    have ha (hke : k < e.1) : v ∈ (e :: es).map Prod.snd ↔ ∃ e' ∈ e :: es, k < e'.1 ∧ e'.2 = v := by
      rw [mem_map]
      refine ⟨fun ⟨e', he', hv⟩ => ⟨e', he', ?_, hv⟩, fun ⟨e', he', _, hv⟩ => ⟨e', he', hv⟩⟩
      rcases mem_cons.mp he' with rfl | he'
      · exact hke
      · exact hke.trans_le (hf e' he')
    have ht (hke : ¬ k < e.1) : (∃ e' ∈ e :: es, k < e'.1 ∧ e'.2 = v) ↔ ∃ e' ∈ es, k < e'.1 ∧ e'.2 = v := by
      simp [hke]
    rw [cut]
    split
    · rename_i heq
      rw [ht (not_lt.mpr (heq ▸ hk))]
      exact ih hlt hcr' hr hk
    split
    · rename_i hn
      rw [← ha (hk'.trans_le hn)]
      simp [Piece.Contains, hk, hk']
    rename_i hn
    by_cases hke : k < e.1
    · rw [← ha hke]
      constructor
      · rintro ⟨p, hp, hc, hv⟩
        rcases mem_cons.mp hp with rfl | hp
        · exact hv
        · have hin := (cut_within (not_le.mp hn) hf hr).2 p hp
          exact absurd (hke.trans_le (hin.1.trans hc.1)) (lt_irrefl k)
      · exact fun hv => ⟨_, mem_cons_self, ⟨hk, hke⟩, hv⟩
    · rw [ht hke, ← ih (not_le.mp hn) hf hr (not_lt.mp hke)]
      constructor
      · rintro ⟨p, hp, hc, hv⟩
        rcases mem_cons.mp hp with rfl | hp
        · exact absurd hc.2 hke
        · exact ⟨p, hp, hc, hv⟩
      · exact fun ⟨p, hp, hc⟩ => ⟨p, mem_cons_of_mem _ hp, hc⟩

end

structure Sweep (K V : Type) where
  cur : K
  ends : List (K × V)
  pieces : List (Piece K (List V))

namespace Sweep

variable {s : Sweep K V} {begun : List (Piece K V)} {d : Piece K V}

def advance (next : K) (s : Sweep K V) : Sweep K V :=
  ⟨next, reaching next s.ends, s.pieces ++ cut next s.ends s.cur⟩

structure Covers (s : Sweep K V) (begun : List (Piece K V)) : Prop where
  start_le : ∀ d ∈ begun, d.start ≤ s.cur
  sorted : s.ends.Pairwise fun e e' => e.1 ≤ e'.1
  le_ends : ∀ e ∈ s.ends, s.cur ≤ e.1
  ordered : Ordered s.pieces
  stop_le : ∀ p ∈ s.pieces, p.stop ≤ s.cur
  value_ne_nil : ∀ p ∈ s.pieces, p.value ≠ []
  before : ∀ k < s.cur, ∀ v, (∃ p ∈ s.pieces, p.Contains k ∧ v ∈ p.value) ↔
    ∃ d ∈ begun, d.Contains k ∧ d.value = v
  after : ∀ k, s.cur ≤ k → ∀ v, (∃ e ∈ s.ends, k < e.1 ∧ e.2 = v) ↔
    ∃ d ∈ begun, d.Contains k ∧ d.value = v

theorem covers_nil (cur : K) : Covers (V := V) ⟨cur, [], []⟩ [] where
  start_le := by simp
  sorted := by simp
  le_ends := by simp
  ordered := ⟨by simp, by simp⟩
  stop_le := by simp
  value_ne_nil := by simp
  before := by simp
  after := by simp

theorem mem_reaching {next : K} : e ∈ reaching next es ↔ e ∈ es ∧ next ≤ e.1 := by
  simp [reaching]

section

variable (h : s.Covers begun)

include h

theorem Covers.begin (hd : d.start = s.cur) (hle : d.start ≤ d.stop) (hsr : es.Pairwise fun e e' => e.1 ≤ e'.1)
    (hm : ∀ e, e ∈ es ↔ e = (d.stop, d.value) ∨ e ∈ s.ends) :
    Covers ⟨s.cur, es, s.pieces⟩ (d :: begun) where
  __ := h
  start_le := forall_mem_cons.mpr ⟨hd.le, h.start_le⟩
  sorted := hsr
  le_ends := by
    intro e he
    rcases (hm e).mp he with rfl | he
    · exact hd ▸ hle
    · exact h.le_ends e he
  before := by
    intro k hk v
    have hn : ¬ d.Contains k := fun hc => (hc.1.trans_lt hk).ne hd
    simp [h.before k hk v, hn]
  after := by
    intro k hk v
    have hc : d.Contains k ↔ k < d.stop := ⟨And.right, fun hs => ⟨hd.trans_le hk, hs⟩⟩
    simp [hc, ← h.after k hk v, hm]

theorem Covers.advance (hlt : s.cur < next) : (s.advance next).Covers begun := by
  obtain ⟨hct, hin⟩ := cut_within hlt h.le_ends h.sorted
  constructor
  case start_le => exact fun d hd => (h.start_le d hd).trans hlt.le
  case sorted => exact h.sorted.filter _
  case le_ends => exact fun e he => (mem_reaching.mp he).2
  case ordered => exact h.ordered.append hct h.stop_le fun p hp => (hin p hp).1
  case stop_le =>
    exact forall_mem_append.mpr ⟨fun p hp => (h.stop_le p hp).trans hlt.le, fun p hp => (hin p hp).2⟩
  case value_ne_nil =>
    exact forall_mem_append.mpr ⟨h.value_ne_nil, fun p hp => cut_value_ne_nil hp⟩
  case before =>
    intro k hk v
    simp only [Sweep.advance, mem_append, or_and_right, exists_or]
    by_cases hcr : k < s.cur
    · rw [← h.before k hcr v, or_iff_left]
      rintro ⟨p, hp, hc, -⟩
      exact absurd (hcr.trans_le ((hin p hp).1.trans hc.1)) (lt_irrefl k)
    · rw [mem_cut hlt h.le_ends h.sorted (not_lt.mp hcr) hk v, h.after k (not_lt.mp hcr) v, or_iff_right]
      rintro ⟨p, hp, hc, -⟩
      exact hcr (hc.2.trans_le (h.stop_le p hp))
  case after =>
    intro k hk v
    rw [← h.after k (hlt.le.trans hk) v]
    constructor
    · exact fun ⟨e, he, hlt, hv⟩ => ⟨e, (mem_reaching.mp he).1, hlt, hv⟩
    · exact fun ⟨e, he, hlt, hv⟩ => ⟨e, mem_reaching.mpr ⟨he, hk.trans hlt.le⟩, hlt, hv⟩

theorem Covers.le_last (hl : s.ends.getLast? = some e) : ∀ e' ∈ s.ends, e'.1 ≤ e.1 := by
  obtain ⟨es, hes⟩ := getLast?_eq_some_iff.mp hl
  intro e' he
  rw [hes] at he
  rcases mem_append.mp he with he | he
  · exact (pairwise_append.mp (hes ▸ h.sorted)).2.2 e' he e (by simp)
  · rw [mem_singleton.mp he]

theorem Covers.lt_last (hl : s.ends.getLast? = some e) : s.cur < e.1 ∨ ∀ e' ∈ s.ends, e'.1 = s.cur := by
  rcases (h.le_ends e (mem_of_getLast? hl)).lt_or_eq with hlt | heq
  · exact .inl hlt
  · exact .inr fun e' he => le_antisymm (heq ▸ h.le_last hl e' he) (h.le_ends e' he)

theorem Covers.mem_iff (hen : ∀ e ∈ s.ends, e.1 ≤ s.cur) (k : K) (v : V) :
    (∃ p ∈ s.pieces, p.Contains k ∧ v ∈ p.value) ↔ ∃ d ∈ begun, d.Contains k ∧ d.value = v := by
  by_cases hk : k < s.cur
  · exact h.before k hk v
  rw [← h.after k (not_lt.mp hk) v]
  constructor
  · rintro ⟨p, hp, hc, -⟩
    exact absurd (hc.2.trans_le (h.stop_le p hp)) hk
  · rintro ⟨e, he, hlt, -⟩
    exact absurd (hlt.trans_le (hen e he)) hk

end

end Sweep

end ZenFSPlus.Lib
