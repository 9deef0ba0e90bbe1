import Mathlib.Data.List.Pairwise
import Mathlib.Order.Bounds.Basic
import Mathlib.Tactic.Common

/-!
A sorted sequence of keys cut into parts, each closed by a separator, and the part that a search over the separators
selects for a target.
-/

namespace ZenFSPlus.Lib

open List

variable {α β γ : Type}

def select (before : γ → Bool) (parts : List γ) : Option γ :=
  match parts.find? fun p => !before p with
  | some p => some p
  | none => parts.getLast?

theorem select_of_split {bef : γ → Bool} {pre post : List γ} {p : γ}
    (hpr : ∀ q ∈ pre, bef q = true) (hp : bef p = false) :
    select bef (pre ++ p :: post) = some p := by
  have hf : (pre ++ p :: post).find? (fun q => !bef q) = some p := by
    rw [find?_append, find?_eq_none.mpr, Option.none_or, find?_cons_of_pos]
    · simp [hp]
    · intro q hq
      simp [hpr q hq]
  simp only [select, hf]

theorem select_of_all_before {bef : γ → Bool} {pre : List γ} {p : γ}
    (hpr : ∀ q ∈ pre, bef q = true) (hp : bef p = true) :
    select bef (pre ++ [p]) = some p := by
  have hf : (pre ++ [p]).find? (fun q => !bef q) = none := by
    apply find?_eq_none.mpr
    intro q hq
    rcases mem_append.mp hq with hq | hq
    · simp [hpr q hq]
    · simp [mem_singleton.mp hq, hp]
  simp only [select, hf, getLast?_concat]

theorem select_map {δ : Type} (f : δ → γ) (bef : γ → Bool) (parts : List δ) :
    select bef (parts.map f) = (select (fun p => bef (f p)) parts).map f := by
  unfold select
  rw [find?_map, getLast?_map]
  have hc : ((fun p => !bef p) ∘ f) = fun p => !bef (f p) := rfl
  rw [hc]
  cases parts.find? fun p => !bef (f p) with
  | none => rfl
  | some p => rfl

variable [LinearOrder α]

theorem head?_of_least {l : List (α)} {k : α} (hl : l.Pairwise (· < ·)) (hk : k ∈ l)
    (hls : ∀ x ∈ l, k ≤ x) : l.head? = some k := by
  cases l with
  | nil => cases hk
  | cons x l =>
    rcases mem_cons.mp hk with rfl | hk
    · rfl
    · have hxk := (pairwise_cons.mp hl).1 k hk
      exact absurd hxk (hls x mem_cons_self).not_gt

theorem getLast?_of_greatest {l : List (α)} {k : α} (hl : l.Pairwise (· < ·)) (hk : k ∈ l)
    (hg : ∀ x ∈ l, x ≤ k) : l.getLast? = some k := by
  rcases eq_nil_or_concat l with rfl | ⟨l, x, h⟩
  · cases hk
  rw [concat_eq_append] at h
  subst h
  rw [getLast?_concat]
  rcases mem_append.mp hk with hk | hk
  · have hkx := (pairwise_append.mp hl).2.2 k hk x mem_cons_self
    exact absurd hkx (hg x (mem_append_right _ mem_cons_self)).not_gt
  · rw [mem_singleton.mp hk]

theorem isLeast_after {A B : List α} {x t : α} (hl : (A ++ x :: B).Pairwise (· < ·)) (hA : ∀ y ∈ A, y ≤ t)
    (ht : t < x) : IsLeast {y | y ∈ A ++ x :: B ∧ t < y} x := by
  refine ⟨⟨mem_append_right _ mem_cons_self, ht⟩, ?_⟩
  rintro y ⟨hy, hty⟩
  rcases mem_append.mp hy with hy | hy
  · exact absurd hty (hA y hy).not_gt
  · rcases mem_cons.mp hy with rfl | hy
    · exact le_refl y
    · exact ((pairwise_cons.mp (pairwise_append.mp hl).2.1).1 y hy).le

variable [LinearOrder β]

structure Separated (view : α → β) (keys : γ → List α) (sep : γ → α) (parts : List γ) : Prop where
  monotone : Monotone view
  nonempty : ∀ p ∈ parts, keys p ≠ []
  within : ∀ p ∈ parts, ∀ k ∈ keys p, view k ≤ view (sep p)
  apart : parts.Pairwise fun p q => ∀ k ∈ keys q, view (sep p) < view k

namespace Separated

variable {view : α → β} {keys : γ → List α} {sep : γ → α} {pre post : List γ} {p : γ} {k t : α}

section

variable (h : Separated view keys sep (pre ++ p :: post))

include h

theorem sep_lt {q : γ} (hq : q ∈ pre) (hk : k ∈ keys p) : view (sep q) < view k :=
  (pairwise_append.mp h.apart).2.2 q hq p mem_cons_self k hk

theorem le_sep (hk : k ∈ keys p) : view k ≤ view (sep p) := h.within p (mem_append_right _ mem_cons_self) k hk

theorem lt_of_view_lt {a b : α} (hab : view a < view b) : a < b := h.monotone.reflect_lt hab

theorem select_own (hk : k ∈ keys p) :
    select (fun q => decide (view (sep q) < view k)) (pre ++ p :: post) = some p := by
  apply select_of_split
  · intro q hq
    exact decide_eq_true (h.sep_lt hq hk)
  · exact decide_eq_false (h.le_sep hk).not_gt

theorem select_seek (hk : k ∈ keys p) (ht : t ≤ k) (hl : ∀ q ∈ pre ++ p :: post, ∀ x ∈ keys q, x < k → x < t) :
    select (fun q => decide (view (sep q) < view t)) (pre ++ p :: post) = some p ∨
    ∃ pre' q, pre = pre' ++ [q] ∧ select (fun q => decide (view (sep q) < view t)) (pre ++ p :: post) = some q ∧
      ∀ x ∈ keys p, k ≤ x := by
  have hp : ¬ view (sep p) < view t := ((h.monotone ht).trans (h.le_sep hk)).not_gt
  rcases eq_nil_or_concat pre with rfl | ⟨pre', q, hpr⟩
  · exact .inl (select_of_split (by simp) (decide_eq_false hp))
  rw [concat_eq_append] at hpr
  subst hpr
  have hq : q ∈ pre' ++ [q] := mem_append_right _ mem_cons_self
  have hqm : q ∈ pre' ++ [q] ++ p :: post := mem_append_left _ hq
  -- a key of the part `q` is below `k`, hence below the target
  have hb : ∀ r ∈ pre', view (sep r) < view t := by
    intro r hr
    obtain ⟨x, hx⟩ := exists_mem_of_ne_nil _ (h.nonempty q hqm)
    have hxk : x < k := h.lt_of_view_lt ((h.within q hqm x hx).trans_lt (h.sep_lt hq hk))
    have hrx : view (sep r) < view x := by
      have ha : pre' ++ [q] ++ p :: post = pre' ++ q :: (p :: post) := by simp
      rw [ha] at h
      exact h.sep_lt hr hx
    exact hrx.trans_le (h.monotone (hl q hqm x hx hxk).le)
  by_cases hqt : view (sep q) < view t
  · refine .inl (select_of_split ?_ (decide_eq_false hp))
    intro r hr
    rcases mem_append.mp hr with hr | hr
    · exact decide_eq_true (hb r hr)
    · rw [mem_singleton.mp hr]
      exact decide_eq_true hqt
  · refine .inr ⟨pre', q, rfl, ?_, ?_⟩
    · rw [append_assoc, singleton_append]
      exact select_of_split (fun r hr => decide_eq_true (hb r hr)) (decide_eq_false hqt)
    · intro x hx
      by_contra hlt
      have hxt : x < t := hl p (mem_append_right _ mem_cons_self) x hx (not_le.mp hlt)
      exact hqt ((h.sep_lt hq hx).trans_le (h.monotone hxt.le))

theorem select_seekForPrev (hk : k ∈ keys p) (ht : k ≤ t) (hg : ∀ q ∈ pre ++ p :: post, ∀ x ∈ keys q, k < x → t < x) :
    select (fun q => decide (view (sep q) < view t)) (pre ++ p :: post) = some p ∨
    ∃ q post', post = q :: post' ∧ select (fun q => decide (view (sep q) < view t)) (pre ++ p :: post) = some q ∧
      ∀ x ∈ keys p, x ≤ k := by
  have hb : ∀ r ∈ pre, decide (view (sep r) < view t) = true := by
    intro r hr
    exact decide_eq_true ((h.sep_lt hr hk).trans_le (h.monotone ht))
  by_cases hp : view (sep p) < view t
  · cases post with
    | nil => exact .inl (select_of_all_before hb (decide_eq_true hp))
    | cons q post' =>
      have ha : pre ++ p :: q :: post' = pre ++ [p] ++ q :: post' := by simp
      refine .inr ⟨q, post', rfl, ?_, ?_⟩
      · rw [ha] at h hg ⊢
        have hq : q ∈ pre ++ [p] ++ q :: post' := mem_append_right _ mem_cons_self
        obtain ⟨x, hx⟩ := exists_mem_of_ne_nil _ (h.nonempty q hq)
        have hpx : view (sep p) < view x := h.sep_lt (mem_append_right _ mem_cons_self) hx
        have hkp : view k ≤ view (sep p) := h.within p (mem_append_left _ (mem_append_right _ mem_cons_self)) k hk
        have htx : t < x := hg q hq x hx (h.lt_of_view_lt (hkp.trans_lt hpx))
        apply select_of_split
        · intro r hr
          rcases mem_append.mp hr with hr | hr
          · exact hb r hr
          · rw [mem_singleton.mp hr]
            exact decide_eq_true hp
        · exact decide_eq_false ((h.monotone htx.le).trans (h.le_sep hx)).not_gt
      · intro x hx
        by_contra hlt
        have htx : t < x := hg p (mem_append_right _ mem_cons_self) x hx (not_le.mp hlt)
        exact absurd hp ((h.monotone htx.le).trans (h.le_sep hx)).not_gt
  · exact .inl (select_of_split hb (decide_eq_false hp))

end

end Separated

end ZenFSPlus.Lib
