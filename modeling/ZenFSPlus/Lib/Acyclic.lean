import Mathlib.Logic.Relation

/-!
Relations without cycles, and what adding the edges of one vertex to them does.
-/

namespace ZenFSPlus.Lib

open Relation

variable {α : Type} {r r' : α → α → Prop}

def Acyclic (r : α → α → Prop) : Prop := ∀ a, ¬ TransGen r a a

theorem Acyclic.mono (h : Acyclic r') (hs : ∀ a b, r a b → r' a b) : Acyclic r :=
  fun a ha => h a (TransGen.mono hs a a ha)

theorem transGen_or_through {v : α} (hn : ∀ a b, r' a b → a = v ∨ r a b) {a b : α} (h : TransGen r' a b) :
    TransGen r a b ∨ ReflTransGen r' a v ∧ TransGen r' v b := by
  induction h with
  | single hab =>
    rcases hn _ _ hab with rfl | hab'
    · exact .inr ⟨.refl, .single hab⟩
    · exact .inl (.single hab')
  | tail hp hbc ih =>
    rcases ih with ho | ⟨hto, hf⟩
    · rcases hn _ _ hbc with rfl | hbc'
      · exact .inr ⟨hp.to_reflTransGen, .single hbc⟩
      · exact .inl (ho.tail hbc')
    · exact .inr ⟨hto, hf.tail hbc⟩

theorem Acyclic.extend (h : Acyclic r) {v : α} (hn : ∀ a b, r' a b → a = v ∨ r a b) (hv : ¬ TransGen r' v v) :
    Acyclic r' := by
  intro a ha
  rcases transGen_or_through hn ha with ho | ⟨hto, hf⟩
  · exact h a ho
  · exact hv (hf.trans_left hto)

theorem not_transGen_self_of_closed {v : α} (S : α → Prop) (hv : ¬ S v) (hf : ∀ a, r v a → S a)
    (hcl : ∀ a b, S a → r a b → S b) : ¬ TransGen r v v := by
  have hin : ∀ a, TransGen r v a → S a := by
    intro a ha
    induction ha with
    | single hva => exact hf _ hva
    | tail _ hbc ih => exact hcl _ _ ih hbc
  exact fun hc => hv (hin v hc)

end ZenFSPlus.Lib
