import Mathlib.Data.Prod.Lex
import Mathlib.Tactic.Common

/-!
Internal keys and their order. User keys are any linear order.
-/

namespace ZenFSPlus.Db

structure InternalKey (κ : Type) where
  userKey : κ
  tag : ℕ
  deriving DecidableEq

namespace InternalKey

variable {κ : Type}

def toLexDual (k : InternalKey κ) : κ ×ₗ ℕᵒᵈ := toLex (k.userKey, OrderDual.toDual k.tag)

theorem toLexDual_injective : Function.Injective (toLexDual (κ := κ)) := by
  rintro ⟨a, s⟩ ⟨b, t⟩ h
  have hp := congrArg ofLex h
  simp only [toLexDual, ofLex_toLex, Prod.mk.injEq, OrderDual.toDual_inj] at hp
  rw [hp.1, hp.2]

variable [LinearOrder κ]

instance : LinearOrder (InternalKey κ) := LinearOrder.lift' toLexDual toLexDual_injective

variable {a b : InternalKey κ}

theorem lt_iff : a < b ↔ a.userKey < b.userKey ∨ a.userKey = b.userKey ∧ b.tag < a.tag := by
  change a.toLexDual < b.toLexDual ↔ _
  rw [Prod.Lex.lt_iff]
  rfl

theorem le_iff : a ≤ b ↔ a.userKey < b.userKey ∨ a.userKey = b.userKey ∧ b.tag ≤ a.tag := by
  change a.toLexDual ≤ b.toLexDual ↔ _
  rw [Prod.Lex.le_iff]
  rfl

theorem userKey_le_of_le (h : a ≤ b) : a.userKey ≤ b.userKey := by
  rcases le_iff.mp h with h | ⟨h, -⟩
  · exact h.le
  · exact h.le

theorem lt_of_userKey_lt (h : a.userKey < b.userKey) : a < b := lt_iff.mpr (.inl h)

end InternalKey

end ZenFSPlus.Db
