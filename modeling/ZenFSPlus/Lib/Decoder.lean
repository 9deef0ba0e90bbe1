import Mathlib.Tactic.Common

/-!
Decoders that take their input from the front of a list, and loops of them: what a decoder reads back.
-/

namespace ZenFSPlus.Lib

open List

variable {τ ε α β σ ρ ι : Type} {s : σ} {r : ρ} {apply : σ → ι → σ} {fuel : ℕ} {encode : ι → List τ}

def Decoder (τ ε α : Type) : Type := List τ → Except ε (α × List τ)

namespace Decoder

def run (m : Decoder τ ε α) (input : List τ) : Except ε (α × List τ) := m input

def fail (e : ε) : Decoder τ ε α := fun _ => .error e

def ofOption (e : ε) (read : List τ → Option (α × List τ)) : Decoder τ ε α := fun input =>
  match read input with
  | some x => .ok x
  | none => .error e

instance : Monad (Decoder τ ε) where
  pure a := fun input => .ok (a, input)
  bind m f := fun input =>
    match m input with
    | .ok (a, rest) => f a rest
    | .error e => .error e

def iterate (step : σ → Decoder τ ε (σ ⊕ ρ)) (overrun : ε) : ℕ → σ → Decoder τ ε ρ
  | 0, _ => fail overrun
  | fuel + 1, s => do
    match ← step s with
    | .inl s => iterate step overrun fuel s
    | .inr r => pure r

def loop (step : σ → Decoder τ ε (σ ⊕ ρ)) (overrun : ε) (s : σ) : Decoder τ ε ρ := fun input =>
  iterate step overrun (input.length + 1) s input

theorem run_bind (m : Decoder τ ε α) (f : α → Decoder τ ε β) (input : List τ) :
    (m >>= f).run input = match m.run input with
      | .ok (a, rest) => (f a).run rest
      | .error e => .error e :=
  rfl

def Reads (m : Decoder τ ε α) (tokens : List τ) (a : α) : Prop := ∀ rest, m.run (tokens ++ rest) = .ok (a, rest)

theorem reads_pure (a : α) : Reads (pure a : Decoder τ ε α) [] a := fun _ => rfl

variable {m : Decoder τ ε α} {f : α → Decoder τ ε β}

theorem Reads.bind {tokens tokens' : List τ} {a : α} {b : β}
    (hm : Reads m tokens a) (hf : Reads (f a) tokens' b) : Reads (m >>= f) (tokens ++ tokens') b := by
  intro rest
  rw [append_assoc, run_bind, hm]
  exact hf rest

theorem Reads.map {tokens : List τ} {a : α} (hm : Reads m tokens a) (f : α → β) :
    Reads (m >>= fun a => pure (f a)) tokens (f a) := by
  intro rest
  rw [run_bind, hm]
  rfl

theorem reads_ofOption {read : List τ → Option (α × List τ)} {tokens : List τ} {a : α} (e : ε)
    (h : ∀ rest, read (tokens ++ rest) = some (a, rest)) : Reads (ofOption e read) tokens a := by
  intro rest
  rw [run, ofOption, h]

variable {input rest : List τ}

section

variable {step : σ → Decoder τ ε (σ ⊕ ρ)} {overrun : ε}

theorem iterate_inl {s s' : σ} (h : (step s).run input = .ok (.inl s', rest)) :
    (iterate step overrun (fuel + 1) s).run input = (iterate step overrun fuel s').run rest := by
  rw [iterate, run_bind, h]

theorem iterate_inr (h : (step s).run input = .ok (.inr r, rest)) :
    (iterate step overrun (fuel + 1) s).run input = .ok (r, rest) := by
  rw [iterate, run_bind, h]
  rfl

theorem loop_inr (h : (step s).run input = .ok (.inr r, rest)) : (loop step overrun s).run input = .ok (r, rest) :=
  iterate_inr h

theorem iterate_records {rs : List ι}
    (h : ∀ i ∈ rs, ∀ s, Reads (step s) (encode i) (.inl (apply s i))) (hne : ∀ i ∈ rs, encode i ≠ [])
    (he : (step (rs.foldl apply s)).run input = .ok (.inr r, rest))
    (hf : (rs.flatMap encode).length < fuel) :
    (iterate step overrun fuel s).run (rs.flatMap encode ++ input) = .ok (r, rest) := by
  obtain ⟨fuel, rfl⟩ : ∃ n, fuel = n + 1 := Nat.exists_eq_succ_of_ne_zero (by omega)
  induction rs generalizing s fuel with
  | nil => exact iterate_inr he
  | cons i rs ih =>
    obtain ⟨hi, h⟩ := forall_mem_cons.mp h
    obtain ⟨hp, hne⟩ := forall_mem_cons.mp hne
    have hl := length_pos_iff.mpr hp
    rw [flatMap_cons, length_append] at hf
    obtain ⟨fuel, rfl⟩ : ∃ n, fuel = n + 1 := Nat.exists_eq_succ_of_ne_zero (by omega)
    rw [flatMap_cons, append_assoc, iterate_inl (hi s _)]
    exact ih h hne he fuel (by omega)

theorem loop_records {rs : List ι}
    (h : ∀ i ∈ rs, ∀ s, Reads (step s) (encode i) (.inl (apply s i))) (hne : ∀ i ∈ rs, encode i ≠ [])
    (he : (step (rs.foldl apply s)).run input = .ok (.inr r, rest)) :
    (loop step overrun s).run (rs.flatMap encode ++ input) = .ok (r, rest) := by
  refine iterate_records h hne he ?_
  rw [length_append]
  omega

end

end Decoder

end ZenFSPlus.Lib
