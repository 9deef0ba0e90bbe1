import Mathlib.Tactic.Common

/-!
Runs of a step function that may refuse a step. An interleaving of several
parties is the list of the actions they take.
-/

namespace ZenFSPlus.Lib

open List

theorem bind_of_ok {ε α β : Type} {x : Except ε α} {a : α} (h : x = .ok a) (f : α → Except ε β) : (x >>= f) = f a := by
  rw [h]
  rfl

theorem bind_eq_ok {ε α β : Type} {x : Except ε α} {f : α → Except ε β} {b : β} :
    (x >>= f) = .ok b ↔ ∃ a, x = .ok a ∧ f a = .ok b := by
  cases x with
  | error e => exact ⟨nofun, fun ⟨_, h, _⟩ => nomatch h⟩
  | ok a => exact ⟨fun h => ⟨a, rfl, h⟩, fun ⟨_, ha, h⟩ => by cases ha; exact h⟩

theorem exists_ok_of_check {ε α : Type} {x : Except ε α} {P : α → Prop} [DecidablePred P]
    (h : x.toOption.any (fun a => decide (P a)) = true) : ∃ a, x = .ok a ∧ P a := by
  cases x with
  | error e => cases h
  | ok a => exact ⟨a, rfl, of_decide_eq_true h⟩

theorem exists_some_of_check {α : Type} {x : Option α} {P : α → Prop} [DecidablePred P]
    (h : x.any (fun a => decide (P a)) = true) : ∃ a, x = some a ∧ P a := by
  obtain ⟨a, ha, hP⟩ := (Option.any_eq_true _ _).mp h
  exact ⟨a, ha, of_decide_eq_true hP⟩

theorem foldlM_simulates {ε σ τ α : Type} {f : σ → α → Except ε σ} {g : τ → α → τ} (R : σ → τ → Prop)
    {as : List α} (hs : ∀ s a s' t, a ∈ as → f s a = .ok s' → R s t → R s' (g t a)) {s s' : σ} {t : τ}
    (hr : as.foldlM f s = .ok s') (h : R s t) : R s' (as.foldl g t) := by
  induction as generalizing s t with
  | nil =>
    cases hr
    exact h
  | cons a as ih =>
    rw [foldlM_cons] at hr
    obtain ⟨u, hu, hr⟩ := bind_eq_ok.mp hr
    exact ih (fun s b s' t hb => hs s b s' t (mem_cons_of_mem a hb)) hr (hs s a u t mem_cons_self hu h)

variable {S A : Type} (step : S → A → Option S)

def run : S → List A → Option S
  | s, [] => some s
  | s, a :: as => (step s a).bind fun t => run t as

def Along (P : S → A → Prop) : S → List A → Prop
  | _, [] => True
  | s, a :: as => P s a ∧ ∀ t, step s a = some t → Along P t as

variable {step}

instance decidableAlong {P : S → A → Prop} [∀ s a, Decidable (P s a)] :
    (s : S) → (as : List A) → Decidable (Along step P s as)
  | _, [] => inferInstanceAs (Decidable True)
  | s, a :: as =>
    have : Decidable (∀ t, step s a = some t → Along step P t as) :=
      match step s a with
      | none => isTrue nofun
      | some t => @decidable_of_iff _ (Along step P t as)
        ⟨fun h _ ht => Option.some.inj ht ▸ h, fun h => h t rfl⟩ (decidableAlong t as)
    inferInstanceAs (Decidable (P s a ∧ _))

@[simp] theorem run_nil (s : S) : run step s [] = some s := rfl

variable {as : List A}

theorem run_cons {s u : S} {a : A} :
    run step s (a :: as) = some u ↔ ∃ t, step s a = some t ∧ run step t as = some u := by
  simp [run, Option.bind_eq_some_iff]

theorem run_append (s : S) (as bs : List A) : run step s (as ++ bs) = (run step s as).bind fun t => run step t bs := by
  induction as generalizing s with
  | nil => rfl
  | cons a as ih =>
    cases h : step s a with
    | none => simp [run, h]
    | some t => simp [run, h, ih]

theorem Along.and {P Q : S → A → Prop} {s : S} (hp : Along step P s as)
    (hq : Along step Q s as) : Along step (fun s a => P s a ∧ Q s a) s as := by
  induction as generalizing s with
  | nil => trivial
  | cons a as ih => exact ⟨⟨hp.1, hq.1⟩, fun t ht => ih (hp.2 t ht) (hq.2 t ht)⟩

theorem run_invariant_along (P : S → A → Prop) (I : S → Prop)
    (hst : ∀ s a t, P s a → step s a = some t → I s → I t) {s t : S}
    (hr : run step s as = some t) (hp : Along step P s as) (hs : I s) : I t := by
  induction as generalizing s with
  | nil =>
    cases hr
    exact hs
  | cons a as ih =>
    obtain ⟨u, hu, hr⟩ := run_cons.mp hr
    exact ih hr (hp.2 u hu) (hst s a u hp.1 hu hs)

theorem along_of_invariant {P : S → A → Prop} (Q : A → Prop) (I : S → Prop)
    (hg : ∀ s a, Q a → I s → P s a) (hst : ∀ s a t, Q a → step s a = some t → I s → I t)
    {s : S} (h : ∀ a ∈ as, Q a) (hs : I s) : Along step P s as := by
  induction as generalizing s with
  | nil => trivial
  | cons a as ih =>
    have ha := h a (by simp)
    exact ⟨hg s a ha hs, fun t ht => ih (fun b hb => h b (mem_cons_of_mem _ hb)) (hst s a t ha ht hs)⟩

theorem along_of_forall (Q : A → Prop) (h : ∀ a ∈ as, Q a) (s : S) : Along step (fun _ a => Q a) s as :=
  along_of_invariant Q (fun _ => True) (fun _ _ ha _ => ha) (fun _ _ _ _ _ _ => trivial) h trivial

theorem run_invariant (I : S → Prop) (hst : ∀ s a t, step s a = some t → I s → I t) {s t : S}
    (hr : run step s as = some t) (hs : I s) : I t :=
  run_invariant_along (fun _ _ => True) I (fun s a t _ => hst s a t) hr
    (along_of_forall (fun _ => True) (fun _ _ => trivial) s) hs

theorem run_length_le (rank : S → ℕ) (I : S → Prop) (hst : ∀ s a t, step s a = some t → I s → I t)
    (hrn : ∀ s a t, step s a = some t → I s → rank t < rank s) {s t : S}
    (hr : run step s as = some t) (hs : I s) : as.length ≤ rank s := by
  induction as generalizing s with
  | nil => exact Nat.zero_le _
  | cons a as ih =>
    obtain ⟨u, hu, hr⟩ := run_cons.mp hr
    have hl := ih hr (hst s a u hu hs)
    have hlt := hrn s a u hu hs
    rw [length_cons]
    omega

theorem run_map {T : Type} {step' : T → A → Option T} (obs : S → T) (I : S → Prop)
    (hst : ∀ s a, I s → (step s a).map obs = step' (obs s) a ∧ ∀ t, step s a = some t → I t)
    {s : S} (hs : I s) (as : List A) : (run step s as).map obs = run step' (obs s) as := by
  induction as generalizing s with
  | nil => rfl
  | cons a as ih =>
    obtain ⟨hm, hi⟩ := hst s a hs
    rw [run, run, ← hm]
    cases ha : step s a with
    | none => rfl
    | some t => exact ih (hi t ha)

def RunsAlone (step : S → A → Option S) (a : A) (s t : S) : Prop :=
  ∃ n, run step s (replicate n a) = some t

theorem RunsAlone.refl (a : A) (s : S) : RunsAlone step a s s := ⟨0, rfl⟩

theorem RunsAlone.head {a : A} {s t u : S} (hs : step s a = some t) (ht : RunsAlone step a t u) :
    RunsAlone step a s u := by
  obtain ⟨n, hn⟩ := ht
  exact ⟨n + 1, run_cons.mpr ⟨t, hs, hn⟩⟩

theorem RunsAlone.trans {a : A} {s t u : S} (hst : RunsAlone step a s t) (htu : RunsAlone step a t u) :
    RunsAlone step a s u := by
  obtain ⟨n, hn⟩ := hst
  obtain ⟨k, hk⟩ := htu
  refine ⟨n + k, ?_⟩
  rw [← replicate_append_replicate, run_append, hn]
  exact hk

end ZenFSPlus.Lib
