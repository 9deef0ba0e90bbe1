import ZenFSPlus.Db.SubBatchCount

/-!
The protection entries of a write batch while it is inserted. Every call for a key begins with `NextProtectionInfo`, also
the second one after `TryAgain`.
-/

namespace ZenFSPlus.Db

open List Util

variable {σ : Type}

def Call.isKey : Call → Bool
  | .putCF .. | .deleteCF .. | .singleDeleteCF .. | .deleteRangeCF .. | .mergeCF .. | .putBlobIndexCF .. => true
  | _ => false

section

variable {h : Handler σ} {I Q : σ → Prop}

theorem dispatch_call (st : IterateState σ) (r : Record) : ∃ c, (dispatch h st r).2.handler = (h.call c st.handler).2 ∧
      (c.isKey = true → (dispatch h st r).1 = (h.call c st.handler).1) := by
  have hk (c : Call) (ea : Bool) : (dispatchKey h c ea st).2.handler = (h.call c st.handler).2 ∧
        (dispatchKey h c ea st).1 = (h.call c st.handler).1 := by
    unfold dispatchKey
    dsimp only
    split
    · exact ⟨rfl, rfl⟩
    · exact ⟨rfl, rfl⟩
  cases r with
  | value | deletion | singleDeletion | rangeDeletion | merge | blobIndex =>
    exact ⟨_, (hk _ _).1, fun _ => (hk _ _).2⟩
  | _ => exact ⟨_, rfl, fun hc => by simp [Call.isKey] at hc⟩

variable (hcl : ∀ c s, I s → Q (h.call c s).2 ∧
  ((h.call c s).1 = .ok ∨ (h.call c s).1 = .tryAgain ∨ c.isKey = false → I (h.call c s).2))

include hcl

theorem dispatch_rule {st : IterateState σ} {r : Record} (hI : I st.handler) : Q (dispatch h st r).2.handler ∧
    ((dispatch h st r).1 = .ok ∨ (dispatch h st r).1 = .tryAgain → I (dispatch h st r).2.handler) := by
  obtain ⟨c, h2, h1⟩ := dispatch_call (h := h) st r
  obtain ⟨hQ, hn⟩ := hcl c st.handler hI
  rw [h2]
  refine ⟨hQ, fun hs => hn ?_⟩
  cases hc : c.isKey with
  | false => exact .inr (.inr rfl)
  | true =>
    rw [h1 hc] at hs
    exact hs.imp_right .inl

theorem attempt_rule {st : IterateState σ} {r : Record} (hI : I st.handler) : Q (attempt h st r).2.2.handler ∧
    ((attempt h st r).1 = .ok → I (attempt h st r).2.2.handler) := by
  obtain ⟨hQ, hn⟩ := dispatch_rule hcl (r := r) hI
  unfold attempt
  dsimp only
  split
  · next hs =>
    obtain ⟨hQ', hn'⟩ := dispatch_rule hcl (r := r) (hn (.inr hs))
    split
    · exact ⟨hQ, fun _ => hn (.inr hs)⟩
    split
    · next hs' =>
      split
      · exact ⟨hQ', fun _ => hn' (.inr hs')⟩
      · exact ⟨hQ', by simp⟩
    · exact ⟨hQ', fun hok => hn' (.inl hok)⟩
  · exact ⟨hQ, fun hok => hn (.inl hok)⟩

theorem iterateLoop_rule (hIQ : ∀ s, I s → Q s) (input : Bytes) (st : IterateState σ) (hI : I st.handler) :
    Q (iterateLoop h input st).2.2.handler := by
  fun_induction iterateLoop h input st with
  | case1 | case2 | case3 => exact hIQ _ hI
  | case4 st input _ _ r rest hr st' ha ih =>
    apply ih
    have hs := attempt_rule hcl (r := r) hI
    rw [ha] at hs
    exact hs.2 rfl
  | case5 => exact (attempt_rule hcl hI).1

theorem iterate_rule (hIQ : ∀ s, I s → Q s) (b : WriteBatch) {s : σ} (hI : I s) : Q (b.iterate h s).2 := by
  unfold WriteBatch.iterate WriteBatch.iterateRange
  split
  · exact hIQ s hI
  have hl := iterateLoop_rule hcl hIQ ((b.rep.take b.rep.length).drop kHeader) ⟨s, true, 0⟩ hI
  dsimp only
  split
  · exact hl
  · split
    · exact hl
    · exact hl

end

/-- A handler with `prot_info_idx_`; `used` are the entries of the records that were inserted, in order. -/
structure Protected (σ : Type) where
  handler : σ
  protInfoIdx : ℕ
  used : List ℕ
  tryAgains : ℕ

def Protected.call (h : Handler σ) (c : Call) (p : Protected σ) : Status × Protected σ :=
  let r := h.call c p.handler
  (r.1, if c.isKey then {
    handler := r.2
    protInfoIdx := p.protInfoIdx + 1
    used := if r.1 = .ok then p.used ++ [p.protInfoIdx] else p.used
    tryAgains := if r.1 = .tryAgain then p.tryAgains + 1 else p.tryAgains } else { p with handler := r.2 })

def Handler.protect (h : Handler σ) : Handler (Protected σ) where
  continue_ p := h.continue_ p.handler
  call := Protected.call h
  writeAfterCommit p := h.writeAfterCommit p.handler
  writeBeforePrepare p := h.writeBeforePrepare p.handler

namespace Protected

def InOrder (p : Protected σ) : Prop := p.tryAgains = 0 → p.used = range p.used.length

def Next (p : Protected σ) : Prop := p.tryAgains = 0 → p.used = range p.protInfoIdx

theorem Next.inOrder (p : Protected σ) (hp : p.Next) : p.InOrder := fun h0 => by
  rw [hp h0, length_range]

theorem call_next (h : Handler σ) (c : Call) (p : Protected σ) (hp : p.Next) :
    let r := call h c p
    r.2.InOrder ∧
    (r.1 = .ok ∨ r.1 = .tryAgain ∨ c.isKey = false → r.2.Next) := by
  cases hc : c.isKey with
  | false =>
    rw [call, hc]
    exact ⟨Next.inOrder _ hp, fun _ => hp⟩
  | true =>
    simp only [call, hc, if_true]
    cases (h.call c p.handler).1 with
    | ok =>
      have hn : p.tryAgains = 0 → p.used ++ [p.protInfoIdx] = range (p.protInfoIdx + 1) := fun h0 => by
        rw [range_succ, hp h0]
      exact ⟨Next.inOrder ⟨_, _, _, _⟩ hn, fun _ => hn⟩
    | tryAgain => simp [InOrder, Next]
    | _ => exact ⟨Next.inOrder p hp, by simp⟩

def inserted (ops : List Op) : Protected MemTableInserter :=
  ((Op.applyAll ops .new).iterate (MemTableInserter.handler (oneColumnFamily 0)).protect
    ⟨⟨10, [], none, 0, false, {}, []⟩, 0, [], 0⟩).2

end Protected

end ZenFSPlus.Db
