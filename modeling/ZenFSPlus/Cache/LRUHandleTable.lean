import Mathlib.Algebra.GroupWithZero.Nat
import Mathlib.Data.List.Nodup

/-!
`LRUHandleTable`: chains of entries under the upper bits of their hashes.
-/

namespace ZenFSPlus.Cache

open List

structure LRUHandleTable where
  lengthBits : ℕ := 4
  list : ℕ → List ℕ := fun _ => []
  elems : UInt32 := 0
  maxLengthBits : ℕ

namespace LRUHandleTable

variable {κ : Type} [DecidableEq κ] (tag : ℕ → κ × UInt32) (t : LRUHandleTable) {xs : List ℕ}

/-- The chain of a hash in a table of `2 ^ bits` chains. -/
def chain (bits : ℕ) (hash : UInt32) : ℕ := hash.toNat >>> (32 - bits)

def lookup (k : κ × UInt32) : Option ℕ := (t.list (chain t.lengthBits k.2)).find? fun e => tag e = k

def resize : LRUHandleTable :=
  if t.maxLengthBits ≤ t.lengthBits then t
  else if 31 ≤ t.lengthBits then t
  else
    let entries := (range (2 ^ t.lengthBits)).flatMap t.list
    { t with
      lengthBits := t.lengthBits + 1
      -- every entry goes to the front of its new chain
      list := fun i => (entries.filter fun e => chain (t.lengthBits + 1) (tag e).2 = i).reverse }

def place (e : ℕ) : List ℕ → List ℕ
  | [] => [e]
  | x :: xs => if tag x = tag e then e :: xs else x :: place e xs

def setChain (i : ℕ) (entries : List ℕ) : LRUHandleTable := { t with list := Function.update t.list i entries }

def insert (e : ℕ) : Option ℕ × LRUHandleTable :=
  let old := t.lookup tag (tag e)
  let i := chain t.lengthBits (tag e).2
  let t := t.setChain i (place tag e (t.list i))
  if old = none then
    let t := { t with elems := t.elems + 1 }
    if 0 < t.elems.toNat >>> t.lengthBits then (old, t.resize tag) else (old, t)
  else (old, t)

def remove (k : κ × UInt32) : Option ℕ × LRUHandleTable :=
  let result := t.lookup tag k
  let i := chain t.lengthBits k.2
  if result = none then (result, t)
  else (result, { t.setChain i ((t.list i).eraseP fun e => tag e = k) with elems := t.elems - 1 })

def Mem (e : ℕ) : Prop := e ∈ t.list (chain t.lengthBits (tag e).2)

structure Wf : Prop where
  bits_le : t.lengthBits ≤ 31
  placed : ∀ i, ∀ e ∈ t.list i, i = chain t.lengthBits (tag e).2
  nodup : ∀ i, ((t.list i).map tag).Nodup

variable {tag t} {e : ℕ}

omit [DecidableEq κ] in
theorem Wf.mem_of_mem (h : t.Wf tag) {i : ℕ} (he : e ∈ t.list i) : t.Mem tag e := by
  rw [Mem, ← h.placed i e he]
  exact he

omit [DecidableEq κ] in
theorem Wf.eq_of_tag (h : t.Wf tag) {e' : ℕ} (he : t.Mem tag e) (he' : t.Mem tag e') (ht : tag e = tag e') :
    e = e' := by
  rw [Mem, ht] at he
  exact inj_on_of_nodup_map (h.nodup _) he he' ht

variable {k : κ × UInt32}

theorem Wf.lookup_eq_some (h : t.Wf tag) : t.lookup tag k = some e ↔ t.Mem tag e ∧ tag e = k := by
  constructor
  · intro hf
    have ht : tag e = k := by simpa using find?_some hf
    exact ⟨h.mem_of_mem (mem_of_find?_eq_some hf), ht⟩
  · rintro ⟨he, rfl⟩
    cases hf : t.lookup tag (tag e) with
    | none =>
      have hne := find?_eq_none.mp hf e he
      simp at hne
    | some e' =>
      have ht : tag e' = tag e := by simpa using find?_some hf
      rw [h.eq_of_tag (h.mem_of_mem (mem_of_find?_eq_some hf)) he ht]

theorem Wf.lookup_eq_none (h : t.Wf tag) : t.lookup tag k = none ↔ ∀ e, t.Mem tag e → tag e ≠ k := by
  constructor
  · intro hn e he ht
    rw [h.lookup_eq_some.mpr ⟨he, ht⟩] at hn
    cases hn
  · intro ha
    cases hf : t.lookup tag k with
    | none => rfl
    | some e =>
      obtain ⟨he, ht⟩ := h.lookup_eq_some.mp hf
      exact absurd ht (ha e he)

omit [DecidableEq κ] in
theorem Wf.congr (h : t.Wf tag) {tag' : ℕ → κ × UInt32} (ht : ∀ e, t.Mem tag e → tag' e = tag e) : t.Wf tag' := by
  have ht' (i e : ℕ) (he : e ∈ t.list i) : tag' e = tag e := ht e (h.mem_of_mem he)
  refine ⟨h.bits_le, ?_, ?_⟩
  · intro i e he
    rw [ht' i e he]
    exact h.placed i e he
  · intro i
    rw [map_congr_left fun e he => ht' i e he]
    exact h.nodup i

theorem chain_lt {bits : ℕ} (hash : UInt32) (hb : bits ≤ 32) : chain bits hash < 2 ^ bits := by
  rw [chain, Nat.shiftRight_eq_div_pow, Nat.div_lt_iff_lt_mul (Nat.two_pow_pos _), ← Nat.pow_add,
    Nat.add_sub_cancel' hb]
  exact hash.toNat_lt

omit [DecidableEq κ] in
theorem Wf.resize (h : t.Wf tag) : (t.resize tag).Wf tag ∧ ∀ e, (t.resize tag).Mem tag e ↔ t.Mem tag e := by
  rw [LRUHandleTable.resize]
  split
  · exact ⟨h, fun _ => Iff.rfl⟩
  split_ifs with hb
  · exact ⟨h, fun _ => Iff.rfl⟩
  have hen (e : ℕ) : e ∈ (range (2 ^ t.lengthBits)).flatMap t.list ↔ t.Mem tag e := by
    rw [mem_flatMap]
    constructor
    · rintro ⟨i, -, he⟩
      exact h.mem_of_mem he
    · intro he
      have hle := h.bits_le
      exact ⟨_, mem_range.mpr (chain_lt (tag e).2 (by omega)), he⟩
  have hn : (((range (2 ^ t.lengthBits)).flatMap t.list).map tag).Nodup := by
    rw [map_flatMap, nodup_flatMap]
    refine ⟨fun i _ => h.nodup i, nodup_range.imp ?_⟩
    -- the tag tells the chain
    intro i j hij k hi hj
    obtain ⟨e, he, rfl⟩ := mem_map.mp hi
    obtain ⟨e', he', ht⟩ := mem_map.mp hj
    apply hij
    rw [h.placed i e he, h.placed j e' he', ht]
  refine ⟨⟨Nat.succ_le_of_lt (Nat.lt_of_not_le hb), ?_, ?_⟩, ?_⟩
  · intro i e he
    have hi := (mem_filter.mp (mem_reverse.mp he)).2
    simpa [eq_comm] using hi
  · intro i
    rw [map_reverse, nodup_reverse]
    exact hn.sublist (filter_sublist.map tag)
  · intro e
    rw [Mem, mem_reverse, mem_filter, hen]
    simp

theorem mem_eraseP {x : ℕ} (hn : (xs.map tag).Nodup) : x ∈ xs.eraseP (fun e => tag e = k) ↔ x ∈ xs ∧ tag x ≠ k := by
  induction xs with
  | nil => simp
  | cons y xs ih =>
    rw [map_cons, nodup_cons] at hn
    by_cases hy : tag y = k
    · rw [eraseP_cons_of_pos (by simpa using hy), mem_cons]
      constructor
      · intro hx
        refine ⟨Or.inr hx, fun ht => hn.1 ?_⟩
        rw [hy, ← ht]
        exact mem_map_of_mem hx
      · rintro ⟨rfl | hx, hne⟩
        · exact absurd hy hne
        · exact hx
    · rw [eraseP_cons_of_neg (by simpa using hy), mem_cons, mem_cons, ih hn.2]
      constructor
      · rintro (rfl | ⟨hx, hne⟩)
        · exact ⟨Or.inl rfl, hy⟩
        · exact ⟨Or.inr hx, hne⟩
      · rintro ⟨rfl | hx, hne⟩
        · exact Or.inl rfl
        · exact Or.inr ⟨hx, hne⟩

theorem place_perm (e : ℕ) (xs : List ℕ) : (place tag e xs).Perm (e :: xs.eraseP fun x => tag x = tag e) := by
  induction xs with
  | nil => exact Perm.refl _
  | cons y xs ih =>
    rw [place]
    split_ifs with hy
    · rw [eraseP_cons_of_pos (by simpa using hy)]
    · rw [eraseP_cons_of_neg (by simpa using hy)]
      exact (ih.cons y).trans (.swap ..)

theorem mem_place {x : ℕ} (hn : (xs.map tag).Nodup) : x ∈ place tag e xs ↔ x = e ∨ x ∈ xs ∧ tag x ≠ tag e := by
  rw [(place_perm e xs).mem_iff, mem_cons, mem_eraseP hn]

theorem nodup_place (hn : (xs.map tag).Nodup) : ((place tag e xs).map tag).Nodup := by
  rw [((place_perm e xs).map tag).nodup_iff, map_cons, nodup_cons]
  refine ⟨?_, hn.sublist (eraseP_sublist.map tag)⟩
  intro hm
  obtain ⟨x, hx, ht⟩ := mem_map.mp hm
  exact ((mem_eraseP hn).mp hx).2 ht

omit [DecidableEq κ] in
theorem Wf.setChain (h : t.Wf tag) (i : ℕ) (es : List ℕ)
    (hp : ∀ x ∈ es, i = chain t.lengthBits (tag x).2) (hn : (es.map tag).Nodup) :
    (t.setChain i es).Wf tag ∧ ∀ x, (t.setChain i es).Mem tag x ↔
      if chain t.lengthBits (tag x).2 = i then x ∈ es else t.Mem tag x := by
  have hs : (t.setChain i es).list i = es := by simp [LRUHandleTable.setChain]
  have ho {j : ℕ} (hj : j ≠ i) : (t.setChain i es).list j = t.list j := by
    simp [LRUHandleTable.setChain, hj]
  refine ⟨⟨h.bits_le, ?_, ?_⟩, ?_⟩
  · intro j x hx
    by_cases hj : j = i
    · rw [hj, hs] at hx
      exact hj.trans (hp x hx)
    · rw [ho hj] at hx
      exact h.placed j x hx
  · intro j
    by_cases hj : j = i
    · rwa [hj, hs]
    · rw [ho hj]
      exact h.nodup j
  · intro x
    change x ∈ (t.setChain i es).list (chain t.lengthBits (tag x).2) ↔ _
    split_ifs with hj
    · rw [hj, hs]
    · rw [ho hj]
      exact Iff.rfl

theorem Wf.insert (h : t.Wf tag) (e : ℕ) : (t.insert tag e).1 = t.lookup tag (tag e) ∧ (t.insert tag e).2.Wf tag ∧
      ∀ x, (t.insert tag e).2.Mem tag x ↔ x = e ∨ t.Mem tag x ∧ tag x ≠ tag e := by
  obtain ⟨hwf, hm⟩ := h.setChain (chain t.lengthBits (tag e).2)
    (place tag e (t.list (chain t.lengthBits (tag e).2))) (by
      intro x hx
      rcases (mem_place (h.nodup _)).mp hx with rfl | ⟨hx, -⟩
      · rfl
      · exact h.placed _ x hx) (nodup_place (h.nodup _))
  have hm' (x : ℕ) : (t.setChain (chain t.lengthBits (tag e).2)
      (place tag e (t.list (chain t.lengthBits (tag e).2)))).Mem tag x ↔ x = e ∨ t.Mem tag x ∧ tag x ≠ tag e := by
    rw [hm x]
    split_ifs with hi
    · rw [mem_place (h.nodup _), Mem, hi]
    have hne : tag x ≠ tag e := fun ht => hi (by rw [ht])
    constructor
    · exact fun hx => Or.inr ⟨hx, hne⟩
    · rintro (rfl | ⟨hx, -⟩)
      · exact absurd rfl hi
      · exact hx
  rw [LRUHandleTable.insert]
  dsimp only
  generalize t.setChain _ _ = t' at hwf hm'
  have hg : ({ t' with elems := t'.elems + 1 } : LRUHandleTable).Wf tag := ⟨hwf.bits_le, hwf.placed, hwf.nodup⟩
  by_cases ho : t.lookup tag (tag e) = none
  · rw [if_pos ho]
    split
    · exact ⟨rfl, hg.resize.1, fun x => (hg.resize.2 x).trans (hm' x)⟩
    · exact ⟨rfl, hg, hm'⟩
  · rw [if_neg ho]
    exact ⟨rfl, hwf, hm'⟩

theorem Wf.remove (h : t.Wf tag) (k : κ × UInt32) : (t.remove tag k).1 = t.lookup tag k ∧ (t.remove tag k).2.Wf tag ∧
      ∀ x, (t.remove tag k).2.Mem tag x ↔ t.Mem tag x ∧ tag x ≠ k := by
  rw [LRUHandleTable.remove]
  by_cases hn : t.lookup tag k = none
  · rw [if_pos hn]
    refine ⟨rfl, h, fun x => ?_⟩
    exact ⟨fun hx => ⟨hx, h.lookup_eq_none.mp hn x hx⟩, And.left⟩
  rw [if_neg hn]
  obtain ⟨hwf, hm⟩ := h.setChain (chain t.lengthBits k.2) ((t.list (chain t.lengthBits k.2)).eraseP fun e => tag e = k)
    (fun x hx => h.placed _ x ((mem_eraseP (h.nodup _)).mp hx).1)
    ((h.nodup _).sublist (eraseP_sublist.map tag))
  refine ⟨rfl, ⟨hwf.bits_le, hwf.placed, hwf.nodup⟩, fun x => (hm x).trans ?_⟩
  split_ifs with hi
  · rw [mem_eraseP (h.nodup _), Mem, hi]
  · have hne : tag x ≠ k := fun ht => hi (by rw [ht])
    exact ⟨fun hx => ⟨hx, hne⟩, And.left⟩

end LRUHandleTable

end ZenFSPlus.Cache
