import Mathlib.Algebra.Group.Nat.Defs
import Mathlib.Data.List.TakeWhile
import ZenFSPlus.Db.VersionBuilderFiles

namespace ZenFSPlus.Db

open Lib List MutableBlobFileMetaData

section

structure OfBase (y : BlobFileMetaData) (x : MutableBlobFileMetaData) : Prop where
  shared : x.shared = y.shared
  count : x.garbageBlobCount = y.garbageBlobCount + x.delta.additionalGarbageCount
  bytes : x.garbageBlobBytes = y.garbageBlobBytes + x.delta.additionalGarbageBytes
  unlinked : ∀ n ∈ x.delta.newlyUnlinkedSsts, n ∈ y.linkedSsts
  linked : ∀ n ∈ x.delta.newlyLinkedSsts, n ∉ y.linkedSsts
  mem_iff : ∀ n, n ∈ x.linkedSsts ↔
    n ∈ y.linkedSsts ∧ n ∉ x.delta.newlyUnlinkedSsts ∨ n ∈ x.delta.newlyLinkedSsts

variable {x x' : MutableBlobFileMetaData} {y : BlobFileMetaData} {n : ℕ} {k : ℕ}
  {change : MutableBlobFileMetaData → Except BuilderError MutableBlobFileMetaData}

theorem ofBase_ofMeta (y : BlobFileMetaData) : OfBase y (.ofMeta y) where
  shared := rfl
  count := (UInt64.add_zero _).symm
  bytes := (UInt64.add_zero _).symm
  unlinked n hn := absurd hn (Finset.notMem_empty n)
  linked n hn := absurd hn (Finset.notMem_empty n)
  mem_iff n := by simp [ofMeta]

theorem linkSst_ok (h : x.linkSst n = .ok x') : n ∉ x.linkedSsts ∧ x' = { x with
    linkedSsts := insert n x.linkedSsts
    delta := if n ∈ x.delta.newlyUnlinkedSsts then
        { x.delta with newlyUnlinkedSsts := x.delta.newlyUnlinkedSsts.erase n }
      else { x.delta with newlyLinkedSsts := insert n x.delta.newlyLinkedSsts } } := by
  obtain ⟨delta, hdl, h⟩ := bind_eq_ok.mp h
  split at h
  · cases h
  rename_i hl
  cases h
  rw [BlobFileMetaDataDelta.linkSst] at hdl
  split at hdl
  · cases hdl
  · rw [← apply_ite Except.ok] at hdl
    rw [Except.ok.inj hdl]
    exact ⟨hl, rfl⟩

theorem unlinkSst_ok (h : x.unlinkSst n = .ok x') : n ∈ x.linkedSsts ∧ x' = { x with
    linkedSsts := x.linkedSsts.erase n
    delta := if n ∈ x.delta.newlyLinkedSsts then
        { x.delta with newlyLinkedSsts := x.delta.newlyLinkedSsts.erase n }
      else { x.delta with newlyUnlinkedSsts := insert n x.delta.newlyUnlinkedSsts } } := by
  obtain ⟨delta, hdl, h⟩ := bind_eq_ok.mp h
  split at h
  · rename_i hl
    cases h
    rw [BlobFileMetaDataDelta.unlinkSst] at hdl
    split at hdl
    · cases hdl
    · rw [← apply_ite Except.ok] at hdl
      rw [Except.ok.inj hdl]
      exact ⟨hl, rfl⟩
  · cases h

theorem addGarbage_ok {count bytes : UInt64} (h : x.addGarbage count bytes = .ok x') : x' = { x with
    delta := x.delta.addGarbage count bytes
    garbageBlobCount := x.garbageBlobCount + count
    garbageBlobBytes := x.garbageBlobBytes + bytes } := by
  rw [addGarbage] at h
  split at h
  · cases h
  · exact (Except.ok.inj h).symm

theorem OfBase.linkSst (hx : OfBase y x) (h : x.linkSst n = .ok x') : OfBase y x' := by
  obtain ⟨hln, rfl⟩ := linkSst_ok h
  have hn := mt (hx.mem_iff n).mpr hln
  by_cases hun : n ∈ x.delta.newlyUnlinkedSsts
  · have hba := hx.unlinked n hun
    rw [if_pos hun]
    refine ⟨hx.shared, hx.count, hx.bytes, ?_, hx.linked, fun k => ?_⟩
    · exact fun k hk => hx.unlinked k (Finset.mem_of_mem_erase hk)
    · have hk := hx.mem_iff k
      rw [Finset.mem_insert]
      by_cases heq : k = n
      · subst heq
        simp [hba]
      · simp [heq, hk]
  · have hba : n ∉ y.linkedSsts := fun hm => hn (.inl ⟨hm, hun⟩)
    rw [if_neg hun]
    refine ⟨hx.shared, hx.count, hx.bytes, hx.unlinked, fun k hk => ?_, fun k => ?_⟩
    · rcases Finset.mem_insert.mp hk with rfl | hk
      · exact hba
      · exact hx.linked k hk
    · rw [Finset.mem_insert, hx.mem_iff k, Finset.mem_insert]
      tauto

theorem OfBase.unlinkSst (hx : OfBase y x) (h : x.unlinkSst n = .ok x') : OfBase y x' := by
  obtain ⟨hln, rfl⟩ := unlinkSst_ok h
  have hcs := (hx.mem_iff n).mp hln
  by_cases hun : n ∈ x.delta.newlyLinkedSsts
  · have hba := hx.linked n hun
    rw [if_pos hun]
    refine ⟨hx.shared, hx.count, hx.bytes, hx.unlinked, ?_, fun k => ?_⟩
    · exact fun k hk => hx.linked k (Finset.mem_of_mem_erase hk)
    · have hk := hx.mem_iff k
      rw [Finset.mem_erase]
      by_cases heq : k = n
      · subst heq
        simp [hba]
      · simp [heq, hk]
  · have hba : n ∈ y.linkedSsts := (hcs.resolve_right hun).1
    rw [if_neg hun]
    refine ⟨hx.shared, hx.count, hx.bytes, fun k hk => ?_, hx.linked, fun k => ?_⟩
    · rcases Finset.mem_insert.mp hk with rfl | hk
      · exact hba
      · exact hx.unlinked k hk
    · have hk := hx.mem_iff k
      rw [Finset.mem_erase, hk, Finset.mem_insert]
      by_cases heq : k = n
      · subst heq
        simp [hun]
      · simp [heq]

theorem OfBase.addGarbage {count bytes : UInt64} (hx : OfBase y x) (h : x.addGarbage count bytes = .ok x') :
    OfBase y x' := by
  rw [addGarbage_ok h]
  refine ⟨hx.shared, ?_, ?_, hx.unlinked, hx.linked, hx.mem_iff⟩
  · exact (congrArg (· + count) hx.count).trans (UInt64.add_assoc _ _ _)
  · exact (congrArg (· + bytes) hx.bytes).trans (UInt64.add_assoc _ _ _)

theorem OfBase.eq_toMeta (hx : OfBase y x) (h : x.hasDelta = false) : y = x.toMeta := by
  rw [hasDelta, Bool.not_eq_false', BlobFileMetaDataDelta.isEmpty] at h
  simp only [Bool.and_eq_true, beq_iff_eq, decide_eq_true_eq] at h
  obtain ⟨⟨⟨hc, hb⟩, hl⟩, hu⟩ := h
  obtain ⟨shared, ssts, count, bytes⟩ := y
  have hs : x.linkedSsts = ssts := by
    ext n
    rw [hx.mem_iff n, hl, hu]
    simp
  rw [toMeta, hx.shared, hs, hx.count, hx.bytes, hc, hb]
  simp

/-- The records of garbage of one file in turn, each the count and the bytes; a rejected one changes nothing. -/
def addGarbages (x : MutableBlobFileMetaData) (rs : List (UInt64 × UInt64)) : MutableBlobFileMetaData :=
  rs.foldl (fun x r => (x.addGarbage r.1 r.2).toOption.getD x) x

def WithinTotals (x : MutableBlobFileMetaData) : Prop :=
  x.garbageBlobCount ≤ x.shared.totalBlobCount ∧ x.garbageBlobBytes ≤ x.shared.totalBlobBytes

instance : Decidable (WithinTotals x) := inferInstanceAs (Decidable (_ ∧ _))

theorem withinTotals_addGarbage {r : UInt64 × UInt64} (h : x.addGarbage r.1 r.2 = .ok x') :
    WithinTotals x' ∧ x'.shared = x.shared := by
  rw [addGarbage] at h
  split at h
  · cases h
  · rename_i hn
    cases h
    rw [not_or, UInt64.not_lt, UInt64.not_lt] at hn
    exact ⟨hn, rfl⟩

theorem withinTotals_addGarbages (rs : List (UInt64 × UInt64)) (hx : WithinTotals x) :
    WithinTotals (addGarbages x rs) ∧ (addGarbages x rs).shared = x.shared := by
  induction rs generalizing x with
  | nil => exact ⟨hx, rfl⟩
  | cons r rs ih =>
    unfold addGarbages at ih ⊢
    rw [foldl_cons]
    cases hg : x.addGarbage r.1 r.2 with
    | error e => exact ih hx
    | ok x' =>
      obtain ⟨hx', hs⟩ := withinTotals_addGarbage hg
      exact hs ▸ ih hx'

/-- An accepted record leaves the counters within the totals, and no counter decreases unless a sum can wrap. -/
theorem garbage_never_decreases {rs : List (UInt64 × UInt64)} {r : UInt64 × UInt64}
    (h : (addGarbages x rs).addGarbage r.1 r.2 = .ok x') :
    WithinTotals x' ∧ (WithinTotals x → r.1.toNat + x.shared.totalBlobCount.toNat < 2 ^ 64 →
      r.2.toNat + x.shared.totalBlobBytes.toNat < 2 ^ 64 →
      (addGarbages x rs).garbageBlobCount ≤ x'.garbageBlobCount ∧
        (addGarbages x rs).garbageBlobBytes ≤ x'.garbageBlobBytes) := by
  refine ⟨(withinTotals_addGarbage h).1, fun hx hc hb => ?_⟩
  obtain ⟨hw, hs⟩ := withinTotals_addGarbages rs hx
  rw [WithinTotals, hs] at hw
  simp only [UInt64.le_iff_toNat_le] at hw
  rw [addGarbage_ok h]
  simp only [UInt64.le_iff_toNat_le, UInt64.toNat_add]
  omega

theorem garbage_never_decreases_eight : let x : MutableBlobFileMetaData := { shared := ⟨1, 10, 10⟩ }
    let x' := addGarbages x [(5, 5), (3, 2)]
    WithinTotals x' ∧ (addGarbages x [(5, 5)]).garbageBlobCount ≤ x'.garbageBlobCount ∧
      (addGarbages x [(5, 5)]).garbageBlobBytes ≤ x'.garbageBlobBytes := by
  intro x x'
  obtain ⟨hw, hd⟩ := garbage_never_decreases (x := x) (r := (3, 2))
    (show (addGarbages x [(5, 5)]).addGarbage 3 2 = .ok x' from rfl)
  exact ⟨hw, hd (by decide) (by decide) (by decide)⟩

/-- A count of `2 ^ 64 - 3` is accepted and takes the counter from five to two. -/
theorem garbage_decreases : let x : MutableBlobFileMetaData := { shared := ⟨1, 10, 10⟩ }
    (addGarbages x [(5, 5)]).garbageBlobCount = 5 ∧
      (addGarbages x [(5, 5), (18446744073709551613, 0)]).garbageBlobCount = 2 :=
  ⟨rfl, rfl⟩

end

section

variable {α : Type} {num : α → ℕ} {l : List α} {x : α} {k : ℕ}

def Ascending (num : α → ℕ) (l : List α) : Prop := l.Pairwise fun x y => num x < num y

instance : Decidable (Ascending num l) := inferInstanceAs (Decidable (Pairwise _ l))

theorem Ascending.eq (h : Ascending num l) {y : α} (hx : x ∈ l) (hy : y ∈ l) (heq : num x = num y) : x = y := by
  have hn : (l.map num).Nodup := by
    rw [Nodup, pairwise_map]
    exact h.imp Nat.ne_of_lt
  exact inj_on_of_nodup_map hn hx hy heq

theorem Ascending.find?_eq_some (h : Ascending num l) (hx : x ∈ l) : l.find? (fun y => num y = num x) = some x := by
  cases hf : l.find? fun y => num y = num x with
  | none =>
    have hne := find?_eq_none.mp hf x hx
    simp at hne
  | some y => rw [h.eq (mem_of_find?_eq_some hf) hx (by simpa using find?_some hf)]

theorem Ascending.find?_congr {l' : List α} (h' : Ascending num l')
    (hm : ∀ x, num x = k → (x ∈ l' ↔ x ∈ l)) : l'.find? (fun x => num x = k) = l.find? fun x => num x = k := by
  cases hf : l.find? fun x => num x = k with
  | none =>
    rw [find?_eq_none] at hf ⊢
    intro x hx hk
    exact hf x ((hm x (by simpa using hk)).mp hx) hk
  | some x =>
    have hk : num x = k := by simpa using find?_some hf
    have hx := (hm x hk).mpr (mem_of_find?_eq_some hf)
    rw [← hk]
    exact h'.find?_eq_some hx

theorem Ascending.orderedInsert (h : Ascending num l) (hx : ∀ y ∈ l, num y ≠ num x) :
    Ascending num (l.orderedInsert (fun x y => num x ≤ num y) x) := by
  induction l with
  | nil => exact pairwise_singleton _ _
  | cons y l ih =>
    obtain ⟨hy, hl⟩ := pairwise_cons.mp h
    have hne := hx y mem_cons_self
    rw [orderedInsert_cons]
    split
    · refine pairwise_cons.mpr ⟨fun z hz => ?_, h⟩
      rcases mem_cons.mp hz with rfl | hz
      · omega
      · have := hy z hz
        omega
    · refine pairwise_cons.mpr ⟨fun z hz => ?_, ih hl fun z hz => hx z (mem_cons_of_mem _ hz)⟩
      rcases (mem_orderedInsert _).mp hz with rfl | hz
      · omega
      · exact hy z hz

theorem Ascending.mem_dropWhile (h : Ascending num l) : x ∈ l.dropWhile (fun y => num y < k) ↔ x ∈ l ∧ k ≤ num x := by
  induction l with
  | nil => simp
  | cons y l ih =>
    obtain ⟨hy, hl⟩ := pairwise_cons.mp h
    rw [dropWhile_cons]
    split
    · rename_i hlt
      rw [ih hl, mem_cons]
      have hlt : num y < k := by simpa using hlt
      constructor
      · rintro ⟨hx, hk⟩
        exact ⟨.inr hx, hk⟩
      · rintro ⟨rfl | hx, hk⟩
        · omega
        · exact ⟨hx, hk⟩
    · rename_i hge
      have hge : k ≤ num y := by simpa using hge
      constructor
      · intro hx
        refine ⟨hx, ?_⟩
        rcases mem_cons.mp hx with rfl | hx
        · exact hge
        · exact hge.trans (hy x hx).le
      · exact fun hx => hx.1

theorem Ascending.mem_dropWhile_apart {β : Type} {num' : β → ℕ} {l' : List β} (h : Ascending num l)
    (h' : Ascending num' l') : (x ∈ l.dropWhile (fun y => num y < k) ∧
      ∀ y ∈ l'.dropWhile (fun y => num' y < k), num' y ≠ num x) ↔ k ≤ num x ∧ x ∈ l ∧ ∀ y ∈ l', num' y ≠ num x := by
  rw [h.mem_dropWhile]
  constructor
  · rintro ⟨⟨hx, hk⟩, hy⟩
    exact ⟨hk, hx, fun y hm heq => hy y (h'.mem_dropWhile.mpr ⟨hm, heq ▸ hk⟩) heq⟩
  · rintro ⟨hk, hx, hy⟩
    exact ⟨⟨hx, hk⟩, fun y hm => hy y (h'.mem_dropWhile.mp hm).1⟩

end

section

variable {bs : List BlobFileMetaData} {ms : List MutableBlobFileMetaData} {e : BlobFileMerge}

def Merges (bs : List BlobFileMetaData) (ms : List MutableBlobFileMetaData) : BlobFileMerge → Prop
  | .base y => y ∈ bs ∧ ∀ x ∈ ms, x.number ≠ y.number
  | .changed x => x ∈ ms ∧ ∀ y ∈ bs, y.number ≠ x.number
  | .both y x => y ∈ bs ∧ x ∈ ms ∧ y.number = x.number

theorem Merges.number_mem (h : Merges bs ms e) : (∃ y ∈ bs, y.number = e.number) ∨ ∃ x ∈ ms, x.number = e.number := by
  cases e with
  | base y => exact .inl ⟨y, h.1, rfl⟩
  | changed x => exact .inr ⟨x, h.1, rfl⟩
  | both y x => exact .inl ⟨y, h.1, rfl⟩

section

variable (hbs : Ascending BlobFileMetaData.number bs) (hms : Ascending MutableBlobFileMetaData.number ms)

include hbs hms

theorem mem_mergeBlobFileMetas : e ∈ mergeBlobFileMetas bs ms ↔ Merges bs ms e := by
  induction bs, ms using mergeBlobFileMetas.induct with
  | case1 ms =>
    rw [mergeBlobFileMetas, mem_map]
    cases e with
    | base _ | changed _ | both _ _ => simp [Merges]
  | case2 bs hne =>
    rw [mergeBlobFileMetas, mem_map]
    · cases e with
      | base _ | changed _ | both _ _ => simp [Merges]
    · exact hne
  | case3 b bs m ms hlt ih =>
    obtain ⟨hb, hbs'⟩ := pairwise_cons.mp hbs
    obtain ⟨hm, -⟩ := pairwise_cons.mp hms
    rw [mergeBlobFileMetas, if_pos hlt, mem_cons, ih hbs' hms]
    have hbl (x : MutableBlobFileMetaData) (hx : x ∈ m :: ms) : b.number < x.number := by
      rcases mem_cons.mp hx with rfl | hx
      · exact hlt
      · exact hlt.trans (hm x hx)
    cases e with
    | base y =>
      constructor
      · rintro (h | ⟨hy, hx⟩)
        · cases h
          exact ⟨mem_cons_self, fun x hx => (hbl x hx).ne'⟩
        · exact ⟨mem_cons_of_mem _ hy, hx⟩
      · rintro ⟨hy, hx⟩
        rcases mem_cons.mp hy with rfl | hy
        · exact .inl rfl
        · exact .inr ⟨hy, hx⟩
    | changed x =>
      constructor
      · rintro (h | ⟨hx, hy⟩)
        · cases h
        · exact ⟨hx, forall_mem_cons.mpr ⟨(hbl x hx).ne, hy⟩⟩
      · rintro ⟨hx, hy⟩
        exact .inr ⟨hx, (forall_mem_cons.mp hy).2⟩
    | both y x =>
      constructor
      · rintro (h | ⟨hy, hx, heq⟩)
        · cases h
        · exact ⟨mem_cons_of_mem _ hy, hx, heq⟩
      · rintro ⟨hy, hx, heq⟩
        rcases mem_cons.mp hy with rfl | hy
        · exact absurd heq (hbl x hx).ne
        · exact .inr ⟨hy, hx, heq⟩
  | case4 b bs m ms hn hlt ih =>
    obtain ⟨hb, -⟩ := pairwise_cons.mp hbs
    obtain ⟨hm, hms'⟩ := pairwise_cons.mp hms
    rw [mergeBlobFileMetas, if_neg hn, if_pos hlt, mem_cons, ih hbs hms']
    have hbl (y : BlobFileMetaData) (hy : y ∈ b :: bs) : m.number < y.number := by
      rcases mem_cons.mp hy with rfl | hy
      · exact hlt
      · exact hlt.trans (hb y hy)
    cases e with
    | base y =>
      constructor
      · rintro (h | ⟨hy, hx⟩)
        · cases h
        · exact ⟨hy, forall_mem_cons.mpr ⟨(hbl y hy).ne, hx⟩⟩
      · rintro ⟨hy, hx⟩
        exact .inr ⟨hy, (forall_mem_cons.mp hx).2⟩
    | changed x =>
      constructor
      · rintro (h | ⟨hx, hy⟩)
        · cases h
          exact ⟨mem_cons_self, fun y hy => (hbl y hy).ne'⟩
        · exact ⟨mem_cons_of_mem _ hx, hy⟩
      · rintro ⟨hx, hy⟩
        rcases mem_cons.mp hx with rfl | hx
        · exact .inl rfl
        · exact .inr ⟨hx, hy⟩
    | both y x =>
      constructor
      · rintro (h | ⟨hy, hx, heq⟩)
        · cases h
        · exact ⟨hy, mem_cons_of_mem _ hx, heq⟩
      · rintro ⟨hy, hx, heq⟩
        rcases mem_cons.mp hx with rfl | hx
        · exact absurd heq (hbl y hy).ne'
        · exact .inr ⟨hy, hx, heq⟩
  | case5 b bs m ms hn hng ih =>
    obtain ⟨hb, hbs'⟩ := pairwise_cons.mp hbs
    obtain ⟨hm, hms'⟩ := pairwise_cons.mp hms
    have heq : b.number = m.number := by omega
    rw [mergeBlobFileMetas, if_neg hn, if_neg hng, mem_cons, ih hbs' hms']
    cases e with
    | base y =>
      constructor
      · rintro (h | ⟨hy, hx⟩)
        · cases h
        · exact ⟨mem_cons_of_mem _ hy, forall_mem_cons.mpr ⟨heq ▸ (hb y hy).ne, hx⟩⟩
      · rintro ⟨hy, hx⟩
        rcases mem_cons.mp hy with rfl | hy
        · exact absurd heq.symm (hx m mem_cons_self)
        · exact .inr ⟨hy, (forall_mem_cons.mp hx).2⟩
    | changed x =>
      constructor
      · rintro (h | ⟨hx, hy⟩)
        · cases h
        · exact ⟨mem_cons_of_mem _ hx, forall_mem_cons.mpr ⟨heq ▸ (hm x hx).ne, hy⟩⟩
      · rintro ⟨hx, hy⟩
        rcases mem_cons.mp hx with rfl | hx
        · exact absurd heq (hy b mem_cons_self)
        · exact .inr ⟨hx, (forall_mem_cons.mp hy).2⟩
    | both y x =>
      constructor
      · rintro (h | ⟨hy, hx, hxy⟩)
        · cases h
          exact ⟨mem_cons_self, mem_cons_self, heq⟩
        · exact ⟨mem_cons_of_mem _ hy, mem_cons_of_mem _ hx, hxy⟩
      · rintro ⟨hy, hx, hxy⟩
        rcases mem_cons.mp hy with rfl | hy
        · rcases mem_cons.mp hx with rfl | hx
          · exact .inl rfl
          · have := hm x hx
            omega
        · rcases mem_cons.mp hx with rfl | hx
          · have := hb y hy
            omega
          · exact .inr ⟨hy, hx, hxy⟩

theorem ascending_mergeBlobFileMetas : Ascending BlobFileMerge.number (mergeBlobFileMetas bs ms) := by
  -- the numbers in the merge are those of the two maps
  have hn {bs : List BlobFileMetaData} {ms : List MutableBlobFileMetaData} {k : ℕ}
      (hbs : Ascending BlobFileMetaData.number bs) (hms : Ascending MutableBlobFileMetaData.number ms)
      (hb : ∀ y ∈ bs, k < y.number) (hm : ∀ x ∈ ms, k < x.number) (e : BlobFileMerge)
      (he : e ∈ mergeBlobFileMetas bs ms) : k < e.number := by
    rcases ((mem_mergeBlobFileMetas hbs hms).mp he).number_mem with ⟨y, hy, heq⟩ | ⟨x, hx, heq⟩
    · exact heq ▸ hb y hy
    · exact heq ▸ hm x hx
  induction bs, ms using mergeBlobFileMetas.induct with
  | case1 ms =>
    rw [mergeBlobFileMetas]
    exact pairwise_map.mpr hms
  | case2 bs hne =>
    rw [mergeBlobFileMetas]
    · exact pairwise_map.mpr hbs
    · exact hne
  | case3 b bs m ms hlt ih =>
    obtain ⟨hb, hbs'⟩ := pairwise_cons.mp hbs
    obtain ⟨hm, -⟩ := pairwise_cons.mp hms
    rw [mergeBlobFileMetas, if_pos hlt]
    refine pairwise_cons.mpr ⟨hn hbs' hms hb ?_, ih hbs' hms⟩
    exact forall_mem_cons.mpr ⟨hlt, fun x hx => hlt.trans (hm x hx)⟩
  | case4 b bs m ms hnl hlt ih =>
    obtain ⟨hb, -⟩ := pairwise_cons.mp hbs
    obtain ⟨hm, hms'⟩ := pairwise_cons.mp hms
    rw [mergeBlobFileMetas, if_neg hnl, if_pos hlt]
    refine pairwise_cons.mpr ⟨hn hbs hms' ?_ hm, ih hbs hms'⟩
    exact forall_mem_cons.mpr ⟨hlt, fun y hy => hlt.trans (hb y hy)⟩
  | case5 b bs m ms hnl hng ih =>
    obtain ⟨hb, hbs'⟩ := pairwise_cons.mp hbs
    obtain ⟨hm, hms'⟩ := pairwise_cons.mp hms
    have heq : b.number = m.number := by omega
    rw [mergeBlobFileMetas, if_neg hnl, if_neg hng]
    have hm' : ∀ x ∈ ms, b.number < x.number := heq ▸ hm
    exact pairwise_cons.mpr ⟨hn hbs' hms' hb hm', ih hbs' hms'⟩

end

end

namespace VersionBuilder

variable {κ μ : Type} {b b' : VersionBuilder κ μ} {x x' z : MutableBlobFileMetaData} {y : BlobFileMetaData} {k : ℕ}

structure Deltas (b : VersionBuilder κ μ) : Prop where
  base : Ascending BlobFileMetaData.number b.base.blobFiles
  ascending : Ascending MutableBlobFileMetaData.number b.mutableBlobFileMetas
  ofBase : ∀ x ∈ b.mutableBlobFileMetas, ∀ y ∈ b.base.blobFiles, x.number = y.number → OfBase y x

theorem isBlobFileInVersion_iff : b.isBlobFileInVersion k = true ↔
    (∃ x ∈ b.mutableBlobFileMetas, x.number = k) ∨ ∃ y ∈ b.base.blobFiles, y.number = k := by
  simp [isBlobFileInVersion]

theorem mem_emplace : z ∈ (b.emplace x).mutableBlobFileMetas ↔ z = x ∨ z ∈ b.mutableBlobFileMetas := mem_orderedInsert _

theorem Deltas.emplace (hd : Deltas b) (hx : ∀ z ∈ b.mutableBlobFileMetas, z.number ≠ x.number)
    (hof : ∀ y ∈ b.base.blobFiles, x.number = y.number → OfBase y x) : Deltas (b.emplace x) := by
  refine ⟨hd.base, hd.ascending.orderedInsert hx, fun z hz => ?_⟩
  rcases mem_emplace.mp hz with rfl | hz
  · exact hof
  · exact hd.ofBase z hz

def linkedSsts (b : VersionBuilder κ μ) (k : ℕ) : Finset ℕ :=
  match b.mutableBlobFileMetas.find? fun x => x.number = k with
  | some x => x.linkedSsts
  | none =>
    match b.base.blobFiles.find? fun y => y.number = k with
    | some y => y.linkedSsts
    | none => ∅

theorem Deltas.linkedSsts_mutable (hd : Deltas b) (hx : x ∈ b.mutableBlobFileMetas) :
    b.linkedSsts x.number = x.linkedSsts := by
  rw [VersionBuilder.linkedSsts, hd.ascending.find?_eq_some hx]

theorem find?_mutable_eq_none (hn : ∀ z ∈ b.mutableBlobFileMetas, z.number ≠ k) :
    b.mutableBlobFileMetas.find? (fun x => x.number = k) = none :=
  find?_eq_none.mpr fun z hz => by simpa using hn z hz

theorem Deltas.linkedSsts_base (hd : Deltas b) (hy : y ∈ b.base.blobFiles)
    (hn : ∀ z ∈ b.mutableBlobFileMetas, z.number ≠ y.number) : b.linkedSsts y.number = y.linkedSsts := by
  rw [VersionBuilder.linkedSsts, find?_mutable_eq_none hn]
  rw [hd.base.find?_eq_some hy]

theorem linkedSsts_eq_empty (h : b.isBlobFileInVersion k = false) : b.linkedSsts k = ∅ := by
  rw [isBlobFileInVersion, Bool.or_eq_false_iff, any_eq_false, any_eq_false] at h
  rw [linkedSsts, find?_eq_none.mpr h.1]
  rw [find?_eq_none.mpr h.2]

theorem isBlobFileInVersion_emplace :
    (b.emplace x).isBlobFileInVersion k = true ↔ k = x.number ∨ b.isBlobFileInVersion k = true := by
  rw [isBlobFileInVersion_iff, isBlobFileInVersion_iff]
  constructor
  · rintro (⟨z, hz, rfl⟩ | h)
    · rcases mem_emplace.mp hz with rfl | hz
      · exact .inl rfl
      · exact .inr (.inl ⟨z, hz, rfl⟩)
    · exact .inr (.inr h)
  · rintro (rfl | ⟨z, hz, rfl⟩ | h)
    · exact .inl ⟨x, mem_emplace.mpr (.inl rfl), rfl⟩
    · exact .inl ⟨z, mem_emplace.mpr (.inr hz), rfl⟩
    · exact .inr h

theorem Deltas.linkedSsts_congr (hd' : Deltas b') (hb : b'.base = b.base)
    (hm : ∀ z : MutableBlobFileMetaData, z.number = k → (z ∈ b'.mutableBlobFileMetas ↔ z ∈ b.mutableBlobFileMetas)) :
    b'.linkedSsts k = b.linkedSsts k := by
  rw [VersionBuilder.linkedSsts, VersionBuilder.linkedSsts, hd'.ascending.find?_congr hm, hb]

theorem Deltas.linkedSsts_emplace (hd' : Deltas (b.emplace x)) :
    (b.emplace x).linkedSsts k = if k = x.number then x.linkedSsts else b.linkedSsts k := by
  split
  · rename_i heq
    rw [heq]
    exact hd'.linkedSsts_mutable (mem_emplace.mpr (.inl rfl))
  rename_i hne
  refine hd'.linkedSsts_congr rfl fun z hz => ?_
  rw [mem_emplace]
  constructor
  · rintro (rfl | h)
    · exact absurd hz.symm hne
    · exact h
  · exact .inr

structure Gets (b : VersionBuilder κ μ) (k : ℕ) (x : MutableBlobFileMetaData) (b' : VersionBuilder κ μ) : Prop where
  number : x.number = k
  mem : x ∈ b'.mutableBlobFileMetas
  deltas : Deltas b'
  linked : ∀ k', b'.linkedSsts k' = b.linkedSsts k'
  inVersion : ∀ k', b'.isBlobFileInVersion k' = b.isBlobFileInVersion k'

theorem Deltas.getOrCreate (hd : Deltas b) (h : b.getOrCreate k = some (x, b')) : Gets b k x b' := by
  rw [VersionBuilder.getOrCreate] at h
  split at h
  · rename_i m hf
    cases h
    exact ⟨by simpa using find?_some hf, mem_of_find?_eq_some hf, hd, fun _ => rfl, fun _ => rfl⟩
  rename_i hn
  split at h
  · rename_i y hf
    cases h
    have hy := mem_of_find?_eq_some hf
    have hk : y.number = k := by simpa using find?_some hf
    have hnw (z : MutableBlobFileMetaData) (hz : z ∈ b.mutableBlobFileMetas) : z.number ≠ y.number := by
      rw [hk]
      simpa using find?_eq_none.mp hn z hz
    have hd' : Deltas (b.emplace (.ofMeta y)) := hd.emplace hnw fun y' hy' heq =>
      (hd.base.eq hy' hy heq.symm) ▸ ofBase_ofMeta y
    refine ⟨hk, mem_emplace.mpr (.inl rfl), hd', fun k' => ?_, fun k' => ?_⟩
    · rw [hd'.linkedSsts_emplace]
      split_ifs with heq
      · rw [heq]
        exact (hd.linkedSsts_base hy hnw).symm
      · rfl
    · rw [Bool.eq_iff_iff, isBlobFileInVersion_emplace]
      constructor
      · rintro (rfl | h)
        · exact isBlobFileInVersion_iff.mpr (.inr ⟨y, hy, rfl⟩)
        · exact h
      · exact .inr
  · cases h

theorem getOrCreate_none (h : b.getOrCreate k = none) : b.isBlobFileInVersion k = false := by
  rw [getOrCreate] at h
  split at h
  · cases h
  rename_i hm
  split at h
  · cases h
  · rename_i hb
    rw [isBlobFileInVersion, Bool.or_eq_false_iff, any_eq_false, any_eq_false]
    exact ⟨find?_eq_none.mp hm, find?_eq_none.mp hb⟩

theorem mem_store (hx : x ∈ b.mutableBlobFileMetas) (hn : x'.number = x.number) :
    z ∈ (b.store x').mutableBlobFileMetas ↔ z = x' ∨ z ∈ b.mutableBlobFileMetas ∧ z.number ≠ x.number := by
  rw [store, mem_map]
  constructor
  · rintro ⟨w, hw, rfl⟩
    split_ifs with hne
    · exact .inl rfl
    · exact .inr ⟨hw, hn ▸ hne⟩
  · rintro (rfl | ⟨hz, hne⟩)
    · exact ⟨x, hx, if_pos hn.symm⟩
    · exact ⟨z, hz, if_neg (hn ▸ hne)⟩

theorem Deltas.store (hd : Deltas b) (hx : x ∈ b.mutableBlobFileMetas) (hnm : x'.number = x.number)
    (hof : ∀ y, OfBase y x → OfBase y x') : Deltas (b.store x') := by
  refine ⟨hd.base, ?_, fun z hz y hy heq => ?_⟩
  · refine pairwise_map.mpr (hd.ascending.imp fun {u w} hlt => ?_)
    have hn (w : MutableBlobFileMetaData) : (if w.number = x'.number then x' else w).number = w.number := by
      split_ifs with h
      · exact h.symm
      · rfl
    rw [hn u, hn w]
    exact hlt
  · rcases (mem_store hx hnm).mp hz with rfl | ⟨hz, -⟩
    · exact hof y (hd.ofBase x hx y hy (hnm ▸ heq))
    · exact hd.ofBase z hz y hy heq

theorem isBlobFileInVersion_store (hx : x ∈ b.mutableBlobFileMetas) (hn : x'.number = x.number) :
    (b.store x').isBlobFileInVersion k = b.isBlobFileInVersion k := by
  rw [Bool.eq_iff_iff, isBlobFileInVersion_iff, isBlobFileInVersion_iff]
  refine or_congr_left ⟨?_, ?_⟩
  · rintro ⟨z, hz, rfl⟩
    rcases (mem_store hx hn).mp hz with rfl | ⟨hz, -⟩
    · exact ⟨x, hx, hn.symm⟩
    · exact ⟨z, hz, rfl⟩
  · rintro ⟨z, hz, rfl⟩
    by_cases heq : z.number = x.number
    · exact ⟨x', (mem_store hx hn).mpr (.inl rfl), hn.trans heq.symm⟩
    · exact ⟨z, (mem_store hx hn).mpr (.inr ⟨hz, heq⟩), rfl⟩

structure Relinks (b : VersionBuilder κ μ) (k : ℕ) (links : Finset ℕ) (b' : VersionBuilder κ μ) : Prop where
  deltas : Deltas b'
  inVersion : ∀ k', b'.isBlobFileInVersion k' = b.isBlobFileInVersion k'
  linked : ∀ k', b'.linkedSsts k' = if k' = k then links else b.linkedSsts k'

theorem Gets.store (hg : Gets b k x b') (hn : x'.number = x.number) (hof : ∀ y, OfBase y x → OfBase y x') :
    Relinks b k x'.linkedSsts (b'.store x') := by
  have hd := hg.deltas.store hg.mem hn hof
  refine ⟨hd, fun k' => ?_, fun k' => ?_⟩
  · rw [isBlobFileInVersion_store hg.mem hn, hg.inVersion]
  · have hm := (mem_store hg.mem hn).mpr (.inl rfl)
    split
    · rename_i heq
      rw [heq, ← hg.number, ← hn]
      exact hd.linkedSsts_mutable hm
    rename_i hne
    rw [← hg.linked]
    refine hd.linkedSsts_congr rfl fun z hz => ?_
    rw [mem_store hg.mem hn]
    have hzx : z.number ≠ x.number := by
      rw [hz, hg.number]
      exact hne
    constructor
    · rintro (rfl | h)
      · exact absurd hn hzx
      · exact h.1
    · exact fun h => .inr ⟨h, hzx⟩

theorem Gets.linkedSsts (hg : Gets b k x b') : x.linkedSsts = b.linkedSsts k := by
  rw [← hg.linked, ← hg.number]
  exact (hg.deltas.linkedSsts_mutable hg.mem).symm

theorem linkSst_ofBase {n : ℕ} (x x' : MutableBlobFileMetaData) (h : x.linkSst n = .ok x') :
    x'.number = x.number ∧ ∀ y, OfBase y x → OfBase y x' :=
  ⟨(congrArg number (linkSst_ok h).2 :), fun _ hy => hy.linkSst h⟩

theorem unlinkSst_ofBase {n : ℕ} (x x' : MutableBlobFileMetaData) (h : x.unlinkSst n = .ok x') :
    x'.number = x.number ∧ ∀ y, OfBase y x → OfBase y x' :=
  ⟨(congrArg number (unlinkSst_ok h).2 :), fun _ hy => hy.unlinkSst h⟩

theorem deltas_foldlM {α : Type} {step : VersionBuilder κ μ → α → Except BuilderError (VersionBuilder κ μ)}
    (hs : ∀ b a b', step b a = .ok b' → Deltas b → Deltas b') {as : List α} (h : as.foldlM step b = .ok b')
    (hd : Deltas b) : Deltas b' :=
  foldlM_simulates (g := fun (t : Unit) _ => t) (fun s _ => Deltas s) (fun s a s' _ _ => hs s a s') h (t := ()) hd

section

variable (hd : Deltas b)

include hd

theorem Deltas.applyBlobFileAddition {a : SharedBlobFileMetaData} (h : applyBlobFileAddition b a = .ok b') :
    Deltas b' ∧ (∀ k, b'.linkedSsts k = b.linkedSsts k) ∧
      ∀ k, b'.isBlobFileInVersion k = true ↔ k = a.blobFileNumber ∨ b.isBlobFileInVersion k = true := by
  rw [VersionBuilder.applyBlobFileAddition] at h
  split at h
  · cases h
  rename_i hn
  cases h
  rw [Bool.not_eq_true] at hn
  have ho := mt isBlobFileInVersion_iff.mpr (by rw [hn]; exact Bool.false_ne_true)
  rw [not_or] at ho
  have hd' : Deltas (b.emplace { shared := a }) :=
    hd.emplace (fun z hz heq => ho.1 ⟨z, hz, heq⟩) fun y hy heq => absurd ⟨y, hy, heq.symm⟩ ho.2
  refine ⟨hd', fun k => ?_, fun k => isBlobFileInVersion_emplace⟩
  rw [hd'.linkedSsts_emplace]
  split_ifs with heq
  · rw [heq]
    exact (linkedSsts_eq_empty hn).symm
  · rfl

theorem Deltas.applyBlobFileGarbage {a : ℕ × UInt64 × UInt64} (h : applyBlobFileGarbage b a = .ok b') :
    Relinks b a.1 (b.linkedSsts a.1) b' := by
  rw [VersionBuilder.applyBlobFileGarbage] at h
  split at h
  · cases h
  rename_i x u hget
  obtain ⟨x', hx', h⟩ := bind_eq_ok.mp h
  cases h
  have hg := hd.getOrCreate hget
  have hn : x'.number = x.number := by
    rw [addGarbage_ok hx']
    rfl
  have hl : x'.linkedSsts = x.linkedSsts := by rw [addGarbage_ok hx']
  rw [← hg.linkedSsts, ← hl]
  exact hg.store hn fun y hy => hy.addGarbage hx'

theorem Deltas.relink (hc : ∀ x x', change x = .ok x' → x'.number = x.number ∧ ∀ y, OfBase y x → OfBase y x')
    (h : b.relink change k = .ok b') :
    b' = b ∧ (k = kInvalidBlobFileNumber ∨ b.isBlobFileInVersion k = false) ∨ k ≠ kInvalidBlobFileNumber ∧
        ∃ x x', change x = .ok x' ∧ x.linkedSsts = b.linkedSsts k ∧ Relinks b k x'.linkedSsts b' := by
  rw [VersionBuilder.relink] at h
  split_ifs at h with hk
  · cases h
    exact .inl ⟨rfl, .inl hk⟩
  split at h
  · rename_i hnn
    cases h
    exact .inl ⟨rfl, .inr (getOrCreate_none hnn)⟩
  rename_i x u hget
  obtain ⟨x', hx', h⟩ := bind_eq_ok.mp h
  cases h
  have hg := hd.getOrCreate hget
  obtain ⟨hn, hof⟩ := hc x x' hx'
  exact .inr ⟨hk, x, x', hx', hg.linkedSsts, hg.store hn hof⟩

theorem Deltas.congr (hb : b'.base = b.base) (hm : b'.mutableBlobFileMetas = b.mutableBlobFileMetas) : Deltas b' := by
  refine ⟨hb ▸ hd.base, hm ▸ hd.ascending, ?_⟩
  rw [hb, hm]
  exact hd.ofBase

theorem Deltas.relink_deltas (hc : ∀ x x', change x = .ok x' → x'.number = x.number ∧ ∀ y, OfBase y x → OfBase y x')
    (h : b.relink change k = .ok b') : Deltas b' := by
  rcases hd.relink hc h with ⟨rfl, -⟩ | ⟨-, x, x', -, -, hr⟩
  · exact hd
  · exact hr.deltas

theorem Deltas.applyFileDeletion {d : ℕ × ℕ} (h : applyFileDeletion b d = .ok b') : Deltas b' := by
  rcases (applyFileDeletion_ok h).2 with ⟨-, rfl⟩ | ⟨-, k, u, -, hu, rfl⟩
  · exact hd.congr rfl rfl
  · exact (hd.relink_deltas unlinkSst_ofBase hu).congr rfl rfl

theorem Deltas.applyFileAddition {a : ℕ × FileMetaData κ μ} (h : applyFileAddition b a = .ok b') : Deltas b' := by
  rcases (applyFileAddition_ok h).2 with ⟨-, rfl⟩ | ⟨-, u, hu, rfl⟩
  · exact hd.congr rfl rfl
  · refine Deltas.congr (b := u) ?_ rfl rfl
    apply Deltas.relink_deltas _ linkSst_ofBase hu
    exact hd.congr rfl rfl

theorem Deltas.apply [LinearOrder κ] {checks : Bool} {edit : VersionEdit κ μ}
    (h : VersionBuilder.apply checks b edit = .ok b') : Deltas b' := by
  obtain ⟨b1, b2, b3, -, h1, h2, h3, h4⟩ := apply_ok h
  have hd1 := deltas_foldlM (fun _ _ _ h hd => (hd.applyBlobFileAddition h).1) h1 hd
  have hd2 := deltas_foldlM (fun _ _ _ h hd => (hd.applyBlobFileGarbage h).deltas) h2 hd1
  have hd3 := deltas_foldlM (fun _ _ _ h hd => hd.applyFileDeletion h) h3 hd2
  exact deltas_foldlM (fun _ _ _ h hd => hd.applyFileAddition h) h4 hd3

end

theorem deltas_base {v : VersionStorageInfo κ μ} (h : Ascending BlobFileMetaData.number v.blobFiles) :
    Deltas { base := v } where
  base := h
  ascending := Pairwise.nil
  ofBase _ hx := nomatch hx

end VersionBuilder

section

def BlobFileMerge.resolved : BlobFileMerge → BlobFileMetaData
  | base y => y
  | changed x => x.toMeta
  | both _ x => x.toMeta

theorem BlobFileMerge.linkedSsts_resolved (e : BlobFileMerge) : e.resolved.linkedSsts = e.linkedSsts := by
  cases e <;> rfl

variable {κ μ : Type} {b : VersionBuilder κ μ} {m : FileMap κ μ} {e : BlobFileMerge} {k : ℕ}

namespace VersionBuilder

theorem Deltas.mem_mergedBlobFiles (hd : Deltas b) {first : ℕ} :
    e ∈ b.mergedBlobFiles first ↔ first ≤ e.number ∧ Merges b.base.blobFiles b.mutableBlobFileMetas e := by
  rw [mergedBlobFiles, mem_mergeBlobFileMetas (Pairwise.sublist (dropWhile_sublist _) hd.base)
    (Pairwise.sublist (dropWhile_sublist _) hd.ascending)]
  cases e with
  | base y => exact hd.base.mem_dropWhile_apart hd.ascending
  | changed x => exact hd.ascending.mem_dropWhile_apart hd.base
  | both y x =>
    constructor
    · rintro ⟨hy, hx, heq⟩
      obtain ⟨hy, hf⟩ := hd.base.mem_dropWhile.mp hy
      exact ⟨hf, hy, (hd.ascending.mem_dropWhile.mp hx).1, heq⟩
    · rintro ⟨hf, hy, hx, heq⟩
      exact ⟨hd.base.mem_dropWhile.mpr ⟨hy, hf⟩, hd.ascending.mem_dropWhile.mpr ⟨hx, heq ▸ hf⟩, heq⟩

theorem Deltas.ascending_mergedBlobFiles (hd : Deltas b) (first : ℕ) :
    Ascending BlobFileMerge.number (b.mergedBlobFiles first) :=
  ascending_mergeBlobFileMetas (Pairwise.sublist (dropWhile_sublist _) hd.base)
    (Pairwise.sublist (dropWhile_sublist _) hd.ascending)

theorem number_resolved (he : Merges b.base.blobFiles b.mutableBlobFileMetas e) : e.resolved.number = e.number := by
  cases e with
  | base y => rfl
  | changed x => rfl
  | both y x => exact he.2.2.symm

section

variable (hd : Deltas b) (he : Merges b.base.blobFiles b.mutableBlobFileMetas e)

include hd he

theorem Deltas.toMeta_eq : e.toMeta = .ok e.resolved := by
  cases e with
  | base y => rfl
  | changed x => rfl
  | both y x =>
    obtain ⟨hy, hx, heq⟩ := he
    have hof := hd.ofBase x hx y hy heq.symm
    rw [BlobFileMerge.toMeta, if_neg (not_not.mpr hof.shared.symm)]
    by_cases hdl : x.hasDelta = true
    · rw [if_pos hdl]
      rfl
    · rw [Bool.not_eq_true] at hdl
      rw [hdl, if_neg Bool.false_ne_true, if_pos (hof.eq_toMeta hdl), hof.eq_toMeta hdl]
      rfl

theorem Deltas.linkedSsts_merges : b.linkedSsts e.number = e.linkedSsts := by
  cases e with
  | base y => exact hd.linkedSsts_base he.1 he.2
  | changed x => exact hd.linkedSsts_mutable he.1
  | both y x =>
    rw [BlobFileMerge.number, he.2.2]
    exact hd.linkedSsts_mutable he.2.1

end

theorem exists_merges (h : b.isBlobFileInVersion k = true) :
    ∃ e, Merges b.base.blobFiles b.mutableBlobFileMetas e ∧ e.number = k := by
  by_cases hx : ∃ x ∈ b.mutableBlobFileMetas, x.number = k
  · obtain ⟨x, hx, rfl⟩ := hx
    by_cases hy : ∃ y ∈ b.base.blobFiles, y.number = x.number
    · obtain ⟨y, hy, heq⟩ := hy
      exact ⟨.both y x, ⟨hy, hx, heq⟩, heq⟩
    · exact ⟨.changed x, ⟨hx, fun y hm heq => hy ⟨y, hm, heq⟩⟩, rfl⟩
  · obtain ⟨y, hy, rfl⟩ := (isBlobFileInVersion_iff.mp h).resolve_left hx
    exact ⟨.base y, ⟨hy, fun x hm heq => hx ⟨x, hm, heq⟩⟩, rfl⟩

def savedBlobFiles (b : VersionBuilder κ μ) : List BlobFileMetaData :=
  ((b.mergedBlobFiles b.minOldestBlobFileNumber).map BlobFileMerge.resolved).filter neededBlobFile

theorem Deltas.saveBlobFiles_eq (hd : Deltas b) : b.saveBlobFiles = .ok b.savedBlobFiles := by
  have hm (l : List BlobFileMerge) (h : ∀ e ∈ l, e.toMeta = .ok e.resolved) :
      l.mapM BlobFileMerge.toMeta = .ok (l.map BlobFileMerge.resolved) := by
    induction l with
    | nil => rfl
    | cons e l ih =>
      rw [mapM_cons, h e mem_cons_self, ih fun e he => h e (mem_cons_of_mem _ he)]
      rfl
  rw [saveBlobFiles, hm _ fun e he => hd.toMeta_eq (hd.mem_mergedBlobFiles.mp he).2]
  rfl

theorem Deltas.ascending_savedBlobFiles (hd : Deltas b) : Ascending BlobFileMetaData.number b.savedBlobFiles := by
  apply Pairwise.sublist filter_sublist
  rw [pairwise_map]
  refine Pairwise.imp_of_mem (fun {e e'} he he' hlt => ?_) (hd.ascending_mergedBlobFiles _)
  rw [number_resolved (hd.mem_mergedBlobFiles.mp he).2, number_resolved (hd.mem_mergedBlobFiles.mp he').2]
  exact hlt

theorem save_eq [LinearOrder κ] (ht : Tracks b m) (hds : b.base.Distinct) (hd : Deltas b) :
    b.save = .ok ⟨(range b.numLevels).map b.saveLevel, b.savedBlobFiles⟩ := by
  have hn : (b.savedBlobFiles.map BlobFileMetaData.number).Nodup := by
    rw [Nodup, pairwise_map]
    exact hd.ascending_savedBlobFiles.imp Nat.ne_of_lt
  rw [save, if_pos (ht.nodup_save hds), hd.saveBlobFiles_eq]
  exact if_pos hn

theorem Deltas.minOldestBlobFileNumber_le (hd : Deltas b) (hk : (b.linkedSsts k).Nonempty) :
    b.minOldestBlobFileNumber ≤ k := by
  have hin : b.isBlobFileInVersion k = true := by
    by_contra ho
    rw [linkedSsts_eq_empty (Bool.not_eq_true _ ▸ ho)] at hk
    exact Finset.not_nonempty_empty hk
  obtain ⟨e, he, rfl⟩ := exists_merges hin
  rw [hd.linkedSsts_merges he] at hk
  have hmm : e ∈ b.mergedBlobFiles kInvalidBlobFileNumber := hd.mem_mergedBlobFiles.mpr ⟨Nat.zero_le _, he⟩
  have hm := hd.ascending_mergedBlobFiles kInvalidBlobFileNumber
  rw [minOldestBlobFileNumber]
  split
  · rename_i e' hf
    obtain ⟨-, bef, after, hs, hb⟩ := find?_eq_some_iff_append.mp hf
    rw [hs] at hmm hm
    rcases mem_append.mp hmm with hmm | hmm
    · have := hb e hmm
      simp [hk] at this
    · rcases mem_cons.mp hmm with rfl | hmm
      · exact Nat.le_refl _
      · exact Nat.le_of_lt ((pairwise_cons.mp (pairwise_append.mp hm).2.1).1 e hmm)
  · exact Nat.zero_le _

end VersionBuilder

end

end ZenFSPlus.Db
