import ZenFSPlus.Utilities.WriteBatchWithIndex

namespace ZenFSPlus.Db

open List
open Lib (u32 cuts seenFrom seenAfter)
open Util

variable {c : UserComparators} {e e' : WriteBatchIndexEntry} {cf : ℕ} {key : Bytes}

theorem UserComparators.asymm (c : UserComparators) {cf : ℕ} {a b : Bytes} (h : c.lt cf a b = true) :
    c.lt cf b a = false := by
  by_contra hb
  have haa := c.trans cf a b a h (by simpa using hb)
  rw [c.irrefl] at haa
  cases haa

namespace WriteBatchIndexEntry

def follows (c : UserComparators) (e : WriteBatchIndexEntry) (cf : ℕ) (key : Bytes) : Prop :=
  cf < e.columnFamily ∨ cf = e.columnFamily ∧ c.lt cf key e.key = true

theorem lt_iff : e.lt c e' = true ↔ e.columnFamily < e'.columnFamily ∨ e.columnFamily = e'.columnFamily ∧
    (c.lt e.columnFamily e.key e'.key = true ∨ e.key = e'.key ∧ e.offset < e'.offset) := by
  simp [lt]

theorem precedes_iff : e.precedes c cf key = true ↔
    e.columnFamily < cf ∨ e.columnFamily = cf ∧ c.lt cf e.key key = true := by
  simp [precedes]

theorem cfKey_eq : e.cfKey = (cf, key) ↔ e.columnFamily = cf ∧ e.key = key := by
  simp [cfKey]

theorem trichotomy (c : UserComparators) (e : WriteBatchIndexEntry) (cf : ℕ) (key : Bytes) :
    e.precedes c cf key = true ∨ e.cfKey = (cf, key) ∨ e.follows c cf key := by
  rw [precedes_iff, cfKey_eq, follows]
  rcases Nat.lt_trichotomy e.columnFamily cf with h | h | h
  · exact .inl (.inl h)
  · rcases c.total cf e.key key with hk | hk | hk
    · exact .inl (.inr ⟨h, hk⟩)
    · exact .inr (.inl ⟨h, hk⟩)
    · exact .inr (.inr (.inr ⟨h.symm, hk⟩))
  · exact .inr (.inr (.inl h))

theorem follows.not_precedes (h : e.follows c cf key) : e.precedes c cf key = false := by
  rw [Bool.eq_false_iff, Ne, precedes_iff]
  rintro (hp | ⟨hcf, hp⟩)
  · rcases h with h | h <;> omega
  · rcases h with h | ⟨-, h⟩
    · omega
    · rw [c.asymm h] at hp
      cases hp

theorem follows.ne (h : e.follows c cf key) : e.cfKey ≠ (cf, key) := by
  rw [Ne, cfKey_eq]
  rintro ⟨hcf, rfl⟩
  rcases h with h | ⟨-, h⟩
  · omega
  · rw [c.irrefl] at h
    cases h

theorem not_precedes_of_cfKey (h : e.cfKey = (cf, key)) : e.precedes c cf key = false := by
  rw [cfKey_eq] at h
  obtain ⟨rfl, rfl⟩ := h
  simp [precedes, c.irrefl]

theorem follows_of_lt (h : e.follows c cf key) (hlt : e.lt c e' = true) : e'.follows c cf key := by
  rcases lt_iff.mp hlt with hlt | ⟨hcf, hlt⟩
  · rcases h with h | h
    · exact .inl (by omega)
    · exact .inl (by omega)
  rcases h with h | ⟨h, hk⟩
  · exact .inl (by omega)
  refine .inr ⟨h.trans hcf, ?_⟩
  rcases hlt with hlt | ⟨hlt, -⟩
  · rw [← h] at hlt
    exact c.trans _ _ _ _ hk hlt
  · rwa [← hlt]

theorem cfKey_or_follows_of_lt (h : e.cfKey = (cf, key)) (hlt : e.lt c e' = true) :
    e'.cfKey = (cf, key) ∨ e'.follows c cf key := by
  rw [cfKey_eq] at h ⊢
  obtain ⟨rfl, rfl⟩ := h
  rcases lt_iff.mp hlt with hlt | ⟨hcf, hlt | ⟨hk, -⟩⟩
  · exact .inr (.inl hlt)
  · exact .inr (.inr ⟨hcf, hlt⟩)
  · exact .inl ⟨hcf.symm, hk.symm⟩

theorem lt_of_precedes (h : e.precedes c cf key = true) (he : e'.cfKey = (cf, key)) : e.lt c e' = true := by
  rw [cfKey_eq] at he
  obtain ⟨rfl, rfl⟩ := he
  rw [lt_iff]
  rcases precedes_iff.mp h with h | ⟨hcf, hk⟩
  · exact .inl h
  · rw [hcf]
    exact .inr ⟨rfl, .inl hk⟩

theorem lt_of_follows (h : e'.follows c cf key) (he : e.cfKey = (cf, key)) : e.lt c e' = true := by
  rw [cfKey_eq] at he
  obtain ⟨rfl, rfl⟩ := he
  rw [lt_iff]
  rcases h with h | ⟨hcf, hk⟩
  · exact .inl h
  · exact .inr ⟨hcf, .inl hk⟩

end WriteBatchIndexEntry

namespace Index

open WriteBatchIndexEntry

variable {index bef same after : List WriteBatchIndexEntry}

def Sorted (c : UserComparators) (index : List WriteBatchIndexEntry) : Prop :=
  index.Pairwise fun e e' => e.lt c e' = true

structure Around (c : UserComparators) (cf : ℕ) (key : Bytes) (index before same after : List WriteBatchIndexEntry) :
    Prop where
  eq : index = before ++ (same ++ after)
  before : ∀ e ∈ before, e.precedes c cf key = true
  same : ∀ e ∈ same, e.cfKey = (cf, key)
  after : ∀ e ∈ after, e.follows c cf key

theorem Sorted.around (h : Sorted c index) (cf : ℕ) (key : Bytes) :
    ∃ bef same after, Around c cf key index bef same after := by
  induction index with
  | nil => exact ⟨[], [], [], rfl, nofun, nofun, nofun⟩
  | cons e index ih =>
    obtain ⟨hlt, hs⟩ := pairwise_cons.mp h
    obtain ⟨bef, same, after, hi⟩ := ih hs
    rcases trichotomy c e cf key with hp | hk | hf
    · exact ⟨e :: bef, same, after, by rw [hi.eq]; rfl, forall_mem_cons.mpr ⟨hp, hi.before⟩, hi.same, hi.after⟩
    · have hn : bef = [] := by
        rw [eq_nil_iff_forall_not_mem]
        intro a ha
        have hpa := hi.before a ha
        rcases cfKey_or_follows_of_lt hk (hlt a (by rw [hi.eq]; exact mem_append_left _ ha)) with ha | ha
        · rw [not_precedes_of_cfKey ha] at hpa
          cases hpa
        · rw [ha.not_precedes] at hpa
          cases hpa
      refine ⟨[], e :: same, after, ?_, nofun, forall_mem_cons.mpr ⟨hk, hi.same⟩, hi.after⟩
      rw [hi.eq, hn]
      rfl
    · have hal : ∀ a ∈ index, a.follows c cf key := fun a ha => follows_of_lt hf (hlt a ha)
      exact ⟨[], [], e :: index, rfl, nofun, nofun, forall_mem_cons.mpr ⟨hf, hal⟩⟩

theorem findIdx_append_of {α : Type} {p : α → Bool} {l l' : List α} (hl : ∀ a ∈ l, p a = false)
    (hl' : ∀ a ∈ l'.head?, p a = true) : (l ++ l').findIdx p = l.length := by
  induction l with
  | nil =>
    cases l' with
    | nil => rfl
    | cons a l' => simp [findIdx_cons, hl' a (by simp)]
  | cons a l ih =>
    obtain ⟨ha, hl⟩ := forall_mem_cons.mp hl
    simp [findIdx_cons, ha, ih hl]

namespace Around

variable (h : Around c cf key index bef same after)

include h

theorem rest_not_precedes : ∀ e ∈ same ++ after, e.precedes c cf key = false := by
  intro e he
  rcases mem_append.mp he with he | he
  · exact not_precedes_of_cfKey (h.same e he)
  · exact (h.after e he).not_precedes

theorem seek_eq : seek c index cf key = bef.length := by
  rw [seek, h.eq]
  apply findIdx_append_of
  · intro e he
    simp [h.before e he]
  · intro e he
    simp [h.rest_not_precedes e (mem_of_mem_head? he)]

theorem getElem?_add (i : ℕ) : index[bef.length + i]? = (same ++ after)[i]? := by
  rw [h.eq, List.getElem?_append_right (by omega), Nat.add_sub_cancel_left]

theorem matchesKey_iff : matchesKey index cf key bef.length = true ↔ same ≠ [] := by
  have hg := h.getElem?_add 0
  rw [Nat.add_zero] at hg
  rw [matchesKey, hg]
  cases same with
  | nil =>
    cases after with
    | nil => simp
    | cons e after =>
      have hne := (h.after e (by simp)).ne
      rw [Ne, cfKey_eq] at hne
      simpa using hne
  | cons e same =>
    have heq := cfKey_eq.mp (h.same e (by simp))
    simp [heq.1, heq.2]

theorem valid_of_same (hs : same ≠ []) : valid index cf bef.length = true := by
  have hm := h.matchesKey_iff.mpr hs
  unfold matchesKey at hm
  unfold valid
  cases hg : index[bef.length]? with
  | none => simp [hg] at hm
  | some e =>
    rw [hg] at hm
    simp only [Option.any_some, Bool.and_eq_true] at hm ⊢
    exact hm.1

theorem nextKey_eq (hs : same ≠ []) : nextKey index cf key bef.length = bef.length + same.length := by
  obtain ⟨e, same', rfl⟩ := exists_cons_of_ne_nil hs
  have hd : index.drop (bef.length + 1) = same' ++ after := by
    rw [h.eq, ← drop_drop, drop_left]
    rfl
  have hsame : ∀ a ∈ same', (a.columnFamily == cf && a.key == key) = true := by
    intro a ha
    have := cfKey_eq.mp (h.same a (mem_cons_of_mem e ha))
    simp [this.1, this.2]
  have haf : after.takeWhile (fun a => a.columnFamily == cf && a.key == key) = [] := by
    cases after with
    | nil => rfl
    | cons a after =>
      have hne := (h.after a (by simp)).ne
      rw [Ne, cfKey_eq] at hne
      rw [takeWhile_cons_of_neg]
      simpa using hne
  rw [nextKey, hd, takeWhile_append_of_pos hsame, haf, append_nil, length_cons]
  omega

theorem seekMinInCf_eq (hcf : ∀ e ∈ after.head?, e.columnFamily ≠ cf) :
    seekMinInCf index (cf + 1) = bef.length + same.length := by
  rw [seekMinInCf, h.eq, ← append_assoc, ← length_append]
  apply findIdx_append_of
  · intro e he
    rcases mem_append.mp he with he | he
    · rcases precedes_iff.mp (h.before e he) with hp | hp
      · simp
        omega
      · simp
        omega
    · have := (cfKey_eq.mp (h.same e he)).1
      simp
      omega
  · intro e he
    have hne := hcf e he
    rcases h.after e (mem_of_mem_head? he) with hf | hf
    · simp
      omega
    · omega

theorem lastOfKey_eq (hs : same ≠ []) (hcf : cf + 1 < 2 ^ 32) :
    lastOfKey index cf key bef.length = some (bef.length + same.length - 1) := by
  have hp := length_pos_of_ne_nil hs
  rw [lastOfKey, h.nextKey_eq hs]
  split
  · rfl
  rename_i hv
  have hne : ∀ e ∈ after.head?, e.columnFamily ≠ cf := by
    intro e he heq
    apply hv
    have hg := h.getElem?_add same.length
    rw [List.getElem?_append_right (Nat.le_refl _), Nat.sub_self, ← head?_eq_getElem?, Option.mem_def.mp he] at hg
    simp [valid, hg, heq]
  have hw : u32 (cf + 1) = cf + 1 := Nat.mod_eq_of_lt hcf
  rw [seekToLast, hw, h.seekMinInCf_eq hne, if_neg (by omega)]

theorem getElem?_last (hs : same ≠ []) : index[bef.length + same.length - 1]? = some (same.getLast hs) := by
  have hp := length_pos_of_ne_nil hs
  rw [Nat.add_sub_assoc hp, h.getElem?_add, List.getElem?_append_left (by omega),
    getLast_eq_getElem, List.getElem?_eq_getElem]

theorem set_last (hs : same ≠ []) (e : WriteBatchIndexEntry) :
    index.set (bef.length + same.length - 1) e = bef ++ ((same.dropLast ++ [e]) ++ after) := by
  have hp := length_pos_of_ne_nil hs
  have hl : bef.length + same.length - 1 = bef.length + same.dropLast.length := by
    rw [length_dropLast]
    omega
  have hsp : same = same.dropLast ++ [same.getLast hs] := (dropLast_append_getLast hs).symm
  rw [h.eq, hl, set_append_right _ _ (by omega), Nat.add_sub_cancel_left]
  congr 1
  conv_lhs => rw [hsp]
  simp

theorem insert_eq {e : WriteBatchIndexEntry} (he : e.cfKey = (cf, key)) (ho : ∀ a ∈ same, a.offset < e.offset) :
    Index.insert c e index = bef ++ ((same ++ [e]) ++ after) := by
  have hs {a : WriteBatchIndexEntry} {l : List WriteBatchIndexEntry} (ha : e.lt c a = false) :
      Index.insert c e (a :: l) = a :: Index.insert c e l := by
    rw [Index.insert, ha]
    rfl
  have haf : Index.insert c e after = e :: after := by
    cases after with
    | nil => rfl
    | cons a after => rw [Index.insert, lt_of_follows (h.after a (by simp)) he, if_pos rfl]
  have hsame : ∀ l : List WriteBatchIndexEntry, (∀ a ∈ l, a ∈ same) →
      Index.insert c e (l ++ after) = l ++ e :: after := by
    intro l hl
    induction l with
    | nil => exact haf
    | cons a l ih =>
      obtain ⟨ha, hl⟩ := forall_mem_cons.mp hl
      rw [cons_append, hs, ih hl]
      · rfl
      · have hk := cfKey_eq.mp (h.same a ha)
        have hk' := cfKey_eq.mp he
        have hlt := ho a ha
        rw [Bool.eq_false_iff, Ne, lt_iff, hk.1, hk'.1, hk.2, hk'.2, c.irrefl]
        simp
        omega
  have hb : ∀ l : List WriteBatchIndexEntry, (∀ a ∈ l, a ∈ bef) →
      Index.insert c e (l ++ (same ++ after)) = l ++ (same ++ e :: after) := by
    intro l hl
    induction l with
    | nil => exact hsame same fun a ha => ha
    | cons a l ih =>
      obtain ⟨ha, hl⟩ := forall_mem_cons.mp hl
      rw [cons_append, hs, ih hl]
      · rfl
      · have hlt := lt_of_precedes (h.before a ha) he
        rw [Bool.eq_false_iff]
        intro hgt
        rcases lt_iff.mp hlt with hlt | ⟨hcf, hlt | ⟨hk, hlt⟩⟩
        · rcases lt_iff.mp hgt with hgt | ⟨hcf, -⟩ <;> omega
        · rcases lt_iff.mp hgt with hgt | ⟨-, hgt | ⟨hk, -⟩⟩
          · omega
          · rw [← hcf, c.asymm hlt] at hgt
            cases hgt
          · rw [hk, c.irrefl] at hlt
            cases hlt
        · rcases lt_iff.mp hgt with hgt | ⟨-, hgt | ⟨-, hgt⟩⟩
          · omega
          · rw [hk, c.irrefl] at hgt
            cases hgt
          · omega
  rw [h.eq, hb bef fun a ha => ha, append_assoc]
  rfl

theorem sorted_replace (hsr : Sorted c index) {same' : List WriteBatchIndexEntry}
    (hsame : ∀ e ∈ same', e.cfKey = (cf, key)) (ho : same'.Pairwise fun e e' => e.offset < e'.offset) :
    Sorted c (bef ++ (same' ++ after)) := by
  have hs := hsr
  rw [Sorted, h.eq, pairwise_append] at hs
  obtain ⟨hb, hr, hc⟩ := hs
  rw [pairwise_append] at hr
  rw [Sorted, pairwise_append, pairwise_append]
  refine ⟨hb, ⟨?_, hr.2.1, ?_⟩, ?_⟩
  · apply ho.imp_of_mem
    intro e e' he he' hlt
    have hk := cfKey_eq.mp (hsame e he)
    have hk' := cfKey_eq.mp (hsame e' he')
    rw [lt_iff, hk.1, hk'.1, hk.2, hk'.2]
    exact .inr ⟨rfl, .inr ⟨rfl, hlt⟩⟩
  · intro e he e' he'
    exact lt_of_follows (h.after e' he') (hsame e he)
  · intro e he e' he'
    rcases mem_append.mp he' with he' | he'
    · exact lt_of_precedes (h.before e he) (hsame e' he')
    · exact hc e he e' (mem_append_right _ he')

theorem filter_replace {same' : List WriteBatchIndexEntry} (hsame : ∀ e ∈ same', e.cfKey = (cf, key))
    (k : ℕ × Bytes) : (bef ++ (same' ++ after)).filter (fun e => e.cfKey = k) =
      if k = (cf, key) then same' else index.filter fun e => e.cfKey = k := by
  split
  · rename_i hk
    subst hk
    have hb : bef.filter (fun e => e.cfKey = (cf, key)) = [] := by
      rw [filter_eq_nil_iff]
      intro e he hk
      have hp := h.before e he
      rw [not_precedes_of_cfKey (by simpa using hk)] at hp
      cases hp
    have ha : after.filter (fun e => e.cfKey = (cf, key)) = [] := by
      rw [filter_eq_nil_iff]
      intro e he
      simpa using (h.after e he).ne
    have hs : same'.filter (fun e => e.cfKey = (cf, key)) = same' := by
      rw [filter_eq_self]
      intro e he
      simpa using hsame e he
    rw [filter_append, filter_append, hb, ha, hs, nil_append, append_nil]
  · rename_i hk
    have hn {l : List WriteBatchIndexEntry} (hl : ∀ e ∈ l, e.cfKey = (cf, key)) :
        l.filter (fun e => e.cfKey = k) = [] := by
      rw [filter_eq_nil_iff]
      intro e he
      rw [hl e he]
      simpa using Ne.symm hk
    rw [h.eq]
    simp only [filter_append, hn hsame, hn h.same]

end Around

end Index

namespace Rep

open Index WriteBatchIndexEntry

variable {r : Rep} {type : WriteType} {bef same after : List WriteBatchIndexEntry}

def countAfter (r : Rep) (last : Option WriteBatchIndexEntry) : Rep :=
  match last with
  | none => r
  | some e => r.countSubBatch e

@[simp] theorem countSubBatch_index (e : WriteBatchIndexEntry) : (r.countSubBatch e).index = r.index := by
  unfold countSubBatch
  split <;> rfl

@[simp] theorem countSubBatch_lastEntryOffset (e : WriteBatchIndexEntry) :
    (r.countSubBatch e).lastEntryOffset = r.lastEntryOffset := by
  unfold countSubBatch
  split <;> rfl

@[simp] theorem countSubBatch_writeBatch (e : WriteBatchIndexEntry) :
    (r.countSubBatch e).writeBatch = r.writeBatch := by
  unfold countSubBatch
  split <;> rfl

theorem updateExisting_of_nil (h : Around c cf key r.index bef [] after) :
    r.updateExistingEntryWithCfId c cf key type = some (false, r) := by
  have hm : matchesKey r.index cf key bef.length = false := by
    rw [Bool.eq_false_iff, Ne, h.matchesKey_iff]
    simp
  unfold updateExistingEntryWithCfId
  simp [h.seek_eq, hm]

theorem updateExisting_of_same (h : Around c cf key r.index bef same after) (ho : r.overwriteKey = true)
    (hs : same ≠ []) (hcf : cf + 1 < 2 ^ 32) :
    r.updateExistingEntryWithCfId c cf key type =
      some (if type = .mergeRecord then (false, r.countSubBatch (same.getLast hs))
        else (true, { r.countSubBatch (same.getLast hs) with
          index := bef ++ ((same.dropLast ++ [⟨r.lastEntryOffset, cf, key⟩]) ++ after) })) := by
  have hk := cfKey_eq.mp (h.same _ (getLast_mem hs))
  have hmk : ({ same.getLast hs with offset := r.lastEntryOffset } : WriteBatchIndexEntry) =
      ⟨r.lastEntryOffset, cf, key⟩ := by
    rw [← hk.1, ← hk.2]
  unfold updateExistingEntryWithCfId
  simp only [h.seek_eq, h.valid_of_same hs, h.matchesKey_iff.mpr hs, h.lastOfKey_eq hs hcf, ho, Bool.not_true, Bool.false_eq_true, if_false, Option.bind_eq_bind, Option.bind_some,
    h.getElem?_last hs, countSubBatch_index, countSubBatch_lastEntryOffset, hmk, h.set_last hs]
  split <;> rfl

theorem addOrUpdateIndex_eq (type : WriteType) (h : Around c cf key r.index bef same after) (hov : r.overwriteKey = true)
    (hcf : cf + 1 < 2 ^ 32) (ho : ∀ e ∈ same, e.offset < r.lastEntryOffset) {record : Record} {rest : Bytes}
    (hr : readRecordFromWriteBatch (r.writeBatch.rep.drop r.lastEntryOffset) = .ok (record, rest))
    (hk : recordKey record = some key) :
    r.addOrUpdateIndex c cf key type = some { r.countAfter same.getLast? with
      index := bef ++ (((if type = .mergeRecord then same else same.dropLast) ++
        [⟨r.lastEntryOffset, cf, key⟩]) ++ after) } := by
  have ha {r' : Rep} (hi : r'.index = r.index) (hb : r'.writeBatch = r.writeBatch)
      (hl : r'.lastEntryOffset = r.lastEntryOffset) :
      r'.addNewEntry c cf = some { r' with
        index := bef ++ ((same ++ [⟨r.lastEntryOffset, cf, key⟩]) ++ after) } := by
    rw [addNewEntry, hb, hl, hr]
    simp only [hk, Option.bind_eq_bind, Option.bind_some, hi]
    rw [h.insert_eq rfl ho]
    rfl
  by_cases hs : same = []
  · subst hs
    rw [addOrUpdateIndex, updateExisting_of_nil h]
    simp only [Option.bind_eq_bind, Option.bind_some, Bool.false_eq_true, if_false]
    rw [ha rfl rfl rfl]
    simp [countAfter]
  · rw [addOrUpdateIndex, updateExisting_of_same h hov hs hcf, getLast?_eq_getLast_of_ne_nil hs]
    by_cases ht : type = .mergeRecord
    · simp only [ht, if_true, Option.bind_eq_bind, Option.bind_some, Bool.false_eq_true, if_false]
      exact ha (countSubBatch_index _) (countSubBatch_writeBatch _) (countSubBatch_lastEntryOffset _)
    · simp only [ht, if_false, Option.bind_eq_bind, Option.bind_some, if_true]
      rfl

end Rep

end ZenFSPlus.Db
