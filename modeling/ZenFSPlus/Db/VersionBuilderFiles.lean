import Mathlib.Data.List.GetD
import ZenFSPlus.Db.VersionBuilder
import ZenFSPlus.Lib.Run

namespace ZenFSPlus.Db

open Lib List Function

variable {κ μ : Type}

def FileMap (κ μ : Type) : Type := ℕ → Option (ℕ × FileMetaData κ μ)

namespace FileMap

def delete (m : FileMap κ μ) (deleted : ℕ × ℕ) : FileMap κ μ := update m deleted.2 none

def add (m : FileMap κ μ) (new : ℕ × FileMetaData κ μ) : FileMap κ μ := update m new.2.number (some new)

def applyEdit (m : FileMap κ μ) (edit : VersionEdit κ μ) : FileMap κ μ :=
  edit.newFiles.foldl add (edit.deletedFiles.foldl delete m)

variable {m : FileMap κ μ} {n : ℕ}

theorem delete_self (del : ℕ × ℕ) : m.delete del del.2 = none :=
  update_self (β := fun _ => Option (ℕ × FileMetaData κ μ)) del.2 none m

theorem delete_of_ne {del : ℕ × ℕ} (h : n ≠ del.2) : m.delete del n = m n :=
  update_of_ne (β := fun _ => Option (ℕ × FileMetaData κ μ)) h none m

theorem add_self (new : ℕ × FileMetaData κ μ) : m.add new new.2.number = some new :=
  update_self (β := fun _ => Option (ℕ × FileMetaData κ μ)) new.2.number (some new) m

theorem add_of_ne {new : ℕ × FileMetaData κ μ} (h : n ≠ new.2.number) : m.add new n = m n :=
  update_of_ne (β := fun _ => Option (ℕ × FileMetaData κ μ)) h (some new) m

end FileMap

theorem find?_number {fs : List (FileMetaData κ μ)} {f : FileMetaData κ μ} (hf : f ∈ fs)
    (hi : ∀ g ∈ fs, g.number = f.number → g = f) : fs.find? (fun g => g.number = f.number) = some f := by
  cases hfn : fs.find? fun g => g.number = f.number with
  | none =>
    have hne := find?_eq_none.mp hfn f hf
    simp at hne
  | some g => rw [hi g (mem_of_find?_eq_some hfn) (by simpa using find?_some hfn)]

namespace VersionStorageInfo

variable {v : VersionStorageInfo κ μ} {f g : FileMetaData κ μ} {l l' n : ℕ}

def Distinct (v : VersionStorageInfo κ μ) : Prop := (v.files.flatten.map FileMetaData.number).Nodup

instance : Decidable v.Distinct := inferInstanceAs (Decidable (Nodup _))

def fileMap (v : VersionStorageInfo κ μ) : FileMap κ μ := fun n =>
  (v.fileLevel n).bind fun level => ((v.levelFiles level).find? fun f => f.number = n).map fun f => (level, f)

theorem lt_of_mem_levelFiles (hf : f ∈ v.levelFiles l) : l < v.numLevels := by
  by_contra hge
  rw [levelFiles, getD_eq_getElem?_getD, List.getElem?_eq_none (Nat.le_of_not_lt hge)] at hf
  cases hf

theorem levelFiles_eq (hl : l < v.numLevels) : v.levelFiles l = v.files.get ⟨l, hl⟩ := getD_eq_getElem _ _ hl

theorem Distinct.level (h : v.Distinct) (l : ℕ) : ((v.levelFiles l).map FileMetaData.number).Nodup := by
  by_cases hl : l < v.numLevels
  · rw [Distinct, map_flatten, nodup_flatten] at h
    rw [levelFiles_eq hl]
    exact h.1 _ (mem_map_of_mem (get_mem _ _))
  · rw [levelFiles, getD_eq_getElem?_getD, List.getElem?_eq_none (Nat.le_of_not_lt hl)]
    exact nodup_nil

section

variable (h : v.Distinct) (hf : f ∈ v.levelFiles l) (hg : g ∈ v.levelFiles l') (hn : f.number = g.number)

include h hf hg hn

theorem Distinct.level_eq : l = l' := by
  have hl := lt_of_mem_levelFiles hf
  have hl' := lt_of_mem_levelFiles hg
  rw [levelFiles_eq hl] at hf
  rw [levelFiles_eq hl'] at hg
  rw [Distinct, map_flatten, nodup_flatten, pairwise_map] at h
  have hap {a b : ℕ} (ha : a < v.files.length) (hb : b < v.files.length) (hab : a < b) {x y : FileMetaData κ μ}
      (hx : x ∈ v.files[a]) (hy : y ∈ v.files[b]) : x.number ≠ y.number := by
    intro heq
    refine pairwise_iff_getElem.mp h.2 a b ha hb hab (mem_map_of_mem hx) ?_
    rw [heq]
    exact mem_map_of_mem hy
  rcases Nat.lt_trichotomy l l' with hlt | heq | hgt
  · exact absurd hn (hap hl hl' hlt hf hg)
  · exact heq
  · exact absurd hn.symm (hap hl' hl hgt hg hf)

theorem Distinct.eq : f = g := by
  have hl := h.level_eq hf hg hn
  subst hl
  exact inj_on_of_nodup_map (h.level l) hf hg hn

end

theorem Distinct.fileLevel_eq (h : v.Distinct) (hf : f ∈ v.levelFiles l) : v.fileLevel f.number = some l := by
  have hl := lt_of_mem_levelFiles hf
  rw [fileLevel, findIdx?_eq_some_iff_getElem]
  refine ⟨hl, ?_, fun j hj ha => ?_⟩
  · rw [levelFiles_eq hl] at hf
    exact any_eq_true.mpr ⟨f, hf, by simp⟩
  · obtain ⟨g, hg, hn⟩ := any_eq_true.mp ha
    have hgj : g ∈ v.levelFiles j := by
      rw [levelFiles_eq (show j < v.numLevels from hj.trans hl)]
      exact hg
    exact Nat.ne_of_lt hj (h.level_eq hgj hf (by simpa using hn))

theorem mem_of_fileLevel (h : v.fileLevel n = some l) : ∃ f ∈ v.levelFiles l, f.number = n := by
  obtain ⟨hl, ha, -⟩ := findIdx?_eq_some_iff_getElem.mp h
  obtain ⟨f, hf, hn⟩ := any_eq_true.mp ha
  refine ⟨f, ?_, by simpa using hn⟩
  rw [levelFiles_eq hl]
  exact hf

theorem fileMap_fst (n : ℕ) : (v.fileMap n).map Prod.fst = v.fileLevel n := by
  rw [fileMap]
  cases h : v.fileLevel n with
  | none => rfl
  | some l =>
    obtain ⟨f, hf, hn⟩ := mem_of_fileLevel h
    rw [Option.bind_some]
    cases hfn : (v.levelFiles l).find? fun f => f.number = n with
    | none => exact absurd hn (by simpa using find?_eq_none.mp hfn f hf)
    | some g => rfl

theorem Distinct.fileMap_iff (h : v.Distinct) : v.fileMap n = some (l, f) ↔ f ∈ v.levelFiles l ∧ f.number = n := by
  constructor
  · intro hm
    obtain ⟨l', hl', hfn⟩ := Option.bind_eq_some_iff.mp hm
    obtain ⟨g, hg, heq⟩ := Option.map_eq_some_iff.mp hfn
    cases heq
    exact ⟨mem_of_find?_eq_some hg, by simpa using find?_some hg⟩
  · rintro ⟨hf, rfl⟩
    rw [fileMap, h.fileLevel_eq hf, Option.bind_some, find?_number hf fun g hg hn => h.eq hg hf hn]
    rfl

theorem Distinct.fileMetaDataByNumber_eq (h : v.Distinct) (hf : f ∈ v.levelFiles l) :
    v.fileMetaDataByNumber f.number = some f := by
  have hm : f ∈ v.files.flatten := by
    rw [levelFiles_eq (lt_of_mem_levelFiles hf)] at hf
    exact mem_flatten_of_mem (get_mem _ _) hf
  exact find?_number hm fun g hg hn => inj_on_of_nodup_map h hg hm hn

end VersionStorageInfo

namespace VersionBuilder

variable {b b' : VersionBuilder κ μ} {m : FileMap κ μ} {f : FileMetaData κ μ} {l n : ℕ}

structure Tracks (b : VersionBuilder κ μ) (m : FileMap κ μ) : Prop where
  current : ∀ n, b.currentLevel n = (m n).map Prod.fst
  number : ∀ n l f, m n = some (l, f) → f.number = n
  added : ∀ l f, f ∈ (b.levels l).addedFiles → l < b.numLevels ∧ m f.number = some (l, f)
  nodup : ∀ l, (b.levels l).addedFiles.Nodup
  deleted : ∀ l n, n ∈ (b.levels l).deletedFiles → l < b.numLevels ∧ (m n).map Prod.fst ≠ some l
  base : ∀ l f, f ∈ b.base.levelFiles l → f.number ∉ (b.levels l).deletedFiles → b.findAdded l f.number = none →
    m f.number = some (l, f)
  kept : ∀ n l f, m n = some (l, f) → l < b.numLevels →
    f ∈ (b.levels l).addedFiles ∨ f ∈ b.base.levelFiles l ∧ b.findAdded l n = none

theorem findAdded_eq_none : b.findAdded l n = none ↔ ∀ f ∈ (b.levels l).addedFiles, f.number ≠ n := by
  simp [findAdded, find?_eq_none]

structure SameFiles (b b' : VersionBuilder κ μ) : Prop where
  base : b'.base = b.base
  levels : b'.levels = b.levels
  tableFileLevels : b'.tableFileLevels = b.tableFileLevels

theorem SameFiles.refl (b : VersionBuilder κ μ) : SameFiles b b := ⟨rfl, rfl, rfl⟩

theorem SameFiles.tracks (h : SameFiles b b') (ht : Tracks b m) : Tracks b' m := by
  obtain ⟨base', levels', sizes', tfl', metas'⟩ := b'
  obtain ⟨h1, h2, h3⟩ := h
  subst h1 h2 h3
  exact ⟨ht.current, ht.number, ht.added, ht.nodup, ht.deleted, ht.base, ht.kept⟩

theorem sameFiles_getOrCreate {k : ℕ} {x : MutableBlobFileMetaData} (h : b.getOrCreate k = some (x, b')) :
    SameFiles b b' := by
  rw [getOrCreate] at h
  split at h
  · cases h
    exact .refl b
  split at h
  · cases h
    exact ⟨rfl, rfl, rfl⟩
  · cases h

theorem sameFiles_relink {change : MutableBlobFileMetaData → Except BuilderError MutableBlobFileMetaData} {k : ℕ}
    (h : b.relink change k = .ok b') : SameFiles b b' := by
  rw [relink] at h
  split at h
  · cases h
    exact .refl b
  split at h
  · cases h
    exact .refl b
  rename_i x u hget
  obtain ⟨y, -, h⟩ := bind_eq_ok.mp h
  cases h
  obtain ⟨h1, h2, h3⟩ := sameFiles_getOrCreate hget
  exact ⟨h1, h2, h3⟩

theorem sameFiles_applyBlobFileAddition {a : SharedBlobFileMetaData} (h : applyBlobFileAddition b a = .ok b') :
    SameFiles b b' := by
  rw [applyBlobFileAddition] at h
  split at h
  · cases h
  · cases h
    exact ⟨rfl, rfl, rfl⟩

theorem sameFiles_applyBlobFileGarbage {a : ℕ × UInt64 × UInt64} (h : applyBlobFileGarbage b a = .ok b') :
    SameFiles b b' := by
  rw [applyBlobFileGarbage] at h
  split at h
  · cases h
  rename_i x u hget
  obtain ⟨y, -, h⟩ := bind_eq_ok.mp h
  cases h
  obtain ⟨h1, h2, h3⟩ := sameFiles_getOrCreate hget
  exact ⟨h1, h2, h3⟩

theorem tracks_base {v : VersionStorageInfo κ μ} (h : v.Distinct) : Tracks { base := v } v.fileMap where
  current n := (VersionStorageInfo.fileMap_fst n).symm
  number _ _ _ hm := (h.fileMap_iff.mp hm).2
  added _ _ hf := nomatch hf
  nodup _ := nodup_nil
  deleted _ n hn := absurd hn (Finset.notMem_empty n)
  base _ _ hf _ _ := h.fileMap_iff.mpr ⟨hf, rfl⟩
  kept _ _ _ hm _ := .inr ⟨(h.fileMap_iff.mp hm).1, rfl⟩

theorem applyFileDeletion_ok {d : ℕ × ℕ} (h : applyFileDeletion b d = .ok b') : b.currentLevel d.2 = some d.1 ∧
      (b.numLevels ≤ d.1 ∧ b' = setTableFileLevel d.2 none { b with
          invalidLevelSizes := update b.invalidLevelSizes d.1 (b.invalidLevelSizes d.1 - 1) } ∨
        d.1 < b.numLevels ∧ ∃ k u, b.oldestBlobFileNumber d.1 d.2 = .ok k ∧ b.relink (·.unlinkSst d.2) k = .ok u ∧
          b' = setTableFileLevel d.2 none (u.setLevel d.1 ⟨insert d.2 (u.levels d.1).deletedFiles,
            (u.levels d.1).addedFiles.filter fun f => f.number ≠ d.2⟩)) := by
  rw [applyFileDeletion] at h
  dsimp only at h
  by_cases hc : b.currentLevel d.2 = some d.1
  · refine ⟨hc, ?_⟩
    rw [if_neg (not_not.mpr hc)] at h
    by_cases hl : b.numLevels ≤ d.1
    · rw [if_pos hl] at h
      split at h
      · cases h
      · exact .inl ⟨hl, (Except.ok.inj h).symm⟩
    · rw [if_neg hl] at h
      obtain ⟨k, hk, h⟩ := bind_eq_ok.mp h
      obtain ⟨u, hu, h⟩ := bind_eq_ok.mp h
      split at h
      · cases h
      · exact .inr ⟨Nat.lt_of_not_le hl, k, u, hk, hu, (Except.ok.inj h).symm⟩
  · rw [if_pos hc] at h
    cases h

variable {a : ℕ × FileMetaData κ μ}

theorem applyFileAddition_ok (h : applyFileAddition b a = .ok b') : b.currentLevel a.2.number = none ∧
      (b.numLevels ≤ a.1 ∧ b' = setTableFileLevel a.2.number (some a.1) { b with
          invalidLevelSizes := update b.invalidLevelSizes a.1 (b.invalidLevelSizes a.1 + 1) } ∨
        a.1 < b.numLevels ∧ ∃ u, (b.setLevel a.1 ⟨(b.levels a.1).deletedFiles.erase a.2.number,
            (b.levels a.1).addedFiles ++ [a.2]⟩).relink (·.linkSst a.2.number) a.2.oldestBlobFileNumber = .ok u ∧
          b' = setTableFileLevel a.2.number (some a.1) u) := by
  rw [applyFileAddition] at h
  split at h
  · cases h
  rename_i hc
  refine ⟨hc, ?_⟩
  by_cases hl : b.numLevels ≤ a.1
  · rw [if_pos hl] at h
    exact .inl ⟨hl, (Except.ok.inj h).symm⟩
  rw [if_neg hl] at h
  split at h
  · cases h
  · obtain ⟨u, hu, h⟩ := bind_eq_ok.mp h
    exact .inr ⟨Nat.lt_of_not_le hl, u, hu, (Except.ok.inj h).symm⟩

theorem currentLevel_setTableFileLevel (n' : ℕ) (level : Option ℕ) :
    (setTableFileLevel n level b).currentLevel n' = if n' = n then level else b.currentLevel n' := by
  rw [currentLevel, setTableFileLevel]
  split
  · rename_i heq
    rw [heq]
    exact congrArg (Option.getD · _) (update_self n (some level) b.tableFileLevels)
  · rename_i hne
    exact congrArg (Option.getD · _) (update_of_ne hne (some level) b.tableFileLevels)

theorem applyFileDeletion_base {d : ℕ × ℕ} (h : applyFileDeletion b d = .ok b') : b'.base = b.base := by
  rcases (applyFileDeletion_ok h).2 with ⟨-, rfl⟩ | ⟨-, k, u, -, hu, rfl⟩
  · rfl
  · exact (sameFiles_relink hu).base

theorem applyFileAddition_base (h : applyFileAddition b a = .ok b') : b'.base = b.base := by
  rcases (applyFileAddition_ok h).2 with ⟨-, rfl⟩ | ⟨-, u, hu, rfl⟩
  · rfl
  · exact (sameFiles_relink hu).base

theorem SameFiles.currentLevel (h : SameFiles b b') (n : ℕ) : b'.currentLevel n = b.currentLevel n := by
  rw [VersionBuilder.currentLevel, VersionBuilder.currentLevel, h.tableFileLevels, h.base]

section

variable (ht : Tracks b m)

include ht

theorem Tracks.currentLevel_eq_some (h : b.currentLevel n = some l) : ∃ f, m n = some (l, f) := by
  rw [ht.current, Option.map_eq_some_iff] at h
  obtain ⟨⟨l', f⟩, hm, rfl⟩ := h
  exact ⟨f, hm⟩

theorem Tracks.currentLevel_eq_none (h : b.currentLevel n = none) : m n = none := by
  rw [ht.current, Option.map_eq_none_iff] at h
  exact h

theorem Tracks.change {x : Option (ℕ × FileMetaData κ μ)} {m' : FileMap κ μ} (hs : m' n = x)
    (ho : ∀ n' ≠ n, m' n' = m n') (hb : b'.base = b.base)
    (hcurrent : ∀ n', b'.currentLevel n' = if n' = n then x.map Prod.fst else b.currentLevel n')
    (hnb : ∀ l f, x = some (l, f) → f.number = n)
    (ha : ∀ l f, f ∈ (b'.levels l).addedFiles ↔
      f ∈ (b.levels l).addedFiles ∧ f.number ≠ n ∨ l < b.numLevels ∧ x = some (l, f))
    (hnd : ∀ l, (b'.levels l).addedFiles.Nodup)
    (hdl : ∀ l, ∀ n' ≠ n, n' ∈ (b'.levels l).deletedFiles ↔ n' ∈ (b.levels l).deletedFiles)
    (hde : ∀ l, n ∈ (b'.levels l).deletedFiles → l < b.numLevels ∧ x.map Prod.fst ≠ some l)
    (hk : ∀ l, ∀ f ∈ b.base.levelFiles l, f.number = n → n ∉ (b'.levels l).deletedFiles →
      (∀ g ∈ (b'.levels l).addedFiles, g.number ≠ n) → x = some (l, f)) : Tracks b' m' := by
  have hnm : b'.numLevels = b.numLevels := congrArg VersionStorageInfo.numLevels hb
  have hfn {l n' : ℕ} (h : n' ≠ n) : b'.findAdded l n' = none ↔ b.findAdded l n' = none := by
    simp only [findAdded_eq_none, ha]
    constructor
    · intro hnn g hg heq
      exact hnn g (.inl ⟨hg, heq ▸ h⟩) heq
    · rintro hnn g (⟨hg, -⟩ | ⟨-, hx⟩)
      · exact hnn g hg
      · exact hnb l g hx ▸ Ne.symm h
  constructor
  case current =>
    intro n'
    rw [hcurrent]
    split_ifs with h
    · rw [h, hs]
    · rw [ho n' h, ht.current]
  case number =>
    intro n' l f hf
    by_cases h : n' = n
    · rw [h, hs] at hf
      exact (hnb l f hf).trans h.symm
    · rw [ho n' h] at hf
      exact ht.number n' l f hf
  case added =>
    intro l f hf
    rw [hnm]
    rcases (ha l f).mp hf with ⟨hf, hne⟩ | ⟨hlt, hx⟩
    · rw [ho _ hne]
      exact ht.added l f hf
    · rw [hnb l f hx, hs]
      exact ⟨hlt, hx⟩
  case nodup => exact hnd
  case deleted =>
    intro l n' hn'
    rw [hnm]
    by_cases h : n' = n
    · rw [h] at hn' ⊢
      rw [hs]
      exact hde l hn'
    · rw [ho n' h]
      exact ht.deleted l n' ((hdl l n' h).mp hn')
  case base =>
    intro l f hf hnt hnn
    rw [hb] at hf
    by_cases h : f.number = n
    · rw [h] at hnt hnn ⊢
      rw [hs]
      exact hk l f hf h hnt (findAdded_eq_none.mp hnn)
    · rw [ho _ h]
      exact ht.base l f hf (fun hd => hnt ((hdl l _ h).mpr hd)) ((hfn h).mp hnn)
  case kept =>
    intro n' l f hf hlt
    rw [hnm] at hlt
    by_cases h : n' = n
    · rw [h, hs] at hf
      exact .inl ((ha l f).mpr (.inr ⟨hlt, hf⟩))
    · rw [ho n' h] at hf
      rw [ha, hb, hfn h]
      exact (ht.kept n' l f hf hlt).imp_left fun hf' => .inl ⟨hf', ht.number n' l f hf ▸ h⟩

theorem Tracks.delete {g : FileMetaData κ μ} (hm : m n = some (l, g)) (hb : b'.base = b.base)
    (hcurrent : ∀ n', b'.currentLevel n' = if n' = n then none else b.currentLevel n')
    (hlv : ∀ l', b'.levels l' = if l' = l ∧ l < b.numLevels then
      ⟨insert n (b.levels l').deletedFiles, (b.levels l').addedFiles.filter fun f => f.number ≠ n⟩ else b.levels l') :
    Tracks b' (m.delete (l, n)) := by
  have hl {l' : ℕ} {f : FileMetaData κ μ} (hf : f ∈ (b.levels l').addedFiles) (heq : f.number = n) :
      l' = l ∧ l < b.numLevels := by
    obtain ⟨hlt, hmf⟩ := ht.added l' f hf
    rw [heq, hm] at hmf
    cases hmf
    exact ⟨rfl, hlt⟩
  refine ht.change (FileMap.delete_self (l, n)) (fun _ => FileMap.delete_of_ne) hb hcurrent (fun _ _ => nofun)
    (fun l' f => ?_) (fun l' => ?_) (fun l' n' h => ?_) (fun l' hn => ?_) fun l' f hf h hnt hnn => ?_
  · rw [hlv]
    split_ifs with hc
    · simp
    constructor
    · exact fun hf => .inl ⟨hf, fun heq => hc (hl hf heq)⟩
    · rintro (⟨hf, -⟩ | ⟨-, hx⟩)
      · exact hf
      · cases hx
  · rw [hlv]
    split
    · exact (ht.nodup l').filter _
    · exact ht.nodup l'
  · rw [hlv]
    split
    · exact Finset.mem_insert.trans (or_iff_right h)
    · rfl
  · refine ⟨?_, nofun⟩
    rw [hlv] at hn
    split_ifs at hn with hc
    · exact hc.1 ▸ hc.2
    · exact (ht.deleted l' n hn).1
  · by_cases hc : l' = l ∧ l < b.numLevels
    · rw [hlv, if_pos hc] at hnt
      exact absurd (Finset.mem_insert_self _ _) hnt
    rw [hlv, if_neg hc, ← h] at hnt hnn
    have heq := ht.base l' f hf hnt (findAdded_eq_none.mpr hnn)
    rw [h, hm] at heq
    cases heq
    exact absurd ⟨rfl, VersionStorageInfo.lt_of_mem_levelFiles hf⟩ hc

theorem Tracks.add {g : FileMetaData κ μ} (hm : m g.number = none) (hb : b'.base = b.base)
    (hcurrent : ∀ n', b'.currentLevel n' = if n' = g.number then some l else b.currentLevel n')
    (hl : ∀ l', b'.levels l' = if l' = l ∧ l < b.numLevels then
      ⟨(b.levels l').deletedFiles.erase g.number, (b.levels l').addedFiles ++ [g]⟩ else b.levels l') :
    Tracks b' (m.add (l, g)) := by
  have hne {l' : ℕ} {f : FileMetaData κ μ} (hf : f ∈ (b.levels l').addedFiles) : f.number ≠ g.number := by
    intro heq
    have hmf := (ht.added l' f hf).2
    rw [heq, hm] at hmf
    cases hmf
  refine ht.change (FileMap.add_self (l, g)) (fun _ => FileMap.add_of_ne) hb hcurrent (fun l' f hx => ?_)
    (fun l' f => ?_) (fun l' => ?_) (fun l' n' h => ?_) (fun l' hn => ?_) fun l' f hf h hnt hnn => ?_
  · cases hx
    rfl
  · rw [hl]
    split_ifs with hc
    · obtain ⟨rfl, hlt⟩ := hc
      rw [mem_append, mem_singleton]
      constructor
      · rintro (hf | rfl)
        · exact .inl ⟨hf, hne hf⟩
        · exact .inr ⟨hlt, rfl⟩
      · rintro (⟨hf, -⟩ | ⟨-, hx⟩)
        · exact .inl hf
        · cases hx
          exact .inr rfl
    · constructor
      · exact fun hf => .inl ⟨hf, hne hf⟩
      · rintro (⟨hf, -⟩ | ⟨hlt, hx⟩)
        · exact hf
        · cases hx
          exact absurd ⟨rfl, hlt⟩ hc
  · rw [hl]
    split
    · refine nodup_append.mpr ⟨ht.nodup l', nodup_singleton g, fun x hx y hy heq => ?_⟩
      rw [mem_singleton.mp hy] at heq
      exact hne hx (congrArg FileMetaData.number heq)
    · exact ht.nodup l'
  · rw [hl]
    split
    · exact Finset.mem_erase.trans (and_iff_right h)
    · rfl
  · rw [hl] at hn
    split_ifs at hn with hc
    · exact absurd hn (Finset.notMem_erase _ _)
    have hlt := (ht.deleted l' _ hn).1
    refine ⟨hlt, fun heq => ?_⟩
    cases heq
    exact hc ⟨rfl, hlt⟩
  · by_cases hc : l' = l ∧ l < b.numLevels
    · refine absurd rfl (hnn g ?_)
      rw [hl, if_pos hc]
      exact mem_append_right _ (mem_singleton_self g)
    · rw [hl, if_neg hc, ← h] at hnt hnn
      have heq := ht.base l' f hf hnt (findAdded_eq_none.mpr hnn)
      rw [h, hm] at heq
      cases heq

theorem Tracks.applyFileDeletion {d : ℕ × ℕ} (h : applyFileDeletion b d = .ok b') : Tracks b' (m.delete d) := by
  obtain ⟨hcr, hc⟩ := applyFileDeletion_ok h
  obtain ⟨g, hm⟩ := ht.currentLevel_eq_some hcr
  refine ht.delete hm (applyFileDeletion_base h) (fun n' => ?_) fun l' => ?_
  · rcases hc with ⟨-, rfl⟩ | ⟨-, k, u, -, hu, rfl⟩
    · exact currentLevel_setTableFileLevel n' none
    · rw [currentLevel_setTableFileLevel]
      exact if_congr Iff.rfl rfl ((sameFiles_relink hu).currentLevel n')
  · rcases hc with ⟨hge, rfl⟩ | ⟨hlt, k, u, -, hu, rfl⟩
    · rw [if_neg fun hcn => absurd hcn.2 (Nat.not_lt.mpr hge)]
      rfl
    have hl := (sameFiles_relink hu).levels
    by_cases heq : l' = d.1
    · rw [if_pos ⟨heq, hlt⟩, heq, ← hl]
      exact update_self d.1 _ u.levels
    · rw [if_neg fun hcn => heq hcn.1, ← hl]
      exact update_of_ne heq _ u.levels

theorem Tracks.applyFileAddition (h : applyFileAddition b a = .ok b') : Tracks b' (m.add a) := by
  obtain ⟨hcr, hc⟩ := applyFileAddition_ok h
  refine ht.add (ht.currentLevel_eq_none hcr) (applyFileAddition_base h) (fun n' => ?_) fun l' => ?_
  · rcases hc with ⟨-, rfl⟩ | ⟨-, u, hu, rfl⟩
    · exact currentLevel_setTableFileLevel n' (some a.1)
    · rw [currentLevel_setTableFileLevel]
      exact if_congr Iff.rfl rfl ((sameFiles_relink hu).currentLevel n')
  · rcases hc with ⟨hge, rfl⟩ | ⟨hlt, u, hu, rfl⟩
    · rw [if_neg fun hcn => absurd hcn.2 (Nat.not_lt.mpr hge)]
      rfl
    have hl := congrFun (sameFiles_relink hu).levels l'
    refine hl.trans ?_
    by_cases heq : l' = a.1
    · rw [if_pos ⟨heq, hlt⟩, heq]
      exact update_self a.1 _ b.levels
    · rw [if_neg fun hcn => heq hcn.1]
      exact update_of_ne heq _ b.levels

end

theorem SameFiles.trans {b'' : VersionBuilder κ μ} (h : SameFiles b b') (h' : SameFiles b' b'') : SameFiles b b'' :=
  ⟨h'.base.trans h.base, h'.levels.trans h.levels, h'.tableFileLevels.trans h.tableFileLevels⟩

theorem sameFiles_foldlM {α : Type} {step : VersionBuilder κ μ → α → Except BuilderError (VersionBuilder κ μ)}
    (hst : ∀ b a b', step b a = .ok b' → SameFiles b b') {as : List α} (h : as.foldlM step b = .ok b') :
    SameFiles b b' :=
  foldlM_simulates (g := fun (t : Unit) _ => t) (fun s _ => SameFiles b s) (fun s a s' _ _ hs hR => hR.trans (hst s a s' hs)) h
    (t := ()) (.refl b)

section

variable [LinearOrder κ] {checks : Bool} {edit : VersionEdit κ μ}

theorem apply_ok (h : VersionBuilder.apply checks b edit = .ok b') :
    ∃ b1 b2 b3, checkConsistency checks b.base = true ∧ edit.blobFileAdditions.foldlM applyBlobFileAddition b = .ok b1 ∧
      edit.blobFileGarbages.foldlM applyBlobFileGarbage b1 = .ok b2 ∧
      edit.deletedFiles.foldlM VersionBuilder.applyFileDeletion b2 = .ok b3 ∧
      edit.newFiles.foldlM VersionBuilder.applyFileAddition b3 = .ok b' := by
  rw [VersionBuilder.apply] at h
  split at h
  · rename_i hc
    obtain ⟨b1, h1, h⟩ := bind_eq_ok.mp h
    obtain ⟨b2, h2, h⟩ := bind_eq_ok.mp h
    obtain ⟨b3, h3, h⟩ := bind_eq_ok.mp h
    exact ⟨b1, b2, b3, hc, h1, h2, h3, h⟩
  · cases h

theorem Tracks.apply (ht : Tracks b m) (h : VersionBuilder.apply checks b edit = .ok b') :
    Tracks b' (m.applyEdit edit) ∧ b'.base = b.base := by
  obtain ⟨b1, b2, b3, -, h1, h2, h3, h4⟩ := apply_ok h
  have hsame := (sameFiles_foldlM (fun _ _ _ => sameFiles_applyBlobFileAddition) h1).trans
    (sameFiles_foldlM (fun _ _ _ => sameFiles_applyBlobFileGarbage) h2)
  have hd : Tracks b3 (edit.deletedFiles.foldl FileMap.delete m) ∧ b3.base = b.base := by
    refine foldlM_simulates (fun s t => Tracks s t ∧ s.base = b.base) ?_ h3 ⟨hsame.tracks ht, hsame.base⟩
    rintro s d s' t - hs ⟨ht, hb⟩
    exact ⟨ht.applyFileDeletion hs, (applyFileDeletion_base hs).trans hb⟩
  refine foldlM_simulates (fun s t => Tracks s t ∧ s.base = b.base) ?_ h4 hd
  rintro s a s' t - hs ⟨ht, hb⟩
  exact ⟨ht.applyFileAddition hs, (applyFileAddition_base hs).trans hb⟩

theorem Tracks.applyAll (ht : Tracks b m) {edits : List (VersionEdit κ μ)} (h : b.applyAll checks edits = .ok b') :
    Tracks b' (edits.foldl FileMap.applyEdit m) ∧ b'.base = b.base := by
  refine foldlM_simulates (fun s t => Tracks s t ∧ s.base = b.base) ?_ h ⟨ht, rfl⟩
  rintro s e s' t - hs ⟨ht, hb⟩
  obtain ⟨ht', hb'⟩ := ht.apply hs
  exact ⟨ht', hb'.trans hb⟩

end

section

variable [LinearOrder κ]

omit [LinearOrder κ] in
theorem keepsFile_base : b.keepsFile l (f, false) = true ↔
    f.number ∉ (b.levels l).deletedFiles ∧ b.findAdded l f.number = none := by
  rw [keepsFile]
  by_cases h : f.number ∈ (b.levels l).deletedFiles
  · simp [h]
  · simp [h]

omit [LinearOrder κ] in
theorem keepsFile_added : b.keepsFile l (f, true) = true ↔ f.number ∉ (b.levels l).deletedFiles := by
  simp [keepsFile]

theorem saveLevel_unchanged (h : b.levels l = {}) : b.saveLevel l = b.base.levelFiles l := by
  have hk (f : FileMetaData κ μ) : b.keepsFile l (f, false) = true := by
    rw [keepsFile_base, findAdded_eq_none, h]
    exact ⟨Finset.notMem_empty _, fun g hg => nomatch hg⟩
  rw [saveLevel, h]
  simp [filter_map, comp_def, hk]

theorem saveLevels_unchanged {files : List (FileMetaData κ μ)} (hb : b.base.files = [files]) (h : b.levels 0 = {}) :
    (range b.numLevels).map b.saveLevel = [files] := by
  rw [VersionBuilder.numLevels, VersionStorageInfo.numLevels, hb]
  change [b.saveLevel 0] = _
  rw [saveLevel_unchanged h, VersionStorageInfo.levelFiles, hb]
  rfl

theorem mem_saveLevel_iff : f ∈ b.saveLevel l ↔
    f ∈ b.base.levelFiles l ∧ f.number ∉ (b.levels l).deletedFiles ∧ b.findAdded l f.number = none ∨
      f ∈ (b.levels l).addedFiles ∧ f.number ∉ (b.levels l).deletedFiles := by
  rw [saveLevel, mem_map]
  constructor
  · rintro ⟨⟨g, flag⟩, hg, rfl⟩
    obtain ⟨hm, hk⟩ := mem_filter.mp hg
    rcases mem_merge.mp hm with h | h
    · obtain ⟨x, hx, heq⟩ := mem_map.mp h
      cases heq
      exact .inl ⟨hx, keepsFile_base.mp hk⟩
    · obtain ⟨x, hx, heq⟩ := mem_map.mp h
      cases heq
      exact .inr ⟨(mem_insertionSort _).mp hx, keepsFile_added.mp hk⟩
  · rintro (⟨hf, hk⟩ | ⟨hf, hk⟩)
    · exact ⟨(f, false), mem_filter.mpr ⟨mem_merge.mpr (.inl (mem_map_of_mem hf)), keepsFile_base.mpr hk⟩, rfl⟩
    · refine ⟨(f, true), mem_filter.mpr ⟨mem_merge.mpr (.inr ?_), keepsFile_added.mpr hk⟩, rfl⟩
      exact mem_map_of_mem ((mem_insertionSort _).mpr hf)

theorem Tracks.mem_saveLevel (ht : Tracks b m) (hl : l < b.numLevels) : f ∈ b.saveLevel l ↔ m f.number = some (l, f) := by
  rw [mem_saveLevel_iff]
  constructor
  · rintro (⟨hf, hd, hnn⟩ | ⟨hf, -⟩)
    · exact ht.base l f hf hd hnn
    · exact (ht.added l f hf).2
  · intro hm
    have hd : f.number ∉ (b.levels l).deletedFiles := by
      intro hd
      apply (ht.deleted l _ hd).2
      rw [hm]
      rfl
    rcases ht.kept _ l f hm hl with hf | ⟨hf, hnn⟩
    · exact .inr ⟨hf, hd⟩
    · exact .inl ⟨hf, hd, hnn⟩

theorem levelFiles_saved {blobFiles : List BlobFileMetaData} (hl : l < b.numLevels) :
    VersionStorageInfo.levelFiles ⟨(range b.numLevels).map b.saveLevel, blobFiles⟩ l = b.saveLevel l := by
  rw [VersionStorageInfo.levelFiles, getD_eq_getElem?_getD, List.getElem?_map, List.getElem?_range hl, Option.map_some,
    Option.getD_some]

theorem Tracks.mem_saved (ht : Tracks b m) {blobFiles : List BlobFileMetaData} (l : ℕ) (f : FileMetaData κ μ) :
    f ∈ VersionStorageInfo.levelFiles ⟨(range b.numLevels).map b.saveLevel, blobFiles⟩ l ↔
      l < b.numLevels ∧ m f.number = some (l, f) := by
  by_cases hl : l < b.numLevels
  · rw [levelFiles_saved hl, ht.mem_saveLevel hl]
    exact (and_iff_right hl).symm
  · refine iff_of_false (fun hf => hl ?_) fun h => hl h.1
    simpa [VersionStorageInfo.numLevels] using VersionStorageInfo.lt_of_mem_levelFiles hf

theorem Tracks.nodup_saveLevel (ht : Tracks b m) (hd : b.base.Distinct) (l : ℕ) : (b.saveLevel l).Nodup := by
  rw [saveLevel]
  have hb : ((b.base.levelFiles l).map (·, false)).Nodup :=
    Nodup.map (fun _ _ h => congrArg Prod.fst h) (Nodup.of_map _ (hd.level l))
  have hae : (((b.levels l).addedFiles.insertionSort fun x y => levelCmp l y x = false).map (·, true)).Nodup := by
    refine Nodup.map (fun _ _ h => congrArg Prod.fst h) ?_
    exact (perm_insertionSort _ _).nodup_iff.mpr (ht.nodup l)
  refine Nodup.map_on ?_ (Nodup.filter _ ((merge_perm_append _).nodup_iff.mpr ?_))
  · -- a file of the base version that is also among the added ones is not kept
    have ha {f : FileMetaData κ μ} (hf : b.keepsFile l (f, false) = true) (hf' : f ∈ (b.levels l).addedFiles) : False :=
      findAdded_eq_none.mp (keepsFile_base.mp hf).2 f hf' rfl
    have hm {f : FileMetaData κ μ} (hf : (f, true) ∈ List.merge ((b.base.levelFiles l).map (·, false))
        (((b.levels l).addedFiles.insertionSort fun x y => levelCmp l y x = false).map (·, true))
        fun x y => !levelCmp l y.1 x.1) : f ∈ (b.levels l).addedFiles := by
      rcases mem_merge.mp hf with h | h
      · obtain ⟨x, -, heq⟩ := mem_map.mp h
        cases heq
      · obtain ⟨x, hx, heq⟩ := mem_map.mp h
        cases heq
        exact (mem_insertionSort _).mp hx
    rintro ⟨x, fx⟩ hx ⟨y, fy⟩ hy heq
    obtain ⟨hx, hkx⟩ := mem_filter.mp hx
    obtain ⟨hy, hky⟩ := mem_filter.mp hy
    cases (show x = y from heq)
    cases fx with
    | false =>
      cases fy with
      | false => rfl
      | true => exact (ha hkx (hm hy)).elim
    | true =>
      cases fy with
      | false => exact (ha hky (hm hx)).elim
      | true => rfl
  · refine nodup_append.mpr ⟨hb, hae, fun x hx y hy heq => ?_⟩
    obtain ⟨x, -, rfl⟩ := mem_map.mp hx
    obtain ⟨y, -, rfl⟩ := mem_map.mp hy
    exact Bool.false_ne_true (congrArg Prod.snd heq)

theorem Tracks.nodup_save (ht : Tracks b m) (hd : b.base.Distinct) :
    (((range b.numLevels).map b.saveLevel).flatten.map FileMetaData.number).Nodup := by
  have hm {l : ℕ} (hl : l ∈ range b.numLevels) {f : FileMetaData κ μ} (hf : f ∈ b.saveLevel l) :
      m f.number = some (l, f) := (ht.mem_saveLevel (mem_range.mp hl)).mp hf
  rw [map_flatten, map_map, nodup_flatten]
  constructor
  · intro ns hns
    obtain ⟨l, hl, rfl⟩ := mem_map.mp hns
    refine Nodup.map_on (fun x hx y hy heq => ?_) (ht.nodup_saveLevel hd l)
    have hx' := hm hl hx
    rw [heq, hm hl hy] at hx'
    exact (congrArg Prod.snd (Option.some.inj hx')).symm
  · rw [pairwise_map]
    refine nodup_range.imp_of_mem fun {l l'} hl hl' hne n hn hn' => ?_
    obtain ⟨x, hx, rfl⟩ := mem_map.mp hn
    obtain ⟨y, hy, heq⟩ := mem_map.mp hn'
    have hx' := hm hl hx
    rw [← heq, hm hl' hy] at hx'
    exact hne (congrArg Prod.fst (Option.some.inj hx')).symm

end

end VersionBuilder

end ZenFSPlus.Db
