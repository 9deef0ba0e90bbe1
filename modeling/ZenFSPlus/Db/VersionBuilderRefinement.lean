import ZenFSPlus.Db.VersionBuilderBlobs

namespace ZenFSPlus.Db

open Lib List VersionBuilder

variable {κ μ : Type}

section

variable [LinearOrder κ]

theorem exists_levelKey (l : ℕ) : ∃ (γ : Type) (_ : LinearOrder γ) (key : FileMetaData κ μ → γ),
    (∀ x y, levelCmp l x y = true ↔ key x < key y) ∧ ∀ x y, key x = key y → x.number = y.number := by
  by_cases hl : l = 0
  · refine ⟨ℕᵒᵈ ×ₗ (ℕᵒᵈ ×ₗ ℕᵒᵈ), inferInstance,
      fun f => toLex (OrderDual.toDual f.largestSeqno, toLex (OrderDual.toDual f.smallestSeqno, OrderDual.toDual f.number)),
      fun x y => ?_, fun x y h => ?_⟩
    · rw [levelCmp, if_pos hl, newestFirstBySeqNo, Prod.Lex.toLex_lt_toLex, Prod.Lex.toLex_lt_toLex]
      simp only [OrderDual.toDual_lt_toDual, OrderDual.toDual_inj]
      split
      · rename_i hne
        simp [hne]
      rename_i heq
      rw [not_not] at heq
      split
      · rename_i hne
        simp [heq, hne]
      · rename_i heq'
        rw [not_not] at heq'
        simp [heq, heq']
    · simpa using congrArg (fun k => (ofLex (ofLex k).2).2) h
  · refine ⟨InternalKey κ ×ₗ ℕ, inferInstance, fun f => toLex (f.smallest, f.number), fun x y => ?_, fun x y h => ?_⟩
    · rw [levelCmp, if_neg hl, bySmallestKey, Prod.Lex.toLex_lt_toLex]
      split
      · rename_i hne
        simp [hne]
      · rename_i heq
        rw [not_not] at heq
        simp [heq]
    · simpa using congrArg (fun k => (ofLex k).2) h

variable {l : ℕ} {f g : FileMetaData κ μ}

theorem levelCmp_asymm (h : levelCmp l f g = true) : levelCmp l g f = false := by
  obtain ⟨γ, _, key, hk, -⟩ := exists_levelKey (κ := κ) (μ := μ) l
  rw [← Bool.not_eq_true, hk]
  exact lt_asymm ((hk f g).mp h)

def VersionStorageInfo.Ordered (v : VersionStorageInfo κ μ) : Prop :=
  ∀ l < v.numLevels, (v.levelFiles l).Pairwise fun f g => levelCmp l f g = true

instance (v : VersionStorageInfo κ μ) : Decidable v.Ordered := inferInstanceAs (Decidable (∀ l < v.numLevels, _))

theorem eq_of_levelCmp {fs gs : List (FileMetaData κ μ)} (hfs : fs.Pairwise fun f g => levelCmp l f g = true)
    (hgs : gs.Pairwise fun f g => levelCmp l f g = true) (hm : ∀ f, f ∈ fs ↔ f ∈ gs) : fs = gs := by
  have hne {f g : FileMetaData κ μ} (h : levelCmp l f g = true) : f ≠ g := by
    rintro rfl
    rw [levelCmp_asymm h] at h
    cases h
  refine Perm.eq_of_pairwise (fun f g _ _ hfg hgf => ?_) hfs hgs ?_
  · rw [levelCmp_asymm hfg] at hgf
    cases hgf
  · exact (perm_ext_iff_of_nodup (hfs.imp hne) (hgs.imp hne)).mpr hm

end

namespace FileMap

variable {N : ℕ} {m m' : FileMap κ μ}

def Agrees (N : ℕ) (m m' : FileMap κ μ) : Prop := ∀ n l f, l < N → (m n = some (l, f) ↔ m' n = some (l, f))

theorem Agrees.delete (h : Agrees N m m') (d : ℕ × ℕ) : Agrees N (m.delete d) (m'.delete d) := by
  intro n l f hl
  by_cases hn : n = d.2
  · rw [hn, delete_self, delete_self]
  · rw [delete_of_ne hn, delete_of_ne hn]
    exact h n l f hl

theorem Agrees.add (h : Agrees N m m') (a : ℕ × FileMetaData κ μ) : Agrees N (m.add a) (m'.add a) := by
  intro n l f hl
  by_cases hn : n = a.2.number
  · rw [hn, add_self, add_self]
  · rw [add_of_ne hn, add_of_ne hn]
    exact h n l f hl

theorem Agrees.applyEdit (h : Agrees N m m') (edit : VersionEdit κ μ) :
    Agrees N (m.applyEdit edit) (m'.applyEdit edit) := by
  apply foldl_rel
  · apply foldl_rel h
    exact fun d _ m m' h => h.delete d
  · exact fun a _ m m' h => h.add a

end FileMap

section

variable [LinearOrder κ] {v : VersionStorageInfo κ μ} {m : FileMap κ μ} {N : ℕ}

structure HoldsFiles (N : ℕ) (v : VersionStorageInfo κ μ) (m : FileMap κ μ) : Prop where
  numLevels : v.numLevels = N
  distinct : v.Distinct
  ordered : v.Ordered
  blobFiles : Ascending BlobFileMetaData.number v.blobFiles
  agrees : FileMap.Agrees N v.fileMap m

theorem HoldsFiles.mem_iff (h : HoldsFiles N v m) {l : ℕ} (hl : l < N) (f : FileMetaData κ μ) :
    f ∈ v.levelFiles l ↔ m f.number = some (l, f) := by
  rw [← h.agrees f.number l f hl, h.distinct.fileMap_iff]
  exact (and_iff_left rfl).symm

end

namespace VersionBuilder

variable [LinearOrder κ] {b b' : VersionBuilder κ μ} {m : FileMap κ μ} {l : ℕ}

theorem Tracks.pairwise_saveLevel (ht : Tracks b m) (hd : b.base.Distinct) (hl : l < b.numLevels)
    (hb : (b.base.levelFiles l).Pairwise fun f g => levelCmp l f g = true) :
    (b.saveLevel l).Pairwise fun f g => levelCmp l f g = true := by
  obtain ⟨γ, _, key, hk, hn⟩ := exists_levelKey (κ := κ) (μ := μ) l
  have hle (f g : FileMetaData κ μ) : levelCmp l g f = false ↔ key f ≤ key g := by
    rw [← Bool.not_eq_true, hk, not_lt]
  have hs : (b.saveLevel l).Pairwise fun f g => key f ≤ key g := by
    rw [saveLevel, pairwise_map]
    apply Pairwise.sublist filter_sublist
    refine Pairwise.imp (R := fun x y => (!levelCmp l y.1 x.1) = true) (fun {x y} h => ?_) (pairwise_merge ?_ ?_ _ _ ?_ ?_)
    · rw [Bool.not_eq_true'] at h
      exact (hle _ _).mp h
    · intro x y z hxy hyz
      rw [Bool.not_eq_true', hle] at hxy hyz ⊢
      exact hxy.trans hyz
    · intro x y
      rw [Bool.or_eq_true, Bool.not_eq_true', Bool.not_eq_true', hle, hle]
      exact le_total _ _
    · rw [pairwise_map]
      refine hb.imp fun {f g} h => ?_
      rw [Bool.not_eq_true']
      exact levelCmp_asymm h
    · rw [pairwise_map]
      have : Std.Total fun x y : FileMetaData κ μ => levelCmp l y x = false := ⟨fun x y => by
        rw [hle, hle]
        exact le_total _ _⟩
      have : IsTrans (FileMetaData κ μ) fun x y => levelCmp l y x = false := ⟨fun x y z hxy hyz => by
        rw [hle] at hxy hyz ⊢
        exact hxy.trans hyz⟩
      refine (pairwise_insertionSort (fun x y => levelCmp l y x = false) (b.levels l).addedFiles).imp fun {f g} h => ?_
      rw [h]
      rfl
  -- distinct files of the level have distinct numbers, so that their keys differ
  refine (hs.and (ht.nodup_saveLevel hd l)).imp_of_mem fun {f g} hf hg h => ?_
  rw [hk]
  refine lt_of_le_of_ne h.1 fun heq => h.2 ?_
  have hmf := (ht.mem_saveLevel hl).mp hf
  have hmg := (ht.mem_saveLevel hl).mp hg
  rw [hn f g heq, hmg] at hmf
  cases hmf
  rfl

theorem Tracks.save (ht : Tracks b m) (hds : b.base.Distinct) (ho : b.base.Ordered) (hd : Deltas b) :
    ∃ v, b.save = .ok v ∧ HoldsFiles b.numLevels v m := by
  have hln : VersionStorageInfo.numLevels ⟨(range b.numLevels).map b.saveLevel, b.savedBlobFiles⟩ = b.numLevels := by
    simp [VersionStorageInfo.numLevels]
  have hnd : VersionStorageInfo.Distinct ⟨(range b.numLevels).map b.saveLevel, b.savedBlobFiles⟩ := ht.nodup_save hds
  refine ⟨_, save_eq ht hds hd, hln, hnd, fun l hl => ?_, hd.ascending_savedBlobFiles, fun n l f hl => ?_⟩
  · rw [hln] at hl
    rw [levelFiles_saved hl]
    exact ht.pairwise_saveLevel hds hl (ho l hl)
  · rw [hnd.fileMap_iff, ht.mem_saved]
    constructor
    · rintro ⟨⟨-, hm⟩, rfl⟩
      exact hm
    · intro hm
      have hn := ht.number n l f hm
      exact ⟨⟨hl, hn ▸ hm⟩, hn⟩

theorem saveTo_ok {checks ok : Bool} {v : VersionStorageInfo κ μ} (h : b.saveTo checks = .ok (v, ok)) : b.save = .ok v := by
  rw [saveTo] at h
  split at h
  · obtain ⟨v', hv', h⟩ := bind_eq_ok.mp h
    cases h
    exact hv'
  · cases h

end VersionBuilder

section

variable [LinearOrder κ] {v v' : VersionStorageInfo κ μ} {m : FileMap κ μ} {N : ℕ} {checks : Bool}

theorem HoldsFiles.applyEach (h : HoldsFiles N v m) {edit : VersionEdit κ μ} (ha : applyEach checks v edit = .ok v') :
    HoldsFiles N v' (m.applyEdit edit) := by
  obtain ⟨b, hb, ha⟩ := bind_eq_ok.mp ha
  obtain ⟨⟨v'', ok⟩, hsv, ha⟩ := bind_eq_ok.mp ha
  obtain ⟨ht, hbs⟩ := (tracks_base h.distinct).apply hb
  have hN : b.numLevels = N := by
    rw [VersionBuilder.numLevels, hbs]
    exact h.numLevels
  obtain ⟨w, hw, hs⟩ := ht.save (hbs ▸ h.distinct) (hbs ▸ h.ordered) ((deltas_base h.blobFiles).apply hb)
  rw [VersionBuilder.saveTo_ok hsv] at hw
  cases hw
  dsimp only at ha
  split at ha
  · cases ha
    rw [hN] at hs
    exact ⟨hs.numLevels, hs.distinct, hs.ordered, hs.blobFiles, fun n l f hl =>
      (hs.agrees n l f hl).trans (h.agrees.applyEdit edit n l f hl)⟩
  · cases ha

/-- One builder for all edits saves on every level the files that the edits make of the map of files; a builder for
every edit saves the same, if it goes through. -/
theorem saveTo_refines_fileMap {base : VersionStorageInfo κ μ} {edits : List (VersionEdit κ μ)} {b : VersionBuilder κ μ}
    (hdistinct : base.Distinct) (hordered : base.Ordered) (hblobs : Ascending BlobFileMetaData.number base.blobFiles)
    (happly : applyAll { base } checks edits = .ok b) :
    (checkConsistency checks base = true → ∃ v ok, b.saveTo checks = .ok (v, ok)) ∧
      ∀ v ok, b.saveTo checks = .ok (v, ok) → v.numLevels = base.numLevels ∧ (∀ l < base.numLevels,
          (∀ f, f ∈ v.levelFiles l ↔ (edits.foldl FileMap.applyEdit base.fileMap) f.number = some (l, f)) ∧
          ((v.levelFiles l).map FileMetaData.number).Nodup ∧
          (v.levelFiles l).Pairwise fun f g => levelCmp l f g = true) ∧
        ∀ v', edits.foldlM (applyEach checks) base = .ok v' → v'.files = v.files := by
  obtain ⟨ht, hb⟩ := (tracks_base hdistinct).applyAll happly
  have hd : VersionBuilder.Deltas b := deltas_foldlM (fun _ _ _ h hd => hd.apply h) happly (deltas_base hblobs)
  obtain ⟨v, hsa, hsv⟩ := ht.save (hb ▸ hdistinct) (hb ▸ hordered) hd
  have hN : b.numLevels = base.numLevels := by rw [VersionBuilder.numLevels, hb]
  rw [hN] at hsv
  constructor
  · intro hc
    rw [VersionBuilder.saveTo, hb, if_pos hc, hsa]
    exact ⟨v, _, rfl⟩
  · intro w ok hw
    rw [VersionBuilder.saveTo_ok hw] at hsa
    cases hsa
    refine ⟨hsv.numLevels, fun l hl => ⟨hsv.mem_iff hl, hsv.distinct.level l,
      hsv.ordered l (hsv.numLevels.symm ▸ hl)⟩, fun v' hv' => ?_⟩
    have hh : HoldsFiles base.numLevels v' (edits.foldl FileMap.applyEdit base.fileMap) := by
      refine foldlM_simulates (HoldsFiles base.numLevels) ?_ hv' ⟨rfl, hdistinct, hordered, hblobs, fun _ _ _ _ => Iff.rfl⟩
      intro s edit s' m _ hs h
      exact h.applyEach hs
    refine ext_getElem (hh.numLevels.trans hsv.numLevels.symm) fun l hl hl' => ?_
    have hlN : l < base.numLevels := hsv.numLevels ▸ hl'
    have heq := eq_of_levelCmp (hh.ordered l hl) (hsv.ordered l hl') fun f => by
      rw [hh.mem_iff hlN, hsv.mem_iff hlN]
    rw [VersionStorageInfo.levelFiles_eq hl, VersionStorageInfo.levelFiles_eq hl'] at heq
    exact heq

end

def sortedBase : VersionStorageInfo ℕ Unit where
  files := [[], [⟨1, ⟨1, 257⟩, ⟨2, 257⟩, 1, 1, 0, ()⟩, ⟨2, ⟨3, 257⟩, ⟨4, 257⟩, 1, 1, 0, ()⟩]]
  blobFiles := []

def moveEdits : List (VersionEdit ℕ Unit) :=
  [{ deletedFiles := [(1, 1)], newFiles := [(0, ⟨1, ⟨1, 257⟩, ⟨2, 257⟩, 1, 1, 0, ()⟩)] },
    { newFiles := [(1, ⟨3, ⟨1, 513⟩, ⟨2, 513⟩, 2, 2, 0, ()⟩)] }]

theorem saveTo_refines_fileMap_moves : ∃ b, applyAll { base := sortedBase } true moveEdits = .ok b ∧
    ∃ v ok, b.saveTo true = .ok (v, ok) ∧ ∀ l < 2,
      (∀ f, f ∈ v.levelFiles l ↔ (moveEdits.foldl FileMap.applyEdit sortedBase.fileMap) f.number = some (l, f)) ∧
      ((v.levelFiles l).map FileMetaData.number).Nodup ∧ (v.levelFiles l).Pairwise fun f g => levelCmp l f g = true := by
  obtain ⟨b, hb⟩ : ∃ b, applyAll { base := sortedBase } true moveEdits = .ok b := ⟨_, rfl⟩
  obtain ⟨hs, hr⟩ := saveTo_refines_fileMap (by decide) (by decide) (by decide) hb
  obtain ⟨v, ok, hv⟩ := hs (by decide)
  exact ⟨b, hb, v, ok, hv, (hr v ok hv).2.1⟩

def emptyBase : VersionStorageInfo ℕ Unit where
  files := [[]]
  blobFiles := []

def beyondEdits : List (VersionEdit ℕ Unit) :=
  [{ newFiles := [(1, ⟨1, ⟨1, 257⟩, ⟨2, 257⟩, 1, 1, 0, ()⟩)] }, { deletedFiles := [(1, 1)] }]

theorem applyEach_beyond_last_level : emptyBase.Distinct ∧ emptyBase.Ordered ∧
    Ascending BlobFileMetaData.number emptyBase.blobFiles ∧
    (∃ b, applyAll { base := emptyBase } true beyondEdits = .ok b ∧ b.saveTo true = .ok (emptyBase, true)) ∧
    beyondEdits.foldlM (applyEach true) emptyBase = .error
      (.corruption "Cannot delete table file #1 from level 1 since it is not in the LSM tree") := by
  have hs (b : VersionBuilder ℕ Unit) (hb : b.base = emptyBase) (hl : b.levels 0 = {})
      (hm : b.mutableBlobFileMetas = []) : b.saveTo true = .ok (emptyBase, true) := by
    have hbl : b.saveBlobFiles = .ok [] := by
      simp [saveBlobFiles, mergedBlobFiles, hb, hm, emptyBase, mergeBlobFileMetas]
    rw [VersionBuilder.saveTo, save, saveLevels_unchanged (by rw [hb]; rfl) hl, hbl, hb]
    decide +kernel
  refine ⟨by decide, by decide, by decide, ⟨_, rfl, hs _ rfl rfl rfl⟩, ?_⟩
  rw [beyondEdits, foldlM_cons]
  have hf : applyEach true emptyBase { newFiles := [(1, ⟨1, ⟨1, 257⟩, ⟨2, 257⟩, 1, 1, 0, ()⟩)] } = .ok emptyBase := by
    refine bind_eq_ok.mpr ⟨_, rfl, bind_eq_ok.mpr ⟨_, hs _ rfl rfl rfl, rfl⟩⟩
  rw [hf]
  decide +kernel

end ZenFSPlus.Db
