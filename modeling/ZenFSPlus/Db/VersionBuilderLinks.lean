import ZenFSPlus.Db.VersionBuilderBlobs

namespace ZenFSPlus.Db

open Lib List

variable {κ μ : Type}

namespace FileMap

variable {m : FileMap κ μ} {numLevels k n l : ℕ} {f : FileMetaData κ μ}

def Refs (m : FileMap κ μ) (numLevels k n : ℕ) : Prop :=
  k ≠ kInvalidBlobFileNumber ∧ ∃ l f, m n = some (l, f) ∧ l < numLevels ∧ f.oldestBlobFileNumber = k

theorem refs_congr {m' : FileMap κ μ} (h : m' n = m n) : m'.Refs numLevels k n ↔ m.Refs numLevels k n := by
  rw [Refs, Refs, h]

theorem not_refs (h : m n = none) : ¬m.Refs numLevels k n := by
  rintro ⟨-, l, f, hm, -⟩
  rw [h] at hm
  cases hm

theorem refs_self (h : m n = some (l, f)) :
    m.Refs numLevels k n ↔ k ≠ kInvalidBlobFileNumber ∧ l < numLevels ∧ f.oldestBlobFileNumber = k := by
  constructor
  · rintro ⟨hk, l', f', hm, hl, hf⟩
    rw [h] at hm
    cases hm
    exact ⟨hk, hl, hf⟩
  · rintro ⟨hk, hl, hf⟩
    exact ⟨hk, l, f, h, hl, hf⟩

end FileMap

namespace VersionBuilder

variable {b b' : VersionBuilder κ μ} {m : FileMap κ μ} {f : FileMetaData κ μ} {k l n : ℕ}

structure Linked (b : VersionBuilder κ μ) (m : FileMap κ μ) : Prop where
  tracks : Tracks b m
  deltas : Deltas b
  distinct : b.base.Distinct
  links : ∀ k n, n ∈ b.linkedSsts k ↔ m.Refs b.numLevels k n

theorem Linked.inVersion (hi : Linked b m) (h : m.Refs b.numLevels k n) : b.isBlobFileInVersion k = true := by
  by_contra ho
  have hn := (hi.links k n).mpr h
  rw [linkedSsts_eq_empty (Bool.not_eq_true _ ▸ ho)] at hn
  exact Finset.notMem_empty n hn

theorem Tracks.oldestBlobFileNumber_eq (ht : Tracks b m) (hd : b.base.Distinct) (hm : m n = some (l, f))
    (hl : l < b.numLevels) : b.oldestBlobFileNumber l n = .ok f.oldestBlobFileNumber := by
  have hn := ht.number n l f hm
  rw [oldestBlobFileNumber]
  cases hf : b.findAdded l n with
  | some g =>
    have hg := (ht.added l g (mem_of_find?_eq_some hf)).2
    have hgn : g.number = n := by simpa using find?_some hf
    rw [hgn, hm] at hg
    cases hg
    rfl
  | none =>
    rcases ht.kept n l f hm hl with ha | ⟨hb, -⟩
    · exact absurd hn (findAdded_eq_none.mp hf f ha)
    · rw [← hn, hd.fileMetaDataByNumber_eq hb]
      rfl

section

variable (hi : Linked b m)

include hi

theorem Linked.relinked {m' : FileMap κ μ} (ht : Tracks b' m') (hd : Deltas b') (hb : b'.base = b.base)
    (hl : ∀ k n, n ∈ b'.linkedSsts k ↔ m'.Refs b.numLevels k n) : Linked b' m' where
  tracks := ht
  deltas := hd
  distinct := hb ▸ hi.distinct
  links := by
    rw [numLevels, hb]
    exact hl

theorem Linked.same (ht : Tracks b' m) (hd : Deltas b') (hb : b'.base = b.base)
    (hl : ∀ k, b'.linkedSsts k = b.linkedSsts k) : Linked b' m :=
  hi.relinked ht hd hb fun k n => hl k ▸ hi.links k n

theorem Linked.applyBlobFileAddition {a : SharedBlobFileMetaData} (h : applyBlobFileAddition b a = .ok b') :
    Linked b' m := by
  obtain ⟨hd, hl, -⟩ := hi.deltas.applyBlobFileAddition h
  have hsame := sameFiles_applyBlobFileAddition h
  exact hi.same (hsame.tracks hi.tracks) hd hsame.base hl

theorem Linked.applyBlobFileGarbage {a : ℕ × UInt64 × UInt64} (h : applyBlobFileGarbage b a = .ok b') :
    Linked b' m := by
  have hr := hi.deltas.applyBlobFileGarbage h
  have hsame := sameFiles_applyBlobFileGarbage h
  refine hi.same (hsame.tracks hi.tracks) hr.deltas hsame.base fun k => ?_
  rw [hr.linked]
  split_ifs with heq
  · rw [heq]
  · rfl

theorem Linked.applyFileDeletion {d : ℕ × ℕ} (h : applyFileDeletion b d = .ok b') :
    Linked b' (m.delete d) ∧ ∀ k, b'.isBlobFileInVersion k = b.isBlobFileInVersion k := by
  have ht := hi.tracks.applyFileDeletion h
  have hb := applyFileDeletion_base h
  obtain ⟨hc, hcs⟩ := applyFileDeletion_ok h
  obtain ⟨f, hm⟩ := hi.tracks.currentLevel_eq_some hc
  have hs (k : ℕ) : ¬(m.delete d).Refs b.numLevels k d.2 := FileMap.not_refs (FileMap.delete_self d)
  have ho {k n : ℕ} (hne : n ≠ d.2) : (m.delete d).Refs b.numLevels k n ↔ m.Refs b.numLevels k n :=
    FileMap.refs_congr (FileMap.delete_of_ne hne)
  rcases hcs with ⟨hl, rfl⟩ | ⟨hl, k, u, hk, hu, rfl⟩
  · refine ⟨hi.relinked ht (hi.deltas.congr rfl rfl) hb fun k n => ?_, fun k => rfl⟩
    refine (hi.links k n).trans ?_
    by_cases hne : n = d.2
    · -- the file is on a level that the version does not have
      rw [hne, FileMap.refs_self hm]
      constructor
      · rintro ⟨-, hlt, -⟩
        omega
      · exact fun hrf => absurd hrf (hs k)
    · exact (ho hne).symm
  · rw [hi.tracks.oldestBlobFileNumber_eq hi.distinct hm hl] at hk
    cases hk
    have hrf (k : ℕ) : m.Refs b.numLevels k d.2 ↔ k ≠ kInvalidBlobFileNumber ∧ f.oldestBlobFileNumber = k := by
      rw [FileMap.refs_self hm]
      simp only [hl, true_and]
    rcases hi.deltas.relink unlinkSst_ofBase hu with ⟨rfl, hn⟩ | ⟨hk, x, x', hx, hxb, hr⟩
    · refine ⟨hi.relinked ht (hi.deltas.congr rfl rfl) hb fun k n => ?_, fun k => rfl⟩
      refine (hi.links k n).trans ?_
      by_cases hne : n = d.2
      · rw [hne]
        refine iff_of_false (fun hre => ?_) (hs k)
        obtain ⟨hk, rfl⟩ := (hrf k).mp hre
        rcases hn with hz | hou
        · exact hk hz
        · rw [hi.inVersion hre] at hou
          cases hou
      · exact (ho hne).symm
    · refine ⟨hi.relinked ht (hr.deltas.congr rfl rfl) hb fun k n => ?_, hr.inVersion⟩
      obtain ⟨-, rfl⟩ := unlinkSst_ok hx
      dsimp only at hr
      refine (Finset.ext_iff.mp (hr.linked k) n).trans ?_
      rw [hxb]
      by_cases hne : n = d.2
      · rw [hne]
        refine iff_of_false (fun hmm => ?_) (hs k)
        split_ifs at hmm with hkf
        · exact Finset.notMem_erase _ _ hmm
        · exact hkf ((hrf k).mp ((hi.links k d.2).mp hmm)).2.symm
      · rw [ho hne, ← hi.links]
        split_ifs with heq
        · rw [heq, Finset.mem_erase]
          exact and_iff_right hne
        · rfl

theorem Linked.applyFileAddition {a : ℕ × FileMetaData κ μ} (h : applyFileAddition b a = .ok b')
    (hkn : a.2.oldestBlobFileNumber = kInvalidBlobFileNumber ∨ b.isBlobFileInVersion a.2.oldestBlobFileNumber = true) :
    Linked b' (m.add a) ∧ ∀ k, b'.isBlobFileInVersion k = b.isBlobFileInVersion k := by
  have ht := hi.tracks.applyFileAddition h
  have hb := applyFileAddition_base h
  obtain ⟨hc, hcs⟩ := applyFileAddition_ok h
  have hm := hi.tracks.currentLevel_eq_none hc
  have ho {k n : ℕ} (hne : n ≠ a.2.number) : (m.add a).Refs b.numLevels k n ↔ m.Refs b.numLevels k n :=
    FileMap.refs_congr (FileMap.add_of_ne hne)
  have hs (k : ℕ) : (m.add a).Refs b.numLevels k a.2.number ↔
      k ≠ kInvalidBlobFileNumber ∧ a.1 < b.numLevels ∧ a.2.oldestBlobFileNumber = k :=
    FileMap.refs_self (FileMap.add_self a)
  rcases hcs with ⟨hl, rfl⟩ | ⟨hl, u, hu, rfl⟩
  · refine ⟨hi.relinked ht (hi.deltas.congr rfl rfl) hb fun k n => ?_, fun k => rfl⟩
    refine (hi.links k n).trans ?_
    by_cases hne : n = a.2.number
    · rw [hne, hs]
      refine iff_of_false (FileMap.not_refs hm) ?_
      rintro ⟨-, hlt, -⟩
      omega
    · exact (ho hne).symm
  · have hw : Deltas (b.setLevel a.1 ⟨(b.levels a.1).deletedFiles.erase a.2.number, (b.levels a.1).addedFiles ++ [a.2]⟩) :=
      hi.deltas.congr rfl rfl
    rcases hw.relink linkSst_ofBase hu with ⟨rfl, hn⟩ | ⟨hk, x, x', hx, hxb, hr⟩
    · refine ⟨hi.relinked ht (hi.deltas.congr rfl rfl) hb fun k n => ?_, fun k => rfl⟩
      refine (hi.links k n).trans ?_
      by_cases hne : n = a.2.number
      · rw [hne, hs]
        refine iff_of_false (FileMap.not_refs hm) ?_
        rintro ⟨hk, -, rfl⟩
        have hin := hkn.resolve_left hk
        rcases hn with hz | hou
        · exact hk hz
        · exact Bool.false_ne_true (hou.symm.trans hin)
      · exact (ho hne).symm
    · refine ⟨hi.relinked ht (hr.deltas.congr rfl rfl) hb fun k n => ?_, hr.inVersion⟩
      obtain ⟨-, rfl⟩ := linkSst_ok hx
      dsimp only at hr
      refine (Finset.ext_iff.mp (hr.linked k) n).trans ?_
      rw [hxb]
      by_cases hne : n = a.2.number
      · rw [hne, hs]
        split
        · rename_i heq
          subst heq
          exact iff_of_true (Finset.mem_insert_self _ _) ⟨hk, hl, rfl⟩
        · rename_i hkf
          refine iff_of_false (fun hmm => ?_) fun h => hkf h.2.2.symm
          exact FileMap.not_refs hm ((hi.links k _).mp hmm)
      · rw [ho hne, ← hi.links]
        split_ifs with heq
        · rw [heq, Finset.mem_insert]
          exact or_iff_right hne
        · rfl

theorem Linked.blobFileAdditions {as : List SharedBlobFileMetaData}
    (h : as.foldlM VersionBuilder.applyBlobFileAddition b = .ok b') : Linked b' m ∧
      ∀ k, b.isBlobFileInVersion k = true ∨ k ∈ as.map SharedBlobFileMetaData.blobFileNumber →
        b'.isBlobFileInVersion k = true := by
  induction as generalizing b with
  | nil =>
    cases h
    exact ⟨hi, fun k hk => hk.resolve_right not_mem_nil⟩
  | cons a as ih =>
    rw [foldlM_cons] at h
    obtain ⟨u, hu, h⟩ := bind_eq_ok.mp h
    obtain ⟨hi', hin⟩ := ih (hi.applyBlobFileAddition hu) h
    obtain ⟨-, -, hu⟩ := hi.deltas.applyBlobFileAddition hu
    refine ⟨hi', fun k hk => hin k ?_⟩
    rw [map_cons, mem_cons] at hk
    rcases hk with hk | hk | hk
    · exact .inl ((hu k).mpr (.inr hk))
    · exact .inl ((hu k).mpr (.inl hk))
    · exact .inr hk

end

def Knows (known : List ℕ) (b : VersionBuilder κ μ) (m : FileMap κ μ) : Prop :=
  Linked b m ∧ ∀ k ∈ known, b.isBlobFileInVersion k = true

def knownAfter (known : List ℕ) (edit : VersionEdit κ μ) : List ℕ :=
  known ++ edit.blobFileAdditions.map SharedBlobFileMetaData.blobFileNumber

def ReferencesKnown (known : List ℕ) : List (VersionEdit κ μ) → Prop
  | [] => True
  | edit :: edits =>
    (∀ a ∈ edit.newFiles,
      a.2.oldestBlobFileNumber = kInvalidBlobFileNumber ∨ a.2.oldestBlobFileNumber ∈ knownAfter known edit) ∧
      ReferencesKnown (knownAfter known edit) edits

section

variable [LinearOrder κ] {checks : Bool} {known : List ℕ}

theorem Knows.apply (hi : Knows known b m) {edit : VersionEdit κ μ} (h : VersionBuilder.apply checks b edit = .ok b')
    (hkn : ∀ a ∈ edit.newFiles,
      a.2.oldestBlobFileNumber = kInvalidBlobFileNumber ∨ a.2.oldestBlobFileNumber ∈ knownAfter known edit) :
    Knows (knownAfter known edit) b' (m.applyEdit edit) := by
  obtain ⟨b1, b2, b3, -, h1, h2, h3, h4⟩ := apply_ok h
  have hi1 : Knows (knownAfter known edit) b1 m := by
    obtain ⟨hl, hin⟩ := hi.1.blobFileAdditions h1
    refine ⟨hl, fun k hk => hin k ?_⟩
    rcases mem_append.mp hk with hk | hk
    · exact .inl (hi.2 k hk)
    · exact .inr hk
  have hi2 : Knows (knownAfter known edit) b2 m := by
    refine foldlM_simulates (g := fun (t : Unit) _ => t) (fun s _ => Knows (knownAfter known edit) s m) ?_ h2 (t := ()) hi1
    rintro s a s' - - hs ⟨hl, hin⟩
    refine ⟨hl.applyBlobFileGarbage hs, fun k hk => ?_⟩
    rw [(hl.deltas.applyBlobFileGarbage hs).inVersion]
    exact hin k hk
  have hi3 : Knows (knownAfter known edit) b3 (edit.deletedFiles.foldl FileMap.delete m) := by
    refine foldlM_simulates (Knows (knownAfter known edit)) ?_ h3 hi2
    rintro s d s' t - hs ⟨hl, hin⟩
    obtain ⟨hl', hsame⟩ := hl.applyFileDeletion hs
    exact ⟨hl', fun k hk => (hsame k).trans (hin k hk)⟩
  refine foldlM_simulates (Knows (knownAfter known edit)) ?_ h4 hi3
  rintro s a s' t ha hs ⟨hl, hin⟩
  obtain ⟨hl', hsame⟩ := hl.applyFileAddition hs ((hkn a ha).imp_right (hin _))
  exact ⟨hl', fun k hk => (hsame k).trans (hin k hk)⟩

theorem Knows.applyAll (hi : Knows known b m) {edits : List (VersionEdit κ μ)} (h : b.applyAll checks edits = .ok b')
    (hk : ReferencesKnown known edits) : Linked b' (edits.foldl FileMap.applyEdit m) := by
  induction edits generalizing b m known with
  | nil =>
    cases h
    exact hi.1
  | cons edit edits ih =>
    rw [VersionBuilder.applyAll, foldlM_cons] at h
    obtain ⟨u, hu, h⟩ := bind_eq_ok.mp h
    exact ih (hi.apply hu hk.1) h hk.2

end

end VersionBuilder

namespace VersionStorageInfo

variable {v : VersionStorageInfo κ μ} {k n : ℕ}

def LinksMatch (v : VersionStorageInfo κ μ) : Prop :=
  ∀ y ∈ v.blobFiles, y.linkedSsts = expectedLinkedSsts v y.number

def ReferencesPresent (v : VersionStorageInfo κ μ) : Prop :=
  ∀ f ∈ v.files.flatten, f.oldestBlobFileNumber ≠ kInvalidBlobFileNumber →
    ∃ y ∈ v.blobFiles, y.number = f.oldestBlobFileNumber

instance : Decidable v.LinksMatch := inferInstanceAs (Decidable (∀ y ∈ v.blobFiles, _))

instance : Decidable v.ReferencesPresent := inferInstanceAs (Decidable (∀ f ∈ v.files.flatten, _))

theorem mem_flatten_files {f : FileMetaData κ μ} : f ∈ v.files.flatten ↔ ∃ l, f ∈ v.levelFiles l := by
  rw [mem_flatten]
  constructor
  · rintro ⟨fs, hfs, hf⟩
    obtain ⟨l, hl, rfl⟩ := getElem_of_mem hfs
    refine ⟨l, ?_⟩
    rw [levelFiles_eq hl]
    exact hf
  · rintro ⟨l, hf⟩
    rw [levelFiles_eq (lt_of_mem_levelFiles hf)] at hf
    exact ⟨_, get_mem _ _, hf⟩

theorem mem_expectedLinkedSsts : n ∈ expectedLinkedSsts v k ↔
    k ≠ kInvalidBlobFileNumber ∧ ∃ l, ∃ f ∈ v.levelFiles l, f.oldestBlobFileNumber = k ∧ f.number = n := by
  rw [expectedLinkedSsts]
  split_ifs with hk
  · simp [hk]
  simp only [mem_toFinset, mem_map, mem_filter, mem_flatten_files, decide_eq_true_eq]
  constructor
  · rintro ⟨f, ⟨⟨l, hf⟩, hkf⟩, hn⟩
    exact ⟨hk, l, f, hf, hkf, hn⟩
  · rintro ⟨-, l, f, hf, hkf, hn⟩
    exact ⟨f, ⟨⟨l, hf⟩, hkf⟩, hn⟩

theorem mem_expectedLinkedSsts_iff {m : FileMap κ μ} {numLevels : ℕ} (hnm : ∀ n l f, m n = some (l, f) → f.number = n)
    (h : ∀ l f, f ∈ v.levelFiles l ↔ l < numLevels ∧ m f.number = some (l, f)) :
    n ∈ expectedLinkedSsts v k ↔ m.Refs numLevels k n := by
  rw [mem_expectedLinkedSsts, FileMap.Refs]
  refine and_congr_right fun _ => ⟨?_, ?_⟩
  · rintro ⟨l, f, hf, hk, rfl⟩
    obtain ⟨hl, hm⟩ := (h l f).mp hf
    exact ⟨l, f, hm, hl, hk⟩
  · rintro ⟨l, f, hm, hl, hk⟩
    have hn := hnm n l f hm
    exact ⟨l, f, (h l f).mpr ⟨hl, hn ▸ hm⟩, hk, hn⟩

end VersionStorageInfo

namespace VersionBuilder

variable {v : VersionStorageInfo κ μ}

theorem linked_base (hd : v.Distinct) (hb : Ascending BlobFileMetaData.number v.blobFiles)
    (hl : v.LinksMatch) (hp : v.ReferencesPresent) : Linked { base := v } v.fileMap where
  tracks := tracks_base hd
  deltas := deltas_base hb
  distinct := hd
  links k n := by
    have hr : n ∈ expectedLinkedSsts v k ↔ v.fileMap.Refs v.numLevels k n := by
      refine VersionStorageInfo.mem_expectedLinkedSsts_iff (tracks_base hd).number fun l f => ?_
      rw [hd.fileMap_iff]
      exact ⟨fun hf => ⟨VersionStorageInfo.lt_of_mem_levelFiles hf, hf, rfl⟩, fun h => h.2.1⟩
    refine Iff.trans ?_ hr
    by_cases hk : ∃ y ∈ v.blobFiles, y.number = k
    · obtain ⟨y, hy, rfl⟩ := hk
      rw [(deltas_base hb).linkedSsts_base hy (fun _ hz => nomatch hz), hl y hy]
    have ho : isBlobFileInVersion k { base := v } = false := by
      rw [isBlobFileInVersion, Bool.or_eq_false_iff, any_eq_false, any_eq_false]
      exact ⟨fun _ hz => (nomatch hz), fun y hy heq => hk ⟨y, hy, by simpa using heq⟩⟩
    rw [linkedSsts_eq_empty ho]
    refine iff_of_false (Finset.notMem_empty n) fun hm => ?_
    obtain ⟨hzr, l, f, hf, rfl, -⟩ := VersionStorageInfo.mem_expectedLinkedSsts.mp hm
    exact hk (hp f (VersionStorageInfo.mem_flatten_files.mpr ⟨l, hf⟩) hzr)

variable [LinearOrder κ] {b : VersionBuilder κ μ} {m : FileMap κ μ}

theorem Linked.save (hi : Linked b m) : ∃ v, b.save = .ok v ∧ v.LinksMatch ∧ v.ReferencesPresent := by
  refine ⟨_, save_eq hi.tracks hi.distinct hi.deltas, fun y hy => ?_, fun f hf hz => ?_⟩
  · obtain ⟨e, he, rfl⟩ := mem_map.mp (mem_filter.mp hy).1
    have hmr := (hi.deltas.mem_mergedBlobFiles.mp he).2
    ext n
    rw [VersionStorageInfo.mem_expectedLinkedSsts_iff hi.tracks.number hi.tracks.mem_saved, ← hi.links,
      number_resolved hmr, hi.deltas.linkedSsts_merges hmr, BlobFileMerge.linkedSsts_resolved]
  · obtain ⟨l, hf⟩ := VersionStorageInfo.mem_flatten_files.mp hf
    obtain ⟨hl, hm⟩ := (hi.tracks.mem_saved l f).mp hf
    have hr : m.Refs b.numLevels f.oldestBlobFileNumber f.number := ⟨hz, l, f, hm, hl, rfl⟩
    have hln := (hi.links _ _).mpr hr
    obtain ⟨e, hmr, hn⟩ := exists_merges (hi.inVersion hr)
    have hmn := hi.deltas.minOldestBlobFileNumber_le ⟨_, hln⟩
    refine ⟨e.resolved, mem_filter.mpr ⟨mem_map_of_mem ?_, ?_⟩, (number_resolved hmr).trans hn⟩
    · exact hi.deltas.mem_mergedBlobFiles.mpr ⟨hn ▸ hmn, hmr⟩
    · rw [← hn, hi.deltas.linkedSsts_merges hmr, ← BlobFileMerge.linkedSsts_resolved] at hln
      simp [neededBlobFile, Finset.ne_empty_of_mem hln]

/-- The links stay right, and no blob file that is referred to is lost, if the base version has the blob files of its
tables. -/
theorem saveTo_keeps_links {base : VersionStorageInfo κ μ} {checks : Bool} {edits : List (VersionEdit κ μ)}
    (hdistinct : base.Distinct) (hblobs : Ascending BlobFileMetaData.number base.blobFiles) (hlinks : base.LinksMatch)
    (hpresent : base.ReferencesPresent) (hknown : ReferencesKnown (base.blobFiles.map BlobFileMetaData.number) edits)
    (happly : applyAll { base } checks edits = .ok b) :
    (checkConsistency checks base = true → ∃ v ok, b.saveTo checks = .ok (v, ok)) ∧
      ∀ v ok, b.saveTo checks = .ok (v, ok) → v.LinksMatch ∧ v.ReferencesPresent := by
  have hi : Knows (base.blobFiles.map BlobFileMetaData.number) { base } base.fileMap := by
    refine ⟨linked_base hdistinct hblobs hlinks hpresent, fun k hk => ?_⟩
    obtain ⟨y, hy, rfl⟩ := mem_map.mp hk
    exact isBlobFileInVersion_iff.mpr (.inr ⟨y, hy, rfl⟩)
  obtain ⟨v, hs, hv⟩ := (hi.applyAll happly hknown).save
  have hb := ((tracks_base hdistinct).applyAll happly).2
  constructor
  · intro hc
    rw [saveTo, hb, if_pos hc, hs]
    exact ⟨v, _, rfl⟩
  · intro v' ok h
    rw [saveTo] at h
    split at h
    · rw [hs] at h
      cases h
      exact hv
    · cases h

end VersionBuilder

def linkedBase : VersionStorageInfo ℕ Unit where
  files := [[], [⟨1, ⟨1, 257⟩, ⟨2, 257⟩, 1, 1, 5, ()⟩]]
  blobFiles := [⟨⟨5, 2, 20⟩, {1}, 0, 0⟩]

def movingEdit : VersionEdit ℕ Unit where
  blobFileAdditions := [⟨6, 3, 30⟩]
  blobFileGarbages := [(5, 1, 10)]
  deletedFiles := [(1, 1)]
  newFiles := [(1, ⟨2, ⟨1, 513⟩, ⟨2, 513⟩, 2, 2, 6, ()⟩), (0, ⟨1, ⟨1, 257⟩, ⟨2, 257⟩, 1, 1, 5, ()⟩)]

theorem saveTo_keeps_links_moved : ∃ b, VersionBuilder.applyAll { base := linkedBase } true [movingEdit] = .ok b ∧
    ∃ v ok, b.saveTo true = .ok (v, ok) ∧ v.LinksMatch ∧ v.ReferencesPresent := by
  obtain ⟨b, hb⟩ : ∃ b, VersionBuilder.applyAll { base := linkedBase } true [movingEdit] = .ok b := ⟨_, rfl⟩
  have hk : VersionBuilder.ReferencesKnown (linkedBase.blobFiles.map BlobFileMetaData.number) [movingEdit] :=
    ⟨by decide, trivial⟩
  obtain ⟨hs, hkp⟩ := VersionBuilder.saveTo_keeps_links (by decide) (by decide) (by decide) (by decide) hk hb
  obtain ⟨v, ok, hv⟩ := hs (by decide)
  exact ⟨b, hb, v, ok, hv, hkp v ok hv⟩

def danglingBase : VersionStorageInfo ℕ Unit where
  files := [[⟨1, ⟨1, 257⟩, ⟨2, 257⟩, 1, 1, 5, ()⟩]]
  blobFiles := []

def addBlobFile : VersionEdit ℕ Unit where
  blobFileAdditions := [⟨5, 1, 1⟩]

theorem saveTo_dangling : danglingBase.Distinct ∧ Ascending BlobFileMetaData.number danglingBase.blobFiles ∧
    danglingBase.LinksMatch ∧ VersionBuilder.ReferencesKnown [] [addBlobFile] ∧
    (∃ v, VersionBuilder.saveTo { base := danglingBase } true = .ok (v, true) ∧ ¬v.ReferencesPresent) ∧
    ∃ b v, VersionBuilder.applyAll { base := danglingBase } false [addBlobFile] = .ok b ∧
      b.saveTo false = .ok (v, true) ∧ ¬v.LinksMatch := by
  refine ⟨by decide, by decide, by decide, ⟨by decide, trivial⟩, ?_, ?_⟩
  · refine ⟨danglingBase, ?_, by decide⟩
    rw [VersionBuilder.saveTo, VersionBuilder.save, VersionBuilder.saveLevels_unchanged rfl rfl]
    decide +kernel
  · refine ⟨_, ⟨danglingBase.files, [⟨⟨5, 1, 1⟩, ∅, 0, 0⟩]⟩, rfl, ?_, by decide⟩
    rw [VersionBuilder.saveTo, VersionBuilder.save, VersionBuilder.saveLevels_unchanged rfl rfl]
    decide +kernel

end ZenFSPlus.Db
