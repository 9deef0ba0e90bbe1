import ZenFSPlus.Db.VersionEdit

namespace ZenFSPlus.Manifest

open Lib Util Lib.Decoder List NewFileCustomTag VersionEdit

theorem length_putVarint64_lt (v : UInt64) : (putVarint64 v).length < 2 ^ 32 :=
  Nat.lt_of_le_of_lt (length_encodeVarint64_le _) (by decide)

theorem putVarint32_ne_nil (v : UInt32) : putVarint32 v ≠ [] := by
  intro hn
  have h := getVarint32_encodeVarint32 v.toNat_lt []
  rw [append_nil, ← putVarint32, hn] at h
  cases h

theorem getVarint64_putVarint64 (v : UInt64) : getVarint64 (putVarint64 v) = some (v.toNat, []) := by
  have h := getVarint64_encodeVarint64 v.toNat_lt []
  rwa [append_nil] at h

section

variable (e : Status)

include e

theorem reads_getUInt32 (v : UInt32) : Reads (getUInt32 e) (putVarint32 v) v := by
  have h := (reads_ofOption e (getVarint32_encodeVarint32 v.toNat_lt)).map UInt32.ofNat
  rwa [UInt32.ofNat_toNat] at h

theorem reads_getUInt64 (v : UInt64) : Reads (getUInt64 e) (putVarint64 v) v := by
  have h := (reads_ofOption e (getVarint64_encodeVarint64 v.toNat_lt)).map UInt64.ofNat
  rwa [UInt64.ofNat_toNat] at h

theorem reads_getSlice {s : Bytes} (hs : s.length < 2 ^ 32) : Reads (getSlice e) (putLengthPrefixedSlice s) s :=
  reads_ofOption e (getLengthPrefixedSlice_put hs)

theorem reads_getLevel (level : Int32) : Reads (getLevel e) (putVarint32 level.toUInt32) level :=
  (reads_getUInt32 e level.toUInt32).map Int32.ofUInt32

theorem reads_getInternalKey {rep : Bytes} (hr : rep.length < 2 ^ 32) (hv : validInternalKey rep = true) :
    Reads (getInternalKey e) (putLengthPrefixedSlice rep) rep := by
  intro rest
  rw [getInternalKey, run_bind, reads_getSlice e hr]
  dsimp only
  rw [if_pos hv]
  rfl

end

theorem reads_skipCustomFields (className : String) :
    Reads (loop (skipCustomField className) Status.overrun ()) (putVarint32 kEndMarker) () := by
  intro rest
  apply loop_inr
  rw [skipCustomField, run_bind, reads_getUInt32]
  rfl

theorem reads_blobFileAddition {a : BlobFileAddition} (hm : a.checksumMethod.length < 2 ^ 32)
    (hv : a.checksumValue.length < 2 ^ 32) : Reads BlobFileAddition.decodeFrom a.encodeTo a := by
  rw [BlobFileAddition.encodeTo]
  simp only [append_assoc]
  apply (reads_getUInt64 _ a.blobFileNumber).bind
  apply (reads_getUInt64 _ a.totalBlobCount).bind
  apply (reads_getUInt64 _ a.totalBlobBytes).bind
  apply (reads_getSlice _ hm).bind
  apply (reads_getSlice _ hv).bind
  exact (reads_skipCustomFields _).map fun _ => a

theorem reads_blobFileGarbage (g : BlobFileGarbage) : Reads BlobFileGarbage.decodeFrom g.encodeTo g := by
  rw [BlobFileGarbage.encodeTo]
  simp only [append_assoc]
  apply (reads_getUInt64 _ g.blobFileNumber).bind
  apply (reads_getUInt64 _ g.garbageBlobCount).bind
  apply (reads_getUInt64 _ g.garbageBlobBytes).bind
  exact (reads_skipCustomFields _).map fun _ => g

theorem reads_syncedSize (w : WalAddition) (size : UInt64) :
    Reads w.decodeTag (putVarint32 WalAdditionTag.kSyncedSize.value ++ putVarint64 size)
      (.inl { w with syncedSizeBytes := size }) := by
  apply (reads_getUInt32 _ _).bind
  rw [if_pos rfl]
  exact (reads_getUInt64 _ size).map _

theorem reads_walTerminate (w : WalAddition) (rest : Bytes) :
    w.decodeTag.run (putVarint32 WalAdditionTag.kTerminate.value ++ rest) = .ok (.inr w, rest) := by
  rw [WalAddition.decodeTag, run_bind, reads_getUInt32]
  rfl

theorem reads_walAddition (w : WalAddition) : Reads WalAddition.decodeFrom w.encodeTo w := by
  rw [WalAddition.encodeTo, append_assoc]
  apply (reads_getUInt64 _ w.number).bind
  intro rest
  let sizes : List UInt64 := if w.syncedSizeBytes ≠ kUnknownWalSize then [w.syncedSizeBytes] else []
  have hb : (if w.syncedSizeBytes ≠ kUnknownWalSize then
      putVarint32 WalAdditionTag.kSyncedSize.value ++ putVarint64 w.syncedSizeBytes else []) =
      sizes.flatMap fun size => putVarint32 WalAdditionTag.kSyncedSize.value ++ putVarint64 size := by
    unfold sizes
    split
    · rw [flatMap_singleton]
    · rfl
  have hs : sizes.foldl (fun (w : WalAddition) size => { w with syncedSizeBytes := size }) { number := w.number } =
      w := by
    unfold sizes
    split_ifs with h
    · rfl
    · rw [not_not] at h
      rw [foldl_nil, ← h]
  rw [hb, append_assoc]
  refine loop_records (fun size _ w => reads_syncedSize w size)
    (fun size _ => append_ne_nil_of_left_ne_nil (putVarint32_ne_nil _) _) ?_
  rw [hs]
  exact reads_walTerminate w rest

theorem length_walAddition_lt (w : WalAddition) : w.encodeTo.length < 2 ^ 32 := by
  have hn := length_encodeVarint64_le w.number.toNat
  have hs := length_encodeVarint64_le w.syncedSizeBytes.toNat
  have htg : (putVarint32 WalAdditionTag.kSyncedSize.value).length = 1 := rfl
  have ht : (putVarint32 WalAdditionTag.kTerminate.value).length = 1 := rfl
  rw [WalAddition.encodeTo, length_append, length_append, ht]
  split
  · rw [length_append, htg, putVarint64, putVarint64]
    omega
  · rw [putVarint64, length_nil]
    omega

theorem reads_within {α : Type} {m : Decode α} {bytes : Bytes} {a : α} (h : Reads m bytes a) : Reads (within m bytes) [] a := by
  intro rest
  have hr := h []
  rw [append_nil] at hr
  rw [Decoder.run, within, hr]
  rfl

section

variable (fd : FileDescriptor)

include fd

theorem toNat_getPathId : fd.getPathId.toNat = fd.packedNumberAndPathId.toNat / 2 ^ 62 := by
  have hlt := fd.packedNumberAndPathId.toNat_lt
  have hmask : (kFileNumberMask + 1).toNat = 2 ^ 62 := rfl
  rw [FileDescriptor.getPathId, UInt64.toNat_toUInt32, UInt64.toNat_div, hmask]
  omega

theorem toNat_getNumber : fd.getNumber.toNat = fd.packedNumberAndPathId.toNat % 2 ^ 62 := by
  have hmask : kFileNumberMask.toNat = 2 ^ 62 - 1 := rfl
  rw [FileDescriptor.getNumber, UInt64.toNat_and, hmask, Nat.and_two_pow_sub_one_eq_mod]

theorem getPathId_lt : fd.getPathId.toNat < 4 := by
  have hlt := fd.packedNumberAndPathId.toNat_lt
  rw [toNat_getPathId]
  omega

theorem pack_getNumber_getPathId :
    packFileNumberAndPathId fd.getNumber fd.getPathId.toUInt64 = fd.packedNumberAndPathId := by
  have hlt := fd.packedNumberAndPathId.toNat_lt
  have hmask : (kFileNumberMask + 1).toNat = 2 ^ 62 := rfl
  have hf : fd.packedNumberAndPathId.toNat / 2 ^ 62 * 2 ^ 62 < 2 ^ 64 := by omega
  have hl : fd.packedNumberAndPathId.toNat % 2 ^ 62 < 2 ^ 62 := Nat.mod_lt _ (by decide)
  apply UInt64.toNat_inj.mp
  rw [packFileNumberAndPathId, UInt64.toNat_or, UInt64.toNat_mul, UInt32.toNat_toUInt64, hmask, toNat_getNumber,
    toNat_getPathId, Nat.mod_eq_of_lt hf, Nat.or_comm, Nat.mul_comm, ← Nat.two_pow_add_eq_or_of_lt hl]
  omega

theorem make_getNumber_getPathId :
    FileDescriptor.make fd.getNumber fd.getPathId fd.fileSize fd.smallestSeqno fd.largestSeqno = fd := by
  rw [FileDescriptor.make, pack_getNumber_getPathId]

theorem toUInt32_toUInt8_getPathId : fd.getPathId.toUInt8.toUInt32 = fd.getPathId := by
  have hlt := getPathId_lt fd
  apply UInt32.toNat_inj.mp
  rw [UInt8.toNat_toUInt32, UInt32.toNat_toUInt8]
  omega

theorem toUInt8_getPathId_le : ¬3 < fd.getPathId.toUInt8 := by
  have hlt := getPathId_lt fd
  rw [UInt8.lt_iff_toNat_lt, UInt32.toNat_toUInt8]
  have h3 : (3 : UInt8).toNat = 3 := rfl
  omega

end

section

variable (minLogNumberToKeep : Option UInt64) (f : FileMetaData)

def customFields : List (NewFileCustomTag × Bytes) :=
  [(kOldestAncesterTime, putVarint64 f.oldestAncesterTime), (kFileCreationTime, putVarint64 f.fileCreationTime),
    (kFileChecksum, f.fileChecksum), (kFileChecksumFuncName, f.fileChecksumFuncName)] ++
    (if f.maxTimestamp ≠ [] then [(kMinTimestamp, f.minTimestamp), (kMaxTimestamp, f.maxTimestamp)] else []) ++
    (if f.fd.getPathId ≠ 0 then [(kPathId, [f.fd.getPathId.toUInt8])] else []) ++
    (if f.temperature ≠ .kUnknown then [(kTemperature, [f.temperature.val])] else []) ++
    (if f.markedForCompaction then [(kNeedCompaction, [1])] else []) ++
    (minLogNumberToKeep.toList.map fun v => (kMinLogNumberToKeepHack, encodeFixed64 v.toNat)) ++
    (if f.oldestBlobFileNumber ≠ 0 then [(kOldestBlobFileNumber, putVarint64 f.oldestBlobFileNumber)] else [])

theorem flatMap_ite {α β : Type} (p : Prop) [Decidable p] (l : List α) (g : α → List β) :
    (if p then l else []).flatMap g = if p then l.flatMap g else [] := by
  split
  · rfl
  · rfl

theorem encodeCustomFields_eq : encodeCustomFields minLogNumberToKeep f =
    (customFields minLogNumberToKeep f).flatMap (fun i => putCustomField i.1 i.2) ++
      putVarint32 NewFileCustomTag.kTerminate.value := by
  cases minLogNumberToKeep with
  | none =>
    simp only [encodeCustomFields, customFields, flatMap_append, flatMap_cons, flatMap_nil, flatMap_ite,
      append_nil, append_assoc, Option.toList_none, map_nil]
  | some v =>
    simp only [encodeCustomFields, customFields, flatMap_append, flatMap_cons, flatMap_nil, flatMap_ite,
      append_nil, append_assoc, Option.toList_some, map_cons, map_nil]

def CustomFields.apply (s : CustomFields) (i : NewFileCustomTag × Bytes) : CustomFields :=
  match s.set i.2 i.1 with
  | .ok s => s
  | .error _ => s

structure Settable (i : NewFileCustomTag × Bytes) : Prop where
  ne : i.1 ≠ .kTerminate
  length : i.2.length < 2 ^ 32
  set : ∀ s : CustomFields, s.set i.2 i.1 = .ok (s.apply i)

theorem ofValue_customTag (t : NewFileCustomTag) : ofValue t.value = some t := by
  cases t <;> rfl

variable {t : NewFileCustomTag}

theorem value_ne_terminate (h : t ≠ .kTerminate) : t.value ≠ NewFileCustomTag.kTerminate.value := by
  cases t with
  | kTerminate => exact absurd rfl h
  | _ => decide

theorem reads_customField {i : NewFileCustomTag × Bytes} (h : Settable i) (s : CustomFields) :
    Reads (decodeCustomField s) (putCustomField i.1 i.2) (.inl (s.apply i)) := by
  apply (reads_getUInt32 _ i.1.value).bind
  rw [if_neg (value_ne_terminate h.ne), ← append_nil (putLengthPrefixedSlice i.2)]
  apply (reads_getSlice _ h.length).bind
  rw [ofValue_customTag]
  dsimp only
  rw [h.set]
  exact reads_pure _

theorem apply_of_set {s s' : CustomFields} {field : Bytes} (h : s.set field t = .ok s') : s.apply (t, field) = s' := by
  rw [CustomFields.apply, h]

theorem settable_of_set {field : Bytes} {change : CustomFields → CustomFields} (hne : t ≠ .kTerminate)
    (hl : field.length < 2 ^ 32) (h : ∀ s : CustomFields, s.set field t = .ok (change s)) : Settable (t, field) := by
  refine ⟨hne, hl, fun s => ?_⟩
  rw [apply_of_set (h s)]
  exact h s

section

variable (s : CustomFields)

theorem set_oldestAncesterTime (v : UInt64) :
    s.set (putVarint64 v) .kOldestAncesterTime = .ok { s with f.oldestAncesterTime := v } := by
  rw [CustomFields.set, ofField, getVarint64_putVarint64]
  simp

theorem set_fileCreationTime (v : UInt64) :
    s.set (putVarint64 v) .kFileCreationTime = .ok { s with f.fileCreationTime := v } := by
  rw [CustomFields.set, ofField, getVarint64_putVarint64]
  simp

theorem set_oldestBlobFileNumber (v : UInt64) :
    s.set (putVarint64 v) .kOldestBlobFileNumber = .ok { s with f.oldestBlobFileNumber := v } := by
  rw [CustomFields.set, ofField, getVarint64_putVarint64]
  simp

theorem set_minLogNumberToKeep (v : UInt64) :
    s.set (encodeFixed64 v.toNat) .kMinLogNumberToKeepHack = .ok { s with minLogNumberToKeep := some v } := by
  have h := getFixed64_put v.toNat_lt []
  rw [append_nil] at h
  rw [CustomFields.set, ofField, h]
  simp

theorem set_pathId (fd : FileDescriptor) : s.set [fd.getPathId.toUInt8] .kPathId = .ok { s with pathId := fd.getPathId } := by
  rw [CustomFields.set, if_neg (toUInt8_getPathId_le fd), toUInt32_toUInt8_getPathId]

theorem set_temperature (t : Temperature) : s.set [t.val] .kTemperature = .ok { s with f.temperature := t } := by
  rw [CustomFields.set, dif_pos t.property]
  rfl

end

structure FileMetaData.Fits (f : FileMetaData) : Prop where
  smallest : f.smallest.length < 2 ^ 32
  largest : f.largest.length < 2 ^ 32
  fileChecksum : f.fileChecksum.length < 2 ^ 32
  fileChecksumFuncName : f.fileChecksumFuncName.length < 2 ^ 32
  minTimestamp : f.minTimestamp.length < 2 ^ 32
  maxTimestamp : f.maxTimestamp.length < 2 ^ 32

variable {f}

theorem settable_customFields (hf : f.Fits) : ∀ i ∈ customFields minLogNumberToKeep f, Settable i := by
  have hie {p : Prop} [Decidable p] {l : List (NewFileCustomTag × Bytes)} (h : ∀ i ∈ l, Settable i) :
      ∀ i ∈ (if p then l else []), Settable i := by
    split
    · exact h
    · exact fun i hi => nomatch hi
  have hs {i : NewFileCustomTag × Bytes} (h : Settable i) : ∀ j ∈ [i], Settable j := by
    intro j hj
    rw [mem_singleton.mp hj]
    exact h
  rw [customFields]
  simp only [forall_mem_append, forall_mem_cons]
  refine ⟨⟨⟨⟨⟨⟨⟨?_, ?_, ?_, ?_, fun _ h => nomatch h⟩, ?_⟩, ?_⟩, ?_⟩, ?_⟩, ?_⟩, ?_⟩
  · exact settable_of_set (by decide) (length_putVarint64_lt _) fun s => set_oldestAncesterTime s _
  · exact settable_of_set (by decide) (length_putVarint64_lt _) fun s => set_fileCreationTime s _
  · exact settable_of_set (by decide) hf.fileChecksum fun s => rfl
  · exact settable_of_set (by decide) hf.fileChecksumFuncName fun s => rfl
  · apply hie
    simp only [forall_mem_cons]
    refine ⟨?_, ?_, fun _ h => nomatch h⟩
    · exact settable_of_set (by decide) hf.minTimestamp fun s => rfl
    · exact settable_of_set (by decide) hf.maxTimestamp fun s => rfl
  · exact hie (hs (settable_of_set (by decide) (by simp) fun s => set_pathId s f.fd))
  · exact hie (hs (settable_of_set (by decide) (by simp) fun s => set_temperature s f.temperature))
  · exact hie (hs (settable_of_set (by decide) (by decide) fun s => rfl))
  · cases minLogNumberToKeep with
    | none => exact fun _ h => nomatch h
    | some v =>
      apply hs
      refine settable_of_set (by decide) ?_ fun s => set_minLogNumberToKeep s v
      rw [encodeFixed64, length_encodeFixed]
      decide
  · exact hie (hs (settable_of_set (by decide) (length_putVarint64_lt _) fun s => set_oldestBlobFileNumber s _))

theorem foldl_default {σ ρ : Type} {apply : σ → ρ → σ} {p : Prop} [Decidable p] {r : ρ} {e e' : σ}
    (hs : p → apply e r = e') (hd : ¬ p → e = e') : (if p then [r] else []).foldl apply e = e' := by
  split_ifs with h
  · exact hs h
  · exact hd h

theorem foldl_customFields (hts : f.maxTimestamp = [] → f.minTimestamp = []) (m : Option UInt64) :
    (customFields minLogNumberToKeep f).foldl CustomFields.apply ⟨{ smallest := f.smallest, largest := f.largest }, 0, m⟩ =
      ⟨{ f with fd := .make 0 0 0 kMaxSequenceNumber 0 }, f.fd.getPathId, minLogNumberToKeep.or m⟩ := by
  have hts' (s : CustomFields) (hm : s.f.minTimestamp = []) (hmx : s.f.maxTimestamp = []) :
      (if f.maxTimestamp ≠ [] then [(.kMinTimestamp, f.minTimestamp), (.kMaxTimestamp, f.maxTimestamp)] else []).foldl
        CustomFields.apply s = { s with f.minTimestamp := f.minTimestamp, f.maxTimestamp := f.maxTimestamp } := by
    split_ifs with h
    · rfl
    rw [not_not] at h
    have hm' : f.minTimestamp = s.f.minTimestamp := (hts h).trans hm.symm
    have hmx' : f.maxTimestamp = s.f.maxTimestamp := h.trans hmx.symm
    rw [foldl_nil, hm', hmx']
  have hp (s : CustomFields) (hs : s.pathId = 0) :
      (if f.fd.getPathId ≠ 0 then [(kPathId, [f.fd.getPathId.toUInt8])] else []).foldl
        CustomFields.apply s = { s with pathId := f.fd.getPathId } :=
    foldl_default (fun _ => apply_of_set (set_pathId s f.fd)) fun h => by rw [not_not.mp h, ← hs]
  have ht (s : CustomFields) (hs : s.f.temperature = .kUnknown) :
      (if f.temperature ≠ .kUnknown then [(kTemperature, [f.temperature.val])] else []).foldl
        CustomFields.apply s = { s with f.temperature := f.temperature } :=
    foldl_default (fun _ => apply_of_set (set_temperature s f.temperature)) fun h => by rw [not_not.mp h, ← hs]
  have hn (s : CustomFields) (hs : s.f.markedForCompaction = false) :
      (if f.markedForCompaction = true then [(kNeedCompaction, [(1 : UInt8)])] else []).foldl
        CustomFields.apply s = { s with f.markedForCompaction := f.markedForCompaction } :=
    foldl_default (fun h => by rw [h]; rfl) fun h => by rw [Bool.eq_false_iff.mpr h, ← hs]
  have hl (s : CustomFields) : (minLogNumberToKeep.toList.map fun v =>
      (kMinLogNumberToKeepHack, encodeFixed64 v.toNat)).foldl CustomFields.apply s =
      { s with minLogNumberToKeep := minLogNumberToKeep.or s.minLogNumberToKeep } := by
    cases minLogNumberToKeep with
    | none => rfl
    | some v => exact apply_of_set (set_minLogNumberToKeep s v)
  have hb (s : CustomFields) (hs : s.f.oldestBlobFileNumber = 0) : (if f.oldestBlobFileNumber ≠ 0 then
      [(kOldestBlobFileNumber, putVarint64 f.oldestBlobFileNumber)] else []).foldl CustomFields.apply s =
      { s with f.oldestBlobFileNumber := f.oldestBlobFileNumber } :=
    foldl_default (fun _ => apply_of_set (set_oldestBlobFileNumber s _)) fun h => by rw [not_not.mp h, ← hs]
  rw [customFields]
  simp only [foldl_append, foldl_cons, foldl_nil, apply_of_set (set_oldestAncesterTime _ _),
    apply_of_set (set_fileCreationTime _ _)]
  rw [hts' _ rfl rfl, hp _ rfl, ht _ rfl, hn _ rfl, hl, hb _ rfl]
  rfl

def newFilePayload (minLogNumberToKeep : Option UInt64) (new : Int32 × FileMetaData) : Bytes :=
  putVarint32 new.1.toUInt32 ++ (putVarint64 new.2.fd.getNumber ++ (putVarint64 new.2.fd.fileSize ++
    (putLengthPrefixedSlice new.2.smallest ++ (putLengthPrefixedSlice new.2.largest ++ (putVarint64 new.2.fd.smallestSeqno ++
      (putVarint64 new.2.fd.largestSeqno ++ encodeCustomFields minLogNumberToKeep new.2))))))

structure Restorable (f : FileMetaData) : Prop where
  fits : f.Fits
  smallest : validInternalKey f.smallest = true
  largest : validInternalKey f.largest = true
  timestamps : f.maxTimestamp ≠ [] → f.minTimestamp.length = f.maxTimestamp.length
  disabled : f.maxTimestamp = [] → f.minTimestamp = []

theorem reads_customFields (h : Restorable f) (m : Option UInt64) :
    Reads (loop decodeCustomField Status.overrun ⟨{ smallest := f.smallest, largest := f.largest }, 0, m⟩)
      (encodeCustomFields minLogNumberToKeep f)
      ⟨{ f with fd := .make 0 0 0 kMaxSequenceNumber 0 }, f.fd.getPathId, minLogNumberToKeep.or m⟩ := by
  intro rest
  rw [encodeCustomFields_eq, append_assoc]
  refine loop_records (fun i hi s => reads_customField (settable_customFields minLogNumberToKeep h.fits i hi) s)
    (fun i _ => append_ne_nil_of_left_ne_nil (putVarint32_ne_nil _) _) ?_
  rw [foldl_customFields minLogNumberToKeep h.disabled]
  have hl : ¬f.minTimestamp.length ≠ f.maxTimestamp.length := by
    rw [not_not]
    by_cases hm : f.maxTimestamp = []
    · rw [hm, h.disabled hm]
    · exact h.timestamps hm
  rw [decodeCustomField, run_bind, reads_getUInt32]
  dsimp only
  rw [if_pos rfl, if_neg hl]
  rfl

theorem reads_newFile4 {new : Int32 × FileMetaData} (h : Restorable new.2) (edit : VersionEdit) :
    Reads (decodeNewFile4From edit) (newFilePayload minLogNumberToKeep new) { edit with
        minLogNumberToKeep := minLogNumberToKeep.or edit.minLogNumberToKeep
        newFiles := edit.newFiles ++ [new] } := by
  apply (reads_getLevel _ new.1).bind
  apply (reads_getUInt64 _ new.2.fd.getNumber).bind
  apply (reads_getUInt64 _ new.2.fd.fileSize).bind
  apply (reads_getInternalKey _ h.fits.smallest h.smallest).bind
  apply (reads_getInternalKey _ h.fits.largest h.largest).bind
  apply (reads_getUInt64 _ new.2.fd.smallestSeqno).bind
  apply (reads_getUInt64 _ new.2.fd.largestSeqno).bind
  have hr := (reads_customFields minLogNumberToKeep h edit.minLogNumberToKeep).map fun s : CustomFields =>
    addFile { edit with minLogNumberToKeep := s.minLogNumberToKeep } new.1
      { s.f with fd := .make new.2.fd.getNumber s.pathId new.2.fd.fileSize new.2.fd.smallestSeqno new.2.fd.largestSeqno }
  rw [make_getNumber_getPathId] at hr
  exact hr

theorem encodeNewFile_eq_some {new : Int32 × FileMetaData} {bytes : Bytes}
    (h : encodeNewFile minLogNumberToKeep new = some bytes) :
    bytes = putTag .kNewFile4 ++ newFilePayload minLogNumberToKeep new ∧ validInternalKey new.2.smallest = true ∧
      validInternalKey new.2.largest = true ∧
      (new.2.maxTimestamp ≠ [] → new.2.minTimestamp.length = new.2.maxTimestamp.length) := by
  rw [encodeNewFile] at h
  split at h
  · cases h
  rename_i hv
  simp only [Bool.or_eq_true, Bool.not_eq_true', not_or, Bool.not_eq_false] at hv
  split at h
  · cases h
  rename_i hts
  cases h
  refine ⟨?_, hv.1, hv.2, fun hm => ?_⟩
  · rw [newFilePayload]
    simp only [append_assoc]
  · by_contra hne
    exact hts ⟨hm, hne⟩

end

section

inductive Record
  | dbId (s : Bytes)
  | comparator (s : Bytes)
  | logNumber (v : UInt64)
  | prevLogNumber (v : UInt64)
  | nextFileNumber (v : UInt64)
  | maxColumnFamily (v : UInt32)
  | lastSequence (v : UInt64)
  | deletedFile (d : Int32 × UInt64)
  | newFile (minLogNumberToKeep : Option UInt64) (new : Int32 × FileMetaData)
  | blobFileAddition (a : BlobFileAddition)
  | blobFileGarbage (g : BlobFileGarbage)
  | walAddition (w : WalAddition)
  | walDeletion (number : UInt64)
  | columnFamily (v : UInt32)
  | columnFamilyAdd (s : Bytes)
  | columnFamilyDrop
  | remainingEntries (v : UInt32)
  | fullHistoryTsLow (s : Bytes)

namespace Record

def tag : Record → Tag
  | dbId _ => .kDbId
  | comparator _ => .kComparator
  | logNumber _ => .kLogNumber
  | prevLogNumber _ => .kPrevLogNumber
  | nextFileNumber _ => .kNextFileNumber
  | maxColumnFamily _ => .kMaxColumnFamily
  | lastSequence _ => .kLastSequence
  | deletedFile _ => .kDeletedFile
  | newFile _ _ => .kNewFile4
  | blobFileAddition _ => .kBlobFileAddition
  | blobFileGarbage _ => .kBlobFileGarbage
  | walAddition _ => .kWalAddition2
  | walDeletion _ => .kWalDeletion2
  | columnFamily _ => .kColumnFamily
  | columnFamilyAdd _ => .kColumnFamilyAdd
  | columnFamilyDrop => .kColumnFamilyDrop
  | remainingEntries _ => .kInAtomicGroup
  | fullHistoryTsLow _ => .kFullHistoryTsLow

def payload : Record → Bytes
  | dbId s | comparator s | columnFamilyAdd s | fullHistoryTsLow s => putLengthPrefixedSlice s
  | logNumber v | prevLogNumber v | nextFileNumber v | lastSequence v => putVarint64 v
  | maxColumnFamily v | columnFamily v | remainingEntries v => putVarint32 v
  | deletedFile d => putVarint32 d.1.toUInt32 ++ putVarint64 d.2
  | newFile minLogNumberToKeep new => newFilePayload minLogNumberToKeep new
  | blobFileAddition a => a.encodeTo
  | blobFileGarbage g => g.encodeTo
  | walAddition w => putLengthPrefixedSlice w.encodeTo
  | walDeletion number => putLengthPrefixedSlice (putVarint64 number)
  | columnFamilyDrop => []

def encode (r : Record) : Bytes := putTag r.tag ++ r.payload

def apply (edit : VersionEdit) : Record → VersionEdit
  | dbId s => { edit with dbId := some s }
  | comparator s => { edit with comparator := some s }
  | logNumber v => { edit with logNumber := some v }
  | prevLogNumber v => { edit with prevLogNumber := some v }
  | nextFileNumber v => { edit with nextFileNumber := some v }
  | maxColumnFamily v => { edit with maxColumnFamily := some v }
  | lastSequence v => { edit with lastSequence := some v }
  | deletedFile d => { edit with deletedFiles := edit.deletedFiles.insert d }
  | newFile minLogNumberToKeep new =>
    { edit with
      minLogNumberToKeep := minLogNumberToKeep.or edit.minLogNumberToKeep
      newFiles := edit.newFiles ++ [new] }
  | blobFileAddition a => { edit with blobFileAdditions := edit.blobFileAdditions ++ [a] }
  | blobFileGarbage g => { edit with blobFileGarbages := edit.blobFileGarbages ++ [g] }
  | walAddition w => { edit with walAdditions := edit.walAdditions ++ [w] }
  | walDeletion number => { edit with walDeletion := number }
  | columnFamily v => { edit with columnFamily := v }
  | columnFamilyAdd s => { edit with columnFamilyAdd := some s }
  | columnFamilyDrop => { edit with isColumnFamilyDrop := true }
  | remainingEntries v => { edit with remainingEntries := some v }
  | fullHistoryTsLow s => { edit with fullHistoryTsLow := s }

def Readable : Record → Prop
  | dbId s | comparator s | columnFamilyAdd s => s.length < 2 ^ 32
  | fullHistoryTsLow s => s.length < 2 ^ 32 ∧ s ≠ []
  | newFile _ new => Restorable new.2
  | blobFileAddition a => a.checksumMethod.length < 2 ^ 32 ∧ a.checksumValue.length < 2 ^ 32
  | _ => True

end Record

theorem reads_decodeTag (edit : VersionEdit) {r : Record} (h : r.Readable) : Reads (decodeTag edit r.tag) r.payload (r.apply edit) := by
  cases r with
  | dbId s | comparator s | columnFamilyAdd s => exact (reads_getSlice _ h).map _
  | logNumber v | prevLogNumber v | nextFileNumber v | lastSequence v => exact (reads_getUInt64 _ v).map _
  | maxColumnFamily v | columnFamily v | remainingEntries v => exact (reads_getUInt32 _ v).map _
  | deletedFile d =>
    apply (reads_getLevel _ d.1).bind
    exact (reads_getUInt64 _ d.2).map _
  | newFile minLogNumberToKeep new => exact reads_newFile4 minLogNumberToKeep h edit
  | blobFileAddition a => exact (reads_blobFileAddition h.1 h.2).map _
  | blobFileGarbage g => exact (reads_blobFileGarbage g).map _
  | walAddition w =>
    rw [Record.payload, ← append_nil (putLengthPrefixedSlice _)]
    apply (reads_getSlice _ (length_walAddition_lt w)).bind
    exact (reads_within (reads_walAddition w)).map _
  | walDeletion number =>
    rw [Record.payload, ← append_nil (putLengthPrefixedSlice _)]
    apply (reads_getSlice _ (length_putVarint64_lt number)).bind
    exact (reads_within (reads_getUInt64 _ number)).map _
  | columnFamilyDrop => exact reads_pure _
  | fullHistoryTsLow s =>
    rw [Record.payload, ← append_nil (putLengthPrefixedSlice _)]
    apply (reads_getSlice _ h.1).bind
    rw [if_neg h.2]
    exact reads_pure _

theorem ofValue_tag (t : Tag) : Tag.ofValue t.value = some t := by
  cases t <;> rfl

theorem reads_record (edit : VersionEdit) {r : Record} (h : r.Readable) :
    Reads (decodeRecord edit) r.encode (.inl (r.apply edit)) := by
  intro rest
  rw [Record.encode, append_assoc, Decoder.run, decodeRecord, putTag, putVarint32,
    getVarint32_encodeVarint32 (UInt32.toNat_lt _)]
  dsimp only
  rw [UInt32.ofNat_toNat, ofValue_tag]
  rw [reads_decodeTag edit h]

def newFileRecords (minLogNumberToKeep : Option UInt64) : List (Int32 × FileMetaData) → List Record
  | [] => []
  | new :: newFiles => .newFile minLogNumberToKeep new :: newFileRecords none newFiles

def VersionEdit.records (edit : VersionEdit) : List Record :=
  edit.dbId.toList.map Record.dbId ++ edit.comparator.toList.map Record.comparator ++ edit.logNumber.toList.map Record.logNumber ++
    edit.prevLogNumber.toList.map Record.prevLogNumber ++ edit.nextFileNumber.toList.map Record.nextFileNumber ++
    edit.maxColumnFamily.toList.map Record.maxColumnFamily ++ edit.lastSequence.toList.map Record.lastSequence ++
    edit.deletedFiles.toList.map Record.deletedFile ++ newFileRecords edit.minLogNumberToKeep edit.newFiles ++
    edit.blobFileAdditions.map Record.blobFileAddition ++ edit.blobFileGarbages.map Record.blobFileGarbage ++
    edit.walAdditions.map Record.walAddition ++
    (if edit.walDeletion ≠ kEmptyWalDeletion then [Record.walDeletion edit.walDeletion] else []) ++
    (if edit.columnFamily ≠ 0 then [Record.columnFamily edit.columnFamily] else []) ++
    edit.columnFamilyAdd.toList.map Record.columnFamilyAdd ++ (if edit.isColumnFamilyDrop then [Record.columnFamilyDrop] else []) ++
    edit.remainingEntries.toList.map Record.remainingEntries ++
    (if edit.fullHistoryTsLow ≠ [] then [Record.fullHistoryTsLow edit.fullHistoryTsLow] else [])

theorem putOption_eq {α : Type} (o : Option α) (put : α → Bytes) : putOption o put = o.toList.flatMap put := by
  cases o with
  | none => rfl
  | some a => exact (flatMap_singleton put a).symm

theorem encodeNewFiles_eq_some {minLogNumberToKeep : Option UInt64} {newFiles : List (Int32 × FileMetaData)} {bytes : Bytes}
    (h : encodeNewFiles minLogNumberToKeep newFiles = some bytes) :
    bytes = (newFileRecords minLogNumberToKeep newFiles).flatMap Record.encode ∧
      ∀ new ∈ newFiles, validInternalKey new.2.smallest = true ∧ validInternalKey new.2.largest = true ∧
        (new.2.maxTimestamp ≠ [] → new.2.minTimestamp.length = new.2.maxTimestamp.length) := by
  induction newFiles generalizing minLogNumberToKeep bytes with
  | nil =>
    cases h
    exact ⟨rfl, fun _ h => nomatch h⟩
  | cons new newFiles ih =>
    obtain ⟨x, hx, h⟩ := Option.bind_eq_some_iff.mp h
    obtain ⟨y, hy, h⟩ := Option.bind_eq_some_iff.mp h
    cases h
    obtain ⟨rfl, hn⟩ := encodeNewFile_eq_some minLogNumberToKeep hx
    obtain ⟨rfl, hf⟩ := ih hy
    exact ⟨rfl, forall_mem_cons.mpr ⟨hn, hf⟩⟩

variable {edit : VersionEdit}

theorem encodeTo_eq_some {bytes : Bytes} (h : edit.encodeTo = some bytes) : bytes = edit.records.flatMap Record.encode ∧
      ∀ new ∈ edit.newFiles, validInternalKey new.2.smallest = true ∧ validInternalKey new.2.largest = true ∧
        (new.2.maxTimestamp ≠ [] → new.2.minTimestamp.length = new.2.maxTimestamp.length) := by
  rw [encodeTo, Option.bind_eq_bind, Option.bind_eq_some_iff] at h
  obtain ⟨files, hf, h⟩ := h
  obtain ⟨rfl, hv⟩ := encodeNewFiles_eq_some hf
  refine ⟨?_, hv⟩
  rw [← Option.some.inj h]
  delta records
  simp only [flatMap_append, flatMap_map, flatMap_ite, flatMap_cons, flatMap_nil, putOption_eq,
    Record.encode, Record.tag, Record.payload, append_nil, append_assoc]

theorem insertFile_last {x : Int32 × UInt64} {ys : List (Int32 × UInt64)} (h : ∀ y ∈ ys, fileBefore y x) :
    insertFile x ys = ys ++ [x] := by
  induction ys with
  | nil => rfl
  | cons y ys ih =>
    obtain ⟨hy, hys⟩ := forall_mem_cons.mp h
    have hn : ¬fileBefore x y := by
      unfold fileBefore at *
      omega
    rw [insertFile, if_neg hn, if_pos hy, ih hys]
    rfl

theorem foldl_insert (s : DeletedFiles) (xs : List (Int32 × UInt64)) (h : (s.toList ++ xs).Pairwise fileBefore) :
    xs.foldl DeletedFiles.insert s = ⟨s.toList ++ xs, h⟩ := by
  induction xs generalizing s with
  | nil =>
    simp
  | cons x xs ih =>
    have hl : insertFile x s.toList = s.toList ++ [x] :=
      insertFile_last fun y hy => (pairwise_append.mp h).2.2 y hy x mem_cons_self
    have heq : s.toList ++ x :: xs = insertFile x s.toList ++ xs := by rw [hl, append_assoc, singleton_append]
    have h' : ((s.insert x).toList ++ xs).Pairwise fileBefore := heq ▸ h
    rw [foldl_cons, ih (s.insert x) h']
    simp only [DeletedFiles.insert, heq]

section

variable (edit : VersionEdit)

theorem foldl_deletedFiles (xs : List (Int32 × UInt64)) : (xs.map Record.deletedFile).foldl Record.apply edit =
    { edit with deletedFiles := xs.foldl DeletedFiles.insert edit.deletedFiles } := by
  induction xs generalizing edit with
  | nil => rfl
  | cons x xs ih =>
    rw [map_cons, foldl_cons, ih]
    rfl

theorem foldl_appended {α : Type} (as : List α) (make : α → Record) (get : VersionEdit → List α)
    (set : VersionEdit → List α → VersionEdit)
    (ha : ∀ e a, Record.apply e (make a) = set e (get e ++ [a]) := by intros; rfl)
    (hs : ∀ e xs ys, get (set e xs) = xs ∧ set (set e xs) ys = set e ys ∧ set e (get e) = e := by simp) :
    (as.map make).foldl Record.apply edit = set edit (get edit ++ as) := by
  induction as generalizing edit with
  | nil => rw [map_nil, foldl_nil, append_nil, (hs edit [] []).2.2]
  | cons a as ih =>
    rw [map_cons, foldl_cons, ih, ha, (hs edit _ []).1, (hs edit _ _).2.1, append_assoc, singleton_append]

theorem foldl_newFiles (minLogNumberToKeep : Option UInt64) (fs : List (Int32 × FileMetaData))
    (h : minLogNumberToKeep ≠ none → fs ≠ []) : (newFileRecords minLogNumberToKeep fs).foldl Record.apply edit =
    { edit with
      minLogNumberToKeep := minLogNumberToKeep.or edit.minLogNumberToKeep
      newFiles := edit.newFiles ++ fs } := by
  induction fs generalizing edit minLogNumberToKeep with
  | nil =>
    have hn : minLogNumberToKeep = none := by
      by_contra hne
      exact h hne rfl
    simp [newFileRecords, hn]
  | cons f fs ih =>
    rw [newFileRecords, foldl_cons, ih _ none (fun hne => absurd rfl hne)]
    simp [Record.apply]

end

theorem foldl_option {α : Type} (o : Option α) (make : α → Record) (get : VersionEdit → Option α)
    (set : VersionEdit → Option α → VersionEdit) (edit : VersionEdit)
    (hs : ∀ e v, Record.apply e (make v) = set e (some v) := by intros; rfl)
    (hg : ∀ e, set e (get e) = e := by intro; rfl) :
    (o.toList.map make).foldl Record.apply edit = set edit (o.or (get edit)) := by
  cases o with
  | none => exact (hg edit).symm
  | some v => exact hs edit v

theorem foldl_records (hl : edit.minLogNumberToKeep ≠ none → edit.newFiles ≠ []) :
    edit.records.foldl Record.apply {} = edit := by
  have hf {α : Type} [DecidableEq α] {v d : α} (make : α → Record) (get : VersionEdit → α)
      (set : VersionEdit → α → VersionEdit) (e : VersionEdit) (he : get e = d)
      (hs : ∀ e v, Record.apply e (make v) = set e v := by intros; rfl) (hg : ∀ e, set e (get e) = e := by intro; rfl) :
      (if v ≠ d then [make v] else []).foldl Record.apply e = set e v :=
    foldl_default (fun _ => hs e v) fun h => by rw [not_not.mp h, ← he, hg]
  have hdr (e : VersionEdit) (he : e.isColumnFamilyDrop = false) :
      (if edit.isColumnFamilyDrop = true then [Record.columnFamilyDrop] else []).foldl Record.apply e =
        { e with isColumnFamilyDrop := edit.isColumnFamilyDrop } :=
    foldl_default (fun h => by rw [h]; rfl) fun h => by rw [Bool.eq_false_iff.mpr h, ← he]
  delta records
  simp only [foldl_append]
  rw [foldl_option _ .dbId VersionEdit.dbId fun e o => { e with dbId := o },
    foldl_option _ .comparator VersionEdit.comparator fun e o => { e with comparator := o },
    foldl_option _ .logNumber VersionEdit.logNumber fun e o => { e with logNumber := o },
    foldl_option _ .prevLogNumber VersionEdit.prevLogNumber fun e o => { e with prevLogNumber := o },
    foldl_option _ .nextFileNumber VersionEdit.nextFileNumber fun e o => { e with nextFileNumber := o },
    foldl_option _ .maxColumnFamily VersionEdit.maxColumnFamily fun e o => { e with maxColumnFamily := o },
    foldl_option _ .lastSequence VersionEdit.lastSequence fun e o => { e with lastSequence := o }, foldl_deletedFiles,
    foldl_newFiles _ _ _ hl,
    foldl_appended _ _ .blobFileAddition VersionEdit.blobFileAdditions fun e xs => { e with blobFileAdditions := xs },
    foldl_appended _ _ .blobFileGarbage VersionEdit.blobFileGarbages fun e xs => { e with blobFileGarbages := xs },
    foldl_appended _ _ .walAddition VersionEdit.walAdditions fun e xs => { e with walAdditions := xs },
    hf .walDeletion VersionEdit.walDeletion (fun e x => { e with walDeletion := x }) _ rfl,
    hf .columnFamily VersionEdit.columnFamily (fun e x => { e with columnFamily := x }) _ rfl,
    foldl_option _ .columnFamilyAdd VersionEdit.columnFamilyAdd fun e o => { e with columnFamilyAdd := o }, hdr _ rfl,
    foldl_option _ .remainingEntries VersionEdit.remainingEntries fun e o => { e with remainingEntries := o },
    hf .fullHistoryTsLow VersionEdit.fullHistoryTsLow (fun e x => { e with fullHistoryTsLow := x }) _ rfl]
  have hd : edit.deletedFiles.toList.foldl DeletedFiles.insert {} = edit.deletedFiles :=
    foldl_insert {} edit.deletedFiles.toList edit.deletedFiles.sorted
  simp [hd]

structure VersionEdit.Persistent (edit : VersionEdit) : Prop where
  dbId : ∀ s ∈ edit.dbId, s.length < 2 ^ 32
  comparator : ∀ s ∈ edit.comparator, s.length < 2 ^ 32
  columnFamilyAdd : ∀ s ∈ edit.columnFamilyAdd, s.length < 2 ^ 32
  fullHistoryTsLow : edit.fullHistoryTsLow.length < 2 ^ 32
  blobFileAdditions : ∀ a ∈ edit.blobFileAdditions, a.checksumMethod.length < 2 ^ 32 ∧ a.checksumValue.length < 2 ^ 32
  newFiles : ∀ new ∈ edit.newFiles, new.2.Fits
  timestamps : ∀ new ∈ edit.newFiles, new.2.maxTimestamp = [] → new.2.minTimestamp = []

theorem readable_records {bytes : Bytes} (h : edit.Persistent) (he : edit.encodeTo = some bytes) :
    ∀ r ∈ edit.records, r.Readable := by
  obtain ⟨-, hv⟩ := encodeTo_eq_some he
  have hm {α : Type} {mk : α → Record} (l : List α) (hmk : ∀ a ∈ l, (mk a).Readable) : ∀ r ∈ l.map mk, r.Readable := by
    intro r hr
    obtain ⟨a, ha, rfl⟩ := mem_map.mp hr
    exact hmk a ha
  have ho {α : Type} {mk : α → Record} (o : Option α) (hmk : ∀ a ∈ o, (mk a).Readable) :
      ∀ r ∈ o.toList.map mk, r.Readable :=
    hm _ fun a ha => hmk a (Option.mem_toList.mp ha)
  have hi {p : Prop} [Decidable p] {r : Record} (hr : p → r.Readable) :
      ∀ r' ∈ (if p then [r] else []), r'.Readable := by
    split_ifs with hp
    · intro r' hr'
      rw [mem_singleton.mp hr']
      exact hr hp
    · exact fun _ h => nomatch h
  have hfl (m : Option UInt64) (fs : List (Int32 × FileMetaData)) (hfs : ∀ f ∈ fs, f ∈ edit.newFiles) :
      ∀ r ∈ newFileRecords m fs, r.Readable := by
    induction fs generalizing m with
    | nil => exact fun _ h => nomatch h
    | cons f fs ih =>
      obtain ⟨hf, hfs⟩ := forall_mem_cons.mp hfs
      obtain ⟨hs, hl, hts⟩ := hv f hf
      rw [newFileRecords, forall_mem_cons]
      exact ⟨⟨h.newFiles f hf, hs, hl, hts, h.timestamps f hf⟩, ih none hfs⟩
  delta records
  simp only [forall_mem_append]
  refine ⟨⟨⟨⟨⟨⟨⟨⟨⟨⟨⟨⟨⟨⟨⟨⟨⟨?_, ?_⟩, ?_⟩, ?_⟩, ?_⟩, ?_⟩, ?_⟩, ?_⟩, ?_⟩, ?_⟩, ?_⟩, ?_⟩, ?_⟩, ?_⟩, ?_⟩, ?_⟩, ?_⟩, ?_⟩
  · exact ho _ h.dbId
  · exact ho _ h.comparator
  · exact ho _ fun _ _ => trivial
  · exact ho _ fun _ _ => trivial
  · exact ho _ fun _ _ => trivial
  · exact ho _ fun _ _ => trivial
  · exact ho _ fun _ _ => trivial
  · exact hm _ fun _ _ => trivial
  · exact hfl _ _ fun _ hf => hf
  · exact hm _ h.blobFileAdditions
  · exact hm _ fun _ _ => trivial
  · exact hm _ fun _ _ => trivial
  · exact hi fun _ => trivial
  · exact hi fun _ => trivial
  · exact ho _ h.columnFamilyAdd
  · exact hi fun _ => trivial
  · exact ho _ fun _ _ => trivial
  · exact hi fun hne => ⟨h.fullHistoryTsLow, hne⟩

/-- What is encoded is decoded, if the strings fit their length prefix and no new file has a smallest timestamp alone.
-/
theorem decodeFrom_encodeTo {edit : VersionEdit} {bytes : Bytes} (hencode : edit.encodeTo = some bytes)
    (hlog : edit.minLogNumberToKeep ≠ none → edit.newFiles ≠ []) (h : edit.Persistent) :
    decodeFrom bytes = .ok edit := by
  have hl : (loop decodeRecord Status.overrun {}).run (edit.records.flatMap Record.encode ++ []) = .ok (edit, []) := by
    refine loop_records (fun r hr e => reads_record e (readable_records h hencode r hr))
      (fun r _ => append_ne_nil_of_left_ne_nil (putVarint32_ne_nil _) _) ?_
    rw [foldl_records hlog]
    rfl
  rw [append_nil, ← (encodeTo_eq_some hencode).1] at hl
  rw [decodeFrom, hl]

def sampleFile : FileMetaData where
  fd := .make 9 2 4096 1 5
  smallest := [0x61, 1, 1, 0, 0, 0, 0, 0, 0]
  largest := [0x62, 1, 5, 0, 0, 0, 0, 0, 0]
  markedForCompaction := true
  temperature := ⟨8, by decide⟩
  oldestBlobFileNumber := 3
  oldestAncesterTime := 1000
  fileCreationTime := 2000
  minTimestamp := [1]
  maxTimestamp := [2]

def sampleEdit : VersionEdit where
  comparator := some [0x63]
  logNumber := some 300
  minLogNumberToKeep := some 7
  deletedFiles := ⟨[(0, 5), (1, 4)], by decide⟩
  newFiles := [(1, sampleFile)]
  walAdditions := [{ number := 12, syncedSizeBytes := 99 }]
  remainingEntries := some 1
  fullHistoryTsLow := [4]

theorem decodeFrom_encodeTo_sample : ∃ bytes, sampleEdit.encodeTo = some bytes ∧ decodeFrom bytes = .ok sampleEdit := by
  obtain ⟨bytes, hb⟩ : ∃ bytes, sampleEdit.encodeTo = some bytes := Option.isSome_iff_exists.mp (by decide +kernel)
  have hp : sampleEdit.Persistent := by
    constructor
    · exact fun _ hs => nomatch hs
    · exact fun s hs => by cases hs; decide
    · exact fun _ hs => nomatch hs
    · decide
    · exact fun _ hs => nomatch hs
    · intro new hn
      rw [mem_singleton.mp hn]
      exact ⟨by decide, by decide, by decide, by decide, by decide, by decide⟩
    · intro new hn
      rw [mem_singleton.mp hn]
      decide
  exact ⟨bytes, hb, decodeFrom_encodeTo hb (fun _ => cons_ne_nil _ _) hp⟩

theorem encodeTo_comparator (s : Bytes) :
    encodeTo { comparator := some s } = some (putTag .kComparator ++ putLengthPrefixedSlice s) := by
  simp [encodeTo, encodeNewFiles, putOption, kEmptyWalDeletion]

theorem decodeFrom_emptyComparator (rest : Bytes) : decodeFrom (1 :: 0 :: 0 :: rest) = .error (corrupt "unknown tag") :=
  rfl

def plainFile : FileMetaData where
  smallest := [1, 1, 0, 0, 0, 0, 0, 0]
  largest := [1, 1, 0, 0, 0, 0, 0, 0]

def minTimestampEdit : VersionEdit where
  deletedFiles := default
  newFiles := [(0, { plainFile with minTimestamp := [9] })]

/-- The length of a string of `2 ^ 32` bytes is written as zero; a smallest timestamp alone is not written. -/
theorem decodeFrom_encodeTo_lost : (∃ bytes, encodeTo { comparator := some (replicate (2 ^ 32) 0) } = some bytes ∧
      decodeFrom bytes = .error (corrupt "unknown tag")) ∧
    ∃ bytes, minTimestampEdit.encodeTo = some bytes ∧ decodeFrom bytes = .ok { newFiles := [(0, plainFile)] } ∧
      minTimestampEdit ≠ { newFiles := [(0, plainFile)] } := by
  constructor
  · refine ⟨_, encodeTo_comparator _, ?_⟩
    have hs : replicate (2 ^ 32) (0 : UInt8) = 0 :: replicate (2 ^ 32 - 1) 0 := by
      rw [← replicate_succ, Nat.sub_add_cancel (by decide)]
    have hl : u32 (replicate (2 ^ 32) (0 : UInt8)).length = 0 := by
      rw [length_replicate]
      rfl
    rw [putLengthPrefixedSlice, hl, hs]
    exact decodeFrom_emptyComparator _
  · obtain ⟨bytes, hb⟩ : ∃ bytes, minTimestampEdit.encodeTo = some bytes :=
      Option.isSome_iff_exists.mp (by decide +kernel)
    refine ⟨bytes, hb, ?_, by decide⟩
    have hd : minTimestampEdit.encodeTo.map decodeFrom = some (.ok { newFiles := [(0, plainFile)] }) := by
      decide +kernel
    rw [hb] at hd
    exact Option.some.inj hd

end

end ZenFSPlus.Manifest
