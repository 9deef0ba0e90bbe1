import ZenFSPlus.Util.Coding

/-!
`EncryptedSequentialFile` over a counter-mode stream: the offset for the decryption is a
second copy of the position of the file.
-/

namespace ZenFSPlus.Env

open List Util

structure CTRCipherStream where
  blockSize : ℕ
  /-- The encrypted nonce and counter of a block. -/
  scratch : ℕ → Bytes
  positive : 0 < blockSize
  size : ∀ i, (scratch i).length = blockSize

namespace CTRCipherStream

variable (c : CTRCipherStream)

def decryptBlock (blockIndex : ℕ) (data : Bytes) : Bytes := zipWith (· ^^^ ·) data (c.scratch blockIndex)

def decryptLoop : ℕ → Bytes → ℕ → ℕ → Bytes → Bytes
  | 0, _, _, _, data => data
  | fuel + 1, blockBuffer, blockIndex, blockOffset, data =>
    let n := min data.length (c.blockSize - blockOffset)
    -- a full block is decrypted in place, without the buffer
    let around := if n = c.blockSize then [] else blockBuffer
    let block := c.decryptBlock blockIndex (around.take blockOffset ++ data.take n ++ around.drop (blockOffset + n))
    let done := (block.drop blockOffset).take n
    if data.length = n then done
    else done ++ decryptLoop fuel (if n = c.blockSize then blockBuffer else block) (blockIndex + 1) 0 (data.drop n)

/-- `Decrypt`, and `Encrypt`, which is the same in counter mode. -/
def decrypt (fileOffset : ℕ) (data : Bytes) : Bytes :=
  c.decryptLoop (data.length + 1) (replicate c.blockSize 0) (fileOffset / c.blockSize) (fileOffset % c.blockSize) data

def key (p : ℕ) : UInt8 := (c.scratch (p / c.blockSize)).getD (p % c.blockSize) 0

def xorFrom (p : ℕ) (data : Bytes) : Bytes := data.mapIdx fun j b => b ^^^ c.key (p + j)

@[simp] theorem length_xorFrom (p : ℕ) (data : Bytes) : (c.xorFrom p data).length = data.length := length_mapIdx

@[simp] theorem getElem?_xorFrom (p : ℕ) (data : Bytes) (j : ℕ) :
    (c.xorFrom p data)[j]? = data[j]?.map fun b => b ^^^ c.key (p + j) := getElem?_mapIdx

theorem xorFrom_append (p : ℕ) (data rest : Bytes) :
    c.xorFrom p (data ++ rest) = c.xorFrom p data ++ c.xorFrom (p + data.length) rest := by
  simp [xorFrom, mapIdx_append, Nat.add_assoc, Nat.add_comm data.length]

theorem take_drop_xorFrom (p k n : ℕ) (data : Bytes) :
    ((c.xorFrom p data).drop k).take n = c.xorFrom (p + k) ((data.drop k).take n) := by
  apply ext_getElem?
  intro j
  by_cases hj : j < n
  · simp [hj, Nat.add_assoc]
  · simp [getElem?_take, hj]

theorem xorFrom_xorFrom (p : ℕ) (data : Bytes) : c.xorFrom p (c.xorFrom p data) = data := by
  apply ext_getElem?
  intro j
  simp [Function.comp_def, UInt8.xor_assoc]

theorem decryptBlock_part (i : ℕ) {o : ℕ} {bef : Bytes} (data behind : Bytes) (hb : bef.length = o)
    (ho : o + data.length ≤ c.blockSize) :
    ((c.decryptBlock i (bef ++ data ++ behind)).drop o).take data.length = c.xorFrom (i * c.blockSize + o) data := by
  apply ext_getElem?
  intro j
  rw [decryptBlock, drop_zipWith, append_assoc, drop_left' hb, take_zipWith, take_left, getElem?_xorFrom,
    getElem?_zipWith]
  by_cases hj : j < data.length
  · have hlt : o + j < c.blockSize := by omega
    rw [key, Nat.add_assoc, Nat.mul_comm, Nat.mul_add_div c.positive, Nat.mul_add_mod, Nat.div_eq_of_lt hlt,
      Nat.mod_eq_of_lt hlt]
    simp [hj, c.size, hlt]
  · simp [hj]

theorem decryptLoop_eq {fuel i o : ℕ} {bb data : Bytes} (hfl : data.length < fuel) (ho : o < c.blockSize)
    (hbf : bb.length = c.blockSize) :
    c.decryptLoop fuel bb i o data = c.xorFrom (i * c.blockSize + o) data := by
  induction fuel generalizing i o bb data with
  | zero => cases hfl
  | succ fuel ih =>
    rw [decryptLoop]
    generalize hn : min data.length (c.blockSize - o) = n
    generalize ha : (if n = c.blockSize then [] else bb) = around
    have hb : (around.take o).length = o := by
      rw [← ha, length_take]
      split
      · rw [length_nil]
        omega
      · omega
    have hl : (data.take n).length = n := by
      rw [length_take]
      omega
    have hd := c.decryptBlock_part i (data.take n) (around.drop (o + n)) hb (by omega)
    rw [hl] at hd
    rw [hd]
    split
    · next hls => rw [take_of_length_le (Nat.le_of_eq hls)]
    next hm =>
    have hf : o + n = c.blockSize := by omega
    rw [ih (by rw [length_drop]; omega) c.positive, ← take_append_drop n data, xorFrom_append, take_append_drop, hl]
    · congr 2
      rw [Nat.add_assoc, hf, Nat.succ_mul, Nat.add_zero]
    · split
      · exact hbf
      next hp =>
      rw [decryptBlock, length_zipWith, c.size, length_append, length_append, hb, hl, length_drop, ← ha, if_neg hp, hbf]
      omega

theorem decrypt_eq (p : ℕ) (data : Bytes) : c.decrypt p data = c.xorFrom p data := by
  rw [decrypt, c.decryptLoop_eq (Nat.lt_succ_self _) (Nat.mod_lt _ c.positive) length_replicate, Nat.div_add_mod']

end CTRCipherStream

structure SequentialFile where
  content : Bytes
  position : ℕ

namespace SequentialFile

variable (f : SequentialFile)

def read (n : ℕ) : Bytes × SequentialFile :=
  let result := (f.content.drop f.position).take n
  (result, { f with position := f.position + result.length })

def skip (n : ℕ) : SequentialFile := { f with position := min (f.position + n) f.content.length }

def positionedRead (offset n : ℕ) : Bytes := (f.content.drop offset).take n

def append (data : Bytes) : SequentialFile := { f with content := f.content ++ data }

end SequentialFile

structure EncryptedSequentialFile where
  file : SequentialFile
  offset : ℕ
  prefixLength : ℕ

/-- The calls of the reader, and a write that makes the file longer. -/
inductive SequentialCall where
  | read (n : ℕ)
  | skip (n : ℕ)
  | positionedRead (offset n : ℕ)
  | append (data : Bytes)

/-- What a call returns, and the file after it. -/
def SequentialFile.step (f : SequentialFile) : SequentialCall → Bytes × SequentialFile
  | .read n => f.read n
  | .skip n => ([], f.skip n)
  | .positionedRead offset n => (f.positionedRead offset n, f)
  | .append data => ([], f.append data)

namespace EncryptedSequentialFile

variable (c : CTRCipherStream)

def new (header plain : Bytes) : EncryptedSequentialFile :=
  ⟨⟨header ++ c.decrypt header.length plain, header.length⟩, header.length, header.length⟩

def step (s : EncryptedSequentialFile) : SequentialCall → Bytes × EncryptedSequentialFile
  | .read n =>
    let r := s.file.read n
    (c.decrypt s.offset r.1, { s with file := r.2, offset := s.offset + r.1.length })
  | .skip n => ([], { s with file := s.file.skip n, offset := s.offset + n })
  | .positionedRead offset n =>
    let result := s.file.positionedRead (offset + s.prefixLength) n
    (c.decrypt (offset + s.prefixLength) result, { s with offset := offset + s.prefixLength + result.length })
  | .append data => ([], { s with file := s.file.append (c.decrypt s.file.content.length data) })

end EncryptedSequentialFile

def results {σ : Type} (step : σ → SequentialCall → Bytes × σ) : σ → List SequentialCall → List Bytes
  | _, [] => []
  | s, a :: calls => (step s a).1 :: results step (step s a).2 calls

/-- No `PositionedRead`, and no `Skip` past the end. -/
def SequentialFile.keeps (f : SequentialFile) : SequentialCall → Bool
  | .skip n => f.position + n ≤ f.content.length
  | .positionedRead .. => false
  | .read _ | .append _ => true

def SequentialFile.keepsAll : SequentialFile → List SequentialCall → Bool
  | _, [] => true
  | f, a :: calls => f.keeps a && keepsAll (f.step a).2 calls

namespace EncryptedSequentialFile

structure Encrypts (c : CTRCipherStream) (header : Bytes) (s : EncryptedSequentialFile) (f : SequentialFile) : Prop
    where
  content : s.file.content = header ++ c.xorFrom header.length f.content
  position : s.file.position = header.length + f.position
  offset : s.offset = header.length + f.position

variable {c : CTRCipherStream} {header : Bytes} {s : EncryptedSequentialFile} {f : SequentialFile}

theorem Encrypts.step (h : Encrypts c header s f) {a : SequentialCall} (ha : f.keeps a = true) :
    (s.step c a).1 = (f.step a).1 ∧ Encrypts c header (s.step c a).2 (f.step a).2 := by
  cases a with
  | read n =>
    have hr : (s.file.read n).1 = c.xorFrom s.offset (f.read n).1 := by
      rw [SequentialFile.read, h.content, h.position, drop_append, drop_eq_nil_of_le (Nat.le_add_right _ _), nil_append,
        Nat.add_sub_cancel_left, c.take_drop_xorFrom, h.offset]
      rfl
    have hl : (s.file.read n).1.length = (f.read n).1.length := by rw [hr, c.length_xorFrom]
    refine ⟨?_, h.content, ?_, ?_⟩
    · change c.decrypt s.offset (s.file.read n).1 = _
      rw [c.decrypt_eq, hr, c.xorFrom_xorFrom]
      rfl
    · change s.file.position + (s.file.read n).1.length = header.length + (f.position + (f.read n).1.length)
      rw [h.position, hl, Nat.add_assoc]
    · change s.offset + (s.file.read n).1.length = header.length + (f.position + (f.read n).1.length)
      rw [h.offset, hl, Nat.add_assoc]
  | skip n =>
    have he : f.position + n ≤ f.content.length := of_decide_eq_true ha
    refine ⟨rfl, h.content, ?_, ?_⟩
    · change min (s.file.position + n) s.file.content.length = header.length + min (f.position + n) f.content.length
      rw [h.content, h.position, length_append, c.length_xorFrom]
      omega
    · change s.offset + n = header.length + min (f.position + n) f.content.length
      rw [h.offset]
      omega
  | positionedRead off n => cases ha
  | append data =>
    refine ⟨rfl, ?_, h.position, h.offset⟩
    change s.file.content ++ c.decrypt s.file.content.length data = _
    rw [c.decrypt_eq, h.content, length_append, c.length_xorFrom, append_assoc, ← c.xorFrom_append]
    rfl

theorem results_eq {calls : List SequentialCall} (h : Encrypts c header s f) (hk : f.keepsAll calls = true) :
    results (step c) s calls = results SequentialFile.step f calls := by
  induction calls generalizing s f with
  | nil => rfl
  | cons a calls ih =>
    rw [SequentialFile.keepsAll, Bool.and_eq_true] at hk
    obtain ⟨hr, hn⟩ := h.step hk.1
    rw [results, results, hr, ih hn hk.2]

/-- Without `PositionedRead` and without a `Skip` past the end, every `Read` returns the plaintext at its position. -/
theorem read_plaintext (c : CTRCipherStream) (header plain : Bytes) {calls : List SequentialCall}
    (hkeeps : SequentialFile.keepsAll ⟨plain, 0⟩ calls = true) :
    results (step c) (new c header plain) calls = results SequentialFile.step ⟨plain, 0⟩ calls := by
  refine results_eq (s := new c header plain) ⟨?_, rfl, rfl⟩ hkeeps
  rw [← c.decrypt_eq]
  rfl

def counting : CTRCipherStream := ⟨2, fun i => [.ofNat i, .ofNat (i + 7)], by decide, fun _ => rfl⟩

theorem read_plaintext_grown :
    results (step counting) (new counting [9] [10, 20, 30]) [.read 2, .skip 1, .append [40, 50], .read 4] =
      [[10, 20], [], [], [40, 50]] :=
  (read_plaintext counting [9] [10, 20, 30] (by decide)).trans rfl

theorem read_not_plaintext :
    results (step counting) (new counting [9] [10, 20, 30]) [.positionedRead 2 1, .read 1] = [[30], [15]] ∧
    results (step counting) (new counting [9] [10, 20, 30]) [.skip 5, .append [40], .read 1] = [[], [], [41]] := by
  decide

end EncryptedSequentialFile

end ZenFSPlus.Env
