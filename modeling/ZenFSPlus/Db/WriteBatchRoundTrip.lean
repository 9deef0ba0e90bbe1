import ZenFSPlus.Db.WriteBatch

namespace ZenFSPlus.Db

open Lib (u32 u32_of_lt)
open Util

section

variable {msg : String} {rest key value : Bytes} {cf : ℕ}

theorem readSlice_put (hk : key.length < 2 ^ 32) :
    readSlice msg (putLengthPrefixedSlice key ++ rest) = .ok (key, rest) := by
  rw [readSlice, getLengthPrefixedSlice_put hk]

theorem readKey_put {make : Bytes → Record} (hk : key.length < 2 ^ 32) :
    readKey msg make (putLengthPrefixedSlice key ++ rest) = .ok (make key, rest) := by
  rw [readKey, readSlice_put hk]
  rfl

theorem readKeyValue_put {make : Bytes → Bytes → Record} (hk : key.length < 2 ^ 32) (hv : value.length < 2 ^ 32) :
    readKeyValue msg make (putLengthPrefixedSlice key ++ putLengthPrefixedSlice value ++ rest) =
      .ok (make key value, rest) := by
  rw [readKeyValue, List.append_assoc, readSlice_put hk]
  change Except.bind (readSlice msg (putLengthPrefixedSlice value ++ rest)) _ = _
  rw [readSlice_put hv]
  rfl

theorem readRecord_encodeTag {tag cfTag : ValueType} {read : ℕ → Bytes → Except String (Record × Bytes)}
    (ht : ∀ input, readRecordFromWriteBatch (tag.code :: input) = read 0 input)
    (hc : ∀ input, readRecordFromWriteBatch (cfTag.code :: input) = readColumnFamily msg read input)
    (hcf : cf < 2 ^ 32) :
    readRecordFromWriteBatch (Record.encodeTag cf tag cfTag ++ rest) = read cf rest := by
  unfold Record.encodeTag
  split
  · rename_i h0
    rw [List.singleton_append, ht, h0]
  · rw [List.cons_append, hc, readColumnFamily, getVarint32_encodeVarint32 hcf]

end

namespace Record

def Fits : Record → Prop
  | value cf k v | rangeDeletion cf k v | merge cf k v | blobIndex cf k v =>
    cf < 2 ^ 32 ∧ k.length < 2 ^ 32 ∧ v.length < 2 ^ 32
  | deletion cf k | singleDeletion cf k => cf < 2 ^ 32 ∧ k.length < 2 ^ 32
  | logData s | endPrepareXID s | commitXID s | rollbackXID s => s.length < 2 ^ 32
  | beginPrepareXID | beginPersistedPrepareXID | beginUnprepareXID | noop => True

theorem read_encode {r : Record} (h : r.Fits) (rest : Bytes) :
    readRecordFromWriteBatch (r.encode ++ rest) = .ok (r, rest) := by
  cases r with
  | value cf k v | rangeDeletion cf k v | merge cf k v | blobIndex cf k v =>
    rw [encode, List.append_assoc, readRecord_encodeTag (fun _ => rfl) (fun _ => rfl) h.1]
    exact readKeyValue_put h.2.1 h.2.2
  | deletion cf k | singleDeletion cf k =>
    rw [encode, List.append_assoc, readRecord_encodeTag (fun _ => rfl) (fun _ => rfl) h.1]
    exact readKey_put h.2
  | logData s | endPrepareXID s | commitXID s | rollbackXID s => exact readKey_put h
  | beginPrepareXID | beginPersistedPrepareXID | beginUnprepareXID | noop => rfl

theorem encode_ne_nil (r : Record) : r.encode ≠ [] := by
  have ht (cf : ℕ) (tag cfTag : ValueType) : encodeTag cf tag cfTag ≠ [] := by
    unfold encodeTag
    split <;> exact List.cons_ne_nil _ _
  cases r <;> simp [encode, ht]

end Record

section

variable {σ : Type} (h : Handler σ)

def runRecords : List Record → IterateState σ → Status × Bool × IterateState σ
  | [], st => (.ok, true, st)
  | r :: rs, st =>
    if !h.continue_ st.handler then (.ok, false, st)
    else
      match attempt h st r with
      | (.ok, true, st) => runRecords rs st
      | result => result

theorem iterateLoop_encode {rs : List Record} (hrs : ∀ r ∈ rs, r.Fits) (st : IterateState σ) :
    iterateLoop h (rs.flatMap Record.encode) st = runRecords h rs st := by
  induction rs generalizing st with
  | nil => rw [List.flatMap_nil, iterateLoop, if_pos rfl, runRecords]
  | cons r rs ih =>
    obtain ⟨hr, hrs⟩ := List.forall_mem_cons.mp hrs
    have hne : r.encode ++ rs.flatMap Record.encode ≠ [] := by simp [r.encode_ne_nil]
    rw [List.flatMap_cons, iterateLoop, if_neg hne, runRecords]
    split
    · rfl
    have hrd := Record.read_encode hr (rs.flatMap Record.encode)
    split
    · rename_i he
      rw [hrd] at he
      cases he
    rename_i r' rest hok
    rw [hrd] at hok
    cases hok
    obtain ⟨s, handlerContinue, st'⟩ := attempt h st r
    cases handlerContinue
    · cases s <;> rfl
    · cases s
      case ok => exact ih hrs st'
      all_goals rfl

end

def iterateResult {σ : Type} (count : ℕ) : Status × Bool × IterateState σ → Status × σ
  | (s, handlerContinue, st) =>
    if s ≠ .ok then (s, st.handler)
    else if handlerContinue ∧ st.found ≠ count then
      (.corruption "WriteBatch has wrong count", st.handler)
    else (.ok, st.handler)

structure Holds (b : WriteBatch) (rs : List Record) : Prop where
  records : b.rep.drop kHeader = rs.flatMap Record.encode
  fits : ∀ r ∈ rs, r.Fits
  count : b.count = rs.countP Record.counted % 2 ^ 32
  unlimited : b.maxBytes = 0
  unmarked : b.walTermPoint = ⟨0, 0⟩

namespace WriteBatch

variable {b c : WriteBatch}

theorem count_append (bs : Bytes) : (b.append bs).count = b.count := by
  have hle := b.header_le
  unfold kHeader at hle
  simp only [count, append, decodeFixed32]
  rw [List.drop_append_of_le_length (by omega), List.take_append_of_le_length (by simp; omega)]

theorem count_setCount (n : ℕ) : (b.setCount n).count = n % 2 ^ 32 := by
  have hle := b.header_le
  have hl : (encodeFixed32 n).length = 4 := length_encodeFixed 4 n
  unfold kHeader at hle
  have ht : (b.rep.take 8).length = 8 := by
    rw [List.length_take]
    omega
  simp only [count, setCount, decodeFixed32]
  rw [List.append_assoc, List.drop_left' ht, List.take_left' hl]
  exact decodeFixed_encodeFixed 4 n

theorem drop_setCount (n : ℕ) : (b.setCount n).rep.drop kHeader = b.rep.drop kHeader := by
  have hle := b.header_le
  have hl : (encodeFixed32 n).length = 4 := length_encodeFixed 4 n
  unfold kHeader at *
  apply List.drop_left'
  simp only [List.length_append, List.length_take]
  omega

theorem drop_append (bs : Bytes) : (b.append bs).rep.drop kHeader = b.rep.drop kHeader ++ bs :=
  List.drop_append_of_le_length b.header_le

end WriteBatch

namespace Holds

open WriteBatch

variable {b c : WriteBatch} {rs rs' : List Record} {r : Record}

theorem new : Holds WriteBatch.new [] := ⟨rfl, by simp, rfl, rfl, rfl⟩

theorem iterate (hb : Holds b rs) {σ : Type} (h : Handler σ) (s : σ) :
    b.iterate h s = iterateResult b.count (runRecords h rs ⟨s, true, 0⟩) := by
  have hle := b.header_le
  rw [WriteBatch.iterate, iterateRange, if_neg (by omega), List.take_length, hb.records, iterateLoop_encode h hb.fits]
  obtain ⟨s, handlerContinue, st⟩ := runRecords h rs ⟨s, true, 0⟩
  simp [iterateResult]

theorem appendBytes (hb : Holds b rs) (hr : r.Fits) (hc : r.counted = false) :
    Holds (b.append r.encode) (rs ++ [r]) where
  __ := hb
  records := by simp [drop_append, hb.records]
  fits := List.forall_mem_append.mpr ⟨hb.fits, by simpa using hr⟩
  count := by simp [count_append, hb.count, hc]

theorem addRecord (hb : Holds b rs) (hr : r.Fits) (hc : r.counted = true) :
    (b.addRecord r).1 = .ok ∧ Holds (b.addRecord r).2 (rs ++ [r]) := by
  have hu : ((b.setCount (u32 (b.count + 1))).append r.encode).maxBytes = 0 := hb.unlimited
  rw [WriteBatch.addRecord, commit, if_neg (by simp [hu])]
  refine ⟨rfl, ?_, ?_, ?_, hb.unlimited, hb.unmarked⟩
  · simp [drop_append, drop_setCount, hb.records]
  · exact List.forall_mem_append.mpr ⟨hb.fits, by simpa using hr⟩
  · rw [count_append, count_setCount, hb.count]
    simp [hc, u32]

theorem appendBatch (hb : Holds b rs) (hc : Holds c rs') (walOnly : Bool) :
    Holds (b.appendBatch c walOnly) (rs ++ rs') := by
  rw [WriteBatch.appendBatch, hc.unmarked, if_neg (by simp)]
  refine ⟨?_, List.forall_mem_append.mpr ⟨hb.fits, hc.fits⟩, ?_, hb.unlimited, hb.unmarked⟩
  · have ha : (c.rep.drop kHeader).take (c.rep.length - kHeader) = c.rep.drop kHeader :=
      List.take_of_length_le (Nat.le_of_eq List.length_drop)
    rw [drop_append, drop_setCount, ha, hb.records, hc.records, List.flatMap_append]
  · rw [count_append, count_setCount, hb.count, hc.count]
    simp [u32]

end Holds

inductive Op where
  | put (columnFamily : ℕ) (key value : Bytes)
  | delete (columnFamily : ℕ) (key : Bytes)
  | singleDelete (columnFamily : ℕ) (key : Bytes)
  | deleteRange (columnFamily : ℕ) (beginKey endKey : Bytes)
  | merge (columnFamily : ℕ) (key value : Bytes)
  | putLogData (blob : Bytes)
deriving DecidableEq, Repr

namespace Op

variable {b : WriteBatch}

def apply (b : WriteBatch) : Op → Status × WriteBatch
  | put cf k v => b.put cf k v
  | delete cf k => b.delete cf k
  | singleDelete cf k => b.singleDelete cf k
  | deleteRange cf k e => b.deleteRange cf k e
  | merge cf k v => b.merge cf k v
  | putLogData blob => b.putLogData blob

def record : Op → Record
  | put cf k v => .value cf k v
  | delete cf k => .deletion cf k
  | singleDelete cf k => .singleDeletion cf k
  | deleteRange cf k e => .rangeDeletion cf k e
  | merge cf k v => .merge cf k v
  | putLogData blob => .logData blob

def call : Op → Call
  | put cf k v => .putCF cf k v
  | delete cf k => .deleteCF cf k
  | singleDelete cf k => .singleDeleteCF cf k
  | deleteRange cf k e => .deleteRangeCF cf k e
  | merge cf k v => .mergeCF cf k v
  | putLogData blob => .logData blob

def isLogData : Op → Bool
  | putLogData _ => true
  | _ => false

def foundAfter (op : Op) (found : ℕ) : ℕ := if op.isLogData then found else u32 (found + 1)

theorem counted_record (op : Op) : op.record.counted = !op.isLogData := by
  cases op <;> rfl

theorem apply_holds {rs : List Record} (hb : Holds b rs) {op : Op} (hop : op.record.Fits) :
    (op.apply b).1 = .ok ∧ Holds (op.apply b).2 (rs ++ [op.record]) := by
  have hs {key value : Bytes} (hk : key.length < 2 ^ 32) (hv : value.length < 2 ^ 32) :
      WriteBatch.checkSize key value = none := by
    rw [WriteBatch.checkSize, if_neg (by omega), if_neg (by omega)]
  cases op with
  | put cf k v =>
    rw [apply, WriteBatch.put, hs hop.2.1 hop.2.2]
    exact hb.addRecord hop rfl
  | delete cf k | singleDelete cf k | deleteRange cf k e => exact hb.addRecord hop rfl
  | merge cf k v =>
    rw [apply, WriteBatch.merge, hs hop.2.1 hop.2.2]
    exact hb.addRecord hop rfl
  | putLogData blob =>
    have hu : (b.append (Record.logData blob).encode).maxBytes = 0 := hb.unlimited
    rw [apply, WriteBatch.putLogData, WriteBatch.commit, if_neg (by simp [hu])]
    exact ⟨rfl, hb.appendBytes hop rfl⟩

end Op

variable {b : WriteBatch} {ops : List Op}

inductive Built : WriteBatch → List Op → Prop
  | new : Built .new []
  | apply {b : WriteBatch} {ops : List Op} (op : Op) (hb : Built b ops) (hop : op.record.Fits) :
    Built (op.apply b).2 (ops ++ [op])
  | append {b c : WriteBatch} {ops ops' : List Op} (walOnly : Bool) (hb : Built b ops) (hc : Built c ops') :
    Built (b.appendBatch c walOnly) (ops ++ ops')

theorem Built.holds (hb : Built b ops) : Holds b (ops.map Op.record) := by
  induction hb with
  | new => exact .new
  | apply op hb hop ih =>
    rw [List.map_append]
    exact (Op.apply_holds ih hop).2
  | append walOnly hb hc ihb ihc =>
    rw [List.map_append]
    exact ihb.appendBatch ihc walOnly

theorem Built.count (hb : Built b ops) : b.count = (ops.countP fun op => !op.isLogData) % 2 ^ 32 := by
  rw [hb.holds.count, List.countP_map]
  congr 2
  funext op
  exact op.counted_record

namespace Handler

variable {σ : Type} (h : Handler σ)

structure Accepts : Prop where
  continues : ∀ s, h.continue_ s = true
  ok : ∀ c s, (h.call c s).1 = .ok

def calls (s : σ) (cs : List Call) : σ := cs.foldl (fun s c => (h.call c s).2) s

variable {h}

theorem Accepts.dispatchKey (ha : h.Accepts) (c : Call) (ea : Bool) (st : IterateState σ) :
    dispatchKey h c ea st = (.ok, ⟨(h.call c st.handler).2, ea, u32 (st.found + 1)⟩) := by
  have hok := ha.ok c st.handler
  rw [Db.dispatchKey]
  generalize h.call c st.handler = result at hok
  obtain ⟨s, handler⟩ := result
  cases hok
  rfl

theorem Accepts.dispatch (ha : h.Accepts) (st : IterateState σ) (op : Op) :
    dispatch h st op.record = (.ok, ⟨(h.call op.call st.handler).2, false, op.foundAfter st.found⟩) := by
  cases op with
  | putLogData blob => rfl
  | put | delete | singleDelete | deleteRange | merge => exact ha.dispatchKey _ _ _

theorem Accepts.attempt (ha : h.Accepts) (st : IterateState σ) (op : Op) :
    attempt h st op.record = (.ok, true, ⟨(h.call op.call st.handler).2, false, op.foundAfter st.found⟩) := by
  rw [Db.attempt, ha.dispatch]
  rfl

theorem Accepts.runRecords (ha : h.Accepts) (ops : List Op) (st : IterateState σ) (hst : st.found < 2 ^ 32) :
    ∃ eb, runRecords h (ops.map Op.record) st = (.ok, true, ⟨h.calls st.handler (ops.map Op.call), eb,
        (st.found + ops.countP fun op => !op.isLogData) % 2 ^ 32⟩) := by
  induction ops generalizing st with
  | nil =>
    refine ⟨st.emptyBatch, ?_⟩
    rw [List.countP_nil, Nat.add_zero, Nat.mod_eq_of_lt hst]
    rfl
  | cons op ops ih =>
    have hf : op.foundAfter st.found < 2 ^ 32 := by
      unfold Op.foundAfter
      split
      · exact hst
      · exact Lib.u32_lt _
    obtain ⟨eb, hr⟩ := ih ⟨(h.call op.call st.handler).2, false, op.foundAfter st.found⟩ hf
    refine ⟨eb, ?_⟩
    rw [List.map_cons, Db.runRecords, ha.continues, ha.attempt, List.countP_cons]
    refine hr.trans ?_
    cases hl : op.isLogData <;>
      simp [Handler.calls, Op.foundAfter, hl, u32, Nat.add_assoc, Nat.add_comm 1]

end Handler

theorem Built.iterate (hb : Built b ops) {σ : Type} {h : Handler σ}
    (ha : h.Accepts) (s : σ) : b.iterate h s = (.ok, h.calls s (ops.map Op.call)) := by
  obtain ⟨eb, hr⟩ := ha.runRecords ops ⟨s, true, 0⟩ (Nat.two_pow_pos 32)
  rw [hb.holds.iterate, hr, hb.count]
  simp [iterateResult]

theorem iterate_built {b c : WriteBatch} {ops ops' : List Op} (hb : Built b ops) (hc : Built c ops') :
    (∀ (σ : Type) (h : Handler σ) (s : σ), h.Accepts → b.iterate h s = (.ok, h.calls s (ops.map Op.call))) ∧
      b.count = (ops.countP fun op => !op.isLogData) % 2 ^ 32 ∧
      ∀ walOnly, (∀ (σ : Type) (h : Handler σ) (s : σ), h.Accepts →
          (b.appendBatch c walOnly).iterate h s = c.iterate h (b.iterate h s).2) ∧
        (b.appendBatch c walOnly).count = (b.count + c.count) % 2 ^ 32 := by
  refine ⟨fun σ h s ha => hb.iterate ha s, hb.count, fun walOnly => ?_⟩
  have hap := Built.append walOnly hb hc
  constructor
  · intro σ h s ha
    rw [hap.iterate ha, hc.iterate ha, hb.iterate ha, List.map_append, Handler.calls, List.foldl_append]
    rfl
  · rw [hap.count, hb.count, hc.count, List.countP_append, Nat.add_mod]

def recorder : Handler (List Call) where
  continue_ _ := true
  call c cs := (.ok, cs ++ [c])
  writeAfterCommit _ := true
  writeBeforePrepare _ := false

theorem iterate_built_put_delete :
    let b := (Op.apply .new (.put 7 [97] [98])).2
    let c := (Op.apply .new (.delete 0 [97])).2
    b.iterate recorder [] = (.ok, [.putCF 7 [97] [98]]) ∧ b.count = 1 ∧
      (b.appendBatch c false).iterate recorder [] = c.iterate recorder (b.iterate recorder []).2 ∧
      (b.appendBatch c false).count = (b.count + c.count) % 2 ^ 32 := by
  have hr : recorder.Accepts := ⟨fun _ => rfl, fun _ _ => rfl⟩
  have hb := Built.apply (.put 7 [97] [98]) .new ⟨by decide, by decide, by decide⟩
  have hc := Built.apply (.delete 0 [97]) .new ⟨by decide, by decide⟩
  obtain ⟨hi, hcn, ha⟩ := iterate_built hb hc
  exact ⟨hi _ recorder [] hr, hcn, (ha false).1 _ recorder [] hr, (ha false).2⟩

theorem built_replicate (n : ℕ) {op : Op} (hop : op.record.Fits) : ∃ b, Built b (List.replicate n op) := by
  induction n with
  | zero => exact ⟨.new, .new⟩
  | succ n ih =>
    obtain ⟨b, hb⟩ := ih
    rw [List.replicate_succ']
    exact ⟨_, .apply op hb hop⟩

/-- The header counts in an `uint32_t`: after `2 ^ 32` deletions the count is 0. -/
theorem count_wraps :
    ¬ ∀ (b : WriteBatch) (ops : List Op), Built b ops → b.count = ops.countP fun op => !op.isLogData := by
  intro ha
  obtain ⟨b, hb⟩ := built_replicate (2 ^ 32) (show (Op.delete 0 []).record.Fits from ⟨by decide, by decide⟩)
  have hc := hb.count
  rw [ha b _ hb, List.countP_replicate] at hc
  simp [Op.isLogData] at hc

end ZenFSPlus.Db
