import ZenFSPlus.Db.WriteGroup

/-!
The sequence numbers of `PipelinedWriteImpl`: they are handed out for a group of the log, and `InsertInto` counts on
from the leader of a group of the memtable.
-/

namespace ZenFSPlus.Db.WriteGroup

open List

/-- A writer in the list of memtable writers, with the number of its first record in the log. -/
structure MemtableWriter where
  count : ℕ
  sequence : ℕ
  walSequence : ℕ
  deriving DecidableEq

def walCount (w : GroupWriter) : ℕ :=
  if w.callbackFailed then 0
  else if w.batch.walTermPoint = ⟨0, 0⟩ then w.batch.count
  else w.batch.walTermPoint.count

/-- The loop over a group of the log, and the writers that `ExitAsBatchGroupLeader` links after a successful write. -/
def memtableWriters : ℕ → ℕ → List GroupWriter → List MemtableWriter
  | _, _, [] => []
  | next, wal, w :: group =>
    let newer := memtableWriters (advance false next w) (wal + walCount w) group
    if shouldWriteToMemtable w then ⟨w.batch.count, next, wal⟩ :: newer else newer

/-- The groups of the log in turn, each with whether its write succeeded. -/
def pipelinedWrites : ℕ → List (List GroupWriter × Bool) → List MemtableWriter
  | _, [] => []
  | next, (group, ok) :: groups =>
    (if ok then memtableWriters next next group else []) ++ pipelinedWrites (group.foldl (advance false) next) groups

def insertFrom : ℕ → List MemtableWriter → List ℕ
  | _, [] => []
  | next, w :: ws => next :: insertFrom (next + w.count) ws

/-- `InsertInto` on a group of the memtable: the number of the first record of every writer. -/
def insertInto : List MemtableWriter → List ℕ
  | [] => []
  | leader :: ws => insertFrom leader.sequence (leader :: ws)

/-- Both numbers of the writers count on from `a` to `b`. -/
def InOrder : ℕ → List MemtableWriter → ℕ → Prop
  | a, [], b => a = b
  | a, w :: ws, b => (w.sequence = a ∧ w.walSequence = a) ∧ InOrder (a + w.count) ws b

variable {a b : ℕ} {ws vs : List MemtableWriter}

theorem inOrder_append : InOrder a (ws ++ vs) b ↔ ∃ c, InOrder a ws c ∧ InOrder c vs b := by
  induction ws generalizing a with
  | nil => simp [InOrder]
  | cons w ws ih => simp [InOrder, ih, and_assoc]

theorem InOrder.insertFrom_eq (h : InOrder a ws b) : insertFrom a ws = ws.map MemtableWriter.walSequence := by
  induction ws generalizing a with
  | nil => rfl
  | cons w ws ih => rw [insertFrom, ih h.2, map_cons, h.1.2]

theorem inOrder_memtableWriters {group : List GroupWriter}
    (hg : ∀ w ∈ group, w.disableMemtable = false ∧ w.batch.walTermPoint = ⟨0, 0⟩) (next : ℕ) :
    InOrder next (memtableWriters next next group) (group.foldl (advance false) next) := by
  induction group generalizing next with
  | nil => rfl
  | cons w group ih =>
    obtain ⟨⟨hd, ht⟩, hg⟩ := forall_mem_cons.mp hg
    have ha : advance false next w = next + walCount w := by
      cases hc : w.callbackFailed <;> simp [advance, shouldWriteToMemtable, walCount, hc, hd, ht]
    rw [memtableWriters, foldl_cons, ← ha]
    cases hc : w.callbackFailed with
    | true =>
      have hw : advance false next w = next := by simp [advance, shouldWriteToMemtable, hc]
      rw [if_neg (by simp [shouldWriteToMemtable, hc]), hw]
      exact ih hg next
    | false =>
      have hw : advance false next w = next + w.batch.count := by simp [advance, shouldWriteToMemtable, hc, hd]
      rw [if_pos (by simp [shouldWriteToMemtable, hc, hd])]
      exact ⟨⟨rfl, rfl⟩, hw ▸ ih hg _⟩

theorem inOrder_pipelinedWrites {groups : List (List GroupWriter × Bool)} (hg : ∀ g ∈ groups, g.2 = true ∧
      ∀ w ∈ g.1, w.disableMemtable = false ∧ w.batch.walTermPoint = ⟨0, 0⟩) (next : ℕ) :
    ∃ b, InOrder next (pipelinedWrites next groups) b := by
  induction groups generalizing next with
  | nil => exact ⟨next, rfl⟩
  | cons g groups ih =>
    obtain ⟨⟨hok, hw⟩, hg⟩ := forall_mem_cons.mp hg
    obtain ⟨b, hb⟩ := ih hg (g.1.foldl (advance false) next)
    refine ⟨b, ?_⟩
    rw [pipelinedWrites, if_pos hok]
    exact inOrder_append.mpr ⟨_, inOrder_memtableWriters hw next, hb⟩

/-- If every write of the log succeeds and every batch goes to the log and to the memtable as a whole, the records have
the same numbers in both. -/
theorem insertInto_eq_wal {groups : List (List GroupWriter × Bool)} (hgroups : ∀ g ∈ groups, g.2 = true ∧
      ∀ w ∈ g.1, w.disableMemtable = false ∧ w.batch.walTermPoint = ⟨0, 0⟩)
    {next : ℕ} {memtableGroups : List (List MemtableWriter)}
    (hflatten : memtableGroups.flatten = pipelinedWrites next groups) :
    ∀ g ∈ memtableGroups, insertInto g = g.map MemtableWriter.walSequence := by
  intro g hg
  obtain ⟨pre, post, rfl⟩ := append_of_mem hg
  obtain ⟨b, hb⟩ := inOrder_pipelinedWrites hgroups next
  rw [← hflatten, flatten_append, flatten_cons] at hb
  obtain ⟨c, -, hc⟩ := inOrder_append.mp hb
  obtain ⟨d, hd, -⟩ := inOrder_append.mp hc
  cases g with
  | nil => rfl
  | cons w ws =>
    rw [insertInto, hd.1.1]
    exact hd.insertFrom_eq

def onePut : GroupWriter := ⟨(WriteBatch.new.put 0 [1] [2]).2, 0, false, false⟩

theorem insertInto_eq_wal_three : insertInto [⟨1, 7, 7⟩, ⟨1, 8, 8⟩] = [7, 8] ∧ insertInto [⟨1, 9, 9⟩] = [9] :=
  have h := @insertInto_eq_wal [([onePut, onePut], true), ([onePut], true)] (by decide) 7
    [[⟨1, 7, 7⟩, ⟨1, 8, 8⟩], [⟨1, 9, 9⟩]] (by decide)
  ⟨h _ (by decide), h _ (by decide)⟩

theorem insertInto_behind_failed_write :
    pipelinedWrites 7 [([onePut], true), ([onePut], false), ([onePut], true)] = [⟨1, 7, 7⟩, ⟨1, 9, 9⟩] ∧
    insertInto [⟨1, 7, 7⟩, ⟨1, 9, 9⟩] = [7, 8] := by
  decide

end ZenFSPlus.Db.WriteGroup
