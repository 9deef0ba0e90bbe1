import ZenFSPlus.Transactions.SnapshotRace

namespace ZenFSPlus.Transactions

open List OldCommitMap

namespace SnapshotRace

variable (c : Calls)

section

variable (old : List ℕ) {c}

def Slots (c : Calls) (k : ℕ) (t : SnapshotTable) : Prop :=
  ∀ j < c.size, (j < k → c.newSnapshots[j]? = some (t.snapshotCache j)) ∧
    (k ≤ j → j < old.length → old[j]? = some (t.snapshotCache j))

structure Overlap (c : Calls) (s a b : ℕ) : Prop where
  old_sorted : old.Pairwise (· ≤ ·)
  new_sorted : c.newSnapshots.Pairwise (· ≤ ·)
  old_at : old[a]? = some s
  new_at : c.newSnapshots[b]? = some s
  le : b ≤ a
  prep_le : c.prepSeq ≤ s
  lt_commit : s < c.commitSeq
  appended : ∀ n ∈ c.newSnapshots, n ∈ old ∨ ∀ o ∈ old, o < n

def Update.written (c : Calls) : Update → ℕ
  | start => 0
  | store i _ => i
  | _ => min c.size c.newSnapshots.length

def OldData (t : SnapshotTable) : Prop :=
  t.snapshotsTotal = old.length ∧ t.snapshotsAll = old

structure Cleaning (s : ℕ) (newi oldi : List ℕ) : Prop where
  new_sorted : newi.Pairwise (· ≤ ·)
  old_sorted : oldi.Pairwise (· ≤ ·)
  mem : s ∈ oldi → s ∈ newi
  appended : ∀ n ∈ newi, n ∈ oldi ∨ ∀ o ∈ oldi, o < n

def NewData (c : Calls) (t : SnapshotTable) : Prop :=
  t.snapshotsTotal = c.newSnapshots.length ∧ t.snapshots = c.newSnapshots.drop c.size

structure UpdateInv (c : Calls) (s : ℕ) (st : State) : Prop where
  slots : Slots old c (st.update.written c) st.table
  phase : match st.update with
    | .start => OldData old st.table ∧ st.table.snapshots = old.drop c.size
    | .store i it => OldData old st.table ∧ st.table.snapshots = old.drop c.size ∧ it = c.newSnapshots.drop i ∧
        i ≤ c.size ∧ i ≤ c.newSnapshots.length
    | .fillSnapshots it => OldData old st.table ∧ st.table.snapshots = old.drop c.size ∧
        it = c.newSnapshots.drop c.size
    | .storeTotal => OldData old st.table ∧ st.table.snapshots = c.newSnapshots.drop c.size
    | .cleanup newi oldi => NewData c st.table ∧ Cleaning s newi oldi
    | .erase snapSeq newi oldi => NewData c st.table ∧ s ≠ snapSeq ∧ Cleaning s newi oldi
    | .done => NewData c st.table

def Ahead (c : Calls) (a b k cnt ip1 : ℕ) (searchLargerList : Bool) : Prop :=
  searchLargerList = true ∧ c.size < cnt ∧ ip1 < c.size ∨
  b < ip1 ∧ ip1 ≤ k ∨
  a < ip1 ∧ ip1 ≤ old.length ∨
  ip1 = c.size ∧ c.size ≤ a ∧ c.size < cnt

def AheadLocked (c : Calls) (a b i : ℕ) : Update → Prop
  | .start => a < c.size → i ≤ a
  | _ => b < c.size → i ≤ b

def CheckInv (c : Calls) (s a b : ℕ) (u : Update) : Check → Prop
  | .start | .lock => True
  | .load cnt ip1 search => 0 < ip1 ∧ ip1 ≤ c.size ∧ Ahead old c a b (u.written c) cnt ip1 search
  | .update cnt ip1 search snapshotSeq => ip1 ≤ c.size ∧
      (snapshotSeq = s ∨ search = true ∧ c.size < cnt ∧ ip1 - 1 < c.size ∨
        c.prepSeq ≤ snapshotSeq ∧ Ahead old c a b (u.written c) cnt (ip1 - 1) search)
  | .loadLocked i => i < c.size ∧ AheadLocked c a b i u
  | .updateLocked i snapshotSeq =>
      snapshotSeq = s ∨ snapshotSeq < c.commitSeq ∧ AheadLocked c a b (i + 1) u
  | .larger rest => s ∈ rest ∧ rest.Pairwise (· ≤ ·)
  | .done => False

structure Inv (c : Calls) (s a b : ℕ) (st : State) : Prop where
  update : UpdateInv old c s st
  exclusive : st.check.locked = true → st.update.locked = false
  check : st.oldCommitMap.Recorded s c.prepSeq ∨ CheckInv old c s a b st.update st.check

variable {old} {s a b : ℕ} {st st' : State}

theorem le_of_sorted {l : List ℕ} (h : l.Pairwise (· ≤ ·)) {i j x y : ℕ} (hi : l[i]? = some x)
    (hj : l[j]? = some y) (hij : i ≤ j) : x ≤ y := by
  obtain ⟨hil, rfl⟩ := List.getElem?_eq_some_iff.mp hi
  obtain ⟨hjl, rfl⟩ := List.getElem?_eq_some_iff.mp hj
  rcases Nat.eq_or_lt_of_le hij with rfl | hlt
  · exact le_rfl
  · exact pairwise_iff_getElem.mp h i j hil hjl hlt

theorem mem_dropWhile_eq {l : List ℕ} {v x : ℕ} (h : x ∈ l) (hne : x ≠ v) : x ∈ l.dropWhile (· = v) := by
  induction l with
  | nil => cases h
  | cons y l ih =>
    by_cases hy : y = v
    · rw [dropWhile_cons_of_pos (by simpa using hy)]
      exact ih (mem_of_ne_of_mem (hy ▸ hne) h)
    · rwa [dropWhile_cons_of_neg (by simpa using hy)]

theorem lt_of_mem_dropWhile_eq {l : List ℕ} {v x : ℕ} (hl : (v :: l).Pairwise (· ≤ ·))
    (h : x ∈ l.dropWhile (· = v)) : v < x := by
  induction l with
  | nil => cases h
  | cons y l ih =>
    obtain ⟨hv, hyl⟩ := pairwise_cons.mp hl
    by_cases hy : y = v
    · rw [dropWhile_cons_of_pos (by simpa using hy)] at h
      subst hy
      exact ih hyl h
    rw [dropWhile_cons_of_neg (by simpa using hy)] at h
    have hvy := hv y (mem_cons_self ..)
    rcases mem_cons.mp h with rfl | h
    · omega
    · have := (pairwise_cons.mp hyl).1 x h
      omega

theorem Slots.store {k snap : ℕ} {t : SnapshotTable} (h : Slots old c k t) (hs : c.newSnapshots[k]? = some snap) :
    Slots old c (k + 1) (t.storeSlot k snap) := by
  intro j hj
  obtain ⟨hn, hol⟩ := h j hj
  simp only [SnapshotTable.storeSlot]
  constructor
  · intro hlt
    rcases Nat.lt_succ_iff_lt_or_eq.mp hlt with hlt | rfl
    · rw [Function.update_of_ne (ne_of_lt hlt)]
      exact hn hlt
    · rw [Function.update_self]
      exact hs
  · intro hle hl
    rw [Function.update_of_ne (by omega)]
    exact hol (by omega) hl

theorem Cleaning.release {newi old : List ℕ} {oldi : ℕ} (h : Cleaning s newi (oldi :: old)) (hl : ∀ n ∈ newi, oldi < n) :
    s ≠ oldi ∧ Cleaning s newi old := by
  refine ⟨?_, h.new_sorted, (pairwise_cons.mp h.old_sorted).2, ?_, ?_⟩
  · rintro rfl
    exact lt_irrefl _ (hl s (h.mem (mem_cons_self ..)))
  · intro hs
    exact h.mem (mem_cons_of_mem _ hs)
  · intro n hn
    rcases h.appended n hn with hm | hlt
    · exact .inl (mem_of_ne_of_mem (ne_of_gt (hl n hn)) hm)
    · exact .inr fun o hm => hlt o (mem_cons_of_mem _ hm)

theorem Cleaning.lt_of_ne {newi oldi : ℕ} {new old : List ℕ} (h : Cleaning s (newi :: new) (oldi :: old))
    (hne : newi ≠ oldi) : ∀ n ∈ newi :: new, oldi < n := by
  have hlt : oldi < newi := by
    rcases h.appended newi (mem_cons_self ..) with hm | hlt
    · rcases mem_cons.mp hm with heq | hm
      · exact absurd heq hne
      · have := (pairwise_cons.mp h.old_sorted).1 newi hm
        omega
    · exact hlt oldi (mem_cons_self ..)
  intro n hn
  rcases mem_cons.mp hn with rfl | hn
  · exact hlt
  · exact lt_of_lt_of_le hlt ((pairwise_cons.mp h.new_sorted).1 n hn)

theorem Cleaning.skip {v : ℕ} {new old : List ℕ} (h : Cleaning s (v :: new) (v :: old)) :
    Cleaning s (new.dropWhile (· = v)) (old.dropWhile (· = v)) where
  new_sorted := (pairwise_cons.mp h.new_sorted).2.sublist (dropWhile_sublist _)
  old_sorted := (pairwise_cons.mp h.old_sorted).2.sublist (dropWhile_sublist _)
  mem := by
    intro hs
    have hlt := lt_of_mem_dropWhile_eq h.old_sorted hs
    have hm := h.mem (mem_cons_of_mem _ ((dropWhile_sublist _).subset hs))
    exact mem_dropWhile_eq (mem_of_ne_of_mem (ne_of_gt hlt) hm) (ne_of_gt hlt)
  appended := by
    intro n hn
    have hlt := lt_of_mem_dropWhile_eq h.new_sorted hn
    rcases h.appended n (mem_cons_of_mem _ ((dropWhile_sublist _).subset hn)) with hm | ha
    · exact .inl (mem_dropWhile_eq (mem_of_ne_of_mem (ne_of_gt hlt) hm) (ne_of_gt hlt))
    · exact .inr fun o hm => ha o (mem_cons_of_mem _ ((dropWhile_sublist _).subset hm))

structure UpdateSpec (old : List ℕ) (c : Calls) (s : ℕ) (st st' : State) : Prop where
  inv : UpdateInv old c s st'
  recorded : st.oldCommitMap.Recorded s c.prepSeq → st'.oldCommitMap.Recorded s c.prepSeq
  written : st.update.written c ≤ st'.update.written c
  check : st'.check = st.check

theorem release_spec {newi oldi newi' oldi' : List ℕ} {ss : ℕ} (hu : st.update = .cleanup newi' oldi')
    (hs : Slots old c (min c.size c.newSnapshots.length) st.table) (hd : NewData c st.table)
    (h : s ≠ ss ∧ Cleaning s newi oldi) : UpdateSpec old c s st (release c st ss newi oldi) := by
  obtain ⟨table, ocm, update, check⟩ := st
  cases hu
  unfold release
  split
  · exact ⟨⟨hs, hd, h⟩, id, le_rfl, rfl⟩
  · exact ⟨⟨hs, hd, h.2⟩, id, le_rfl, rfl⟩

theorem Ahead.mono {k k' cnt ip1 : ℕ} {search : Bool} (h : Ahead old c a b k cnt ip1 search) (hk : k ≤ k') :
    Ahead old c a b k' cnt ip1 search := by
  rcases h with h | ⟨hb, hip1⟩ | h | h
  · exact .inl h
  · exact .inr (.inl ⟨hb, le_trans hip1 hk⟩)
  · exact .inr (.inr (.inl h))
  · exact .inr (.inr (.inr h))

theorem updateStep_locked (hs : updateStep c st = some st') (hu : st.update.locked = false) :
    st.check.locked = false := by
  obtain ⟨table, ocm, update, check⟩ := st
  cases update with
  | start =>
    simp only [updateStep] at hs
    split at hs
    · cases hs
    · rename_i h
      simpa using h
  | done => cases hs
  | store | fillSnapshots | storeTotal | cleanup | erase => cases hu

theorem checkInv_scan {u : Update} {cnt ip1 : ℕ} {search : Bool} (hip1 : ip1 ≤ c.size)
    (h : Ahead old c a b (u.written c) cnt ip1 search) : CheckInv old c s a b u (.scan c cnt ip1 search) := by
  unfold Check.scan
  split
  · rename_i hp
    exact ⟨hp, hip1, h⟩
  have hsz := c.size_pos
  rcases h with ⟨hs, hc, -⟩ | h | h | h
  · rw [Check.afterScan, if_pos ⟨hc, hs⟩]
    trivial
  all_goals omega

section

variable (ho : Overlap old c s a b)

include ho

theorem updateStep_spec (h : UpdateInv old c s st) (hst : updateStep c st = some st') : UpdateSpec old c s st st' := by
  obtain ⟨table, ocm, update, check⟩ := st
  obtain ⟨hsl, hp⟩ := h
  unfold updateStep at hst
  cases update with
  | start =>
    simp only at hst
    split at hst
    · cases hst
    · cases hst
      obtain ⟨hol, hs⟩ := hp
      exact ⟨⟨hsl, hol, hs, rfl, Nat.zero_le _, Nat.zero_le _⟩, id, Nat.le_refl _, rfl⟩
  | store i it =>
    obtain ⟨hol, hs, rfl, hi, hl⟩ := hp
    cases hit : c.newSnapshots.drop i with
    | nil =>
      rw [hit] at hst
      cases hst
      have hl' : i = c.newSnapshots.length := le_antisymm hl (drop_eq_nil_iff.mp hit)
      have hw : i = min c.size c.newSnapshots.length := by omega
      refine ⟨⟨?_, hol, hs, ?_⟩, id, le_of_eq hw, rfl⟩
      · simpa only [Update.written, ← hw] using hsl
      · rw [drop_eq_nil_iff.mpr (by omega)]
    | cons snap it =>
      have hlt : i < c.newSnapshots.length := by
        by_contra hge
        rw [drop_eq_nil_iff.mpr (by omega)] at hit
        cases hit
      have hsn : c.newSnapshots[i]? = some snap := by
        rw [← head?_drop, hit]
        rfl
      have hr : it = c.newSnapshots.drop (i + 1) := by
        rw [← tail_drop, hit]
        rfl
      rw [hit] at hst
      simp only at hst
      split_ifs at hst with hsz
      · cases hst
        exact ⟨⟨hsl.store hsn, hol, hs, hr, by omega, by omega⟩, id, Nat.le_succ i, rfl⟩
      cases hst
      have hi' : i = c.size := by omega
      have hw : i = min c.size c.newSnapshots.length := by omega
      refine ⟨⟨?_, hol, hs, ?_⟩, id, le_of_eq hw, rfl⟩
      · simpa only [Update.written, ← hw] using hsl
      · rw [← hit, hi']
  | fillSnapshots it =>
    obtain ⟨hol, hs, rfl⟩ := hp
    cases hst
    exact ⟨⟨hsl, hol, rfl⟩, id, le_rfl, rfl⟩
  | storeTotal =>
    obtain ⟨⟨ht, ha⟩, hs⟩ := hp
    cases hst
    refine ⟨⟨hsl, ⟨rfl, hs⟩, ?_⟩, id, le_rfl, rfl⟩
    rw [ha]
    exact ⟨ho.new_sorted, ho.old_sorted, fun _ => mem_of_getElem? ho.new_at, ho.appended⟩
  | cleanup newi oldi =>
    obtain ⟨hd, hc⟩ := hp
    cases oldi with
    | nil =>
      cases hst
      exact ⟨⟨hsl, hd⟩, id, le_rfl, rfl⟩
    | cons oldi old' =>
      cases newi with
      | nil =>
        cases hst
        exact release_spec rfl hsl hd (hc.release nofun)
      | cons newi new =>
        simp only at hst
        split at hst
        · rename_i heq
          subst heq
          cases hst
          exact ⟨⟨hsl, hd, hc.skip⟩, id, le_rfl, rfl⟩
        · rename_i hne
          cases hst
          exact release_spec rfl hsl hd (hc.release (hc.lt_of_ne hne))
  | erase ss newi oldi =>
    obtain ⟨hd, hne, hc⟩ := hp
    cases hst
    refine ⟨⟨hsl, hd, hc⟩, ?_, le_rfl, rfl⟩
    rintro ⟨vec, hf, hv⟩
    exact ⟨vec, by rwa [find_erase_of_ne hne], hv⟩
  | done => cases hst

theorem Inv.updateStep (h : Inv old c s a b st) (hs : updateStep c st = some st') : Inv old c s a b st' := by
  obtain ⟨hup, hr, hw, hch⟩ := updateStep_spec ho h.update hs
  have hu : st.check.locked = false := by
    cases hc : st.check.locked with
    | false => rfl
    | true => exact hc ▸ updateStep_locked hs (h.exclusive hc)
  refine ⟨hup, ?_, ?_⟩
  · rw [hch, hu]
    nofun
  · rcases h.check with h | h
    · exact .inl (hr h)
    right
    rw [hch]
    generalize st.check = check at h hu ⊢
    cases check with
    | start | lock => trivial
    | load cnt ip1 search => exact ⟨h.1, h.2.1, h.2.2.mono hw⟩
    | update cnt ip1 search sq =>
      refine ⟨h.1, ?_⟩
      rcases h.2 with h | h | ⟨hp, h⟩
      · exact .inl h
      · exact .inr (.inl h)
      · exact .inr (.inr ⟨hp, h.mono hw⟩)
    | loadLocked | updateLocked | larger => cases hu
    | done => exact h

theorem Ahead.start (h : UpdateInv old c s st) :
    Ahead old c a b (st.update.written c) st.table.snapshotsTotal (min st.table.snapshotsTotal c.size) false := by
  obtain ⟨ha, -⟩ := List.getElem?_eq_some_iff.mp ho.old_at
  obtain ⟨hb, -⟩ := List.getElem?_eq_some_iff.mp ho.new_at
  have hle := ho.le
  have hc : st.table.snapshotsTotal = old.length ∨
      st.table.snapshotsTotal = c.newSnapshots.length ∧ st.update.written c = min c.size c.newSnapshots.length := by
    have hp := h.phase
    cases hu : st.update <;> rw [hu] at hp
    case start | fillSnapshots | storeTotal | store => exact .inl hp.1.1
    case cleanup | erase => exact .inr ⟨hp.1.1, rfl⟩
    case done => exact .inr ⟨hp.1, rfl⟩
  rcases hc with ht | ⟨ht, hw⟩
  · rw [ht]
    rcases lt_or_ge a c.size with h | h
    · exact .inr (.inr (.inl ⟨by omega, by omega⟩))
    · exact .inr (.inr (.inr ⟨by omega, h, by omega⟩))
  · rw [ht, hw]
    rcases lt_or_ge b c.size with h | h
    · exact .inr (.inl ⟨by omega, by omega⟩)
    · exact .inr (.inr (.inr ⟨by omega, by omega, by omega⟩))

theorem Ahead.load {k cnt ip1 : ℕ} {search : Bool} {t : SnapshotTable} (hsl : Slots old c k t) (hps : 0 < ip1)
    (hip1 : ip1 ≤ c.size) (h : Ahead old c a b k cnt ip1 search) :
    t.snapshotCache (ip1 - 1) = s ∨
      (if ip1 = c.size then decide (t.snapshotCache (ip1 - 1) < c.commitSeq) else search) = true ∧
        c.size < cnt ∧ ip1 - 1 < c.size ∨
      c.prepSeq ≤ t.snapshotCache (ip1 - 1) ∧ Ahead old c a b k cnt (ip1 - 1)
        (if ip1 = c.size then decide (t.snapshotCache (ip1 - 1) < c.commitSeq) else search) := by
  obtain ⟨hn, hol⟩ := hsl (ip1 - 1) (by omega)
  have hpr := ho.prep_le
  have hc := ho.lt_commit
  have hle := ho.le
  -- in a slot of the new list at or above its place
  have hw (hk : ip1 - 1 < k) (hb : b ≤ ip1 - 1) : t.snapshotCache (ip1 - 1) = s ∨
      c.prepSeq ≤ t.snapshotCache (ip1 - 1) ∧ b < ip1 - 1 := by
    have hge := le_of_sorted ho.new_sorted ho.new_at (hn hk) hb
    rcases Nat.eq_or_lt_of_le hb with heq | hlt
    · left
      have hsm := hn hk
      rw [← heq, ho.new_at] at hsm
      rw [heq] at hsm
      exact (Option.some.inj hsm).symm
    · exact .inr ⟨by omega, hlt⟩
  rcases h with ⟨hs, hcn, hlt⟩ | ⟨hb, hk⟩ | ⟨ha, hl⟩ | ⟨hsz, ha, hcn⟩
  · right; left
    rw [if_neg (by omega)]
    exact ⟨hs, hcn, by omega⟩
  · rcases hw (by omega) (by omega) with h | ⟨hp, hlt⟩
    · exact .inl h
    · exact .inr (.inr ⟨hp, .inr (.inl ⟨hlt, by omega⟩)⟩)
  · rcases lt_or_ge (ip1 - 1) k with hk | hk
    · rcases hw hk (by omega) with h | ⟨hp, hlt⟩
      · exact .inl h
      right; right
      refine ⟨hp, ?_⟩
      rcases lt_or_ge a (ip1 - 1) with h | h
      · exact .inr (.inr (.inl ⟨h, by omega⟩))
      · exact .inr (.inl ⟨hlt, by omega⟩)
    · have hsm := hol hk (by omega)
      rcases Nat.eq_or_lt_of_le (show a ≤ ip1 - 1 by omega) with heq | hlt
      · left
        rw [← heq, ho.old_at] at hsm
        rw [heq] at hsm
        exact (Option.some.inj hsm).symm
      · have hge := le_of_sorted ho.old_sorted ho.old_at hsm (le_of_lt hlt)
        exact .inr (.inr ⟨by omega, .inr (.inr (.inl ⟨hlt, by omega⟩))⟩)
  · -- the border: smaller than the snapshot, unless the snapshot has moved below it
    obtain ⟨hl, -⟩ := List.getElem?_eq_some_iff.mp ho.old_at
    have hbr (hlw : t.snapshotCache (ip1 - 1) ≤ s) :
        (if ip1 = c.size then decide (t.snapshotCache (ip1 - 1) < c.commitSeq) else search) = true ∧
          c.size < cnt ∧ ip1 - 1 < c.size := by
      rw [if_pos hsz, decide_eq_true_eq]
      exact ⟨by omega, hcn, by omega⟩
    rcases lt_or_ge (ip1 - 1) k with hk | hk
    · rcases lt_or_ge (ip1 - 1) b with hb | hb
      · exact .inr (.inl (hbr (le_of_sorted ho.new_sorted (hn hk) ho.new_at (le_of_lt hb))))
      · rcases hw hk hb with h | ⟨hp, hlt⟩
        · exact .inl h
        · exact .inr (.inr ⟨hp, .inr (.inl ⟨hlt, by omega⟩)⟩)
    · exact .inr (.inl (hbr (le_of_sorted ho.old_sorted (hol hk (by omega)) ho.old_at (by omega))))

theorem settled_list (h : UpdateInv old c s st) (hun : st.update.locked = false) :
    ∃ (l : List ℕ) (k : ℕ), l.Pairwise (· ≤ ·) ∧ l[k]? = some s ∧ st.table.snapshots = l.drop c.size ∧
      (∀ i < c.size, i < l.length → l[i]? = some (st.table.snapshotCache i)) ∧
      ∀ i, AheadLocked c a b i st.update ↔ (k < c.size → i ≤ k) := by
  obtain ⟨hs, hp⟩ := h
  cases hu : st.update with
  | start =>
    rw [hu] at hp hs
    exact ⟨old, a, ho.old_sorted, ho.old_at, hp.2, fun i hi => (hs i hi).2 (Nat.zero_le i), fun _ => Iff.rfl⟩
  | done =>
    rw [hu] at hp hs
    exact ⟨c.newSnapshots, b, ho.new_sorted, ho.new_at, hp.2,
      fun i hi hl => (hs i hi).1 (lt_min hi hl), fun _ => Iff.rfl⟩
  | store | fillSnapshots | storeTotal | cleanup | erase =>
    rw [hu] at hun
    cases hun

theorem AheadLocked.load (h : UpdateInv old c s st) (hu : st.update.locked = false)
    {i : ℕ} (hi : i < c.size) (ha : AheadLocked c a b i st.update) :
    st.table.snapshotCache i = s ∨ st.table.snapshotCache i < c.commitSeq ∧ AheadLocked c a b (i + 1) st.update := by
  obtain ⟨l, k, hl, hk, -, hc, hiff⟩ := settled_list ho h hu
  rw [hiff] at ha ⊢
  obtain ⟨hln, -⟩ := List.getElem?_eq_some_iff.mp hk
  have hle : i ≤ k := by
    by_contra hgt
    have := ha (by omega)
    omega
  have hs := hc i hi (by omega)
  rcases Nat.eq_or_lt_of_le hle with rfl | hlt
  · exact .inl (Option.some.inj (hs.symm.trans hk))
  · exact .inr ⟨lt_of_le_of_lt (le_of_sorted hl hs hk hle) ho.lt_commit, fun _ => hlt⟩

theorem AheadLocked.larger (h : UpdateInv old c s st) (hu : st.update.locked = false) {i : ℕ} (hi : c.size ≤ i)
    (ha : AheadLocked c a b i st.update) :
    s ∈ st.table.snapshots ∧ st.table.snapshots.Pairwise (· ≤ ·) := by
  obtain ⟨l, k, hl, hk, hs, -, hiff⟩ := settled_list ho h hu
  rw [hiff] at ha
  have hge : c.size ≤ k := by
    by_contra hlt
    have := ha (by omega)
    omega
  rw [hs]
  refine ⟨?_, hl.sublist (drop_sublist _ _)⟩
  obtain ⟨n, rfl⟩ := Nat.exists_eq_add_of_le hge
  rw [← List.getElem?_drop] at hk
  exact mem_of_getElem? hk

end

theorem maybeUpdate_of_lt {m : OldCommitMap} {ps cs sq : ℕ} (h : sq < cs) : (m.maybeUpdate ps cs sq true).2 = true := by
  unfold maybeUpdate
  rw [if_neg (not_le.mpr h)]
  split <;> rfl

theorem maybeUpdate_of_le {m : OldCommitMap} {ps cs sq : ℕ} (h : ps ≤ sq) :
    (m.maybeUpdate ps cs sq false).2 = true := by
  unfold maybeUpdate
  rw [if_pos h]
  split <;> rfl

theorem recorded_self (ho : Overlap old c s a b) (m : OldCommitMap) (nl : Bool) :
    (m.maybeUpdate c.prepSeq c.commitSeq s nl).1.Recorded s c.prepSeq :=
  recorded_maybeUpdate.mpr (.inl ⟨rfl, rfl, ho.prep_le, ho.lt_commit⟩)

theorem locked_afterScan (cnt : ℕ) (search : Bool) : (Check.afterScan c cnt search).locked = false := by
  unfold Check.afterScan
  split <;> rfl

theorem locked_scan (cnt ip1 : ℕ) (search : Bool) : (Check.scan c cnt ip1 search).locked = false := by
  unfold Check.scan
  split
  · rfl
  · exact locked_afterScan cnt search

theorem checkStep_frame (hs : checkStep c st = some st') : st'.table = st.table ∧ st'.update = st.update ∧
      (st.oldCommitMap.Recorded s c.prepSeq → st'.oldCommitMap.Recorded s c.prepSeq) ∧
      (st'.check.locked = true → st.check.locked = true ∨ st.update.locked = false) := by
  have hm {m : OldCommitMap} {sq : ℕ} {nl : Bool} (h : m.Recorded s c.prepSeq) :
      (m.maybeUpdate c.prepSeq c.commitSeq sq nl).1.Recorded s c.prepSeq :=
    recorded_maybeUpdate.mpr (.inr h)
  obtain ⟨table, ocm, update, check⟩ := st
  cases check with
  | start =>
    cases hs
    exact ⟨rfl, rfl, id, fun hl => by simp [locked_scan] at hl⟩
  | load =>
    cases hs
    exact ⟨rfl, rfl, id, fun hl => by cases hl⟩
  | loadLocked =>
    cases hs
    exact ⟨rfl, rfl, id, fun _ => .inl rfl⟩
  | update =>
    cases hs
    refine ⟨rfl, rfl, hm, fun hl => ?_⟩
    simp only at hl
    split at hl <;> simp [locked_scan, locked_afterScan] at hl
  | updateLocked =>
    cases hs
    exact ⟨rfl, rfl, hm, fun _ => .inl rfl⟩
  | lock =>
    simp only [checkStep] at hs
    split at hs
    · cases hs
    · rename_i hu
      cases hs
      exact ⟨rfl, rfl, id, fun _ => .inr (by simpa using hu)⟩
  | larger rest =>
    cases rest with
    | nil =>
      cases hs
      exact ⟨rfl, rfl, id, fun hl => by cases hl⟩
    | cons =>
      cases hs
      exact ⟨rfl, rfl, hm, fun _ => .inl rfl⟩
  | done => cases hs

theorem AheadLocked.start (u : Update) : AheadLocked c a b 0 u := by
  cases u <;> exact fun _ => Nat.zero_le _

theorem checkStep_check (ho : Overlap old c s a b) (hu : UpdateInv old c s st)
    (he : st.check.locked = true → st.update.locked = false)
    (h : CheckInv old c s a b st.update st.check) (hst : checkStep c st = some st') :
    st'.oldCommitMap.Recorded s c.prepSeq ∨ CheckInv old c s a b st'.update st'.check := by
  obtain ⟨table, ocm, update, check⟩ := st
  cases check with
  | start =>
    have ha := Ahead.start ho hu
    cases hst
    exact .inr (checkInv_scan (min_le_right _ _) ha)
  | load cnt ip1 search =>
    cases hst
    obtain ⟨hps, hip1, ha⟩ := h
    exact .inr ⟨hip1, ha.load ho hu.slots hps hip1⟩
  | update cnt ip1 search sq =>
    cases hst
    obtain ⟨hip1, rfl | ⟨hs, hc, hlt⟩ | ⟨hp, ha⟩⟩ := h
    · exact .inl (recorded_self ho ocm false)
    · right
      split
      · exact checkInv_scan (le_of_lt hlt) (.inl ⟨hs, hc, hlt⟩)
      · rw [Check.afterScan, if_pos ⟨hc, hs⟩]
        trivial
    · right
      simp only [maybeUpdate_of_le hp, if_true]
      exact checkInv_scan (le_trans (Nat.sub_le _ _) hip1) ha
  | lock =>
    simp only [checkStep] at hst
    split at hst
    · cases hst
    · cases hst
      exact .inr ⟨c.size_pos, AheadLocked.start update⟩
  | loadLocked i =>
    cases hst
    obtain ⟨hi, ha⟩ := h
    exact .inr (ha.load ho hu (he rfl) hi)
  | updateLocked i sq =>
    cases hst
    obtain rfl | ⟨hlt, ha⟩ := h
    · exact .inl (recorded_self ho ocm true)
    right
    simp only [maybeUpdate_of_lt hlt, true_and]
    split_ifs with hi
    · exact ⟨hi, ha⟩
    · exact ha.larger ho hu (he rfl) (not_lt.mp hi)
  | larger rest =>
    obtain ⟨hm, hsr⟩ := h
    cases rest with
    | nil => cases hm
    | cons sq rest =>
      cases hst
      rcases mem_cons.mp hm with rfl | hm
      · exact .inl (recorded_self ho ocm true)
      right
      obtain ⟨hle, hr⟩ := pairwise_cons.mp hsr
      have hlt := lt_of_le_of_lt (hle s hm) ho.lt_commit
      simp only [maybeUpdate_of_lt hlt, if_true]
      exact ⟨hm, hr⟩
  | done => cases hst

theorem Inv.checkStep (ho : Overlap old c s a b) (h : Inv old c s a b st) (hs : checkStep c st = some st') :
    Inv old c s a b st' := by
  obtain ⟨ht, hu, hr, hl⟩ := checkStep_frame hs
  refine ⟨⟨?_, ?_⟩, fun h' => hu ▸ (hl h').elim h.exclusive id, ?_⟩
  · rw [ht, hu]
    exact h.update.slots
  · rw [ht, hu]
    exact h.update.phase
  · rcases h.check with h' | h'
    · exact .inl (hr h')
    · exact checkStep_check ho h.update h.exclusive h' hs

theorem Inv.step (ho : Overlap old c s a b) {th : Thread} (hs : step c st th = some st')
    (h : Inv old c s a b st) : Inv old c s a b st' := by
  cases th with
  | update => exact h.updateStep ho hs
  | check => exact h.checkStep ho hs

theorem Inv.init (h : st.table.Holds c.size old) (hu : st.update = .start) (hc : st.check = .start) :
    Inv old c s a b st := by
  obtain ⟨table, ocm, update, check⟩ := st
  subst hu hc
  refine ⟨⟨?_, ⟨h.total, h.all⟩, h.larger⟩, nofun, .inr trivial⟩
  intro j hj
  exact ⟨nofun, fun _ hl => h.cached j hj hl⟩

end

section

variable {c} {old : List ℕ} {s : ℕ}

structure Renews (old new : List ℕ) : Prop where
  old_sorted : old.Pairwise (· ≤ ·)
  new_sorted : new.Pairwise (· ≤ ·)
  split : ∃ kept appended, new = kept ++ appended ∧ kept.Sublist old ∧ ∀ n ∈ appended, ∀ o ∈ old, o ≤ n

theorem getElem?_countP_lt {l : List ℕ} (hl : l.Pairwise (· ≤ ·)) (h : s ∈ l) : l[l.countP (· < s)]? = some s := by
  induction l with
  | nil => cases h
  | cons x l ih =>
    obtain ⟨hx, hl⟩ := pairwise_cons.mp hl
    by_cases hlt : x < s
    · rw [countP_cons_of_pos (by simpa using hlt), List.getElem?_cons_succ]
      exact ih hl (mem_of_ne_of_mem (ne_of_gt hlt) h)
    have hxs : x = s := by
      rcases mem_cons.mp h with rfl | h
      · rfl
      · have := hx s h
        omega
    subst hxs
    have hz : (x :: l).countP (· < x) = 0 := by
      rw [countP_eq_zero]
      intro y hy
      rcases mem_cons.mp hy with rfl | hy
      · simp
      · simpa using hx y hy
    rw [hz]
    rfl

theorem Renews.overlap (h : Renews old c.newSnapshots) (hol : s ∈ old) (hnw : s ∈ c.newSnapshots)
    (hp : c.prepSeq ≤ s) (hc : s < c.commitSeq) : ∃ a b, Overlap old c s a b := by
  obtain ⟨hos, hns, kept, appended, hs, hk, ha⟩ := h
  refine ⟨old.countP (· < s), c.newSnapshots.countP (· < s), hos, hns, getElem?_countP_lt hos hol, getElem?_countP_lt hns hnw, ?_, hp, hc, ?_⟩
  · have hz : appended.countP (· < s) = 0 := by
      rw [countP_eq_zero]
      intro n hn
      simpa using ha n hn s hol
    rw [hs, countP_append, hz]
    exact hk.countP_le
  · intro n hn
    rw [hs] at hn
    rcases mem_append.mp hn with hn | hn
    · exact .inl (hk.subset hn)
    by_cases hm : n ∈ old
    · exact .inl hm
    right
    intro o ho
    have hle := ha n hn o ho
    have hne : o ≠ n := fun heq => hm (heq ▸ ho)
    omega

theorem length_snapshots_le {a b : ℕ} {st : State} (h : Inv old c s a b st) :
    st.table.snapshots.length ≤ old.length + c.newSnapshots.length := by
  have hp := h.update.phase
  have hc : st.table.snapshots = old.drop c.size ∨ st.table.snapshots = c.newSnapshots.drop c.size := by
    cases hu : st.update <;> rw [hu] at hp
    case start => exact .inl hp.2
    case store => exact .inl hp.2.1
    case fillSnapshots => exact .inl hp.2.1
    case storeTotal => exact .inr hp.2
    case cleanup | erase => exact .inr hp.1.2
    case done => exact .inr hp.2
  rcases hc with hs | hs
  all_goals
    rw [hs, length_drop]
    omega

/-- Every interleaving of the two calls ends, and the evicted entry is then recorded for every snapshot of both lists
that it overlaps. -/
theorem recorded_of_interleaving {init final : State} {schedule : List Thread}
    (hrenews : Renews old c.newSnapshots) (hholds : init.table.Holds c.size old)
    (hupdate : init.update = .start) (hcheck : init.check = .start)
    (hrun : Lib.run (step c) init schedule = some final)
    (hold : s ∈ old) (hnew : s ∈ c.newSnapshots) (hprep : c.prepSeq ≤ s) (hcommit : s < c.commitSeq) :
    schedule.length ≤ updateRank c init + checkRank (old.length + c.newSnapshots.length) c init.check ∧
      ((∀ th, step c final th = none) → final.update = .done ∧ final.check = .done) ∧
      (final.check = .done → final.oldCommitMap.Recorded s c.prepSeq) := by
  obtain ⟨a, b, ho⟩ := hrenews.overlap hold hnew hprep hcommit
  have hi : Inv old c s a b init := Inv.init hholds hupdate hcheck
  refine ⟨?_, done_of_stuck, ?_⟩
  · refine Lib.run_length_le
      (fun st => updateRank c st + checkRank (old.length + c.newSnapshots.length) c st.check) (Inv old c s a b)
      (fun st th st' hs h => h.step ho hs) ?_ hrun hi
    intro st th st' hs h
    cases th with
    | update =>
      have hlt := updateRank_lt hs
      have heq := (updateStep_spec ho h.update hs).check
      simp only [heq]
      omega
    | check =>
      have hlt := checkRank_lt _ (length_snapshots_le h) hs
      obtain ⟨ht, hu, -⟩ := checkStep_frame (s := s) hs
      have heq : updateRank c st' = updateRank c st := by
        unfold updateRank
        rw [hu, ht]
      simp only [heq]
      omega
  · intro hd
    have hf := Lib.run_invariant (Inv old c s a b) (fun st th st' hs h => h.step ho hs) hrun hi
    rcases hf.check with h | h
    · exact h
    · rw [hd] at h
      cases h

theorem recorded_of_interleaving_overflow :
    let c : Calls := ⟨1, [5, 7, 9], 9, 7, 4, 8⟩
    let table : SnapshotTable := ⟨fun j => [2, 5].getD j 0, 3, [7], [2, 5, 7], 7⟩
    ∃ final, Lib.run (step c) { table, oldCommitMap := {} }
        ([.check, .update, .update, .check, .update, .check, .check, .check] ++ replicate 7 .update ++
          replicate 6 .check) = some final ∧
      final.check = .done ∧ final.oldCommitMap.Recorded 7 4 := by
  intro c table
  have hrn : Renews [2, 5, 7] c.newSnapshots := ⟨by decide, by decide, [5, 7], [9], rfl, by decide, by decide⟩
  have hh : table.Holds c.size [2, 5, 7] := ⟨by decide, rfl, rfl, rfl⟩
  obtain ⟨final, hru, hd⟩ : ∃ final, Lib.run (step c) { table, oldCommitMap := {} }
      ([.check, .update, .update, .check, .update, .check, .check, .check] ++ replicate 7 .update ++
        replicate 6 .check) = some final ∧ final.check = .done :=
    Option.map_eq_some_iff.mp rfl
  have hr := recorded_of_interleaving hrn hh rfl rfl hru (by decide : 7 ∈ [2, 5, 7]) (by decide) (by decide) (by decide)
  exact ⟨final, hru, hd, hr.2.2 hd⟩

end

end SnapshotRace

end ZenFSPlus.Transactions
