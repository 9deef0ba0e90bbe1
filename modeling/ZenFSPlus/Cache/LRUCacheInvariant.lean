import ZenFSPlus.Cache.LRUListShape

namespace ZenFSPlus.Cache

open List

variable {κ : Type} [DecidableEq κ] {call : CacheCall κ}

namespace LRUHandleTable

variable {tag tag' : ℕ → κ × UInt32} {t : LRUHandleTable} {e : ℕ}

theorem Wf.remove_entry (h : t.Wf tag) (he : t.Mem tag e) (x : ℕ) :
    (t.remove tag (tag e)).2.Mem tag x ↔ t.Mem tag x ∧ x ≠ e := by
  rw [(h.remove (tag e)).2.2]
  constructor
  · rintro ⟨hx, hne⟩
    exact ⟨hx, fun hxe => hne (hxe ▸ rfl)⟩
  · rintro ⟨hx, hne⟩
    exact ⟨hx, fun ht => hne (h.eq_of_tag hx he ht)⟩

omit [DecidableEq κ] in
theorem Wf.mem_congr (h : t.Wf tag) (ht : ∀ e, t.Mem tag e → tag' e = tag e) (x : ℕ) : t.Mem tag' x ↔ t.Mem tag x := by
  constructor
  · exact fun hx => h.mem_of_mem hx
  · intro hx
    rw [Mem, ht x hx]
    exact hx

end LRUHandleTable

namespace LRULists

variable {l : LRULists κ} {e x : ℕ}

omit [DecidableEq κ]

theorem modify_modify (f g : LRUHandle κ → LRUHandle κ) : (l.modify e f).modify e g = l.modify e fun h => g (f h) := by
  simp [modify]

theorem leaveTable_handles (hx : x ≠ e) : (l.leaveTable e).1.handles x = l.handles x := by
  have ho : (l.setInCache e false).handles x = l.handles x :=
    handles_modify_of_ne (f := fun h => { h with inCache := false }) hx
  rw [leaveTable]
  split
  · exact ho
  · exact ho

theorem leaveTable_tag : (l.leaveTable e).1.tag = l.tag := by
  have ht := (setInCache_same l e false).1
  rw [leaveTable]
  split
  · exact ht
  · exact ht

theorem leaveTable_le : (l.leaveTable e).1.usage ≤ l.usage ∧
    (l.low ++ l.high = [] → (l.leaveTable e).1.low ++ (l.leaveTable e).1.high = []) := by
  rw [leaveTable]
  split
  · refine ⟨Nat.sub_le _ _, fun hn => ?_⟩
    obtain ⟨hl, hh⟩ := append_eq_nil_iff.mp hn
    change l.low.erase e ++ l.high.erase e = []
    rw [hl, hh]
    rfl
  · exact ⟨Nat.le_refl _, id⟩

theorem leaveTable_add_usage (n : ℕ) (hle : l.chargeOf e ≤ l.usage) :
    let r := l.leaveTable e
    { l with usage := l.usage + n }.leaveTable e = ({ r.1 with usage := r.1.usage + n }, r.2) := by
  have hc := (setInCache_same l e false).2
  rw [leaveTable, leaveTable]
  by_cases hr : ((l.setInCache e false).handles e).hasRefs = true
  · have hr' : ((setInCache { l with usage := l.usage + n } e false).handles e).hasRefs = true := hr
    simp only [hr, hr', Bool.not_true, Bool.false_eq_true, if_false]
    rfl
  have hr' : ¬ ((setInCache { l with usage := l.usage + n } e false).handles e).hasRefs = true := hr
  simp only [hr, hr', Bool.not_false, if_true]
  congr 2
  change l.usage + n - (l.setInCache e false).chargeOf e = l.usage - (l.setInCache e false).chargeOf e + n
  rw [hc]
  omega

theorem lruInsert_usage (rp : Bool) (capacity : ℕ) :
    let r := l.lruInsert rp capacity e
    r.usage = l.usage ∧ r.tag = l.tag := by
  have ht (b : Bool) : (l.setInHighPriPool e b).tag = l.tag :=
    tag_modify (f := fun h => { h with inHighPriPool := b }) ⟨rfl, rfl⟩
  rw [lruInsert]
  split
  · obtain ⟨-, hu, ht'⟩ := maintained_loop (l := l.pushHigh e) capacity _ rfl
    exact ⟨hu, ht'.trans (ht true)⟩
  · exact ⟨rfl, ht false⟩

variable {bound : ℕ}

/-- What `MaintainPoolSize` reaches. -/
def Pooled (l : LRULists κ) (bound : ℕ) : Prop := l.highPriPoolUsage ≤ bound ∨ l.high = []

theorem Pooled.lruRemove (h : l.Pooled bound) (e : ℕ) : (l.lruRemove e).Pooled bound := by
  rw [LRULists.lruRemove]
  refine h.imp (fun hle => ?_) fun hn => ?_
  · dsimp only
    split
    · exact Nat.le_trans (Nat.sub_le _ _) hle
    · exact hle
  · rw [hn]
    rfl

theorem Pooled.leaveTable (h : l.Pooled bound) (e : ℕ) : (l.leaveTable e).1.Pooled bound := by
  rw [LRULists.leaveTable]
  dsimp only
  split
  · exact Pooled.lruRemove (l := l.setInCache e false) h e
  · exact h

theorem pooled_maintainLoop (es : List ℕ) (hes : l.high = es) : (maintainLoop bound es l).Pooled bound := by
  induction es generalizing l with
  | nil => exact .inr hes
  | cons e rest ih =>
    rw [maintainLoop]
    split
    · exact ih rfl
    · exact .inl (Nat.not_lt.mp ‹_›)

theorem Pooled.lruInsert (h : l.Pooled bound) (rp : Bool) (e : ℕ) : (l.lruInsert rp bound e).Pooled bound := by
  rw [LRULists.lruInsert]
  split
  · exact pooled_maintainLoop (l := l.pushHigh e) _ rfl
  · exact h

end LRULists

namespace LRUCacheShard

variable {s s' : LRUCacheShard κ} {gone held accepted del : List ℕ} {e : ℕ}

structure Inv (s : LRUCacheShard κ) (gone held accepted : List ℕ) : Prop where
  wf : s.table.Wf s.lists.tag
  shape : Shape s.lists (s.table.Mem s.lists.tag) gone held accepted none
  accepted_lt : ∀ e ∈ accepted, e < s.next

omit [DecidableEq κ] in
theorem Inv.of_tag {tag : ℕ → κ × UInt32} (ht : s.lists.tag = tag) (hwf : s.table.Wf tag)
    (hs : Shape s.lists (s.table.Mem tag) gone held accepted none) (hlt : ∀ e ∈ accepted, e < s.next) :
    Inv s gone held accepted := by
  subst ht
  exact ⟨hwf, hs, hlt⟩

def Evicted (s : LRUCacheShard κ) : Prop := s.capacity < s.lists.usage → s.lists.low ++ s.lists.high = []

theorem Inv.evict (h : Inv s gone held accepted) (he : e ∈ s.lists.low ++ s.lists.high) :
    Inv (s.evict e) (gone ++ [e]) held accepted ∧ (s.evict e).lists.tag = s.lists.tag := by
  obtain ⟨hm, hz, -⟩ := (h.shape.mem_list e).mp he
  obtain ⟨ht, hc⟩ := LRULists.setInCache_same (s.lists.lruRemove e) e false
  have hd := (h.shape.lruRemove he).drop hm hz
  refine ⟨.of_tag ht (h.wf.remove _).2.1 (Shape.congr_mem ?_ fun x => h.wf.remove_entry hm x) h.accepted_lt, ht⟩
  refine hd.keep ⟨rfl, rfl, rfl, rfl, rfl, fun _ _ => rfl⟩ (fun _ => Iff.rfl) hd.inCache hd.refs hd.count_lt ?_
    fun _ => Iff.rfl
  change s.lists.usage - ((s.lists.lruRemove e).setInCache e false).chargeOf e = _
  rw [hc]
  rfl

structure Keeps (s s' : LRUCacheShard κ) : Prop where
  capacity : s'.capacity = s.capacity
  strict : s'.strictCapacityLimit = s.strictCapacityLimit
  next : s'.next = s.next
  freed : s'.freed = s.freed
  handles : ∀ e, ¬ s.table.Mem s.lists.tag e → s'.lists.handles e = s.lists.handles e

theorem Inv.evictWhile (more : ℕ → Bool) {fuel : ℕ} (h : Inv s (gone ++ del) held accepted)
    (hf : (s.lists.low ++ s.lists.high).length ≤ fuel) :
    let r := evictWhile more fuel s del
    Inv r.1 (gone ++ r.2) held accepted ∧ (r.1.lists.low ++ r.1.lists.high = [] ∨ more r.1.lists.usage = false) ∧
      Keeps s r.1 := by
  induction fuel generalizing s del with
  | zero =>
    refine ⟨h, Or.inl ?_, rfl, rfl, rfl, rfl, fun _ _ => rfl⟩
    exact length_eq_zero_iff.mp (Nat.le_zero.mp hf)
  | succ fuel ih =>
    rw [LRUCacheShard.evictWhile]
    cases hls : s.lists.low ++ s.lists.high with
    | nil => exact ⟨h, Or.inl hls, rfl, rfl, rfl, rfl, fun _ _ => rfl⟩
    | cons old rest =>
      dsimp only
      cases hm : more s.lists.usage with
      | false => exact ⟨h, Or.inr hm, rfl, rfl, rfl, rfl, fun _ _ => rfl⟩
      | true =>
        rw [if_pos rfl]
        have ho : old ∈ s.lists.low ++ s.lists.high := by rw [hls]; exact mem_cons_self
        have hmm := ((h.shape.mem_list old).mp ho).1
        obtain ⟨hi, ht⟩ := h.evict ho
        have hl : ((s.evict old).lists.low ++ (s.evict old).lists.high).length ≤ fuel := by
          change (s.lists.low.erase old ++ s.lists.high.erase old).length ≤ fuel
          rw [length_append] at hf ⊢
          have hlw := length_erase_le (a := old) (l := s.lists.low)
          have hh := length_erase_le (a := old) (l := s.lists.high)
          rcases mem_append.mp ho with hin | hin
          · have hp := length_pos_of_mem hin
            rw [length_erase_of_mem hin] at *
            omega
          · have hp := length_pos_of_mem hin
            rw [length_erase_of_mem hin] at *
            omega
        rw [append_assoc] at hi
        obtain ⟨hi', hs, hk⟩ := ih hi hl
        refine ⟨hi', hs, hk.capacity, hk.strict, hk.next, hk.freed, ?_⟩
        intro x hx
        have hne : x ≠ old := fun hxe => hx (hxe ▸ hmm)
        have hx' : ¬ (s.evict old).table.Mem (s.evict old).lists.tag x := by
          rw [ht]
          exact fun hx' => hx ((h.wf.remove_entry hmm x).mp hx').1
        rw [hk.handles x hx']
        exact LRULists.handles_modify_of_ne (l := s.lists.lruRemove old) (f := fun h => { h with inCache := false }) hne

theorem Inv.evictFromLRU (h : Inv s gone held accepted) (charge : ℕ) :
    let r := s.evictFromLRU charge
    Inv r.1 (gone ++ r.2) held accepted ∧ (r.1.lists.low ++ r.1.lists.high = [] ∨
        r.1.lists.usage + charge ≤ s.capacity) ∧
      Keeps s r.1 := by
  have hg : Inv s (gone ++ []) held accepted := by rwa [append_nil]
  obtain ⟨hi, hs, hk⟩ := hg.evictWhile (fun usage => s.capacity < usage + charge) (Nat.le_refl _)
  refine ⟨hi, hs.imp_right fun hm => ?_, hk⟩
  exact Nat.le_of_not_lt (of_decide_eq_false hm)

omit [DecidableEq κ] in
theorem Inv.freeAll (h : Inv s gone held accepted) (es : List ℕ) : Inv (s.freeAll es) gone held accepted :=
  ⟨h.wf, h.shape, h.accepted_lt⟩

omit [DecidableEq κ] in
theorem evicted_of_stop (hs : s.lists.low ++ s.lists.high = [] ∨ s.lists.usage ≤ s.capacity) : Evicted s := by
  intro ho
  exact hs.resolve_right (Nat.not_le_of_lt ho)

theorem Inv.place (h : Inv s gone held accepted) (hnw : e ∉ accepted) (hcc : (s.lists.handles e).inCache = true) :
    let r := s.place e
    r.1.table.Wf r.1.lists.tag ∧ Shape r.1.lists (r.1.table.Mem r.1.lists.tag) (gone ++ r.2) held
        (e :: accepted) (some e) ∧
      r.1.table.Mem r.1.lists.tag e ∧
      r.1.lists.usage ≤ s.lists.usage + s.lists.chargeOf e ∧
      (s.lists.low ++ s.lists.high = [] → r.1.lists.low ++ r.1.lists.high = []) ∧
      r.1.capacity = s.capacity ∧ r.1.next = s.next ∧ r.1.freed = s.freed := by
  have hn : ¬ s.table.Mem s.lists.tag e := fun he => hnw (h.shape.accepted e (Or.inl he))
  obtain ⟨hl, hwf, hm⟩ := h.wf.insert e
  rw [LRUCacheShard.place]
  generalize hi : s.table.insert s.lists.tag e = result at hl hwf hm
  obtain ⟨old, table⟩ := result
  cases old with
  | none =>
    refine ⟨hwf, ?_, (hm e).mpr (Or.inl rfl), Nat.le_refl _, id, rfl, rfl, rfl⟩
    rw [append_nil]
    refine (h.shape.accept hnw hcc).congr_mem fun x => (hm x).trans (or_congr_right ?_)
    exact ⟨And.left, fun hx => ⟨hx, h.wf.lookup_eq_none.mp hl.symm x hx⟩⟩
  | some o =>
    obtain ⟨ho, hoa⟩ := h.wf.lookup_eq_some.mp hl.symm
    have hne : e ≠ o := fun heo => hn (heo ▸ ho)
    have hc : (s.lists.leaveTable o).1.chargeOf e = s.lists.chargeOf e := by
      rw [LRULists.chargeOf, LRULists.leaveTable_handles hne]
      rfl
    have hlv := LRULists.leaveTable_add_usage (s.lists.chargeOf e) (h.shape.charge_le_usage (Or.inl ho))
    dsimp only
    rw [hlv]
    have ht : LRULists.tag { (s.lists.leaveTable o).1 with
        usage := (s.lists.leaveTable o).1.usage + s.lists.chargeOf e } = s.lists.tag :=
      LRULists.leaveTable_tag
    dsimp only
    refine ⟨by rw [ht]; exact hwf, ?_, ?_, ?_, LRULists.leaveTable_le.2, rfl, rfl, rfl⟩
    · have hcc' : ((s.lists.leaveTable o).1.handles e).inCache = true := by
        rw [LRULists.leaveTable_handles hne]
        exact hcc
      have ha := (h.shape.leaveTable ho).accept hnw hcc'
      rw [hc] at ha
      rw [ht]
      refine ha.congr_mem fun x => (hm x).trans (or_congr_right ?_)
      constructor
      · rintro ⟨hx, ht⟩
        exact ⟨hx, fun hxo => ht (hxo ▸ hoa)⟩
      · rintro ⟨hx, hxo⟩
        exact ⟨hx, fun ht => hxo (h.wf.eq_of_tag hx ho (ht.trans hoa.symm))⟩
    · rw [ht]
      exact (hm e).mpr (Or.inl rfl)
    · exact Nat.add_le_add_right LRULists.leaveTable_le.1 _

def Outcome (r : Inserted × LRUCacheShard κ) (e : ℕ) (held accepted : List ℕ) : Prop :=
  match r.1 with
  | .handle => Inv r.2 r.2.freed (e :: held) (e :: accepted)
  | .noHandle => Inv r.2 r.2.freed held (e :: accepted)
  | .incomplete => Inv r.2 r.2.freed held accepted

theorem Inv.insertItem (h : Inv s (s.freed ++ del) held accepted) (hnw : e ∉ accepted) (hlt : e < s.next)
    (hcc : (s.lists.handles e).inCache = true)
    (hst : s.lists.low ++ s.lists.high = [] ∨ s.lists.usage + s.lists.chargeOf e ≤ s.capacity)
    (wh : Bool) :
    let r := s.insertItem e wh del
    Evicted r.2 ∧ Outcome r e held accepted := by
  have hz : held.count e = 0 := Nat.eq_zero_of_not_pos fun hp => hnw (h.shape.accepted e (Or.inr hp))
  have ha : ∀ x ∈ e :: accepted, x < s.next := forall_mem_cons.mpr ⟨hlt, h.accepted_lt⟩
  rw [LRUCacheShard.insertItem]
  split
  · rename_i hr
    have hnl : s.lists.low ++ s.lists.high = [] := hst.resolve_right (Nat.not_le_of_lt hr.1)
    have ht := (LRULists.setInCache_same s.lists e false).1
    have hrf : (s.lists.handles e).refs = 0 := by
      rw [h.shape.refs e, hz]
      rfl
    have hs : Shape (s.lists.setInCache e false) (s.table.Mem s.lists.tag) (s.freed ++ del) held
        accepted none := h.shape.alloc hnw { s.lists.handles e with inCache := false } hrf
    cases wh with
    | true => exact ⟨fun _ => hnl, .of_tag ht h.wf hs h.accepted_lt⟩
    | false =>
      have hb := hs.bounce hnw
      rw [append_assoc] at hb
      exact ⟨fun _ => hnl, .of_tag ht h.wf hb ha⟩
  · rename_i hft
    obtain ⟨hwf, hs, hm, hu, hnl, hc, hn, hf⟩ := h.place hnw hcc
    generalize s.place e = placed at hwf hs hm hu hnl hc hn hf
    obtain ⟨s3, last⟩ := placed
    dsimp only at hwf hs hm hu hnl hc hn hf ⊢
    rw [append_assoc, ← hf] at hs
    rw [← hn] at ha
    cases wh with
    | true =>
      have ht : (s3.lists.ref e).tag = s3.lists.tag :=
        LRULists.tag_modify (f := fun h => { h with refs := h.refs + 1 }) ⟨rfl, rfl⟩
      have hre := hs.ref (Or.inl rfl) (Or.inl hm) (by rw [hz]; decide) (s3.lists.handles e).hasHit
      refine ⟨?_, .of_tag ht hwf hre ha⟩
      intro ho
      change s3.capacity < s3.lists.usage at ho
      refine hnl (hst.resolve_right ?_)
      omega
    | false =>
      obtain ⟨hu', ht⟩ := LRULists.lruInsert_usage (l := s3.lists) (e := e) s3.highPriPoolRatio.positive
        s3.highPriPoolCapacity
      have hi := hs.lruInsert hm hz s3.highPriPoolRatio.positive s3.highPriPoolCapacity
      refine ⟨?_, .of_tag ht hwf hi ha⟩
      intro ho
      change s3.capacity < (s3.lists.lruInsert _ _ e).usage at ho
      rw [hu', hc] at ho
      exact absurd ⟨Nat.lt_of_lt_of_le ho hu, Or.inr rfl⟩ hft

theorem Inv.insert (h : Inv s s.freed held accepted) (key : κ) (hash : UInt32) (charge metaCharge : ℕ)
    (highPri wh : Bool) :
    let r := s.insert key hash charge metaCharge highPri wh
    Evicted r.2 ∧ Outcome r s.next held accepted := by
  have hnw : s.next ∉ accepted := fun he => Nat.lt_irrefl _ (h.accepted_lt _ he)
  have hn {x : ℕ} (hx : s.table.Mem s.lists.tag x) : x ≠ s.next := by
    rintro rfl
    exact hnw (h.shape.accepted _ (Or.inl hx))
  rw [LRUCacheShard.insert]
  generalize hh : ({ key, hash, charge, metaCharge, inCache := true, isHighPri := highPri } : LRUHandle κ) = handle
  have ht (x : ℕ) (hx : s.table.Mem s.lists.tag x) : (s.lists.modify s.next fun _ => handle).tag x = s.lists.tag x := by
    rw [LRULists.tag, LRULists.handles_modify_of_ne (hn hx)]
    rfl
  have hi : Inv { s with next := s.next + 1, lists := s.lists.modify s.next fun _ => handle } s.freed held
      accepted := by
    refine ⟨h.wf.congr ht, ?_, fun x hx => Nat.lt_succ_of_lt (h.accepted_lt x hx)⟩
    exact (h.shape.alloc hnw handle (by rw [← hh])).congr_mem (h.wf.mem_congr ht)
  obtain ⟨hi', hs, hk⟩ := hi.evictFromLRU ((s.lists.modify s.next fun _ => handle).chargeOf s.next)
  have hsl := hk.handles s.next fun hx => hn ((h.wf.mem_congr ht _).mp hx) rfl
  generalize LRUCacheShard.evictFromLRU (κ := κ) _ _ = result at hi' hs hk hsl
  obtain ⟨s1, del⟩ := result
  have hf : s1.freed = s.freed := hk.freed
  rw [← hf] at hi'
  have hlt : s.next < s1.next := by
    rw [hk.next]
    exact Nat.lt_succ_self _
  have hc : s1.lists.chargeOf s.next = (s.lists.modify s.next fun _ => handle).chargeOf s.next := by
    rw [LRULists.chargeOf, hsl]
    rfl
  rw [← hc, ← hk.capacity] at hs
  refine hi'.insertItem hnw hlt ?_ hs wh
  rw [hsl, LRULists.handles_modify_self, ← hh]

theorem Inv.erase (h : Inv s s.freed held accepted) (hev : Evicted s) (key : κ) (hash : UInt32) :
    let r := s.erase key hash
    Inv r r.freed held accepted ∧ Evicted r := by
  obtain ⟨hl, hwf, hm⟩ := h.wf.remove (key, hash)
  rw [LRUCacheShard.erase]
  generalize s.table.remove s.lists.tag (key, hash) = result at hl hwf hm
  obtain ⟨removed, table⟩ := result
  cases removed with
  | none => exact ⟨h, hev⟩
  | some e =>
    obtain ⟨he, het⟩ := h.wf.lookup_eq_some.mp hl.symm
    have hle := LRULists.leaveTable_le (l := s.lists) (e := e)
    have ht := LRULists.leaveTable_tag (l := s.lists) (e := e)
    refine ⟨.of_tag ht hwf ?_ h.accepted_lt, ?_⟩
    · refine (h.shape.leaveTable he).congr_mem fun x => (hm x).trans ?_
      constructor
      · rintro ⟨hx, hne⟩
        exact ⟨hx, fun hxe => hne (hxe ▸ het)⟩
      · rintro ⟨hx, hne⟩
        exact ⟨hx, fun ht => hne (h.wf.eq_of_tag hx he (ht.trans het.symm))⟩
    · intro ho
      change s.capacity < (s.lists.leaveTable e).1.usage at ho
      exact hle.2 (hev (Nat.lt_of_lt_of_le ho hle.1))

omit [DecidableEq κ] in
theorem Inv.ref (h : Inv s s.freed held accepted) (he : Evicted s) (hp : 0 < held.count e)
    (hlt : held.count e + 1 < 2 ^ 32) :
    Inv (s.ref e) (s.ref e).freed (e :: held) accepted ∧ Evicted (s.ref e) := by
  have ht : (s.lists.ref e).tag = s.lists.tag :=
    LRULists.tag_modify (f := fun h => { h with refs := h.refs + 1 }) ⟨rfl, rfl⟩
  have hr := h.shape.ref (Or.inr ⟨rfl, hp⟩) (Or.inr hp) hlt (s.lists.handles e).hasHit
  exact ⟨.of_tag ht h.wf hr h.accepted_lt, he⟩

section

variable (h : Inv s s.freed held accepted)

include h

theorem Inv.lookup (he : Evicted s) (key : κ) (hash : UInt32)
    (hlt : ∀ e, (s.lookup key hash).1 = some e → held.count e + 1 < 2 ^ 32) :
    let r := s.lookup key hash
    Inv r.2 r.2.freed (r.1.toList ++ held) accepted ∧ Evicted r.2 := by
  rw [LRUCacheShard.lookup] at hlt ⊢
  cases hfn : s.table.lookup s.lists.tag (key, hash) with
  | none => exact ⟨h, he⟩
  | some e =>
    rw [hfn] at hlt
    obtain ⟨hm, -⟩ := h.wf.lookup_eq_some.mp hfn
    have hc := hlt e rfl
    -- the two changes of the handle are one
    have hht (l : LRULists κ) : (l.ref e).setHit e =
        l.modify e fun h => { h with refs := h.refs + 1, hasHit := true } :=
      LRULists.modify_modify _ _
    have hk (l : LRULists κ) (hl : l.tag = s.lists.tag) : ((l.ref e).setHit e).tag = s.lists.tag := by
      rw [hht, LRULists.tag_modify ⟨rfl, rfl⟩, hl]
    by_cases hh : 0 < held.count e
    · have ht := (h.shape.hasRefs_iff e).mpr hh
      simp only [ht, Bool.not_true, Bool.false_eq_true, if_false]
      refine ⟨.of_tag (hk _ rfl) h.wf ?_ h.accepted_lt, he⟩
      rw [hht]
      exact h.shape.ref (Or.inr ⟨rfl, hh⟩) (Or.inl hm) hc true
    · obtain ⟨hf, -, hls⟩ := h.shape.listed hm hh
      simp only [hf, Bool.not_false, if_true]
      refine ⟨.of_tag (hk (s.lists.lruRemove e) rfl) h.wf ?_ h.accepted_lt, ?_⟩
      · rw [hht]
        exact (h.shape.lruRemove hls).ref (Or.inl rfl) (Or.inl hm) hc true
      · intro ho
        rw [he ho] at hls
        cases hls

theorem Inv.release (he : Evicted s) (hp : 0 < held.count e) (fe : Bool) :
    let r := s.release e fe
    Inv r r.freed (held.erase e) accepted ∧ Evicted r := by
  have ht : (s.lists.unref e).tag = s.lists.tag :=
    LRULists.tag_modify (f := fun h => { h with refs := h.refs - 1 }) ⟨rfl, rfl⟩
  have hr := h.shape.unref_refs hp e
  have hcc := Shape.unref_inCache s.lists e e
  have hlt := h.shape.count_lt e
  have hh : ((s.lists.unref e).handles e).hasRefs = true ↔ held.count e ≠ 1 := by
    rw [LRUHandle.hasRefs, hr, decide_eq_true_eq, ne_eq, ← UInt32.toNat_inj, count_erase_self,
      UInt32.toNat_ofNat_of_lt' (show held.count e - 1 < 2 ^ 32 by omega), UInt32.toNat_zero]
    omega
  rw [LRUCacheShard.release]
  by_cases hon : held.count e = 1
  · have hf : ((s.lists.unref e).handles e).hasRefs = false := by
      rw [← Bool.not_eq_true, hh]
      exact fun hne => hne hon
    have hz : (held.erase e).count e = 0 := by
      rw [count_erase_self, hon]
    rw [hf, if_neg (by decide), hcc]
    by_cases hm : s.table.Mem s.lists.tag e
    · have hin := (h.shape.inCache e (Or.inl hm)).mpr hm
      have hs := h.shape.unref hp fun _ => hm
      rw [if_pos hon] at hs
      rw [hin, if_pos rfl]
      split
      · obtain ⟨ht', hc⟩ := LRULists.setInCache_same (s.lists.unref e) e false
        refine ⟨.of_tag (ht'.trans ht) ?_ ?_ h.accepted_lt, ?_⟩
        · rw [ht]
          exact (h.wf.remove _).2.1
        · simp only [LRUCacheShard.dropLast, ht, hc]
          exact (hs.drop hm hz).congr_mem fun x => h.wf.remove_entry hm x
        · intro ho
          change s.capacity < s.lists.usage - ((s.lists.unref e).setInCache e false).chargeOf e at ho
          exact he (by omega)
      · rename_i hrm
        obtain ⟨hu, ht'⟩ := LRULists.lruInsert_usage (l := s.lists.unref e) (e := e)
          s.highPriPoolRatio.positive s.highPriPoolCapacity
        refine ⟨.of_tag (ht'.trans ht) h.wf (hs.lruInsert hm hz _ _) h.accepted_lt, ?_⟩
        intro ho
        change s.capacity < ((s.lists.unref e).lruInsert _ _ e).usage at ho
        rw [hu] at ho
        exact absurd (Or.inl ho) hrm
    · have hou : (s.lists.handles e).inCache = false := by
        rw [← Bool.not_eq_true, h.shape.inCache e (Or.inr hp)]
        exact hm
      have hc : (s.lists.unref e).chargeOf = s.lists.chargeOf :=
        LRULists.chargeOf_modify (f := fun h => { h with refs := h.refs - 1 }) rfl
      rw [hou, if_neg (by decide)]
      refine ⟨.of_tag ht h.wf ?_ h.accepted_lt, ?_⟩
      · simp only [LRUCacheShard.dropLast, hc]
        exact h.shape.unref_gone hon hm
      · intro ho
        change s.capacity < s.lists.usage - (s.lists.unref e).chargeOf e at ho
        exact he (by omega)
  · rw [if_pos (hh.mpr hon)]
    have hs := h.shape.unref hp fun h => absurd h hon
    rw [if_neg hon] at hs
    exact ⟨.of_tag ht h.wf hs h.accepted_lt, he⟩

theorem Inv.eraseUnRefEntries :
    Inv s.eraseUnRefEntries s.eraseUnRefEntries.freed held accepted ∧ Evicted s.eraseUnRefEntries := by
  have hg : Inv s (s.freed ++ []) held accepted := by rwa [append_nil]
  obtain ⟨hi, hs, hk⟩ := hg.evictWhile (fun _ => true) (Nat.le_refl _)
  have hn := hs.resolve_right nofun
  rw [← hk.freed] at hi
  exact ⟨hi.freeAll _, fun _ => hn⟩

theorem Inv.setCapacity (capacity : ℕ) :
    Inv (s.setCapacity capacity) (s.setCapacity capacity).freed held accepted ∧ Evicted (s.setCapacity capacity) := by
  have hst : Inv { s with capacity, highPriPoolCapacity := s.highPriPoolRatio.times capacity } s.freed held
      accepted := ⟨h.wf, h.shape, h.accepted_lt⟩
  obtain ⟨hi, hs, hk⟩ := hst.evictFromLRU 0
  have he := evicted_of_stop (by rw [hk.capacity]; exact hs)
  have hf : (s.setCapacity capacity).freed = s.freed ++ (LRUCacheShard.evictFromLRU { s with
      capacity, highPriPoolCapacity := s.highPriPoolRatio.times capacity } 0).2 :=
    congrArg (fun freed => freed ++ _) hk.freed
  rw [hf]
  exact ⟨hi.freeAll _, he⟩

end

omit [DecidableEq κ] in
theorem Inv.setHighPriorityPoolRatio (h : Inv s s.freed held accepted) (he : Evicted s) (ratio : PoolRatio) :
    let r := s.setHighPriorityPoolRatio ratio
    Inv r r.freed held accepted ∧ Evicted r := by
  obtain ⟨hl, hu, ht⟩ := LRULists.maintained_loop (l := s.lists) (ratio.times s.capacity) _ rfl
  refine ⟨.of_tag ht h.wf (h.shape.maintainPoolSize (ratio.times s.capacity)) h.accepted_lt, ?_⟩
  intro ho
  change s.capacity < (s.lists.maintainPoolSize _).usage at ho
  rw [LRULists.maintainPoolSize, hu] at ho
  exact hl.trans (he ho)

def Pooled (s : LRUCacheShard κ) : Prop :=
  s.lists.Pooled s.highPriPoolCapacity ∧ s.highPriPoolCapacity = s.highPriPoolRatio.times s.capacity

theorem Pooled.evictWhile (h : s.Pooled) (more : ℕ → Bool) (fuel : ℕ) (del : List ℕ) :
    (LRUCacheShard.evictWhile more fuel s del).1.Pooled := by
  fun_induction LRUCacheShard.evictWhile more fuel s del with
  | case1 | case2 | case4 => exact h
  | case3 _ _ _ old _ _ _ ih => exact ih ⟨h.1.lruRemove old, h.2⟩

theorem Pooled.insertItem (h : s.Pooled) (wh : Bool) (del : List ℕ) : (s.insertItem e wh del).2.Pooled := by
  have hp : (s.place e).1.Pooled := by
    rw [place]
    dsimp only
    split
    · exact h
    · refine ⟨LRULists.Pooled.leaveTable ?_ _, h.2⟩
      exact h.1
  rw [LRUCacheShard.insertItem]
  split
  · cases wh with
    | true | false => exact h
  · cases wh with
    | true => exact hp
    | false => exact ⟨hp.1.lruInsert _ e, hp.2⟩

theorem Pooled.insert (h : s.Pooled) (key : κ) (hash : UInt32) (charge metaCharge : ℕ) (highPri wh : Bool) :
    (s.insert key hash charge metaCharge highPri wh).2.Pooled := by
  refine Pooled.insertItem (Pooled.evictWhile ?_ _ _ _) _ _
  exact h

theorem Pooled.lookup (h : s.Pooled) (key : κ) (hash : UInt32) : (s.lookup key hash).2.Pooled := by
  rw [LRUCacheShard.lookup]
  split
  · exact h
  refine ⟨?_, h.2⟩
  dsimp only
  split
  · exact h.1.lruRemove _
  · exact h.1

theorem Pooled.release (h : s.Pooled) (fe : Bool) : (s.release e fe).Pooled := by
  rw [LRUCacheShard.release]
  split_ifs
  · exact h
  · exact h
  · exact ⟨LRULists.Pooled.lruInsert (l := s.lists.unref e) h.1 _ e, h.2⟩
  · exact h

end LRUCacheShard

namespace CacheClients

open LRUCacheShard

variable {c c' : CacheClients κ} {e : ℕ}

def Good (c : CacheClients κ) : Prop := Inv c.shard c.shard.freed c.held c.accepted ∧ Evicted c.shard

theorem Good.step (h : Good c) (hs : step c call = some c') (hc : ∀ e, c'.held.count e < 2 ^ 32) : Good c' := by
  obtain ⟨hi, hev⟩ := h
  cases call with
  | insert key hash charge metaCharge highPri wh =>
    obtain ⟨hev', ho⟩ := hi.insert key hash charge metaCharge highPri wh
    simp only [CacheClients.step] at hs
    generalize c.shard.insert _ _ _ _ _ _ = result at hs hev' ho
    obtain ⟨out, shard⟩ := result
    cases out with
    | handle | noHandle | incomplete =>
      cases hs
      exact ⟨ho, hev'⟩
  | lookup key hash =>
    have hl := hi.lookup hev key hash
    simp only [CacheClients.step] at hs
    generalize c.shard.lookup key hash = result at hs hl
    obtain ⟨found, shard⟩ := result
    cases found with
    | none =>
      cases hs
      exact hl nofun
    | some e =>
      cases hs
      refine hl ?_
      intro e' he'
      cases he'
      have hlt := hc e
      rwa [count_cons_self] at hlt
  | ref e =>
    obtain ⟨hh, hc'⟩ := Option.ite_none_right_eq_some.mp hs
    cases hc'
    have hlt := hc e
    rw [count_cons_self] at hlt
    exact hi.ref hev (count_pos_iff.mpr hh) hlt
  | release e fe =>
    obtain ⟨hh, hc'⟩ := Option.ite_none_right_eq_some.mp hs
    cases hc'
    exact hi.release hev (count_pos_iff.mpr hh) fe
  | erase key hash =>
    cases hs
    exact hi.erase hev key hash
  | eraseUnRefEntries =>
    cases hs
    exact hi.eraseUnRefEntries
  | setCapacity capacity =>
    cases hs
    exact hi.setCapacity capacity
  | setStrictCapacityLimit strict =>
    cases hs
    exact ⟨⟨hi.wf, hi.shape, hi.accepted_lt⟩, hev⟩
  | setHighPriorityPoolRatio ratio =>
    cases hs
    exact hi.setHighPriorityPoolRatio hev ratio

omit [DecidableEq κ] in
theorem good_empty (nobody : κ) (capacity : ℕ) (strict : Bool) (ratio : PoolRatio) (mb : ℕ) :
    Good (empty nobody capacity strict ratio mb) := by
  set c := empty nobody capacity strict ratio mb
  have hm (tag : ℕ → κ × UInt32) (x : ℕ) : ¬ c.shard.table.Mem tag x := not_mem_nil
  have hwf : c.shard.table.Wf c.shard.lists.tag :=
    ⟨show 4 ≤ 31 by decide, fun _ _ h => absurd h not_mem_nil, fun _ => nodup_nil⟩
  refine ⟨⟨hwf, ?_, fun _ h => absurd h not_mem_nil⟩, fun _ => rfl⟩
  have hc (x : ℕ) : ¬ 0 < c.held.count x := Nat.lt_irrefl 0
  have hd {x : ℕ} {p : Prop} (h : c.shard.table.Mem c.shard.lists.tag x ∨ 0 < c.held.count x) : p :=
    absurd h (not_or.mpr ⟨hm _ x, hc x⟩)
  refine ⟨nodup_nil, ?_, nofun, nofun, fun x => hd, fun _ => rfl, ?_, ⟨[], nodup_nil, ?_, rfl⟩,
    rfl, rfl, nodup_nil, ?_, fun x => hd⟩
  · exact fun x => ⟨fun h => absurd h not_mem_nil, fun h => absurd h.1 (hm _ x)⟩
  · exact fun x => Nat.two_pow_pos 32
  · exact fun x => ⟨fun h => absurd h not_mem_nil, hd⟩
  · exact fun x => ⟨fun h => absurd h not_mem_nil, fun h => absurd h.1 not_mem_nil⟩

def Counted (c : CacheClients κ) (call : CacheCall κ) : Prop :=
  ∀ c', step c call = some c' → ∀ e, c'.held.count e < 2 ^ 32

structure Consistent (c : CacheClients κ) : Prop where
  list_nodup : (c.shard.lists.low ++ c.shard.lists.high).Nodup
  mem_list : ∀ e, e ∈ c.shard.lists.low ++ c.shard.lists.high ↔
    c.shard.table.Mem c.shard.lists.tag e ∧ (c.shard.lists.handles e).refs = 0
  refs : ∀ e, (c.shard.lists.handles e).refs.toNat = c.held.count e
  usage : ∃ live : List ℕ, live.Nodup ∧
    (∀ e, e ∈ live ↔ c.shard.table.Mem c.shard.lists.tag e ∨ 0 < c.held.count e) ∧
    c.shard.lists.usage = c.shard.lists.total live
  lruUsage : c.shard.lists.lruUsage = c.shard.lists.total (c.shard.lists.low ++ c.shard.lists.high)
  highPriPoolUsage : c.shard.lists.highPriPoolUsage = c.shard.lists.total c.shard.lists.high
  evicted : c.shard.capacity < c.shard.lists.usage → c.shard.lists.low ++ c.shard.lists.high = []
  freed_once : c.shard.freed.Nodup
  mem_freed : ∀ e, e ∈ c.shard.freed ↔
    e ∈ c.accepted ∧ ¬ c.shard.table.Mem c.shard.lists.tag e ∧ c.held.count e = 0

omit [DecidableEq κ] in
theorem Good.consistent (h : Good c) : Consistent c := by
  obtain ⟨hi, he⟩ := h
  have hs := hi.shape
  have hr (e : ℕ) : (c.shard.lists.handles e).refs.toNat = c.held.count e := by
    rw [hs.refs e]
    exact UInt32.toNat_ofNat_of_lt' (hs.count_lt e)
  refine ⟨hs.nodup, ?_, hr, hs.usage, hs.lruUsage, hs.highUsage, he, hs.gone_nodup, hs.mem_gone⟩
  intro e
  rw [hs.mem_list, ← UInt32.toNat_inj, hr, UInt32.toNat_zero]
  exact ⟨fun h => ⟨h.1, h.2.1⟩, fun h => ⟨h.1, h.2, nofun⟩⟩

theorem run_consistent (nobody : κ) (capacity : ℕ) (strict : Bool) (ratio : PoolRatio) (maxUpperHashBits : ℕ)
    (calls : List (CacheCall κ))
    (hcounted : Lib.Along step Counted (empty nobody capacity strict ratio maxUpperHashBits) calls)
    (c : CacheClients κ)
    (hrun : Lib.run step (empty nobody capacity strict ratio maxUpperHashBits) calls = some c) :
    Consistent c := by
  have hg := Lib.run_invariant_along Counted Good (fun _ _ _ hc hs h => h.step hs (hc _ hs))
    hrun hcounted (good_empty nobody capacity strict ratio maxUpperHashBits)
  exact hg.consistent

theorem step_held_length (hs : step c call = some c') : c'.held.length ≤ c.held.length + 1 := by
  cases call with
  | insert key hash charge metaCharge highPri wh =>
    simp only [CacheClients.step] at hs
    generalize c.shard.insert _ _ _ _ _ _ = result at hs
    obtain ⟨out, shard⟩ := result
    cases out with
    | handle =>
      cases hs
      exact Nat.le_refl _
    | noHandle | incomplete =>
      cases hs
      exact Nat.le_succ _
  | lookup key hash =>
    simp only [CacheClients.step] at hs
    generalize c.shard.lookup key hash = result at hs
    obtain ⟨found, shard⟩ := result
    cases found with
    | none =>
      cases hs
      exact Nat.le_succ _
    | some e =>
      cases hs
      exact Nat.le_refl _
  | ref e =>
    obtain ⟨-, hc'⟩ := Option.ite_none_right_eq_some.mp hs
    cases hc'
    exact Nat.le_refl _
  | release e fe =>
    obtain ⟨-, hc'⟩ := Option.ite_none_right_eq_some.mp hs
    cases hc'
    exact Nat.le_succ_of_le length_erase_le
  | erase | eraseUnRefEntries | setCapacity | setStrictCapacityLimit | setHighPriorityPoolRatio =>
    cases hs
    exact Nat.le_succ _

theorem good_step (h : Good c) (hs : step c call = some c') (hh : c.held.length + 1 < 2 ^ 32) : Good c' := by
  refine h.step hs fun e => ?_
  have hle := step_held_length hs
  have hc := count_le_length (a := e) (l := c'.held)
  omega

theorem along_counted (calls : List (CacheCall κ)) (hl : c.held.length + calls.length < 2 ^ 32) :
    Lib.Along step Counted c calls := by
  induction calls generalizing c with
  | nil => trivial
  | cons call calls ih =>
    rw [length_cons] at hl
    refine ⟨?_, fun c' hs => ih ?_⟩
    · intro c' hs e
      have hle := step_held_length hs
      have hc := count_le_length (a := e) (l := c'.held)
      omega
    · have hle := step_held_length hs
      omega

def overwritingCalls : List (CacheCall ℕ) :=
  [.insert 7 1 3 1 false true, .insert 7 1 2 1 true false, .release 0 false, .lookup 7 1, .setCapacity 1]

theorem run_consistent_overwritten :
    ∃ c, Lib.run step (empty 0 10 false ⟨true, fun n => n / 2⟩ 20) overwritingCalls = some c ∧
      c.shard.freed = [0] ∧ Consistent c := by
  have hc : Lib.Along step Counted (empty 0 10 false ⟨true, fun n => n / 2⟩ 20) overwritingCalls :=
    along_counted _ (by decide)
  exact ⟨_, rfl, by decide, run_consistent 0 10 false ⟨true, fun n => n / 2⟩ 20 _ hc _ rfl⟩

omit [DecidableEq κ] in
theorem modify_handles_self (l : LRULists κ) (e : ℕ) : l.modify e (fun h => h) = l := by
  simp [LRULists.modify]

theorem run_refs (n : ℕ) (hh : e ∈ c.held) : Lib.run step c (replicate n (.ref e)) = some { c with
      shard := { c.shard with lists := c.shard.lists.modify e fun h =>
        { h with refs := h.refs + UInt32.ofNat n } },
      held := replicate n e ++ c.held } := by
  induction n generalizing c with
  | zero =>
    have hz : (fun h : LRUHandle κ => { h with refs := h.refs + UInt32.ofNat 0 }) = fun h => h := by
      funext h
      simp
    rw [hz, modify_handles_self]
    rfl
  | succ n ih =>
    have hs : step c (.ref e) = some { c with shard := c.shard.ref e, held := e :: c.held } := if_pos hh
    rw [replicate_succ]
    refine Lib.run_cons.mpr ⟨_, hs, ?_⟩
    rw [ih (mem_cons_of_mem _ hh)]
    have ha (h : LRUHandle κ) : h.refs + 1 + UInt32.ofNat n = h.refs + UInt32.ofNat (n + 1) := by
      rw [UInt32.ofNat_add, UInt32.add_assoc, UInt32.add_comm 1]
      rfl
    have hl : (c.shard.lists.ref e).modify e (fun h => { h with refs := h.refs + UInt32.ofNat n }) =
        c.shard.lists.modify e fun h => { h with refs := h.refs + UInt32.ofNat (n + 1) } := by
      rw [LRULists.ref, LRULists.modify_modify]
      simp only [ha]
    have hh' : replicate n e ++ e :: c.held = replicate (n + 1) e ++ c.held := by
      rw [replicate_succ', append_assoc]
      rfl
    simp only [LRUCacheShard.ref, hl, hh']

def oneEntry : CacheClients ℕ :=
  ⟨((empty 0 10 false ⟨false, fun _ => 0⟩ 20).shard.insert 7 1 3 1 false true).2, [0], [0]⟩

/-- With `2 ^ 32 + 1` handles out the reference count is one again: the first release frees the entry. -/
theorem deleter_runs_while_held : ∃ c, Lib.run step (empty 0 10 false ⟨false, fun _ => 0⟩ 20)
        (.insert 7 1 3 1 false true :: (replicate (2 ^ 32) (.ref 0) ++ [.release 0 true])) = some c ∧
      0 ∈ c.shard.freed ∧ 0 < c.held.count 0 := by
  have hi : step (empty 0 10 false ⟨false, fun _ => 0⟩ 20) (.insert 7 1 3 1 false true) = some oneEntry := rfl
  have hr := run_refs (c := oneEntry) (e := 0) (2 ^ 32) (by decide)
  have hw : (fun h : LRUHandle ℕ => { h with refs := h.refs + UInt32.ofNat (2 ^ 32) }) = fun h => h := by
    funext h
    have hz : UInt32.ofNat (2 ^ 32) = 0 := by decide
    rw [hz, UInt32.add_zero]
  rw [hw, modify_handles_self] at hr
  have hp : 0 < 2 ^ 32 := Nat.two_pow_pos 32
  generalize 2 ^ 32 = n at hr hp ⊢
  have hh : 0 ∈ replicate n 0 ++ oneEntry.held := mem_append_right _ (by decide)
  have hf : 0 ∈ (oneEntry.shard.release 0 true).freed := by decide
  refine ⟨⟨oneEntry.shard.release 0 true, [0], (replicate n 0 ++ oneEntry.held).erase 0⟩, ?_, hf, ?_⟩
  · refine Lib.run_cons.mpr ⟨oneEntry, hi, ?_⟩
    rw [Lib.run_append, hr]
    exact Lib.run_cons.mpr ⟨_, if_pos hh, rfl⟩
  · rw [count_erase_self, List.count_append, count_replicate_self]
    change 0 < n + 1 - 1
    omega

/-- A call on a shard with a secondary cache. -/
inductive SecondaryCall (κ : Type) where
  | primary (call : CacheCall κ)
  | lookup (key : κ) (hash : UInt32) (highPri : Bool) (hit : Option (ℕ × ℕ))

def lookupSecondary (c : CacheClients κ) (key : κ) (hash : UInt32) (highPri : Bool) (charge metaCharge : ℕ) :
    CacheClients κ :=
  let e := c.shard.next
  match c.shard.insert key hash charge metaCharge highPri true with
  -- refused by `InsertItem`, the entry lives on through its handle
  | (.incomplete, shard) => ⟨shard.ref e, c.accepted, e :: c.held⟩
  | (_, shard) => ⟨shard, e :: c.accepted, e :: c.held⟩

def secondaryStep (c : CacheClients κ) : SecondaryCall κ → Option (CacheClients κ)
  | .primary call => c.step call
  | .lookup key hash highPri hit =>
    match c.shard.table.lookup c.shard.lists.tag (key, hash), hit with
    | none, some (charge, metaCharge) => some (c.lookupSecondary key hash highPri charge metaCharge)
    | _, _ => c.step (.lookup key hash)

theorem evictWhile_strict (more : ℕ → Bool) (fuel : ℕ) (s : LRUCacheShard κ) (del : List ℕ) :
    (LRUCacheShard.evictWhile more fuel s del).1.strictCapacityLimit = s.strictCapacityLimit := by
  fun_induction LRUCacheShard.evictWhile more fuel s del with
  | case1 | case2 | case4 => rfl
  | case3 _ _ _ _ _ _ _ ih => exact ih

theorem lookupSecondary_eq (key : κ) (hash : UInt32) (highPri : Bool) (charge metaCharge : ℕ)
    (hs : c.shard.strictCapacityLimit = false) :
    c.step (.insert key hash charge metaCharge highPri true) =
      some (c.lookupSecondary key hash highPri charge metaCharge) := by
  have hp : (c.shard.insert key hash charge metaCharge highPri true).1 = .handle := by
    simp [LRUCacheShard.insert, LRUCacheShard.insertItem, LRUCacheShard.evictFromLRU, evictWhile_strict, hs]
  rw [step, lookupSecondary]
  generalize c.shard.insert _ _ _ _ _ _ = result at hp
  obtain ⟨out, shard⟩ := result
  cases hp
  rfl

theorem secondaryStep_eq {call : SecondaryCall κ} (hst : c.shard.strictCapacityLimit = false)
    (hs : secondaryStep c call = some c') : ∃ call, step c call = some c' := by
  cases call with
  | primary call => exact ⟨call, hs⟩
  | lookup key hash highPri hit =>
    simp only [secondaryStep] at hs
    split at hs
    · exact ⟨_, (lookupSecondary_eq key hash highPri _ _ hst).trans hs⟩
    · exact ⟨_, hs⟩

def promotingCalls : List (SecondaryCall ℕ) :=
  [.primary (.insert 7 1 8 0 false true), .lookup 3 1 false (some (5, 0)), .primary (.release 1 false)]

def roomy (c : CacheClients κ) (call : CacheCall κ) : Bool :=
  c.held.length + 1 < 2 ^ 32 && match call with
  | .setCapacity capacity => c.shard.lists.highPriPoolUsage ≤ c.shard.highPriPoolRatio.times capacity
  | _ => true

theorem pooled_step (hr : roomy c call) (hs : step c call = some c') (h : c.shard.Pooled) : c'.shard.Pooled := by
  cases call with
  | insert key hash charge metaCharge highPri wh =>
    have hi := h.insert key hash charge metaCharge highPri wh
    simp only [CacheClients.step] at hs
    generalize c.shard.insert _ _ _ _ _ _ = result at hs hi
    obtain ⟨_ | _ | _, shard⟩ := result
    all_goals
      cases hs
      exact hi
  | lookup key hash =>
    have hl := h.lookup key hash
    simp only [CacheClients.step] at hs
    generalize c.shard.lookup _ _ = result at hs hl
    obtain ⟨_ | e, shard⟩ := result
    all_goals
      cases hs
      exact hl
  | ref e =>
    cases (Option.ite_none_right_eq_some.mp hs).2
    exact h
  | release e fe =>
    cases (Option.ite_none_right_eq_some.mp hs).2
    exact h.release fe
  | erase key hash =>
    cases hs
    rw [LRUCacheShard.erase]
    split
    · exact h
    · exact ⟨h.1.leaveTable _, h.2⟩
  | eraseUnRefEntries =>
    cases hs
    exact h.evictWhile _ _ _
  | setCapacity capacity =>
    cases hs
    have hle := of_decide_eq_true (Bool.and_eq_true_iff.mp hr).2
    exact Pooled.evictWhile (s := { c.shard with
      capacity, highPriPoolCapacity := c.shard.highPriPoolRatio.times capacity }) ⟨.inl hle, rfl⟩ _ _ _
  | setStrictCapacityLimit strict =>
    cases hs
    exact h
  | setHighPriorityPoolRatio ratio =>
    cases hs
    exact ⟨LRULists.pooled_maintainLoop _ rfl, rfl⟩

def poolCalls (capacity : ℕ) : List (CacheCall ℕ) := [.insert 7 1 5 0 true false, .setCapacity capacity]

end CacheClients

end ZenFSPlus.Cache
