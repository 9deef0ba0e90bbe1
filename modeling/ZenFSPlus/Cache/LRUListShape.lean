import ZenFSPlus.Cache.LRUCacheShard

namespace ZenFSPlus.Cache

open List

namespace LRULists

variable {κ : Type} {l : LRULists κ} {e : ℕ} {es : List ℕ} {x : ℕ}

def total (l : LRULists κ) (es : List ℕ) : ℕ := (es.map l.chargeOf).sum

theorem total_erase (he : e ∈ es) : l.total es = l.chargeOf e + l.total (es.erase e) := by
  have hp := ((perm_cons_erase he).map l.chargeOf).sum_nat
  simpa [total] using hp

variable {f : LRUHandle κ → LRUHandle κ}

theorem chargeOf_modify (hf : (f (l.handles e)).calcTotalCharge = (l.handles e).calcTotalCharge) :
    (l.modify e f).chargeOf = l.chargeOf := by
  funext x
  by_cases hx : x = e
  · subst hx
    simpa [chargeOf, modify] using hf
  · simp [chargeOf, modify, hx]

theorem tag_modify (hf : (f (l.handles e)).key = (l.handles e).key ∧ (f (l.handles e)).hash = (l.handles e).hash) :
    (l.modify e f).tag = l.tag := by
  funext x
  by_cases hx : x = e
  · subst hx
    simp [tag, modify, hf]
  · simp [tag, modify, hx]

theorem setInCache_same (l : LRULists κ) (e : ℕ) (b : Bool) :
    (l.setInCache e b).tag = l.tag ∧ (l.setInCache e b).chargeOf = l.chargeOf :=
  ⟨tag_modify ⟨rfl, rfl⟩, chargeOf_modify rfl⟩

theorem handles_modify_of_ne (hx : x ≠ e) : (l.modify e f).handles x = l.handles x := by
  simp [modify, hx]

theorem proj_modify {α : Type} (p : LRUHandle κ → α) (hf : ∀ h, p (f h) = p h)
    (x : ℕ) : p ((l.modify e f).handles x) = p (l.handles x) := by
  by_cases hx : x = e
  · subst hx
    simp [modify, hf]
  · rw [handles_modify_of_ne hx]

theorem handles_modify_self : (l.modify e f).handles e = f (l.handles e) := by
  simp [modify]

end LRULists

open LRULists

structure Shape {κ : Type} (l : LRULists κ) (mem : ℕ → Prop) (gone held accepted : List ℕ) (off : Option ℕ) :
    Prop where
  nodup : (l.low ++ l.high).Nodup
  mem_list : ∀ e, e ∈ l.low ++ l.high ↔ mem e ∧ held.count e = 0 ∧ off ≠ some e
  low_flag : ∀ e ∈ l.low, (l.handles e).inHighPriPool = false
  high_flag : ∀ e ∈ l.high, (l.handles e).inHighPriPool = true
  inCache : ∀ e, mem e ∨ 0 < held.count e → ((l.handles e).inCache = true ↔ mem e)
  refs : ∀ e, (l.handles e).refs = UInt32.ofNat (held.count e)
  count_lt : ∀ e, held.count e < 2 ^ 32
  usage : ∃ live : List ℕ, live.Nodup ∧ (∀ e, e ∈ live ↔ mem e ∨ 0 < held.count e) ∧ l.usage = l.total live
  lruUsage : l.lruUsage = l.total (l.low ++ l.high)
  highUsage : l.highPriPoolUsage = l.total l.high
  gone_nodup : gone.Nodup
  mem_gone : ∀ e, e ∈ gone ↔ e ∈ accepted ∧ ¬ mem e ∧ held.count e = 0
  accepted : ∀ e, mem e ∨ 0 < held.count e → e ∈ accepted

namespace Shape

variable {κ : Type} {l l' : LRULists κ} {mem mem' : ℕ → Prop} {gone gone' held held' acc : List ℕ}
  {off off' : Option ℕ} {e : ℕ}

section

variable (h : Shape l mem gone held acc off)

include h

theorem congr_mem (hmm : ∀ x, mem' x ↔ mem x) : Shape l mem' gone held acc off := by
  have heq : mem' = mem := funext fun x => propext (hmm x)
  exact heq ▸ h

theorem hasRefs_iff (e : ℕ) : (l.handles e).hasRefs = true ↔ 0 < held.count e := by
  have hlt := h.count_lt e
  rw [LRUHandle.hasRefs, h.refs e, decide_eq_true_eq, ne_eq, ← UInt32.toNat_inj,
    UInt32.toNat_ofNat_of_lt' hlt, UInt32.toNat_zero]
  omega

theorem notMem_high (he : e ∈ l.low) : e ∉ l.high := by
  have hn := h.nodup
  rw [nodup_append] at hn
  exact fun hh => hn.2.2 e he e hh rfl

end

structure SameList (l l' : LRULists κ) : Prop where
  charge : l'.chargeOf = l.chargeOf
  low : l'.low = l.low
  high : l'.high = l.high
  lruUsage : l'.lruUsage = l.lruUsage
  highUsage : l'.highPriPoolUsage = l.highPriPoolUsage
  flag : ∀ x ∈ l.low ++ l.high, (l'.handles x).inHighPriPool = (l.handles x).inHighPriPool

theorem SameList.total (hs : SameList l l') (es : List ℕ) : l'.total es = l.total es := by
  rw [LRULists.total, LRULists.total, hs.charge]

theorem SameList.modify {f : LRUHandle κ → LRUHandle κ} (hc : ∀ h, (f h).calcTotalCharge = h.calcTotalCharge)
    (hf : ∀ h, (f h).inHighPriPool = h.inHighPriPool) : SameList l (l.modify e f) :=
  ⟨chargeOf_modify (hc _), rfl, rfl, rfl, rfl, fun x _ => proj_modify _ hf x⟩

theorem gone_iff : ¬ mem x ∧ held.count x = 0 ↔ ¬ (mem x ∨ 0 < held.count x) := by
  rw [not_or, Nat.pos_iff_ne_zero, not_not]

theorem nodup_append_singleton {es : List ℕ} (hes : es.Nodup) (he : e ∉ es) : (es ++ [e]).Nodup :=
  (perm_append_singleton e es).nodup_iff.mpr (nodup_cons.mpr ⟨he, hes⟩)

section

variable (h : Shape l mem gone held acc off) (hs : SameList l l')
  (hld : ∀ x, mem x ∧ held.count x = 0 ∧ off ≠ some x ↔ mem' x ∧ held'.count x = 0 ∧ off' ≠ some x)
  (hcc : ∀ x, mem' x ∨ 0 < held'.count x → ((l'.handles x).inCache = true ↔ mem' x))
  (hr : ∀ x, (l'.handles x).refs = UInt32.ofNat (held'.count x)) (hlt : ∀ x, held'.count x < 2 ^ 32)

include h hs hld hcc hr hlt

theorem relist
    (hu : ∃ live : List ℕ, live.Nodup ∧ (∀ x, x ∈ live ↔ mem' x ∨ 0 < held'.count x) ∧ l'.usage = l.total live)
    (hn : gone'.Nodup) (hg : ∀ x, x ∈ gone' ↔ x ∈ acc ∧ ¬ mem' x ∧ held'.count x = 0)
    (ha : ∀ x, mem' x ∨ 0 < held'.count x → x ∈ acc) : Shape l' mem' gone' held' acc off' := by
  refine ⟨?_, ?_, ?_, ?_, hcc, hr, hlt, ?_, ?_, ?_, hn, hg, ha⟩
  · rw [hs.low, hs.high]
    exact h.nodup
  · rw [hs.low, hs.high]
    exact fun x => (h.mem_list x).trans (hld x)
  · intro x hx
    rw [hs.low] at hx
    rw [hs.flag x (mem_append_left _ hx), h.low_flag x hx]
  · intro x hx
    rw [hs.high] at hx
    rw [hs.flag x (mem_append_right _ hx), h.high_flag x hx]
  · obtain ⟨live, hl, hmm, hu⟩ := hu
    exact ⟨live, hl, hmm, hu.trans (hs.total live).symm⟩
  · rw [hs.lruUsage, hs.low, hs.high, hs.total, h.lruUsage]
  · rw [hs.highUsage, hs.high, hs.total, h.highUsage]

theorem keep (hu : l'.usage = l.usage) (hl : ∀ x, mem' x ∨ 0 < held'.count x ↔ mem x ∨ 0 < held.count x) :
    Shape l' mem' gone held' acc off' := by
  refine h.relist hs hld hcc hr hlt ?_ h.gone_nodup ?_ fun x hx => h.accepted x ((hl x).mp hx)
  · obtain ⟨live, hn, hmm, heq⟩ := h.usage
    exact ⟨live, hn, fun x => (hmm x).trans (hl x).symm, hu.trans heq⟩
  · intro x
    rw [h.mem_gone, gone_iff, gone_iff, hl]

theorem letGo (he : mem e ∨ 0 < held.count e) (hu : l'.usage = l.usage - l.chargeOf e)
    (hl : ∀ x, mem' x ∨ 0 < held'.count x ↔ x ≠ e ∧ (mem x ∨ 0 < held.count x)) :
    Shape l' mem' (gone ++ [e]) held' acc off' := by
  refine h.relist hs hld hcc hr hlt ?_ ?_ ?_ fun x hx => h.accepted x ((hl x).mp hx).2
  · obtain ⟨live, hn, hmm, heq⟩ := h.usage
    refine ⟨live.erase e, hn.erase e, ?_, ?_⟩
    · intro x
      rw [hn.mem_erase_iff, hmm, hl]
    · rw [hu, heq, total_erase ((hmm e).mpr he), Nat.add_sub_cancel_left]
  · apply nodup_append_singleton h.gone_nodup
    intro hg
    exact gone_iff.mp ((h.mem_gone e).mp hg).2 he
  · intro x
    rw [mem_append, mem_singleton, h.mem_gone, gone_iff, gone_iff, hl]
    by_cases hxe : x = e
    · subst hxe
      simp [h.accepted x he]
    · simp [hxe]

end

theorem lruRemove (h : Shape l mem gone held acc none) (he : e ∈ l.low ++ l.high) :
    Shape (l.lruRemove e) mem gone held acc (some e) := by
  have hn := h.nodup
  have hl : l.low.Nodup := (nodup_append.mp hn).1
  have hh : l.high.Nodup := (nodup_append.mp hn).2.1
  have hls : l.low.erase e ++ l.high.erase e = (l.low ++ l.high).erase e := by
    rw [erase_append]
    split
    · rename_i hlw
      rw [erase_of_not_mem (h.notMem_high hlw)]
    · rename_i hlw
      rw [erase_of_not_mem hlw]
  refine ⟨?_, ?_, ?_, ?_, h.inCache, h.refs, h.count_lt, h.usage, ?_, ?_, h.gone_nodup, h.mem_gone, h.accepted⟩
  · change (l.low.erase e ++ l.high.erase e).Nodup
    rw [hls]
    exact hn.erase e
  · intro x
    change x ∈ l.low.erase e ++ l.high.erase e ↔ _
    rw [hls, hn.mem_erase_iff, h.mem_list]
    constructor
    · rintro ⟨hne, hmm, hcn, -⟩
      exact ⟨hmm, hcn, fun h => hne (Option.some.inj h).symm⟩
    · rintro ⟨hmm, hcn, hne⟩
      exact ⟨fun h => hne (h ▸ rfl), hmm, hcn, nofun⟩
  · exact fun x hx => h.low_flag x (mem_of_mem_erase hx)
  · exact fun x hx => h.high_flag x (mem_of_mem_erase hx)
  · change l.lruUsage - l.chargeOf e = l.total (l.low.erase e ++ l.high.erase e)
    rw [hls, h.lruUsage, total_erase he, Nat.add_sub_cancel_left]
  · change (if (l.handles e).inHighPriPool then l.highPriPoolUsage - l.chargeOf e else l.highPriPoolUsage) =
      l.total (l.high.erase e)
    rcases mem_append.mp he with hlw | hhg
    · rw [h.low_flag e hlw, erase_of_not_mem (h.notMem_high hlw)]
      exact h.highUsage
    · rw [h.high_flag e hhg, if_pos rfl, h.highUsage, total_erase hhg, Nat.add_sub_cancel_left]

section

variable (h : Shape l mem gone held acc off)

include h

theorem repool {b : Bool} (hh : l'.handles = (l.setInHighPriPool e b).handles) (hu : l'.usage = l.usage)
    (hn : (l'.low ++ l'.high).Nodup) (hl : ∀ x, x ∈ l'.low ++ l'.high ↔ mem x ∧ held.count x = 0 ∧ off' ≠ some x)
    (hlw : ∀ x ∈ l'.low, x ≠ e ∧ x ∈ l.low ∨ x = e ∧ b = false)
    (hhg : ∀ x ∈ l'.high, x ≠ e ∧ x ∈ l.high ∨ x = e ∧ b = true) (hlr : l'.lruUsage = l.total (l'.low ++ l'.high))
    (hpl : l'.highPriPoolUsage = l.total l'.high) :
    Shape l' mem gone held acc off' := by
  have hf {x : ℕ} {es : List ℕ} {flag : Bool} (hes : ∀ x ∈ es, (l.handles x).inHighPriPool = flag)
      (hx : x ≠ e ∧ x ∈ es ∨ x = e ∧ b = flag) : (l'.handles x).inHighPriPool = flag := by
    rw [hh, LRULists.setInHighPriPool]
    rcases hx with ⟨hne, hx⟩ | ⟨rfl, rfl⟩
    · rw [handles_modify_of_ne hne, hes x hx]
    · rw [handles_modify_self]
  have hpr {α : Type} (p : LRUHandle κ → α) (hp : ∀ h, p { h with inHighPriPool := b } = p h) (x : ℕ) :
      p (l'.handles x) = p (l.handles x) := by
    rw [hh]
    exact proj_modify p hp x
  have ht : l'.total = l.total := by
    funext es
    exact congrArg sum (map_congr_left fun x _ => hpr LRUHandle.calcTotalCharge (fun _ => rfl) x)
  refine ⟨hn, hl, fun x hx => hf h.low_flag (hlw x hx), fun x hx => hf h.high_flag (hhg x hx), ?_, ?_,
    h.count_lt, ?_, by rw [ht, hlr], by rw [ht, hpl], h.gone_nodup, h.mem_gone, h.accepted⟩
  · intro x hx
    rw [hpr LRUHandle.inCache fun _ => rfl]
    exact h.inCache x hx
  · intro x
    rw [hpr LRUHandle.refs fun _ => rfl]
    exact h.refs x
  · rw [ht, hu]
    exact h.usage

theorem overflow {rest : List ℕ} (hhg : l.high = e :: rest) : Shape (l.overflow e rest) mem gone held acc off := by
  have hl : l.low ++ [e] ++ rest = l.low ++ l.high := by rw [hhg, append_assoc]; rfl
  have hn := h.nodup
  rw [hhg, nodup_append, nodup_cons] at hn
  have hh : (l.overflow e rest).handles = (l.setInHighPriPool e false).handles := rfl
  apply h.repool hh rfl
  · change (l.low ++ [e] ++ rest).Nodup
    rw [hl]
    exact h.nodup
  · change ∀ x, x ∈ l.low ++ [e] ++ rest ↔ _
    rw [hl]
    exact h.mem_list
  · intro x hx
    rcases mem_append.mp hx with hlw | hsl
    · exact .inl ⟨hn.2.2 x hlw e mem_cons_self, hlw⟩
    · exact .inr ⟨mem_singleton.mp hsl, rfl⟩
  · intro x hx
    refine .inl ⟨?_, by rw [hhg]; exact mem_cons_of_mem e hx⟩
    rintro rfl
    exact hn.2.1.1 hx
  · change l.lruUsage = l.total (l.low ++ [e] ++ rest)
    rw [hl]
    exact h.lruUsage
  · change l.highPriPoolUsage - l.chargeOf e = l.total rest
    rw [h.highUsage, hhg, LRULists.total, map_cons, sum_cons, Nat.add_sub_cancel_left]
    rfl

theorem maintainPoolSize (cap : ℕ) : Shape (l.maintainPoolSize cap) mem gone held acc off := by
  have hl (pool : List ℕ) (l : LRULists κ) (h : Shape l mem gone held acc off) (hh : l.high = pool) :
      Shape (LRULists.maintainLoop cap pool l) mem gone held acc off := by
    induction pool generalizing l with
    | nil => exact h
    | cons e rest ih =>
      rw [LRULists.maintainLoop]
      split
      · exact ih _ (h.overflow hh) rfl
      · exact h
  exact hl _ l h rfl

end

end Shape

namespace LRULists

variable {κ : Type} {l : LRULists κ}

structure Maintained (l l' : LRULists κ) : Prop where
  list : l'.low ++ l'.high = l.low ++ l.high
  usage : l'.usage = l.usage
  tag : l'.tag = l.tag

theorem maintained_loop (cap : ℕ) (pool : List ℕ) (hp : l.high = pool) : Maintained l (maintainLoop cap pool l) := by
  induction pool generalizing l with
  | nil => exact ⟨rfl, rfl, rfl⟩
  | cons e rest ih =>
    rw [maintainLoop]
    split
    · obtain ⟨hl, hu, ht⟩ := ih (l := l.overflow e rest) rfl
      have hf : (l.overflow e rest).tag = l.tag :=
        tag_modify (f := fun h => { h with inHighPriPool := false }) ⟨rfl, rfl⟩
      refine ⟨hl.trans ?_, hu, ht.trans hf⟩
      change l.low ++ [e] ++ rest = _
      rw [hp, append_assoc]
      rfl
    · exact ⟨rfl, rfl, rfl⟩

theorem maintainLoop_lruUsage (cap n : ℕ) (pool : List ℕ) (l : LRULists κ) :
    { maintainLoop cap pool l with lruUsage := n } = maintainLoop cap pool { l with lruUsage := n } := by
  induction pool generalizing l with
  | nil => rfl
  | cons e rest ih =>
    rw [maintainLoop, maintainLoop]
    by_cases hm : cap < l.highPriPoolUsage
    · rw [if_pos hm, if_pos hm]
      exact ih (l.overflow e rest)
    · rw [if_neg hm, if_neg hm]

theorem maintainLoop_lruUsage_eq (cap : ℕ) (pool : List ℕ) (l : LRULists κ) :
    (maintainLoop cap pool l).lruUsage = l.lruUsage := by
  induction pool generalizing l with
  | nil => rfl
  | cons e rest ih =>
    rw [maintainLoop]
    split
    · exact ih (l.overflow e rest)
    · rfl

end LRULists

namespace Shape

variable {κ : Type} {l l' : LRULists κ} {mem mem' : ℕ → Prop} {gone gone' held held' acc : List ℕ}
  {off off' : Option ℕ} {e : ℕ}

theorem inCache_drop (h : Shape l mem gone held acc off) (hx : mem x ∨ 0 < held.count x) :
    ((l.setInCache e false).handles x).inCache = true ↔ mem x ∧ x ≠ e := by
  by_cases hxe : x = e
  · rw [hxe, LRULists.setInCache, handles_modify_self]
    simp
  · rw [LRULists.setInCache, handles_modify_of_ne hxe, h.inCache x hx]
    exact ⟨fun hx => ⟨hx, hxe⟩, And.left⟩

theorem refs_drop (h : Shape l mem gone held acc off) (x : ℕ) :
    ((l.setInCache e false).handles x).refs = UInt32.ofNat (held.count x) := by
  rw [LRULists.setInCache, proj_modify LRUHandle.refs (f := fun h => { h with inCache := false }) fun _ => rfl]
  exact h.refs x

section

variable (h : Shape l mem gone held acc (some e)) (hmm : mem e) (hcn : held.count e = 0)

include h hmm hcn

theorem push (high : Bool) :
    Shape { (if high then l.pushHigh e else l.pushLow e) with lruUsage := l.lruUsage + l.chargeOf e }
      mem gone held acc none := by
  have hn {x : ℕ} (hx : x ∈ l.low ++ l.high) : x ≠ e := fun hxe => ((h.mem_list x).mp hx).2.2 (hxe ▸ rfl)
  generalize hl' : { (if high then l.pushHigh e else l.pushLow e) with lruUsage := l.lruUsage + l.chargeOf e } = l'
  have hl : l'.low = (if high then l.low else l.low ++ [e]) ∧
      l'.high = (if high then l.high ++ [e] else l.high) ∧ l'.usage = l.usage ∧
      l'.lruUsage = l.lruUsage + l.chargeOf e ∧
      l'.highPriPoolUsage = (if high then l.highPriPoolUsage + l.chargeOf e else l.highPriPoolUsage) ∧
      l'.handles = (l.setInHighPriPool e high).handles := by
    subst hl'
    cases high <;> exact ⟨rfl, rfl, rfl, rfl, rfl, rfl⟩
  obtain ⟨hlw, hhg, hu, hlr, hpl, hh⟩ := hl
  have hp : (l'.low ++ l'.high).Perm (e :: (l.low ++ l.high)) := by
    rw [hlw, hhg]
    cases high with
    | true =>
      change (l.low ++ (l.high ++ [e])).Perm _
      rw [← append_assoc]
      exact perm_append_singleton e _
    | false =>
      change ((l.low ++ [e]) ++ l.high).Perm _
      rw [append_assoc]
      exact perm_middle
  apply h.repool hh hu (hp.nodup_iff.mpr (nodup_cons.mpr ⟨fun he => hn he rfl, h.nodup⟩))
  · intro x
    rw [hp.mem_iff, mem_cons, h.mem_list]
    constructor
    · rintro (rfl | ⟨hx, hx0, -⟩)
      · exact ⟨hmm, hcn, nofun⟩
      · exact ⟨hx, hx0, nofun⟩
    · rintro ⟨hx, hx0, -⟩
      by_cases hxe : x = e
      · exact Or.inl hxe
      · exact Or.inr ⟨hx, hx0, fun h => hxe (Option.some.inj h).symm⟩
  · intro x hx
    rw [hlw] at hx
    cases high with
    | true => exact .inl ⟨hn (mem_append_left _ hx), hx⟩
    | false =>
      rcases mem_append.mp (show x ∈ l.low ++ [e] from hx) with hx | hx
      · exact .inl ⟨hn (mem_append_left _ hx), hx⟩
      · exact .inr ⟨mem_singleton.mp hx, rfl⟩
  · intro x hx
    rw [hhg] at hx
    cases high with
    | true =>
      rcases mem_append.mp (show x ∈ l.high ++ [e] from hx) with hx | hx
      · exact .inl ⟨hn (mem_append_right _ hx), hx⟩
      · exact .inr ⟨mem_singleton.mp hx, rfl⟩
    | false => exact .inl ⟨hn (mem_append_right _ hx), hx⟩
  · rw [hlr, h.lruUsage]
    have hsm := (hp.map l.chargeOf).sum_nat
    rw [map_cons, sum_cons] at hsm
    rw [LRULists.total, LRULists.total, hsm, Nat.add_comm]
  · rw [hpl, hhg, h.highUsage]
    cases high with
    | true => simp [LRULists.total]
    | false => rfl

theorem lruInsert (rp : Bool) (cap : ℕ) : Shape (l.lruInsert rp cap e) mem gone held acc none := by
  rw [LRULists.lruInsert]
  split
  · have hp := (h.push hmm hcn true).maintainPoolSize cap
    have hl : ((l.pushHigh e).maintainPoolSize cap).lruUsage = l.lruUsage := LRULists.maintainLoop_lruUsage_eq cap _ _
    rw [hl, LRULists.maintainPoolSize, LRULists.maintainLoop_lruUsage]
    exact hp
  · exact h.push hmm hcn false

theorem drop :
    Shape { l.setInCache e false with usage := l.usage - l.chargeOf e } (fun x => mem x ∧ x ≠ e) (gone ++ [e])
      held acc none := by
  obtain ⟨hc, -, -, -, -, hf⟩ :=
    SameList.modify (l := l) (e := e) (f := fun h => { h with inCache := false }) (fun _ => rfl) fun _ => rfl
  refine h.letGo ⟨hc, rfl, rfl, rfl, rfl, hf⟩ ?_ ?_ h.refs_drop h.count_lt (Or.inl hmm) rfl ?_
  · intro x
    simp only [ne_eq, Option.some.injEq, reduceCtorEq, not_false_eq_true, and_true]
    grind
  · intro x hx
    change ((l.setInCache e false).handles x).inCache = true ↔ _
    exact h.inCache_drop (hx.imp_left And.left)
  · intro x
    have hne : 0 < held.count x → x ≠ e := by
      rintro hp rfl
      omega
    tauto

end

theorem detach (h : Shape l mem gone held acc none) (hcn : 0 < held.count e) :
    Shape (l.setInCache e false) (fun x => mem x ∧ x ≠ e) gone held acc none := by
  have hne {x : ℕ} (hx : held.count x = 0) : x ≠ e := by
    rintro rfl
    omega
  refine h.keep (SameList.modify (fun _ => rfl) fun _ => rfl) ?_ ?_ h.refs_drop h.count_lt rfl ?_
  · intro x
    have hx := @hne x
    tauto
  · exact fun x hx => h.inCache_drop (hx.imp_left And.left)
  · intro x
    by_cases hxe : x = e
    · subst hxe
      simp [hcn]
    · simp [hxe]

theorem count_cons_ne (hx : x ≠ e) : (e :: held).count x = held.count x := count_cons_of_ne (Ne.symm hx)

theorem unref_inCache (l : LRULists κ) (e x : ℕ) : ((l.unref e).handles x).inCache = (l.handles x).inCache :=
  proj_modify LRUHandle.inCache (f := fun h => { h with refs := h.refs - 1 }) (fun _ => rfl) x

section

variable (h : Shape l mem gone held acc off)

include h

theorem ref (ho : off = some e ∨ off = none ∧ 0 < held.count e) (hl : mem e ∨ 0 < held.count e)
    (hlt : held.count e + 1 < 2 ^ 32) (hit : Bool) :
    Shape (l.modify e fun h => { h with refs := h.refs + 1, hasHit := hit }) mem gone (e :: held) acc none := by
  have hp (x : ℕ) : (mem x ∨ 0 < (e :: held).count x) ↔ mem x ∨ 0 < held.count x := by
    by_cases hxe : x = e
    · subst hxe
      exact ⟨fun _ => hl, fun _ => Or.inr (by rw [count_cons_self]; omega)⟩
    · rw [count_cons_ne hxe]
  refine h.keep (SameList.modify (fun _ => rfl) fun _ => rfl) ?_ ?_ ?_ ?_ rfl hp
  · intro x
    by_cases hxe : x = e
    · subst hxe
      rw [count_cons_self]
      rcases ho with rfl | ⟨-, hh⟩
      · simp
      · omega
    · have hne : off ≠ some x := by
        rcases ho with rfl | ⟨rfl, -⟩
        · exact fun h => hxe (Option.some.inj h).symm
        · exact nofun
      simp [count_cons_ne hxe, hne]
  · intro x hx
    rw [proj_modify LRUHandle.inCache (f := fun h => { h with refs := h.refs + 1, hasHit := hit }) fun _ => rfl]
    exact h.inCache x ((hp x).mp hx)
  · intro x
    by_cases hxe : x = e
    · rw [hxe, handles_modify_self, count_cons_self]
      change (l.handles e).refs + 1 = _
      rw [h.refs e, UInt32.ofNat_add]
      rfl
    · rw [handles_modify_of_ne hxe, count_cons_ne hxe]
      exact h.refs x
  · intro x
    by_cases hxe : x = e
    · rw [hxe, count_cons_self]
      exact hlt
    · rw [count_cons_ne hxe]
      exact h.count_lt x

theorem unref_refs (hp : 0 < held.count e) (x : ℕ) :
    ((l.unref e).handles x).refs = UInt32.ofNat ((held.erase e).count x) := by
  by_cases hxe : x = e
  · subst hxe
    have hsl : ((l.unref x).handles x).refs = (l.handles x).refs - 1 := by
      rw [LRULists.unref, handles_modify_self]
    rw [hsl, count_erase_self, h.refs x, UInt32.ofNat_sub hp]
    rfl
  · have ho : (l.unref e).handles x = l.handles x := handles_modify_of_ne hxe
    rw [ho, count_erase_of_ne hxe]
    exact h.refs x

theorem count_erase_lt (e x : ℕ) : (held.erase e).count x < 2 ^ 32 :=
  Nat.lt_of_le_of_lt (erase_sublist.count_le x) (h.count_lt x)

theorem alloc (hnw : e ∉ acc) (handle : LRUHandle κ) (hr : handle.refs = 0) :
    Shape (l.modify e fun _ => handle) mem gone held acc off := by
  have hd : ¬ (mem e ∨ 0 < held.count e) := fun hl => hnw (h.accepted e hl)
  have ho {x : ℕ} (hx : mem x ∨ 0 < held.count x) : (l.modify e fun _ => handle).handles x = l.handles x := by
    apply handles_modify_of_ne
    rintro rfl
    exact hd hx
  have hld {x : ℕ} (hx : x ∈ l.low ++ l.high) : mem x ∨ 0 < held.count x := Or.inl ((h.mem_list x).mp hx).1
  have ht {es : List ℕ} (hes : ∀ x ∈ es, mem x ∨ 0 < held.count x) :
      (l.modify e fun _ => handle).total es = l.total es := by
    rw [LRULists.total, LRULists.total]
    congr 1
    apply map_congr_left
    intro x hx
    rw [chargeOf, ho (hes x hx)]
    rfl
  refine ⟨h.nodup, h.mem_list, ?_, ?_, ?_, ?_, h.count_lt, ?_, ?_, ?_, h.gone_nodup, h.mem_gone, h.accepted⟩
  · intro x hx
    rw [ho (hld (mem_append_left _ hx))]
    exact h.low_flag x hx
  · intro x hx
    rw [ho (hld (mem_append_right _ hx))]
    exact h.high_flag x hx
  · intro x hx
    rw [ho hx]
    exact h.inCache x hx
  · intro x
    by_cases hxe : x = e
    · subst hxe
      have hz : held.count x = 0 := by
        by_contra hne
        exact hd (Or.inr (Nat.pos_of_ne_zero hne))
      rw [handles_modify_self, hr, hz]
      rfl
    · rw [handles_modify_of_ne hxe]
      exact h.refs x
  · obtain ⟨live, hn, hl, hu⟩ := h.usage
    exact ⟨live, hn, hl, hu.trans (ht fun x hx => (hl x).mp hx).symm⟩
  · exact h.lruUsage.trans (ht fun x hx => hld hx).symm
  · exact h.highUsage.trans (ht fun x hx => hld (mem_append_right _ hx)).symm

theorem bounce (hn : e ∉ acc) : Shape l mem (gone ++ [e]) held (e :: acc) off := by
  have hd : ¬ (mem e ∨ 0 < held.count e) := fun hl => hn (h.accepted e hl)
  refine ⟨h.nodup, h.mem_list, h.low_flag, h.high_flag, h.inCache, h.refs, h.count_lt, h.usage, h.lruUsage,
    h.highUsage, ?_, ?_, fun x hx => mem_cons_of_mem _ (h.accepted x hx)⟩
  · exact nodup_append_singleton h.gone_nodup fun he => hn ((h.mem_gone e).mp he).1
  · intro x
    rw [mem_append, mem_singleton, h.mem_gone, mem_cons]
    by_cases hxe : x = e
    · subst hxe
      simp only [or_true, true_or, true_and, true_iff]
      exact ⟨fun hx => hd (Or.inl hx), Nat.eq_zero_of_not_pos fun hx => hd (Or.inr hx)⟩
    · simp [hxe]

end

section

variable (h : Shape l mem gone held acc none)

include h

theorem unref (hp : 0 < held.count e) (hls : held.count e = 1 → mem e) :
    Shape (l.unref e) mem gone (held.erase e) acc (if held.count e = 1 then some e else none) := by
  have hl (x : ℕ) : (mem x ∨ 0 < (held.erase e).count x) ↔ mem x ∨ 0 < held.count x := by
    by_cases hxe : x = e
    · subst hxe
      rw [count_erase_self]
      by_cases hon : held.count x = 1
      · simp [hls hon]
      · constructor
        · exact fun _ => Or.inr hp
        · exact fun _ => Or.inr (by omega)
    · rw [count_erase_of_ne hxe]
  refine h.keep (SameList.modify (fun _ => rfl) fun _ => rfl) ?_ ?_ (h.unref_refs hp) (h.count_erase_lt e) rfl hl
  · intro x
    by_cases hxe : x = e
    · subst hxe
      rw [count_erase_self]
      have hne : held.count x ≠ 0 := by omega
      simp only [hne, false_and, and_false, false_iff]
      rintro ⟨-, hz, ho⟩
      exact ho (if_pos (by omega))
    · have ho : (if held.count e = 1 then some e else none) ≠ some x := by
        split
        · exact fun h => hxe (Option.some.inj h).symm
        · exact nofun
      simp [count_erase_of_ne hxe, ho]
  · intro x hx
    rw [unref_inCache]
    exact h.inCache x ((hl x).mp hx)

theorem unref_gone (ho : held.count e = 1) (hmm : ¬ mem e) :
    Shape { l.unref e with usage := l.usage - l.chargeOf e } mem (gone ++ [e]) (held.erase e) acc none := by
  have hp : 0 < held.count e := by omega
  have hl (x : ℕ) : (mem x ∨ 0 < (held.erase e).count x) ↔ x ≠ e ∧ (mem x ∨ 0 < held.count x) := by
    by_cases hxe : x = e
    · subst hxe
      simp [hmm, count_erase_self, ho]
    · simp [hxe, count_erase_of_ne hxe]
  obtain ⟨hc, -, -, -, -, hf⟩ :=
    SameList.modify (l := l) (e := e) (f := fun h => { h with refs := h.refs - 1 }) (fun _ => rfl) fun _ => rfl
  refine h.letGo ⟨hc, rfl, rfl, rfl, rfl, hf⟩ ?_ ?_ (h.unref_refs hp) (h.count_erase_lt e) (Or.inr hp) rfl hl
  · intro x
    by_cases hxe : x = e
    · subst hxe
      simp [hmm]
    · rw [count_erase_of_ne hxe]
  · intro x hx
    change ((l.unref e).handles x).inCache = true ↔ _
    rw [unref_inCache]
    exact h.inCache x ((hl x).mp hx).2

theorem accept (hnw : e ∉ acc) (hcc : (l.handles e).inCache = true) :
    Shape { l with usage := l.usage + l.chargeOf e } (fun x => x = e ∨ mem x) gone held (e :: acc) (some e) := by
  have hd : ¬ (mem e ∨ 0 < held.count e) := fun hl => hnw (h.accepted e hl)
  have hl {x : ℕ} (hx : (x = e ∨ mem x) ∨ 0 < held.count x) : x = e ∨ mem x ∨ 0 < held.count x := or_assoc.mp hx
  refine ⟨h.nodup, ?_, h.low_flag, h.high_flag, ?_, h.refs, h.count_lt, ?_, h.lruUsage, h.highUsage,
    h.gone_nodup, ?_, ?_⟩
  · intro x
    change x ∈ l.low ++ l.high ↔ _
    rw [h.mem_list]
    constructor
    · rintro ⟨hx, hx0, -⟩
      refine ⟨Or.inr hx, hx0, fun hxe => hd (Or.inl ?_)⟩
      exact Option.some.inj hxe ▸ hx
    · rintro ⟨rfl | hx, hx0, hne⟩
      · exact absurd rfl hne
      · exact ⟨hx, hx0, nofun⟩
  · intro x hx
    by_cases hxe : x = e
    · subst hxe
      exact ⟨fun _ => Or.inl rfl, fun _ => hcc⟩
    · rw [h.inCache x ((hl hx).resolve_left hxe)]
      exact ⟨Or.inr, fun hx => hx.resolve_left hxe⟩
  · obtain ⟨live, hn, hmm, hu⟩ := h.usage
    refine ⟨e :: live, nodup_cons.mpr ⟨fun he => hd ((hmm e).mp he), hn⟩, ?_, ?_⟩
    · intro x
      rw [mem_cons, hmm, or_assoc]
    · change l.usage + l.chargeOf e = l.total (e :: live)
      rw [hu, LRULists.total, LRULists.total, map_cons, sum_cons, Nat.add_comm]
  · intro x
    rw [h.mem_gone]
    by_cases hxe : x = e
    · subst hxe
      simp [hnw]
    · simp [hxe]
  · intro x hx
    rcases hl hx with rfl | hx
    · exact mem_cons_self
    · exact mem_cons_of_mem _ (h.accepted x hx)

theorem listed (hmm : mem e) (hh : ¬ 0 < held.count e) :
    (l.handles e).hasRefs = false ∧ held.count e = 0 ∧ e ∈ l.low ++ l.high := by
  have hz : held.count e = 0 := by omega
  refine ⟨?_, hz, (h.mem_list e).mpr ⟨hmm, hz, nofun⟩⟩
  rw [← Bool.not_eq_true, h.hasRefs_iff]
  exact hh

theorem leaveTable (hmm : mem e) :
    Shape (l.leaveTable e).1 (fun x => mem x ∧ x ≠ e) (gone ++ (l.leaveTable e).2) held acc none := by
  have hsl : (l.setInCache e false).handles e = { l.handles e with inCache := false } :=
    handles_modify_self (f := fun h => { h with inCache := false })
  have hc := (setInCache_same l e false).2
  have hr : ((l.setInCache e false).handles e).hasRefs = (l.handles e).hasRefs := by rw [hsl]; rfl
  rw [LRULists.leaveTable]
  by_cases hh : 0 < held.count e
  · have ht := (h.hasRefs_iff e).mpr hh
    simp only [hr, ht, Bool.not_true, Bool.false_eq_true, if_false, append_nil]
    exact h.detach hh
  obtain ⟨hf, hz, hld⟩ := h.listed hmm hh
  simp only [hr, hf, Bool.not_false, if_true]
  have hd := (h.lruRemove hld).drop hmm hz
  refine hd.keep ⟨rfl, rfl, rfl, ?_, ?_, fun _ _ => rfl⟩ (fun _ => Iff.rfl) hd.inCache hd.refs hd.count_lt ?_
    fun _ => Iff.rfl
  · change l.lruUsage - (l.setInCache e false).chargeOf e = l.lruUsage - l.chargeOf e
    rw [hc]
  · change (if ((l.setInCache e false).handles e).inHighPriPool then
        l.highPriPoolUsage - (l.setInCache e false).chargeOf e else l.highPriPoolUsage) =
      if (l.handles e).inHighPriPool then l.highPriPoolUsage - l.chargeOf e else l.highPriPoolUsage
    rw [hc, hsl]
  · change l.usage - (l.setInCache e false).chargeOf e = l.usage - l.chargeOf e
    rw [hc]

end

theorem charge_le_usage (h : Shape l mem gone held acc off) (hl : mem e ∨ 0 < held.count e) :
    l.chargeOf e ≤ l.usage := by
  obtain ⟨live, -, hmm, hu⟩ := h.usage
  rw [hu, total_erase ((hmm e).mpr hl)]
  exact Nat.le_add_right _ _

end Shape

end ZenFSPlus.Cache
