import Mathlib.Data.List.Basic

/-!
`BinaryHeap`. `cmp` is the less-than of the elements and the top is a greatest one; both sifts move a
hole to where the value belongs.
-/

namespace ZenFSPlus.Util

open List

variable {α : Type}

structure BinaryHeap (α : Type) where
  data : List α := []
  /-- `none` is `port::kMaxSizet`. -/
  rootCmpCache : Option ℕ := none

namespace BinaryHeap

section

variable (cmp : α → α → Bool)

def getParent (index : ℕ) : ℕ := (index - 1) / 2

def getLeft (index : ℕ) : ℕ := 2 * index + 1

def upheap (v : α) (data : List α) (index : ℕ) : List α :=
  if 0 < index then
    match data[getParent index]? with
    | some p => if cmp p v then upheap v (data.set index p) (getParent index) else data.set index v
    | none => data.set index v
  else data.set index v
termination_by index
decreasing_by
  unfold getParent
  omega

def pickedChild (data : List α) (left : ℕ) : ℕ :=
  match data[left]?, data[left + 1]? with
  | some l, some r => if cmp l r then left + 1 else left
  | _, _ => left

theorem le_pickedChild (data : List α) (left : ℕ) : left ≤ pickedChild cmp data left := by
  unfold pickedChild
  split
  · split
    · exact Nat.le_succ left
    · exact Nat.le_refl left
  · exact Nat.le_refl left

theorem pickedChild_lt {data : List α} {left : ℕ} (h : left < data.length) :
    pickedChild cmp data left < data.length := by
  unfold pickedChild
  split
  · rename_i l r _ hr
    have hlt := (List.getElem?_eq_some_iff.mp hr).1
    split
    · exact hlt
    · exact h
  · exact h

def downheapLoop (v : α) (data : List α) (index : ℕ) : List α :=
  if getLeft index < data.length then
    match data[pickedChild cmp data (getLeft index)]? with
    | some c =>
      if cmp v c then downheapLoop v (data.set index c) (pickedChild cmp data (getLeft index))
      else data.set index v
    | none => data.set index v
  else data.set index v
termination_by data.length - index
decreasing_by
  have := le_pickedChild cmp data (getLeft index)
  unfold getLeft at *
  rw [length_set]
  omega

def rootChild (h : BinaryHeap α) : ℕ :=
  match h.rootCmpCache with
  | some c => if c < h.data.length then c else pickedChild cmp h.data 1
  | none => pickedChild cmp h.data 1

theorem rootChild_lt {h : BinaryHeap α} (hl : 1 < h.data.length) : h.rootChild cmp < h.data.length := by
  unfold rootChild
  split
  · split
    · assumption
    · exact pickedChild_lt cmp hl
  · exact pickedChild_lt cmp hl

def downheap (h : BinaryHeap α) (v : α) : BinaryHeap α :=
  if 1 < h.data.length then
    match h.data[h.rootChild cmp]? with
    | some c =>
      if cmp v c then ⟨downheapLoop cmp v (h.data.set 0 c) (h.rootChild cmp), none⟩
      else ⟨h.data.set 0 v, some (h.rootChild cmp)⟩
    | none => ⟨h.data.set 0 v, none⟩
  else ⟨h.data.set 0 v, none⟩

def push (h : BinaryHeap α) (v : α) : BinaryHeap α := ⟨upheap cmp v (h.data ++ [v]) h.data.length, none⟩

def top (h : BinaryHeap α) : Option α := h.data.head?

/-- `none` if the heap is empty, which is asserted not to happen. -/
def replaceTop (h : BinaryHeap α) (v : α) : Option (BinaryHeap α) :=
  if h.data.isEmpty then none else some (h.downheap cmp v)

def pop (h : BinaryHeap α) : Option (BinaryHeap α) :=
  match h.data.getLast? with
  | none => none
  | some v =>
    if h.data.dropLast.isEmpty then some ⟨[], none⟩
    else some (downheap cmp { h with data := h.data.dropLast } v)

end

def OrderedBut (cmp : α → α → Bool) (data : List α) (hole : ℕ → Prop) : Prop :=
  ∀ i a b, 0 < i → ¬ hole (getParent i) → data[getParent i]? = some a → data[i]? = some b → cmp a b = false

def Ordered (cmp : α → α → Bool) (data : List α) : Prop := OrderedBut cmp data fun _ => False

def Cached (cmp : α → α → Bool) (h : BinaryHeap α) : Prop :=
  ∀ c, h.rootCmpCache = some c → c < h.data.length → (c = 1 ∨ c = 2) ∧
    ∀ i a b, getParent i = 0 → 0 < i → h.data[c]? = some a → h.data[i]? = some b → cmp a b = false

structure Wf (cmp : α → α → Bool) (h : BinaryHeap α) : Prop where
  ordered : Ordered cmp h.data
  cached : Cached cmp h

structure Weak (cmp : α → α → Bool) : Prop where
  asymm : ∀ a b, cmp a b = true → cmp b a = false
  trans : ∀ a b c, cmp a b = false → cmp b c = false → cmp a c = false

variable {cmp cmp' : α → α → Bool} {data : List α} {h : BinaryHeap α} {v : α} {index : ℕ}

theorem Weak.irrefl (hw : Weak cmp) (a : α) : cmp a a = false := by
  cases haa : cmp a a with
  | false => rfl
  | true => exact haa.symm.trans (hw.asymm a a haa)

theorem wf_empty : Wf cmp {} := ⟨fun _ _ _ _ _ ha => by simp at ha, fun _ hc => by simp at hc⟩

theorem lt_of_getParent {i : ℕ} (hi : 0 < i) : getParent i < i := by
  unfold getParent
  omega

theorem getParent_eq {i p : ℕ} (hi : 0 < i) : getParent i = p ↔ i = getLeft p ∨ i = getLeft p + 1 := by
  unfold getParent getLeft
  omega

theorem Ordered.cmp_top (hw : Weak cmp) (ho : Ordered cmp data) {t : α} (ht : data.head? = some t) :
    ∀ (i : ℕ) x, data[i]? = some x → cmp t x = false := by
  have h0 : data[0]? = some t := by rw [← ht, head?_eq_getElem?]
  intro i
  induction i using Nat.strongRecOn with
  | ind i ih =>
    intro x hx
    by_cases hi : 0 < i
    · have hlt := lt_of_getParent hi
      have hl := (List.getElem?_eq_some_iff.mp hx).1
      obtain ⟨p, hp⟩ : ∃ p, data[getParent i]? = some p :=
        ⟨_, List.getElem?_eq_getElem (show getParent i < data.length by omega)⟩
      exact hw.trans t p x (ih _ hlt p hp) (ho i p x hi (fun h => h) hp hx)
    · obtain rfl : i = 0 := by omega
      rw [h0] at hx
      cases hx
      exact hw.irrefl t

theorem Wf.cmp_top (hw : Weak cmp) (hh : h.Wf cmp) {t x : α} (ht : h.top = some t) (hx : x ∈ h.data) :
    cmp t x = false := by
  obtain ⟨i, hi⟩ := mem_iff_getElem?.mp hx
  exact hh.ordered.cmp_top hw ht i x hi

theorem swap_perm {i j : ℕ} {x : α} (hi : i < data.length) (hj : data[j]? = some x) (hij : i ≠ j) :
    ((data.set i x).set j v).Perm (data.set i v) := by
  obtain ⟨hjl, rfl⟩ := List.getElem?_eq_some_iff.mp hj
  have hp := set_set_perm (show i < (data.set i v).length by simpa) (show j < (data.set i v).length by simpa)
  rwa [getElem_set_self, getElem_set_ne hij, set_set] at hp

theorem upheap_perm (hi : index < data.length) : (upheap cmp v data index).Perm (data.set index v) := by
  induction data, index using upheap.induct cmp v with
  | case1 data index hps p hp hc ih =>
    have hlt := lt_of_getParent hps
    rw [upheap, if_pos hps, hp]
    simp only [hc, if_true]
    refine (ih (by rw [length_set]; omega)).trans ?_
    exact swap_perm hi hp (by omega)
  | case2 data index hps p hp hc =>
    rw [upheap, if_pos hps, hp]
    simp [hc, Perm.refl]
  | case3 data index hps hp =>
    rw [upheap, if_pos hps, hp]
  | case4 data index hps => rw [upheap, if_neg hps]

/-- With `v` in the hole only the pair above it may be out of order. -/
structure Rising (cmp : α → α → Bool) (v : α) (data : List α) (index : ℕ) : Prop where
  lt : index < data.length
  others : ∀ i a b, 0 < i → i ≠ index → (data.set index v)[getParent i]? = some a →
    (data.set index v)[i]? = some b → cmp a b = false
  grand : 0 < index → ∀ i a b, 0 < i → getParent i = index → data[getParent index]? = some a →
    data[i]? = some b → cmp a b = false

theorem Rising.finish (hr : Rising cmp v data index)
    (hs : 0 < index → ∀ p, data[getParent index]? = some p → cmp p v = false) :
    Ordered cmp (data.set index v) := by
  intro i a b hi _ ha hb
  by_cases hii : i = index
  · subst hii
    have hne : i ≠ getParent i := Nat.ne_of_gt (lt_of_getParent hi)
    rw [List.getElem?_set_ne hne] at ha
    rw [List.getElem?_set_self hr.lt] at hb
    cases hb
    exact hs hi a ha
  · exact hr.others i a b hi hii ha hb

theorem Rising.up (hw : Weak cmp) (hr : Rising cmp v data index) (hps : 0 < index) {p : α}
    (hp : data[getParent index]? = some p) (hc : cmp p v = true) :
    Rising cmp v (data.set index p) (getParent index) := by
  have hlt := lt_of_getParent hps
  have ho {i : ℕ} {b : α} (hi : i ≠ index) (hip : i ≠ getParent index)
      (hb : ((data.set index p).set (getParent index) v)[i]? = some b) : data[i]? = some b := by
    rwa [List.getElem?_set_ne (Ne.symm hip), List.getElem?_set_ne (Ne.symm hi)] at hb
  have hol {i : ℕ} (hi : i ≠ index) : (data.set index v)[i]? = data[i]? := List.getElem?_set_ne (Ne.symm hi)
  constructor
  · rw [length_set]
    exact Nat.lt_trans hlt hr.lt
  · intro i a b hi hne ha hb
    by_cases hii : i = index
    · subst hii
      rw [List.getElem?_set_ne (by omega), List.getElem?_set_self hr.lt] at hb
      rw [List.getElem?_set_self (by rw [length_set]; exact Nat.lt_trans hlt hr.lt)] at ha
      cases ha
      cases hb
      exact hw.asymm _ _ hc
    · have hb' := ho hii hne hb
      by_cases hpi : getParent i = index
      · -- the parent of `i` is now the old parent of the hole
        rw [hpi, List.getElem?_set_ne (by omega), List.getElem?_set_self hr.lt] at ha
        cases ha
        exact hr.grand hps i p b hi hpi hp hb'
      · by_cases hpp : getParent i = getParent index
        · rw [hpp, List.getElem?_set_self (by rw [length_set]; exact Nat.lt_trans hlt hr.lt)] at ha
          cases ha
          have hpb : cmp p b = false :=
            hr.others i p b hi hii (by rw [hpp, hol (by omega)]; exact hp) (by rw [hol hii]; exact hb')
          exact hw.trans v p b (hw.asymm _ _ hc) hpb
        · have ha' := ho hpi hpp ha
          exact hr.others i a b hi hii (by rw [hol hpi]; exact ha') (by rw [hol hii]; exact hb')
  · intro hpp i a b hi hpi ha hb
    have hg := lt_of_getParent hpp
    have hpa : cmp a p = false := hr.others (getParent index) a p hpp (by omega)
        (by rw [hol (by omega)]; rwa [List.getElem?_set_ne (by omega)] at ha) (by rw [hol (by omega)]; exact hp)
    by_cases hii : i = index
    · rw [hii, List.getElem?_set_self hr.lt] at hb
      cases hb
      exact hpa
    · rw [List.getElem?_set_ne (Ne.symm hii)] at hb
      have hpb : cmp p b = false :=
        hr.others i p b hi hii (by rw [hpi, hol (by omega)]; exact hp) (by rw [hol hii]; exact hb)
      exact hw.trans a p b hpa hpb

theorem Rising.ordered (hw : Weak cmp) (hr : Rising cmp v data index) : Ordered cmp (upheap cmp v data index) := by
  induction data, index using upheap.induct cmp v with
  | case1 data index hps p hp hc ih =>
    rw [upheap, if_pos hps, hp]
    simp only [hc, if_true]
    exact ih (hr.up hw hps hp hc)
  | case2 data index hps p hp hc =>
    rw [upheap, if_pos hps, hp]
    simp only [hc, Bool.false_eq_true, if_false]
    apply hr.finish
    intro _ q hq
    rw [hp] at hq
    cases hq
    simpa using hc
  | case3 data index hps hp =>
    rw [upheap, if_pos hps, hp]
    apply hr.finish
    intro _ q hq
    simp [hp] at hq
  | case4 data index hps =>
    rw [upheap, if_neg hps]
    exact hr.finish fun h => absurd h hps

theorem push_perm (h : BinaryHeap α) (v : α) : (h.push cmp v).data.Perm (v :: h.data) := by
  refine (upheap_perm (by simp)).trans ?_
  rw [set_append_right _ _ (Nat.le_refl _), Nat.sub_self, set_cons_zero]
  exact perm_append_singleton v h.data

theorem Wf.push (hw : Weak cmp) (hh : h.Wf cmp) (v : α) : (h.push cmp v).Wf cmp := by
  refine ⟨Rising.ordered hw ⟨by simp, ?_, ?_⟩, fun c hc => by simp [BinaryHeap.push] at hc⟩
  · intro i a b hi hne ha hb
    have hs : (h.data ++ [v]).set h.data.length v = h.data ++ [v] := by
      rw [set_append_right _ _ (Nat.le_refl _), Nat.sub_self, set_cons_zero]
    rw [hs] at ha hb
    have hlt := (List.getElem?_eq_some_iff.mp hb).1
    rw [length_append, length_singleton] at hlt
    have hp := lt_of_getParent hi
    rw [List.getElem?_append_left (by omega)] at ha hb
    exact hh.ordered i a b hi (fun h => h) ha hb
  · intro _ i a b hi hp _ hb
    have hlt := (List.getElem?_eq_some_iff.mp hb).1
    have hip := lt_of_getParent hi
    rw [length_append, length_singleton] at hlt
    omega

structure Sinking (cmp : α → α → Bool) (v : α) (data : List α) (index : ℕ) : Prop where
  lt : index < data.length
  others : ∀ i a b, 0 < i → getParent i ≠ index → (data.set index v)[getParent i]? = some a →
    (data.set index v)[i]? = some b → cmp a b = false
  grand : 0 < index → ∀ i a b, 0 < i → getParent i = index → data[getParent index]? = some a →
    data[i]? = some b → cmp a b = false

theorem Sinking.finish (hs : Sinking cmp v data index)
    (hst : ∀ i b, 0 < i → getParent i = index → data[i]? = some b → cmp v b = false) :
    Ordered cmp (data.set index v) := by
  intro i a b hi _ ha hb
  by_cases hpi : getParent i = index
  · have hlt := lt_of_getParent hi
    rw [hpi, List.getElem?_set_self hs.lt] at ha
    rw [List.getElem?_set_ne (by omega)] at hb
    cases ha
    exact hst i b hi hpi hb
  · exact hs.others i a b hi hpi ha hb

def Best (cmp : α → α → Bool) (data : List α) (index picked : ℕ) : Prop :=
  0 < picked ∧ getParent picked = index ∧
    ∀ i a b, 0 < i → getParent i = index → data[picked]? = some a → data[i]? = some b → cmp a b = false

section

variable (hw : Weak cmp)

include hw

theorem best_pickedChild (data : List α) (index : ℕ) : Best cmp data index (pickedChild cmp data (getLeft index)) := by
  have hc {i : ℕ} (h : i = getLeft index ∨ i = getLeft index + 1) : 0 < i ∧ getParent i = index := by
    have hi : 0 < i := by
      unfold getLeft at h
      omega
    exact ⟨hi, (getParent_eq hi).mpr h⟩
  unfold pickedChild
  split
  · rename_i l r hl hr
    split
    · rename_i hcm
      refine ⟨(hc (.inr rfl)).1, (hc (.inr rfl)).2, ?_⟩
      intro i a b hi hp ha hb
      rw [hr] at ha
      cases ha
      rcases (getParent_eq hi).mp hp with rfl | rfl
      · rw [hl] at hb
        cases hb
        exact hw.asymm _ _ hcm
      · rw [hr] at hb
        cases hb
        exact hw.irrefl _
    · rename_i hcm
      refine ⟨(hc (.inl rfl)).1, (hc (.inl rfl)).2, ?_⟩
      intro i a b hi hp ha hb
      rw [hl] at ha
      cases ha
      rcases (getParent_eq hi).mp hp with rfl | rfl
      · rw [hl] at hb
        cases hb
        exact hw.irrefl _
      · rw [hr] at hb
        cases hb
        simpa using hcm
  · rename_i hn
    refine ⟨(hc (.inl rfl)).1, (hc (.inl rfl)).2, ?_⟩
    intro i a b hi hp ha hb
    rcases (getParent_eq hi).mp hp with rfl | rfl
    · rw [ha] at hb
      cases hb
      exact hw.irrefl _
    · exact (hn a b ha hb).elim

theorem Sinking.down (hs : Sinking cmp v data index) {picked : ℕ} {c : α} (hbs : Best cmp data index picked)
    (hc : data[picked]? = some c) (hcm : cmp v c = true) :
    Sinking cmp v (data.set index c) picked := by
  obtain ⟨hps, hpr, hm⟩ := hbs
  have hlt := lt_of_getParent hps
  have hcl := (List.getElem?_eq_some_iff.mp hc).1
  have ho {i : ℕ} (hi : i ≠ index) : (data.set index v)[i]? = data[i]? := List.getElem?_set_ne (Ne.symm hi)
  have hn {i : ℕ} (hi : i ≠ picked) : ((data.set index c).set picked v)[i]? = (data.set index c)[i]? :=
    List.getElem?_set_ne (Ne.symm hi)
  constructor
  · rwa [length_set]
  · intro i a b hi hpi ha hb
    rw [hn hpi] at ha
    by_cases hip : i = picked
    · subst hip
      rw [List.getElem?_set_self (by rwa [length_set])] at hb
      rw [hpr, List.getElem?_set_self hs.lt] at ha
      cases ha
      cases hb
      exact hw.asymm _ _ hcm
    · rw [hn hip] at hb
      by_cases hii : i = index
      · rw [hii, List.getElem?_set_self hs.lt] at hb
        cases hb
        have hip' : getParent i ≠ index := by
          have := lt_of_getParent hi
          omega
        rw [List.getElem?_set_ne (Ne.symm hip')] at ha
        exact hs.grand (by omega) picked a c hps hpr (by rwa [← hii]) hc
      · rw [List.getElem?_set_ne (Ne.symm hii)] at hb
        by_cases hp : getParent i = index
        · rw [hp, List.getElem?_set_self hs.lt] at ha
          cases ha
          exact hm i c b hi hp hc hb
        · rw [List.getElem?_set_ne (Ne.symm hp)] at ha
          exact hs.others i a b hi hp (by rwa [ho hp]) (by rwa [ho hii])
  · intro _ i a b hi hpi ha hb
    have hip := lt_of_getParent hi
    rw [hpr, List.getElem?_set_self hs.lt] at ha
    rw [List.getElem?_set_ne (by omega)] at hb
    cases ha
    exact hs.others i c b hi (by omega) (by rw [hpi, ho (by omega)]; exact hc) (by rwa [ho (by omega)])

theorem Best.cmp_of_not {picked : ℕ} {c : α} (hbs : Best cmp data index picked) (hc : data[picked]? = some c)
    (hcm : cmp v c = false) :
    ∀ i b, 0 < i → getParent i = index → data[i]? = some b → cmp v b = false :=
  fun i b hi hp hb => hw.trans v c b hcm (hbs.2.2 i c b hi hp hc hb)

theorem Sinking.ordered (hs : Sinking cmp v data index) :
    let r := downheapLoop cmp v data index
    Ordered cmp r ∧ r.Perm (data.set index v) := by
  induction data, index using downheapLoop.induct cmp v with
  | case1 data index hl c hc hcm ih =>
    have hbs := best_pickedChild hw data index
    rw [downheapLoop, if_pos hl, hc]
    simp only [hcm, if_true]
    obtain ⟨ho, hpr⟩ := ih (hs.down hw hbs hc hcm)
    refine ⟨ho, hpr.trans (swap_perm hs.lt hc ?_)⟩
    have := lt_of_getParent hbs.1
    rw [hbs.2.1] at this
    omega
  | case2 data index hl c hc hcm =>
    rw [downheapLoop, if_pos hl, hc]
    simp only [hcm, Bool.false_eq_true, if_false]
    exact ⟨hs.finish ((best_pickedChild hw data index).cmp_of_not hw hc (by simpa using hcm)), .refl _⟩
  | case3 data index hl hn =>
    have hlt := pickedChild_lt cmp hl
    rw [List.getElem?_eq_none_iff] at hn
    omega
  | case4 data index hl =>
    rw [downheapLoop, if_neg hl]
    refine ⟨hs.finish fun i b hi hp hb => ?_, .refl _⟩
    have hlt := (List.getElem?_eq_some_iff.mp hb).1
    have := (getParent_eq hi).mp hp
    omega

theorem Cached.best (hc : h.Cached cmp) : Best cmp h.data 0 (h.rootChild cmp) := by
  have hpc : Best cmp h.data 0 (pickedChild cmp h.data 1) := best_pickedChild hw h.data 0
  unfold rootChild
  split
  · rename_i c hcc
    split
    · rename_i hlt
      obtain ⟨h12, hm⟩ := hc c hcc hlt
      refine ⟨by omega, by unfold getParent; omega, fun i a b hi hp ha hb => hm i a b hp hi ha hb⟩
    · exact hpc
  · exact hpc

theorem downheap_spec (hne : 0 < h.data.length) (ho : OrderedBut cmp h.data (· = 0)) (hc : h.Cached cmp) (v : α) :
    (h.downheap cmp v).Wf cmp ∧ (h.downheap cmp v).data.Perm (h.data.set 0 v) := by
  have hbs := hc.best hw
  have hs : Sinking cmp v h.data 0 := by
    refine ⟨hne, fun i a b hi hp ha hb => ?_, fun h0 => absurd h0 (Nat.lt_irrefl 0)⟩
    rw [List.getElem?_set_ne (by omega)] at ha hb
    exact ho i a b hi hp ha hb
  have hf (hst : ∀ i b, 0 < i → getParent i = 0 → h.data[i]? = some b → cmp v b = false) :
      Ordered cmp (h.data.set 0 v) := hs.finish hst
  unfold downheap
  by_cases hl : 1 < h.data.length
  · rw [if_pos hl]
    cases hr : h.data[h.rootChild cmp]? with
    | none =>
      have hlt := rootChild_lt cmp hl
      rw [List.getElem?_eq_none_iff] at hr
      omega
    | some c =>
      simp only
      cases hcm : cmp v c with
      | true =>
        simp only [if_true]
        obtain ⟨hod, hpr⟩ := (hs.down hw hbs hr hcm).ordered hw
        refine ⟨⟨hod, fun c hc => by simp at hc⟩, hpr.trans (swap_perm hne hr ?_)⟩
        exact Nat.ne_of_lt hbs.1
      | false =>
        simp only [Bool.false_eq_true, if_false]
        refine ⟨⟨hf (hbs.cmp_of_not hw hr hcm), ?_⟩, .refl _⟩
        intro k hk _
        cases hk
        refine ⟨?_, fun i a b hp hi ha hb => ?_⟩
        · have := (getParent_eq hbs.1).mp hbs.2.1
          unfold getLeft at this
          omega
        · have hps := hbs.1
          rw [List.getElem?_set_ne (by omega)] at ha hb
          exact hbs.2.2 i a b hi hp ha hb
  · rw [if_neg hl]
    refine ⟨⟨hf fun i b hi hp hb => ?_, fun c hc => by simp at hc⟩, .refl _⟩
    have hlt := (List.getElem?_eq_some_iff.mp hb).1
    omega

end

theorem mem_tail_of_getElem? {i : ℕ} {a : α} (hi : 0 < i) (h : data[i]? = some a) : a ∈ data.tail := by
  rw [mem_iff_getElem?]
  refine ⟨i - 1, ?_⟩
  rw [List.getElem?_tail, Nat.sub_add_cancel hi]
  exact h

section

variable (hh : h.Wf cmp) (har : ∀ a ∈ h.data.tail, ∀ b ∈ h.data.tail, cmp' a b = cmp a b)

include hh har

theorem Wf.loosen {d : List α} (hd : ∀ (i : ℕ) a, d[i]? = some a → h.data[i]? = some a) :
    OrderedBut cmp' d (· = 0) ∧ Cached cmp' { h with data := d } := by
  have ht {i : ℕ} {a : α} (hi : 0 < i) (ha : d[i]? = some a) : a ∈ h.data.tail := mem_tail_of_getElem? hi (hd i a ha)
  constructor
  · intro i a b hi hp ha hb
    rw [har a (ht (Nat.pos_of_ne_zero hp) ha) b (ht hi hb)]
    exact hh.ordered i a b hi (fun h => h) (hd _ a ha) (hd i b hb)
  · intro c hc hlt
    have hlt' := (List.getElem?_eq_some_iff.mp (hd c _ (List.getElem?_eq_getElem hlt))).1
    obtain ⟨h12, hm⟩ := hh.cached c hc hlt'
    refine ⟨h12, fun i a b hp hi ha hb => ?_⟩
    rw [har a (ht (by omega) ha) b (ht hi hb)]
    exact hm i a b hp hi (hd c a ha) (hd i b hb)

theorem Wf.replaceTop (hw : Weak cmp') (hne : h.data ≠ []) (v : α) :
    ∃ h', h.replaceTop cmp' v = some h' ∧ h'.Wf cmp' ∧ h'.data.Perm (v :: h.data.tail) := by
  obtain ⟨ho, hc⟩ := hh.loosen har (fun _ _ ha => ha)
  obtain ⟨hwf, hp⟩ := downheap_spec hw (length_pos_iff.mpr hne) ho hc v
  refine ⟨_, ?_, hwf, ?_⟩
  · rw [BinaryHeap.replaceTop, if_neg (by simpa using hne)]
  · obtain ⟨t, rest, hd⟩ := exists_cons_of_ne_nil hne
    rw [hd] at hp ⊢
    exact hp

theorem Wf.pop (hw : Weak cmp') (hne : h.data ≠ []) :
    ∃ h', h.pop cmp' = some h' ∧ h'.Wf cmp' ∧ h'.data.Perm h.data.tail := by
  obtain ⟨t, rest, hd⟩ := exists_cons_of_ne_nil hne
  rw [BinaryHeap.pop, getLast?_eq_some_getLast hne]
  by_cases hr : rest = []
  · refine ⟨{}, ?_, wf_empty, ?_⟩
    · simp [hd, hr]
    · simp [hd, hr]
  have hdr : h.data.dropLast = t :: rest.dropLast := by rw [hd, dropLast_cons_of_ne_nil hr]
  obtain ⟨ho, hc⟩ := hh.loosen har (d := h.data.dropLast) fun i a ha => by
    rw [List.getElem?_dropLast] at ha
    split at ha
    · exact ha
    · cases ha
  obtain ⟨hwf, hp⟩ := downheap_spec (h := { h with data := h.data.dropLast }) hw
    (by rw [hdr]; exact Nat.succ_pos _) ho hc (h.data.getLast hne)
  refine ⟨_, ?_, hwf, hp.trans ?_⟩
  · simp [hdr]
  · have hl : h.data.getLast hne = rest.getLast hr := by simp only [hd, getLast_cons hr]
    rw [hdr, hl, hd, set_cons_zero, tail_cons]
    refine (perm_append_singleton _ _).symm.trans ?_
    rw [dropLast_append_getLast hr]

end

theorem Wf.congr (hh : h.Wf cmp) (har : ∀ a ∈ h.data, ∀ b ∈ h.data, cmp' a b = cmp a b) : h.Wf cmp' := by
  have hm {i : ℕ} {a : α} (ha : h.data[i]? = some a) : a ∈ h.data := mem_of_getElem? ha
  constructor
  · intro i a b hi _ ha hb
    rw [har a (hm ha) b (hm hb)]
    exact hh.ordered i a b hi (fun h => h) ha hb
  · intro c hc hlt
    obtain ⟨h12, hmx⟩ := hh.cached c hc hlt
    refine ⟨h12, fun i a b hp hi ha hb => ?_⟩
    rw [har a (hm ha) b (hm hb)]
    exact hmx i a b hp hi ha hb

end BinaryHeap

end ZenFSPlus.Util
