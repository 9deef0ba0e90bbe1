import ZenFSPlus.Zoad.RoundTrip

namespace ZenFSPlus.Zoad

open Lib List Function

namespace System

variable {s s1 s2 : System} {p bound k m m' : ℕ} {owners : List ℕ} {past : ℕ → ℕ → ℕ}

structure Took (s : System) (p bound k m : ℕ) (s' : System) : Prop where
  le : k + m ≤ bound
  dealt : Dealt s' bound (k + m)
  partitions : s'.partitions = update s.partitions p { s.partitions p with
    zoneVector := (s.partitions p).zoneVector ++ range' k m }

theorem Took.trans (h1 : s.Took p bound k m s1) (h2 : s1.Took p bound (k + m) m' s2) :
    s.Took p bound k (m + m') s2 := by
  refine ⟨?_, ?_, ?_⟩
  · rw [← add_assoc]
    exact h2.le
  · rw [← add_assoc]
    exact h2.dealt
  · rw [h2.partitions, h1.partitions]
    simp [update_idem, range'_append_1]

theorem took_zero (h : Dealt s bound k) (hk : k ≤ bound) : s.Took p bound k 0 s := ⟨hk, h, by simp⟩

theorem took_one (h : Dealt s bound k) (hk : k < bound) (hb : bound ≤ 2147483648) :
    s.Took p bound k 1 (s.allocZone p).2 := by
  refine ⟨hk, ?_, ?_⟩
  · simpa [hk] using (allocZone_dealt h hb p).2
  · rw [allocZone_of_lt h hk hb p]
    rfl

section

variable (h : Dealt s bound k) (hk : k ≤ bound) (hb : bound ≤ 2147483648)

include h hk hb

theorem took_of_allocTimes (hr : s.allocTimes p m = .ok s1) : s.Took p bound k m s1 := by
  by_cases hle : k + m ≤ bound
  · obtain ⟨s', hok, ha⟩ := allocTimes_of_le (p := p) h hb hle
    rw [hr] at hok
    cases hok
    exact ⟨hle, ha.dealt, ha.partitions⟩
  · rw [allocTimes_of_lt h hb hk (Nat.lt_of_not_le hle)] at hr
    cases hr

theorem took_of_allocMissing {cnt fuel i : ℕ} (hr : allocMissing p cnt fuel i s = .ok s1) :
    ∃ m, s.Took p bound k m s1 := by
  induction fuel generalizing i s k with
  | zero => cases hr
  | succ fuel ih =>
    rw [allocMissing] at hr
    split at hr
    · by_cases hlt : k < bound
      · have ho := took_one (p := p) h hlt hb
        rw [allocZone_of_lt h hlt hb p] at hr ho
        obtain ⟨m, hm⟩ := ih ho.dealt ho.le hr
        exact ⟨1 + m, ho.trans hm⟩
      · rw [allocZone_of_le h (not_lt.mp hlt)] at hr
        cases hr
    · cases hr
      exact ⟨0, took_zero h hk⟩

theorem took_of_prepareZones (hr : s.prepareZones p = .ok s1) : ∃ m, s.Took p bound k m s1 := by
  simp only [prepareZones] at hr
  split at hr
  · exact ⟨_, took_of_allocTimes h hk hb hr⟩
  · split at hr
    · exact took_of_allocMissing h hk hb hr
    · exact ⟨_, took_of_allocTimes h hk hb hr⟩

theorem took_of_growZones {izgCnt fuel cnt cnt' : ℕ} {tg : ℤ} {sizes sizes' : List ℕ}
    (hrn : growZones p izgCnt fuel tg sizes cnt s = .ok (sizes', cnt', s1)) :
    ∃ m, s.Took p bound k m s1 := by
  induction fuel generalizing tg sizes cnt s k with
  | zero => cases hrn
  | succ fuel ih =>
    rw [growZones] at hrn
    split at hrn
    · obtain ⟨s2, ha, hr⟩ := bind_eq_ok.mp hrn
      have ht := took_of_allocTimes h hk hb ha
      obtain ⟨m, hm⟩ := ih ht.dealt ht.le hr
      exact ⟨izgCnt + m, ht.trans hm⟩
    · cases hrn
      exact ⟨0, took_zero h hk⟩

theorem took_of_write {sid writeSize : ℕ} {buf : Slice UInt8} {intervals : List Interval}
    (hr : s.write p sid past buf writeSize = .ok (intervals, s1)) :
    ∃ m, s.Took p bound k m s1 := by
  obtain ⟨s2, hp, hw⟩ := bind_eq_ok.mp hr
  obtain ⟨m, ht⟩ := took_of_prepareZones h hk hb hp
  obtain ⟨_, -, hw⟩ := bind_eq_ok.mp hw
  obtain ⟨⟨sizes, cnt, s3⟩, hg, hw⟩ := bind_eq_ok.mp hw
  obtain ⟨_, -, hw⟩ := bind_eq_ok.mp hw
  obtain ⟨_, -, hw⟩ := bind_eq_ok.mp hw
  obtain ⟨m', ht'⟩ := took_of_growZones ht.dealt ht.le hb hg
  cases hw
  exact ⟨m + m', (ht.trans ht').le, (ht.trans ht').dealt, (ht.trans ht').partitions⟩

theorem took_of_append {u u' : Userdata} {buf : Slice UInt8} (hrn : u.append s past buf = .ok (s1, u')) :
    u'.partition = u.partition ∧ ∃ m, s.Took u.partition bound k m s1 := by
  obtain ⟨⟨intervals, s2⟩, hw, hr⟩ := bind_eq_ok.mp hrn
  cases hr
  exact ⟨rfl, took_of_write h hk hb hw⟩

end

structure Owned (s : System) (bound : ℕ) (owners : List ℕ) : Prop where
  le : owners.length ≤ bound
  dealt : Dealt s bound owners.length
  zones : ∀ p, (s.partitions p).zoneVector =
    (range owners.length).filter fun zone => owners[zone]? = some p

theorem filter_owners_append (owners : List ℕ) (p q m : ℕ) : (range (owners ++ replicate m q).length).filter
        (fun zone => (owners ++ replicate m q)[zone]? = some p) =
      (range owners.length).filter (fun zone => owners[zone]? = some p) ++
        if p = q then range' owners.length m else [] := by
  rw [length_append, length_replicate, range_eq_range', range_eq_range', ← range'_append_1, filter_append, zero_add]
  congr 1
  · apply filter_congr
    intro zone hz
    have hlt := (mem_range'_1.mp hz).2
    rw [List.getElem?_append_left (by omega)]
  · have hg (zone : ℕ) (hz : zone ∈ range' owners.length m) : (owners ++ replicate m q)[zone]? = some q := by
      obtain ⟨hle, hlt⟩ := mem_range'_1.mp hz
      rw [List.getElem?_append_right hle, List.getElem?_replicate, if_pos (by omega)]
    split
    · rename_i hp
      rw [filter_eq_self]
      intro zone hz
      simp [hg zone hz, hp]
    · rename_i hp
      rw [filter_eq_nil_iff]
      intro zone hz
      simp [hg zone hz, Ne.symm hp]

theorem Owned.took (h : s.Owned bound owners) (ht : s.Took p bound owners.length m s1) :
    s1.Owned bound (owners ++ replicate m p) := by
  have hl : (owners ++ replicate m p).length = owners.length + m := by simp
  refine ⟨hl ▸ ht.le, hl ▸ ht.dealt, fun q => ?_⟩
  rw [filter_owners_append, ht.partitions]
  by_cases hq : q = p
  · subst hq
    rw [update_self, if_pos rfl, h.zones]
  · rw [update_of_ne hq, if_neg hq, append_nil, h.zones]

def Qos (s : System) (p : ℕ) : Prop := (s.partitions p).mkFlag = qosPartition

instance (s : System) (p : ℕ) : Decidable (s.Qos p) := inferInstanceAs (Decidable (_ = _))

/-- No two partitions have zones of one group, and no partition has zones of more groups than it was
granted. -/
def Isolated (s : System) : Prop :=
  (∀ p q, s.Qos p → s.Qos q → p ≠ q → ∀ zone ∈ (s.partitions p).zoneVector,
    ∀ zone' ∈ (s.partitions q).zoneVector, zone % distance ≠ zone' % distance) ∧
  ∀ p, s.Qos p →
    ((s.partitions p).zoneVector.map (· % distance)).dedup.length ≤ (s.partitions p).izgCnt

/-- Calls of `alloc_zone` whose numbers agree modulo 32 are made by one partition, and the numbers of
the calls of a partition have at most `izg_cnt` rests modulo 32. -/
def Allotted (izgCnt : ℕ → ℕ) (owners : List ℕ) : Prop :=
  (∀ i < owners.length, ∀ j < owners.length, i % distance = j % distance → owners[i]? = owners[j]?) ∧
  ∀ p ∈ owners, (((range owners.length).filter fun i => owners[i]? = some p).map
    (· % distance)).dedup.length ≤ izgCnt p

instance (izgCnt : ℕ → ℕ) (owners : List ℕ) : Decidable (Allotted izgCnt owners) :=
  inferInstanceAs (Decidable (_ ∧ _))

theorem Owned.isolated_iff_disjoint (h : s.Owned bound owners) (hq : ∀ p ∈ owners, s.Qos p) :
    s.Isolated ↔ Allotted (fun p => (s.partitions p).izgCnt) owners := by
  have hm (p zone : ℕ) : zone ∈ (s.partitions p).zoneVector ↔ owners[zone]? = some p := by
    rw [h.zones, mem_filter, mem_range, decide_eq_true_iff]
    exact ⟨And.right, fun hz => ⟨(List.getElem?_eq_some_iff.mp hz).1, hz⟩⟩
  refine and_congr ⟨fun hi i hil j hj hij => ?_, fun ha p q _ _ hpq zone hz zone' hz' heq => ?_⟩
    ⟨fun hi p hp => ?_, fun ha p _ => ?_⟩
  · by_contra hne
    have hgi := List.getElem?_eq_getElem hil
    have hgj := List.getElem?_eq_getElem hj
    refine hi owners[i] owners[j] (hq _ (getElem_mem hil)) (hq _ (getElem_mem hj)) ?_
      i ((hm _ _).mpr hgi) j ((hm _ _).mpr hgj) hij
    intro ho
    exact hne (by rw [hgi, hgj, ho])
  · rw [hm] at hz hz'
    have ho := ha zone (List.getElem?_eq_some_iff.mp hz).1 zone' (List.getElem?_eq_some_iff.mp hz').1 heq
    rw [hz, hz'] at ho
    exact hpq (Option.some.inj ho)
  · rw [← h.zones]
    exact hi p (hq p hp)
  · rw [h.zones]
    by_cases hp : p ∈ owners
    · exact ha p hp
    have hn : (range owners.length).filter (fun i => owners[i]? = some p) = [] := by
      rw [filter_eq_nil_iff]
      intro i _ hi
      exact hp (mem_of_getElem? (of_decide_eq_true hi))
    rw [hn]
    exact Nat.zero_le _

structure MklpCall where
  readBuf : Mem UInt8
  uid : ℕ
  lpName : String
  iolevel : ℕ

def zMklps (s : System) (calls : List MklpCall) : System :=
  calls.foldl (fun s c => (s.zMklp c.readBuf c.uid c.lpName qosPartition c.iolevel).2) s

theorem mklp_zones (h : ∀ p, (s.partitions p).zoneVector = []) (rb : Mem UInt8)
    (lpName : String) (flags iolevel p : ℕ) :
    ((s.mklp rb lpName flags iolevel).2.partitions p).zoneVector = [] := by
  have ha := (s.allocIzg_frame flags iolevel).2
  unfold mklp
  cases hs : s.allocIzg flags iolevel with
  | mk cnt s' =>
    rw [hs] at ha
    dsimp only at ha ⊢
    split
    · rw [ha]
      exact h p
    dsimp only
    by_cases hp : p = s'.nextPartitionId
    · rw [hp, update_self]
    · rw [update_of_ne hp, ha]
      exact h p

theorem zMklp_zones {rb : Mem UInt8} {uid flags iolevel : ℕ} {lpName : String}
    (h : ∀ p, (s.partitions p).zoneVector = []) (p : ℕ) :
    ((s.zMklp rb uid lpName flags iolevel).2.partitions p).zoneVector = [] := by
  have hm := mklp_zones h rb lpName flags iolevel
  unfold zMklp
  cases hs : s.mklp rb lpName flags iolevel with
  | mk q s' =>
    rw [hs] at hm
    cases s.userToPartitionMap uid with
    | none => cases q <;> exact hm p
    | some ps =>
      dsimp only
      split
      · exact h p
      · cases q <;> exact hm p

theorem identifyIzg_owned (z : Zns) (hz : 0 ≤ z.znsGetTotalZone) :
    (init z).identifyIzg.Owned (max distance z.znsGetTotalZone.toNat) [] := by
  have hlt : z.znsGetTotalZone < 2147483648 := by
    unfold Zns.znsGetTotalZone i32
    split <;> omega
  have hm : z.znsGetTotalZone % 4294967296 = z.znsGetTotalZone := by omega
  refine ⟨Nat.zero_le _, ?_, fun p => rfl⟩
  simp only [Dealt, identifyIzg, init, hm, nil_append, Lib.rotation, map_map, length_nil, zero_add]
  apply map_congr_left
  intro i hi
  have hi' : i < distance := mem_range.mp hi
  have hc := lane_of_lt (d := distance) distance_pos (show i < max distance z.znsGetTotalZone.toNat by omega)
  rw [comp_apply, hc]
  by_cases hle : distance ≤ z.znsGetTotalZone.toNat
  · rw [Nat.max_eq_right hle]
  · -- the first number of every lane is there even if the device has fewer zones
    have hle' : z.znsGetTotalZone.toNat ≤ i + distance := by omega
    rw [lane_of_le distance_pos hle', Nat.max_eq_left (by omega), lane_of_le distance_pos (Nat.le_add_left _ _)]

theorem Owned.zMklps (h : s.Owned bound []) (calls : List MklpCall) : (s.zMklps calls).Owned bound [] := by
  induction calls generalizing s with
  | nil => exact h
  | cons c calls ih =>
    refine ih ⟨h.le, ?_, fun p => ?_⟩
    · rw [Dealt, zMklp_queue]
      exact h.dealt
    · exact zMklp_zones (fun q => h.zones q) p

end System

namespace Volume

open Zoad.System

variable {v v' : Volume} {bound : ℕ} {owners : List ℕ}

def allocs (v : Volume) : List AppendOp → List ℕ
  | [] => []
  | op :: ops =>
    let p := (v.files op.file).partition
    match v.append op with
    | .error _ => []
    | .ok v' => replicate (v'.sys.zoneSize p - v.sys.zoneSize p) p ++ v'.allocs ops

theorem append_owned {op : AppendOp} (hb : bound ≤ 2147483648) (h : v.sys.Owned bound owners)
    (hrn : v.append op = .ok v') :
    let r := v.files op.file
    (∀ f, (v'.files f).partition = (v.files f).partition) ∧
      (∀ p, (v'.sys.partitions p).mkFlag = (v.sys.partitions p).mkFlag ∧
        (v'.sys.partitions p).izgCnt = (v.sys.partitions p).izgCnt) ∧
      v'.sys.Owned bound (owners ++ replicate (v'.sys.zoneSize r.partition -
        v.sys.zoneSize r.partition) r.partition) := by
  obtain ⟨⟨s, u⟩, ha, hr⟩ := bind_eq_ok.mp hrn
  cases hr
  obtain ⟨hpr, m, ht⟩ := took_of_append h.dealt h.le hb ha
  refine ⟨fun f => ?_, fun p => ?_, ?_⟩
  · dsimp only
    by_cases hf : f = op.file
    · rw [hf, update_self, hpr]
    · rw [update_of_ne hf]
  · rw [ht.partitions]
    by_cases hp : p = (v.files op.file).partition
    · rw [hp, update_self]
      exact ⟨rfl, rfl⟩
    · rw [update_of_ne hp]
      exact ⟨rfl, rfl⟩
  · have hm : s.zoneSize (v.files op.file).partition - v.sys.zoneSize (v.files op.file).partition = m := by
      simp [zoneSize, ht.partitions]
    rw [hm]
    exact h.took ht

theorem appends_owned (hb : bound ≤ 2147483648) {ops : List AppendOp} (h : v.sys.Owned bound owners)
    (hrn : v.appends ops = .ok v') :
    (∀ p, (v'.sys.partitions p).mkFlag = (v.sys.partitions p).mkFlag ∧
        (v'.sys.partitions p).izgCnt = (v.sys.partitions p).izgCnt) ∧
      (∀ p ∈ v.allocs ops, ∃ op ∈ ops, (v.files op.file).partition = p) ∧
      v'.sys.Owned bound (owners ++ v.allocs ops) := by
  induction ops generalizing v owners with
  | nil =>
    cases hrn
    exact ⟨fun p => ⟨rfl, rfl⟩, by simp [allocs], by simpa [allocs] using h⟩
  | cons op ops ih =>
    rw [appends_cons] at hrn
    obtain ⟨v1, ha, hr⟩ := bind_eq_ok.mp hrn
    obtain ⟨hf, hg, ho⟩ := append_owned hb h ha
    obtain ⟨hg', hal, ho'⟩ := ih ho hr
    simp only [allocs, ha]
    refine ⟨fun p => ?_, fun p hp => ?_, ?_⟩
    · rw [(hg' p).1, (hg' p).2]
      exact hg p
    · rcases mem_append.mp hp with hp | hp
      · exact ⟨op, by simp, (eq_of_mem_replicate hp).symm⟩
      · obtain ⟨op', hop', hpr⟩ := hal p hp
        exact ⟨op', mem_cons_of_mem _ hop', (hf _).symm.trans hpr⟩
    · rwa [← append_assoc]

def twoPartitions : Volume :=
  ⟨((init (Zns.formatted 384 64 64)).identifyIzg).zMklps
    [⟨fun _ => 0, 0, "a", 1⟩, ⟨fun _ => 0, 0, "b", 1⟩], fun f => Userdata.new (f + 1) 0⟩

def fillZone (f : ℕ) : AppendOp := ⟨f, ⟨fun _ => 7, ioSize⟩, fun _ cnt => cnt + 1⟩

end Volume

end ZenFSPlus.Zoad
