import ZenFSPlus.Zoad.RandomRead

namespace ZenFSPlus.Zoad

open Lib List

structure Segment.WrittenBetween (seg : Segment) (z z' : Zns) : Prop where
  zones : (seg.intervals.map Interval.zoneNumber).Nodup
  start : ∀ iv ∈ seg.intervals, iv.start = (z.zoneDescList iv.zoneNumber).wp
  stop : ∀ iv ∈ seg.intervals, iv.stop = (z'.zoneDescList iv.zoneNumber).wp
  total : (seg.intervals.map fun iv => iv.stop - iv.start).sum = seg.size

def Zns.Bounded (z : Zns) (bound : ℕ) : Prop :=
  ∀ zone < bound, (z.zoneDescList zone).startLba ≤ (z.zoneDescList zone).wp ∧
    (z.zoneDescList zone).wp ≤ (z.zoneDescList zone).startLba + z.zsze

theorem Zns.Regular.bounded {z : Zns} {bound units : ℕ} (h : z.Regular bound units) : z.Bounded bound :=
  fun zone hz => ⟨h.wp_ge zone hz, h.wp_le zone hz⟩

theorem Userdata.Grown.writtenBetween {u u' : Userdata} {z z' : Zns} {n size : ℕ} (h : u.Grown u' z z' n size) :
    ∃ seg, u'.fileSegment = u.fileSegment ++ [seg] ∧ seg.size = size ∧ seg.WrittenBetween z z' := by
  obtain ⟨seg, L, hf, hsz, hr, hs, hivs⟩ := h
  refine ⟨seg, hf, hsz, ?_, ?_, ?_, ?_⟩
  · rw [hivs, map_map]
    apply nodup_range.map_on
    intro i hi j hj he
    exact hs.inj i (mem_range.mp hi) j (mem_range.mp hj) he
  · rw [hivs]
    intro iv hiv
    obtain ⟨j, hj, rfl⟩ := mem_map.mp hiv
    exact hs.start j (mem_range.mp hj)
  · rw [hivs]
    intro iv hiv
    obtain ⟨j, hj, rfl⟩ := mem_map.mp hiv
    exact hs.stop j (mem_range.mp hj)
  · rw [hivs, map_map, hsz, hr]
    have hc : (fun iv : Interval => iv.stop - iv.start) ∘ (fun j =>
        (⟨L.zone j, seg.id, L.start j, L.start j + L.rows * ioBlocks⟩ : Interval)) =
        Function.const ℕ (L.rows * ioBlocks) := by
      funext j
      simp
    rw [hc, map_const, length_range, sum_replicate_nat]
    ring

namespace Volume

variable {v : Volume} {p n bound units k : ℕ}

/-- What is to hold of a call of `Append`: the program ends for want of zones, or the write pointers
are in their zones and the call has written what it records. -/
def AppendBounded (bound : ℕ) (v : Volume) (op : AppendOp) : Prop :=
  v.append op = .error .allocZoneFail ∨
    ∃ v', v.append op = .ok v' ∧ v'.sys.zns.Bounded bound ∧
      ∃ seg, (v'.files op.file).fileSegment = (v.files op.file).fileSegment ++ [seg] ∧
        seg.size = blocksOfBytes op.buf.size ∧ seg.WrittenBetween v.sys.zns v'.sys.zns

theorem appendBounded_of_position {data : ℕ → List (Slice UInt8)} (h : v.sys.Ready p n bound units k)
    (hv : v.Holds p n bound data) {op : AppendOp} {level k' rows : ℕ}
    (hp : v.sys.Position p n units k level k') (hr : level + rows ≤ units) (hrw : 0 < rows)
    (hs : op.buf.size = rows * n * ioSize) (hlt : op.buf.size < 4294967296)
    (hps : ∀ i cnt, op.past i cnt ≠ cnt) : v.AppendBounded bound op := by
  rcases append_spec h hp hr hrw hs hlt hps hv with ⟨hf, -⟩ | ⟨v', hok, hw, -, hg⟩
  · exact .inl hf
  · exact .inr ⟨v', hok, hw.ready.regular.bounded, hg.writtenBetween⟩

theorem Roomy.append {ops : List AppendOp} {op : AppendOp} {rest : List AppendOp} {v' : Volume}
    (h : v.Roomy p n units (ops ++ op :: rest)) (hrn : v.appends ops = .ok v') :
    v.Roomy p n units ops ∧ v'.Roomy p n units (op :: rest) := by
  induction ops generalizing v with
  | nil =>
    cases hrn
    exact ⟨trivial, h⟩
  | cons op' ops ih =>
    obtain ⟨hps, hlt, hp, hn⟩ := h
    rw [appends_cons] at hrn
    obtain ⟨v1, hok, hrn⟩ := bind_eq_ok.mp hrn
    obtain ⟨-, hr⟩ := ih (hn v1 hok) hrn
    refine ⟨⟨hps, hlt, hp, fun v2 hok' => ?_⟩, hr⟩
    cases hok.symm.trans hok'
    exact (ih (hn v1 hok) hrn).1

/-- Any appends to new files of a partition, each of whole rows for which the last zones have room, keep the write
pointers in their zones and record what was written. -/
theorem appends_bounded (h : v.sys.Ready p n bound units k)
    (hfiles : ∀ f, ∃ id, v.files f = Userdata.new p id) {ops : List AppendOp}
    (hops : v.Roomy p n units ops) {before after : List AppendOp} {op : AppendOp}
    (hsplit : ops = before ++ op :: after) {v1 : Volume} (hrun : v.appends before = .ok v1) :
    v1.AppendBounded bound op := by
  subst hsplit
  obtain ⟨hb, ⟨_, level, _, rows, hp, hrm, hrw, hs⟩, hlt, hps, -⟩ := hops.append hrun
  obtain ⟨k1, hr, hh⟩ := appends_roomy h (Holds.new hfiles) hb hrun
  obtain ⟨k', hp'⟩ := position_any hp k1
  exact appendBounded_of_position hr hh hp' hrm hrw hs hlt hps

theorem appends_bounded_first : AppendBounded 32 ⟨System.single 384 32 1, fun _ => Userdata.new 1 0⟩
      ⟨0, ⟨fun _ => 1, ioSize⟩, fun _ cnt => cnt + 1⟩ := by
  let v : Volume := ⟨System.single 384 32 1, fun _ => Userdata.new 1 0⟩
  let op : AppendOp := ⟨0, ⟨fun _ => 1, ioSize⟩, fun _ cnt => cnt + 1⟩
  have hr : v.Roomy 1 1 1 [op] := ⟨⟨0, 0, 1, 1, .empty rfl, by decide, by decide, by decide⟩, by decide,
      fun _ cnt => Nat.succ_ne_self cnt, fun _ _ => trivial⟩
  have hs : [op] = [] ++ op :: [] := rfl
  exact appends_bounded (v := v) single_ready (fun _ => ⟨0, rfl⟩) hr hs rfl

/-- Two groups and zones of three units: after two appends of one unit to the first zone, four units are spread evenly
over the two zones, and the first one has room for one. -/
theorem write_pointer_beyond_zone :
    let units (m : ℕ) : AppendOp := ⟨0, ⟨fun _ => 1, m * ioSize⟩, fun _ cnt => cnt + 1⟩
    ∃ v', appends ⟨System.single 1152 64 2, fun _ => Userdata.new 1 0⟩ [units 1, units 1, units 4] =
        .ok v' ∧ v'.sys.zns.zsze = 3 * ioBlocks ∧ ((v'.sys.partitions 1).izgCnt = 2) ∧
      (v'.sys.zns.zoneDescList 0).startLba + v'.sys.zns.zsze < (v'.sys.zns.zoneDescList 0).wp := by
  intro units
  exact exists_ok_of_check (by decide +kernel)

end Volume

end ZenFSPlus.Zoad
