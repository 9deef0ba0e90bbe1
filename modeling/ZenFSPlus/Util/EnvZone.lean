import Mathlib.Algebra.Order.Group.Nat
import ZenFSPlus.Lib.Run

/-!
`Z_interface::Write` of `util/env_zone.cc`, the older zone environment: a write goes to a zone of the file's symbol, at
the zone's write pointer, and the zone gives it a segment id.
-/

namespace ZenFSPlus.EnvZone

open List Function

def znsUnitSize : ℕ := 512

def segmentIdInterval : ℕ := 100000

/-- A `Zone`, with the start and the length of the device's zone. Its flag `opened` is only set together with `alloc`,
which nothing resets, and so decides nothing. -/
structure Zone where
  start : ℕ
  length : ℕ
  wp : ℕ
  segmentId : ℕ
  alloc : Bool := false

/-- A write: its zone, its segment id and the sectors it covers. -/
structure Written where
  zone : ℕ
  segmentId : ℕ
  startSector : ℕ
  endSector : ℕ

structure ZInterface where
  nrZones : ℕ
  zoneList : ℕ → Zone
  /-- The zones of each symbol, in the order of insertion. -/
  symbolMap : List (ℕ × ℕ) := []
  /-- The writes so far, the last one first. -/
  log : List Written := []

/-- The id returned, and `segment_id` afterwards. -/
def getNextSegmentId (nrZones segmentId : ℕ) : ℕ × ℕ :=
  if segmentId % segmentIdInterval ≠ segmentIdInterval - 1 then (segmentId, (segmentId + 1) % 2 ^ 32)
  else
    let next := (segmentId + nrZones * segmentIdInterval - segmentId % segmentIdInterval) % 2 ^ 32
    (next, next)

def sectorCount (size : ℕ) : ℕ := size / znsUnitSize + if size % znsUnitSize ≠ 0 then 1 else 0

namespace ZInterface

def new (nrZones : ℕ) (zones : ℕ → ℕ × ℕ × ℕ) : ZInterface where
  nrZones := nrZones
  zoneList n := ⟨(zones n).1, (zones n).2.1, (zones n).2.2, segmentIdInterval * n % 2 ^ 32, false⟩

/-- `Zone::Write` of zone `n`. -/
def writeZone (n size : ℕ) (z : ZInterface) : ZInterface :=
  let zone := z.zoneList n
  let id := getNextSegmentId z.nrZones zone.segmentId
  let wp := zone.wp + sectorCount size
  { z with
    zoneList := update z.zoneList n { zone with segmentId := id.2, wp := wp }
    log := ⟨n, id.1, zone.wp, wp⟩ :: z.log }

def checkZoneMax (z : ZInterface) (n : ℕ) : Bool :=
  (z.zoneList n).wp == (z.zoneList n).start + (z.zoneList n).length - 1

/-- `get_next_zone` and the insertion into `symbol_map` after it; no zone where the source runs off its end. -/
def getNextZone (symbol : ℕ) (z : ZInterface) : Option (ℕ × ZInterface) :=
  ((range z.nrZones).find? fun i => !(z.zoneList i).alloc).map fun i => (i, { z with
    zoneList := fun n => { z.zoneList n with alloc := n = i || (z.zoneList n).alloc }
    symbolMap := z.symbolMap ++ [(symbol, i)] })

def firstNotFull (z : ZInterface) : ℕ → List ℕ → ℕ
  | n, [] => n
  | n, n' :: ns => if z.checkZoneMax n then z.firstNotFull n' ns else n

def symbolZone (symbol : ℕ) (z : ZInterface) : Option (ℕ × ZInterface) :=
  match (z.symbolMap.filter (·.1 = symbol)).map Prod.snd with
  | [] => z.getNextZone symbol
  | n :: ns => some (z.firstNotFull n ns, z)

/-- `Z_interface::Write` of a symbol and a size. -/
def write (z : ZInterface) (w : ℕ × ℕ) : Option ZInterface :=
  (z.symbolZone w.1).bind fun r =>
    (if r.2.checkZoneMax r.1 then r.2.getNextZone w.1 else some r).map fun r => r.2.writeZone r.1 w.2

structure Inv (z : ZInterface) : Prop where
  bound : z.nrZones * segmentIdInterval ≤ 2 ^ 32
  symbols : ∀ e ∈ z.symbolMap, e.2 < z.nrZones ∧ (z.zoneList e.2).alloc = true
  wp : ∀ n < z.nrZones, (z.zoneList n).wp < (z.zoneList n).start + (z.zoneList n).length
  unused : ∀ n < z.nrZones, (z.zoneList n).alloc = false → z.checkZoneMax n = false
  ids : ∀ n < z.nrZones, n * segmentIdInterval ≤ (z.zoneList n).segmentId ∧
    (z.zoneList n).segmentId ≤ n * segmentIdInterval + z.log.length
  written : ∀ p ∈ z.log, p.zone < z.nrZones ∧ p.endSector < (z.zoneList p.zone).start + (z.zoneList p.zone).length ∧
    p.zone * segmentIdInterval ≤ p.segmentId ∧ p.segmentId < (z.zoneList p.zone).segmentId
  nodup : (z.log.map Written.segmentId).Nodup

variable {z z' : ZInterface} {n size symbol : ℕ}

theorem Inv.getNextZone (h : Inv z) (hg : z.getNextZone symbol = some (n, z')) :
    Inv z' ∧ z'.log = z.log ∧ n < z'.nrZones ∧ (z'.zoneList n).alloc = true ∧ z'.checkZoneMax n = false := by
  obtain ⟨i, hi, he⟩ := Option.map_eq_some_iff.mp hg
  cases he
  have hlt := mem_range.mp (mem_of_find?_eq_some hi)
  have ha := find?_some hi
  rw [Bool.not_eq_true'] at ha
  refine ⟨⟨h.bound, ?_, h.wp, ?_, h.ids, h.written, h.nodup⟩, rfl, hlt, by simp, h.unused n hlt ha⟩
  · intro e he
    rcases mem_append.mp he with he | he
    · have hs := h.symbols e he
      exact ⟨hs.1, by simp [hs.2]⟩
    · cases mem_singleton.mp he
      exact ⟨hlt, by simp⟩
  · intro i hi hf
    exact h.unused i hi (Bool.or_eq_false_iff.mp hf).2

theorem firstNotFull_mem (ns : List ℕ) : z.firstNotFull n ns ∈ n :: ns := by
  induction ns generalizing n with
  | nil => exact mem_cons_self
  | cons n' ns ih =>
    rw [firstNotFull]
    split
    · exact mem_cons_of_mem _ ih
    · exact mem_cons_self

theorem Inv.symbolZone (h : Inv z) (hs : z.symbolZone symbol = some (n, z')) :
    Inv z' ∧ z'.log = z.log ∧ n < z'.nrZones ∧ (z'.zoneList n).alloc = true := by
  rw [ZInterface.symbolZone] at hs
  split at hs
  · obtain ⟨hi, hl, hn, ha, -⟩ := h.getNextZone hs
    exact ⟨hi, hl, hn, ha⟩
  · rename_i i ns hm
    cases hs
    have hf := firstNotFull_mem (z := z) (n := i) ns
    rw [← hm, mem_map] at hf
    obtain ⟨e, he, heq⟩ := hf
    exact ⟨h, rfl, heq ▸ h.symbols e (mem_filter.mp he).1⟩

theorem Inv.writeZone (h : Inv z) (hn : n < z.nrZones) (ha : (z.zoneList n).alloc = true)
    (hf : z.checkZoneMax n = false) (hs : sectorCount size ≤ 1) (hl : z.log.length + 1 < segmentIdInterval) :
    Inv (z.writeZone n size) := by
  obtain ⟨hge, hle⟩ := h.ids n hn
  have hwp := h.wp n hn
  have hne : (z.zoneList n).wp ≠ (z.zoneList n).start + (z.zoneList n).length - 1 := by simpa [checkZoneMax] using hf
  -- the ids of zone `i` lie in the interval of `i`
  have hap {i j : ℕ} (hij : i < j) : (i + 1) * segmentIdInterval ≤ j * segmentIdInterval := Nat.mul_le_mul_right _ hij
  have hid : getNextSegmentId z.nrZones (z.zoneList n).segmentId =
      ((z.zoneList n).segmentId, (z.zoneList n).segmentId + 1) := by
    have hb := (hap hn).trans h.bound
    unfold getNextSegmentId segmentIdInterval at *
    rw [if_pos (by omega), Nat.mod_eq_of_lt (by omega)]
  have hfr (p : Written) (hp : p ∈ z.log) : p.segmentId ≠ (z.zoneList n).segmentId := by
    intro heq
    obtain ⟨hpn, -, hpl, hpr⟩ := h.written p hp
    have hpi := (h.ids p.zone hpn).2
    rcases lt_trichotomy p.zone n with hlt | rfl | hlt
    · have := hap hlt
      rw [Nat.succ_mul] at this
      omega
    · omega
    · have := hap hlt
      rw [Nat.succ_mul] at this
      omega
  simp only [ZInterface.writeZone, hid]
  refine ⟨h.bound, fun e he => ?_, fun i hi => ?_, fun i hi hal => ?_, fun i hi => ?_, ?_, ?_⟩
  · by_cases heq : e.2 = n
    · simp [heq, hn, ha]
    · simpa [heq] using h.symbols e he
  · by_cases heq : i = n
    · simp only [heq, update_self]
      omega
    · simpa [heq] using h.wp i hi
  · by_cases heq : i = n
    · simp [heq, ha] at hal
    · simpa [heq, checkZoneMax] using h.unused i hi (by simpa [heq] using hal)
  · have hi' := h.ids i hi
    by_cases heq : i = n
    · simp only [heq, update_self, length_cons]
      omega
    · simp only [update_of_ne heq, length_cons]
      omega
  · refine forall_mem_cons.mpr ⟨?_, fun p hp => ?_⟩
    · simp only [update_self]
      omega
    · have hp' := h.written p hp
      by_cases heq : p.zone = n
      · simp only [heq, update_self] at hp' ⊢
        omega
      · simpa [heq] using hp'
  · refine nodup_cons.mpr ⟨fun hm => ?_, h.nodup⟩
    obtain ⟨p, hp, heq⟩ := mem_map.mp hm
    exact hfr p hp heq

theorem Inv.write (h : Inv z) {w : ℕ × ℕ} (hs : sectorCount w.2 ≤ 1) (hl : z.log.length + 1 < segmentIdInterval)
    (hw : z.write w = some z') : Inv z' ∧ z'.log.length = z.log.length + 1 := by
  obtain ⟨⟨n, u⟩, hu, hw⟩ := Option.bind_eq_some_iff.mp hw
  obtain ⟨⟨i, v⟩, hv, rfl⟩ := Option.map_eq_some_iff.mp hw
  obtain ⟨hi, hlg, hn, ha⟩ := h.symbolZone hu
  rw [← hlg] at hl ⊢
  split at hv
  · obtain ⟨hi, hlg, hn, ha, hf⟩ := hi.getNextZone hv
    rw [← hlg] at hl ⊢
    exact ⟨hi.writeZone hn ha hf hs hl, rfl⟩
  · rename_i hf
    cases hv
    exact ⟨hi.writeZone hn ha (Bool.eq_false_iff.mpr hf) hs hl, rfl⟩

variable {ws : List (ℕ × ℕ)}

theorem Inv.run (h : Inv z) (hs : ∀ w ∈ ws, sectorCount w.2 ≤ 1) (hl : z.log.length + ws.length < segmentIdInterval)
    (hr : Lib.run ZInterface.write z ws = some z') : Inv z' ∧ z'.log.length < segmentIdInterval := by
  induction ws generalizing z with
  | nil =>
    cases hr
    exact ⟨h, hl⟩
  | cons w ws ih =>
    obtain ⟨u, hu, hr⟩ := Lib.run_cons.mp hr
    rw [length_cons] at hl
    obtain ⟨hi, hlu⟩ := h.write (hs w mem_cons_self) (by omega) hu
    exact ih hi (fun w hw => hs w (mem_cons_of_mem _ hw)) (by omega) hr

end ZInterface

end ZenFSPlus.EnvZone
