import ZenFSPlus.Zoad.Controller
import ZenFSPlus.Lib.Run

/-!
`opened_zone_num` while `thread_write` workers open their zones, write and close them. The check of the limit, the
command to the device and the locked change of the counter are steps of their own; a worker does not see that an open
was refused.
-/

namespace ZenFSPlus.Zoad.OpenZones

open Lib List

/-- How far the worker of a zone is with it. In `openCount` and `closeCount` the device has done its part. -/
inductive Phase
  | check
  | refused
  | openSend
  | openCount
  | writing
  | closeCount
  | closed
  deriving DecidableEq

namespace Phase

def step (maxOpenRes opened : ℕ) : Phase → Option (ℕ × Phase)
  | check => some (opened, if maxOpenRes ≤ u32 (opened + 1) then refused else openSend)
  | openSend => some (opened, openCount)
  | openCount => some (u32 (opened + 1), writing)
  | writing | refused => some (opened, closeCount)
  | closeCount => some (sub32 opened 1, closed)
  | closed => none

def isOpening : Phase → Bool
  | check | openSend | openCount => true
  | _ => false

def isOpen : Phase → Bool
  | openCount | writing => true
  | _ => false

def isCounted : Phase → Bool
  | writing | closeCount => true
  | _ => false

theorem counted_add_opening (zones : List Phase) :
    zones.countP isCounted + zones.count openCount = zones.countP isOpen + zones.count closeCount := by
  induction zones with
  | nil => rfl
  | cons z zones ih =>
    simp only [countP_cons, count_cons]
    cases z <;> simp [isCounted, isOpen] <;> omega

end Phase

structure State where
  opened : ℕ
  zones : List Phase

namespace State

variable {s s' : State} {mor i : ℕ}

def start (zones : ℕ) : State := ⟨0, replicate zones .check⟩

def step (maxOpenRes : ℕ) (s : State) (i : ℕ) : Option State := do
  let z ← s.zones[i]?
  let (opened, z) ← z.step maxOpenRes s.opened
  some ⟨opened, s.zones.set i z⟩

/-- The zone that a worker is at. -/
def next (s : State) (worker : List ℕ) : Option ℕ :=
  worker.find? (fun i => s.zones[i]?.any Phase.isOpening) <|> worker.find? fun i => s.zones[i]? ≠ some .closed

def threadWrite (maxOpenRes : ℕ) (workers : List (List ℕ)) (s : State) (t : ℕ) : Option State := do
  let worker ← workers[t]?
  let i ← s.next worker
  s.step maxOpenRes i

structure Counted (maxOpenRes : ℕ) (s : State) : Prop where
  opened : s.opened = s.zones.countP Phase.isCounted
  passed : .refused ∉ s.zones
  room : s.zones.length < maxOpenRes

theorem Counted.opened_lt (h : s.Counted mor) (hi : i < s.zones.length) (hz : s.zones[i].isCounted = false) :
    s.opened < s.zones.length := by
  rw [h.opened]
  refine Nat.lt_of_le_of_ne countP_le_length fun he => ?_
  rw [countP_eq_length.mp he _ (getElem_mem hi)] at hz
  cases hz

theorem Counted.step (hmx : mor < 4294967296) (h : s.Counted mor) (hs : s.step mor i = some s') : s'.Counted mor := by
  obtain ⟨z, hz, hs⟩ := Option.bind_eq_some_iff.mp hs
  obtain ⟨⟨opened, z'⟩, hst, hs⟩ := Option.bind_eq_some_iff.mp hs
  cases hs
  obtain ⟨hi, hg⟩ := List.getElem?_eq_some_iff.mp hz
  have hr := h.room
  have hp (hcn : z.isCounted = true) : 0 < s.opened := h.opened ▸ countP_pos_iff.mpr ⟨z, hg ▸ getElem_mem hi, hcn⟩
  have hc := countP_set (p := Phase.isCounted) (a := z') hi
  rw [hg, ← h.opened] at hc
  have hn (hz' : z' ≠ .refused) (ho : opened = (s.zones.set i z').countP Phase.isCounted) :
      Counted mor ⟨opened, s.zones.set i z'⟩ :=
    ⟨ho, fun hm => (mem_or_eq_of_mem_set hm).elim h.passed hz'.symm, by rwa [length_set]⟩
  cases z with
  | check =>
    have hlt := h.opened_lt hi (by rw [hg]; rfl)
    have hl : ¬mor ≤ u32 (s.opened + 1) := by
      rw [u32_of_lt (by omega)]
      omega
    rw [Phase.step, if_neg hl] at hst
    cases hst
    exact hn (by decide) hc.symm
  | refused => exact absurd (hg ▸ getElem_mem hi) h.passed
  | openSend =>
    cases hst
    exact hn (by decide) hc.symm
  | openCount =>
    cases hst
    have hlt := h.opened_lt hi (by rw [hg]; rfl)
    exact hn (by decide) ((u32_of_lt (by omega)).trans hc.symm)
  | writing =>
    cases hst
    exact hn (by decide) (hc.trans (Nat.sub_add_cancel (hp rfl))).symm
  | closeCount =>
    cases hst
    exact hn (by decide) ((sub32_of_le (hp rfl)).trans hc.symm)
  | closed => cases hst

theorem Counted.threadWrite (hm : mor < 4294967296) {workers : List (List ℕ)} (h : s.Counted mor)
    (hs : s.threadWrite mor workers i = some s') : s'.Counted mor := by
  obtain ⟨_, -, hs⟩ := Option.bind_eq_some_iff.mp hs
  obtain ⟨_, -, hs⟩ := Option.bind_eq_some_iff.mp hs
  exact h.step hm hs

end State

end ZenFSPlus.Zoad.OpenZones
