import Mathlib.Algebra.BigOperators.Group.List.Basic
import Mathlib.Tactic.Linarith

/-!
The bytes of the `GenericRateLimiter`: each stretch under `request_mutex_` is one action.
-/

namespace ZenFSPlus.Util

open List Function

inductive IOPriority where
  | low | mid | high | user
  deriving DecidableEq

structure Req where
  thread : ℕ
  requestBytes : ℤ
  bytes : ℤ

/-- A queue, with the requests granted from it and the threads in the order of their `push_back`. -/
structure Lane where
  queue : List Req := []
  granted : List Req := []
  queued : List ℕ := []

namespace Lane

/-- The loop over one queue: what is left of the bytes, the granted requests and the rest of the queue. -/
def grant : ℤ → List Req → ℤ × List Req × List Req
  | available, [] => (available, [], [])
  | available, r :: queue =>
    if available < r.requestBytes then (0, [], { r with requestBytes := r.requestBytes - available } :: queue)
    else
      let g := grant (available - r.requestBytes) queue
      (g.1, { r with requestBytes := 0 } :: g.2.1, g.2.2)

def parts (queue : List Req) : ℤ := (queue.map fun r => r.bytes - r.requestBytes).sum

/-- The bytes that the requests have got, fully or partly. -/
def paid (l : Lane) : ℤ := (l.granted.map Req.bytes).sum + parts l.queue

structure Fair (l : Lane) : Prop where
  order : (l.granted ++ l.queue).map Req.thread = l.queued
  pending : ∀ r ∈ l.queue, 0 ≤ r.requestBytes

variable {a : ℤ} {q : List Req}

theorem grant_bytes : ((grant a q).2.1.map Req.bytes).sum + parts (grant a q).2.2 + (grant a q).1 = parts q + a := by
  induction q generalizing a with
  | nil => simp [grant, parts]
  | cons r q ih =>
    rw [grant]
    split
    · simp only [map_nil, sum_nil, parts, map_cons, sum_cons]
      omega
    · have := ih (a := a - r.requestBytes)
      simp only [map_cons, sum_cons, parts] at this ⊢
      omega

theorem grant_thread : ((grant a q).2.1 ++ (grant a q).2.2).map Req.thread = q.map Req.thread := by
  induction q generalizing a with
  | nil => rfl
  | cons r q ih =>
    rw [grant]
    split
    · rfl
    · exact congrArg (r.thread :: ·) ih

theorem grant_nonneg (ha : 0 ≤ a) (hq : ∀ r ∈ q, 0 ≤ r.requestBytes) :
    0 ≤ (grant a q).1 ∧ (grant a q).1 ≤ a ∧ ∀ r ∈ (grant a q).2.2, 0 ≤ r.requestBytes := by
  induction q generalizing a with
  | nil => exact ⟨ha, le_rfl, hq⟩
  | cons r q ih =>
    obtain ⟨hr, hq⟩ := forall_mem_cons.mp hq
    rw [grant]
    split
    · exact ⟨le_rfl, ha, forall_mem_cons.mpr ⟨by dsimp only; omega, hq⟩⟩
    · obtain ⟨h0, hle, hl⟩ := ih (a := a - r.requestBytes) (by omega) hq
      exact ⟨h0, by dsimp only; omega, hl⟩

end Lane

structure GenericRateLimiter where
  refillBytesPerPeriod : ℤ
  availableBytes : ℤ := 0
  queue : IOPriority → Lane := fun _ => {}
  /-- The bytes granted without a queue. -/
  direct : ℤ := 0
  refilled : ℤ := 0
  largest : ℤ := refillBytesPerPeriod

inductive LimiterCall where
  | request (thread : ℕ) (bytes : ℤ) (p : IOPriority)
  | refill (order : List IOPriority)
  | setBytesPerSecond (bytesPerSecond : ℤ)

namespace GenericRateLimiter

variable (x : GenericRateLimiter)

def calculateRefillBytesPerPeriod (refillPeriodUs rateBytesPerSec : ℤ) : ℤ :=
  if (2 ^ 63 - 1) / rateBytesPerSec < refillPeriodUs then (2 ^ 63 - 1) / 1000000
  else rateBytesPerSec * refillPeriodUs / 1000000

/-- `Request` up to the loop of a queued request. -/
def request (thread : ℕ) (bytes : ℤ) (p : IOPriority) : GenericRateLimiter :=
  let bytes := max 0 bytes
  let l := x.queue p
  if bytes ≤ x.availableBytes then { x with availableBytes := x.availableBytes - bytes, direct := x.direct + bytes }
  else { x with
    queue := update x.queue p { l with queue := l.queue ++ [⟨thread, bytes, bytes⟩], queued := l.queued ++ [thread] } }

def grantQueue (p : IOPriority) : GenericRateLimiter :=
  let l := x.queue p
  let g := Lane.grant x.availableBytes l.queue
  { x with
    availableBytes := g.1
    queue := update x.queue p { l with queue := g.2.2, granted := l.granted ++ g.2.1 } }

def refillBytesAndGrantRequests (order : List IOPriority) : GenericRateLimiter :=
  order.foldl grantQueue
    (if x.availableBytes < x.refillBytesPerPeriod then { x with
      availableBytes := x.availableBytes + x.refillBytesPerPeriod
      refilled := x.refilled + x.refillBytesPerPeriod }
    else x)

def step (refillPeriodUs : ℤ) : LimiterCall → GenericRateLimiter
  | .request thread bytes p => x.request thread bytes p
  | .refill order => x.refillBytesAndGrantRequests order
  | .setBytesPerSecond rate =>
    let bytes := calculateRefillBytesPerPeriod refillPeriodUs rate
    { x with refillBytesPerPeriod := bytes, largest := max x.largest bytes }

def total (f : IOPriority → ℤ) : ℤ := f .low + f .mid + f .high + f .user

structure Inv : Prop where
  nonneg : 0 ≤ x.availableBytes
  lt : x.availableBytes < 2 * x.largest
  positive : 1 ≤ x.refillBytesPerPeriod
  le : x.refillBytesPerPeriod ≤ x.largest
  conserved : x.refilled = x.availableBytes + x.direct + total fun p => (x.queue p).paid
  fair : ∀ p, (x.queue p).Fair

variable {x}

theorem Inv.setQueue (h : Inv x) {a : ℤ} {l : Lane} (p : IOPriority) (ha : 0 ≤ a) (hle : a ≤ x.availableBytes)
    (hl : l.Fair) (hpaid : l.paid + a = (x.queue p).paid + x.availableBytes) :
    Inv { x with availableBytes := a, queue := update x.queue p l } := by
  have hc := h.conserved
  refine ⟨ha, hle.trans_lt h.lt, h.positive, h.le, ?_, fun o => ?_⟩
  · simp only [total] at hc ⊢
    cases p <;> simp [update] <;> omega
  · change (update x.queue p l o).Fair
    by_cases ho : o = p
    · rw [ho, update_self]
      exact hl
    · rw [update_of_ne ho]
      exact h.fair o

theorem Inv.grantQueue (h : Inv x) (p : IOPriority) : Inv (x.grantQueue p) := by
  obtain ⟨h0, hle, hl⟩ := Lane.grant_nonneg h.nonneg (h.fair p).pending
  refine h.setQueue p h0 hle ⟨?_, hl⟩ ?_
  · rw [append_assoc, map_append, Lane.grant_thread, ← map_append]
    exact (h.fair p).order
  · have hb := Lane.grant_bytes (a := x.availableBytes) (q := (x.queue p).queue)
    rw [Lane.paid, Lane.paid, map_append, sum_append]
    dsimp only
    omega

theorem Inv.refill (h : Inv x) (order : List IOPriority) : Inv (x.refillBytesAndGrantRequests order) := by
  have hr {y : GenericRateLimiter} (hy : Inv y) : Inv (order.foldl GenericRateLimiter.grantQueue y) := by
    induction order generalizing y with
    | nil => exact hy
    | cons p order ih => exact ih (hy.grantQueue p)
  apply hr
  obtain ⟨h0, hlt, hp, hle, hc, hf⟩ := h
  split
  · exact ⟨by dsimp only; omega, by dsimp only; omega, hp, hle, by dsimp only; omega, hf⟩
  · exact ⟨h0, hlt, hp, hle, hc, hf⟩

theorem Inv.request (h : Inv x) (thread : ℕ) (bytes : ℤ) (p : IOPriority) : Inv (x.request thread bytes p) := by
  have hb : 0 ≤ max 0 bytes := le_max_left _ _
  unfold GenericRateLimiter.request
  dsimp only
  split
  · obtain ⟨h0, hlt, hp, hle, hc, hf⟩ := h
    exact ⟨by dsimp only; omega, by dsimp only; omega, hp, hle, by dsimp only; omega, hf⟩
  refine h.setQueue p h.nonneg le_rfl ⟨?_, ?_⟩ ?_
  · rw [← append_assoc, map_append, (h.fair p).order]
    rfl
  · intro r hr
    rcases mem_append.mp hr with hr | hr
    · exact (h.fair p).pending r hr
    · rw [mem_singleton.mp hr]
      exact hb
  · simp [Lane.paid, Lane.parts]

/-- The refilled bytes are the available ones and those granted, fully or partly, and each queue is served in order. -/
theorem bytes_conserved {refillPeriodUs bytes : ℤ} (hbytes : 1 ≤ bytes) {calls : List LimiterCall}
    (hcalls : ∀ rate, .setBytesPerSecond rate ∈ calls → 1 ≤ calculateRefillBytesPerPeriod refillPeriodUs rate) :
    let x := calls.foldl (step · refillPeriodUs) { refillBytesPerPeriod := bytes }
    0 ≤ x.availableBytes ∧ x.availableBytes < 2 * x.largest ∧
    x.refilled = x.availableBytes + x.direct + total (fun p => (x.queue p).paid) ∧
    ∀ p, (x.queue p).granted.map Req.thread <+: (x.queue p).queued := by
  have hrn {x : GenericRateLimiter} (h : Inv x) : Inv (calls.foldl (step · refillPeriodUs) x) := by
    induction calls generalizing x with
    | nil => exact h
    | cons c calls ih =>
      refine ih (fun rate hr => hcalls rate (mem_cons_of_mem c hr)) ?_
      cases c with
      | request thread bytes p => exact h.request thread bytes p
      | refill order => exact h.refill order
      | setBytesPerSecond rate =>
        have hle := h.le
        have hlt := h.lt
        exact ⟨h.nonneg, by dsimp only [step]; omega, hcalls rate mem_cons_self, le_max_right _ _, h.conserved, h.fair⟩
  have h := hrn (x := { refillBytesPerPeriod := bytes })
    ⟨le_rfl, by dsimp only; omega, hbytes, le_rfl, rfl, fun _ => ⟨rfl, nofun⟩⟩
  refine ⟨h.nonneg, h.lt, h.conserved, fun p => ?_⟩
  rw [← (h.fair p).order, map_append]
  exact prefix_append _ _

def slowed : List LimiterCall :=
  [.request 0 7 .low, .refill [.user, .low], .setBytesPerSecond 40, .request 1 9 .low, .request 2 5 .user,
    .refill [.user, .low]]

theorem bytes_conserved_slowed :
    let x := slowed.foldl (step · 100000) { refillBytesPerPeriod := 10 }
    x.refilled = 14 ∧ x.availableBytes + x.direct + total (fun p => (x.queue p).paid) = 14 :=
  have h := (@bytes_conserved 100000 10 (by decide) slowed fun rate hr => by
    simp only [slowed, mem_cons, reduceCtorEq, LimiterCall.setBytesPerSecond.injEq, false_or, not_mem_nil, or_false] at hr
    subst hr
    decide).2.2.1
  ⟨by decide, h.symm⟩

end GenericRateLimiter

end ZenFSPlus.Util
