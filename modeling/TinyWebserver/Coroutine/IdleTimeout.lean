import TinyWebserver.Base.TimerInvariant
import TinyWebserver.Coroutine.IOManager
import TinyWebserver.Coroutine.Scheduler

/-!
# How long the idle loop waits

A turn of `idle` starts with the question whether the manager is to stop, and then waits for ready
entries, for a time that is to end when the first timer is due. There is a function for both at once,
`stopping(uint64_t&)`, but the loop calls the one that does not look at the timers, and the time it
computes from `next_timeout` is not the one it passes to `epoll_wait`: it always waits for
`MAX_TIMEOUT`. `idle_heeds_iff` says exactly when that does no harm.
-/

universe u v

namespace IOManager

open TimerManager

variable {W : Type v} {Cb : Type u}

/-- `stopping()`. -/
def stopping (m : IOManager Cb) (scheduler : Scheduler W Cb) : Bool :=
  m.pendingEventCount = 0 && scheduler.isStopping

/-- `stopping(uint64_t&)`, at the time `now`, with the timeout it writes. -/
def stoppingTimeout (m : IOManager Cb) (scheduler : Scheduler W Cb) (now : ℕ) : Bool × ℕ :=
  let timeout := (m.timers.getNextTimer now).1
  (timeout = uint64Size - 1 && m.pendingEventCount = 0 && scheduler.isStopping, timeout)

/-- `MAX_TIMEOUT`. -/
def maxTimeout : ℕ := 5000

/-- What a turn of the inner loop of `idle` assigns to `next_timeout`, by way of `int`. -/
def nextTimeout (next : ℕ) : ℕ :=
  if next ≠ uint64Size - 1 then (min (toInt next) maxTimeout % uint64Size).toNat else maxTimeout

/-- The inner loop of `idle`, with the results of its calls of `epoll_wait`: the timeouts that it
passes to them. -/
def waitTimeouts (next : ℕ) : List (Except Errno (List Entry)) → List ℤ
  | [] => []
  | .error e :: results =>
      toInt maxTimeout :: if e = EINTR then waitTimeouts (nextTimeout next) results else []
  | .ok _ :: _ => [toInt maxTimeout]

/-- The start of a turn of the outer loop of `idle`, up to the end of the inner loop: the loop is
left, or `epoll_wait` is called with these timeouts. -/
def idleWait (m : IOManager Cb) (scheduler : Scheduler W Cb)
    (results : List (Except Errno (List Entry))) : Option (List ℤ) :=
  if m.stopping scheduler then none else some (waitTimeouts 0 results)

/-- A turn of `idle` heeds the timers: it leaves the loop only if no timer is pending, and waits no
longer than until the first one is due, and no longer than `MAX_TIMEOUT`. -/
structure Heeds (m : IOManager Cb) (scheduler : Scheduler W Cb) (now : ℕ)
    (results : List (Except Errno (List Entry))) : Prop where
  leaves : m.idleWait scheduler results = none →
    (m.stoppingTimeout scheduler now).1 = true ∧ m.timers.timers = []
  waits : ∀ timeouts, m.idleWait scheduler results = some timeouts → ∀ timeout ∈ timeouts,
    timeout = min ((m.timers.getNextTimer now).1 : ℤ) maxTimeout

/-- All calls of `epoll_wait` get the same timeout. -/
theorem waitTimeouts_eq (results : List (Except Errno (List Entry))) (next : ℕ) :
  ∀ timeout ∈ waitTimeouts next results, timeout = 5000
  := by
  have hmax : toInt maxTimeout = 5000 := by decide
  induction results generalizing next with
  | nil => simp [waitTimeouts]
  | cons result results ih =>
      cases result with
      | error e =>
          rw [waitTimeouts, hmax]
          split
          · simpa using ih _
          · simp
      | ok entries => simp [waitTimeouts, hmax]

/-- There is a call of `epoll_wait`. -/
theorem mem_waitTimeouts {results : List (Except Errno (List Entry))} (h : results ≠ [])
    (next : ℕ) :
  5000 ∈ waitTimeouts next results
  := by
  have hmax : toInt maxTimeout = 5000 := by decide
  cases results with
  | nil => simp at h
  | cons result results =>
      cases result with
      | error e => simp [waitTimeouts, hmax]
      | ok entries => simp [waitTimeouts, hmax]

/-- The first timer is due after at least `MAX_TIMEOUT` exactly if all are. -/
theorem maxTimeout_le_getNextTimer_iff {m : TimerManager Cb} (h : m.Inv []) (now : ℕ) :
  maxTimeout ≤ (m.getNextTimer now).1 ↔ ∀ a ∈ m.timers, now + maxTimeout ≤ (m.timer a).next
  := by
  have hsorted := h.sorted
  rw [getNextTimer]
  dsimp only
  split
  · rename_i hempty
    simp [hempty, maxTimeout, uint64Size]
  · rename_i first rest htimers
    simp only [htimers, OrderedSet.Sorted, List.pairwise_cons] at hsorted
    have hrest : ∀ a ∈ rest, (m.timer first).next ≤ (m.timer a).next := by
      intro a ha
      have hless := (m.less_iff first a).mp (hsorted.1 a ha)
      omega
    simp only [htimers, List.forall_mem_cons, maxTimeout]
    constructor
    · intro hmax
      split at hmax
      · omega
      · refine ⟨by omega, fun a ha => ?_⟩
        have := hrest a ha
        omega
    · rintro ⟨hfirst, -⟩
      split
      · omega
      · omega

/-- A turn of `idle` heeds the timers exactly if none is pending when the manager is to stop, and none
that is due within `MAX_TIMEOUT` otherwise. -/
theorem idle_heeds_iff {m : IOManager Cb} (h : m.timers.Inv []) (scheduler : Scheduler W Cb) (now : ℕ)
    {results : List (Except Errno (List Entry))} (hresults : results ≠ []) :
  m.Heeds scheduler now results ↔
    if m.pendingEventCount = 0 ∧ scheduler.isStopping then m.timers.timers = []
    else ∀ a ∈ m.timers.timers, now + 5000 ≤ (m.timers.timer a).next
  := by
  have hnext := maxTimeout_le_getNextTimer_iff h now
  by_cases hstop : m.pendingEventCount = 0 ∧ scheduler.isStopping
  · have hleave : m.idleWait scheduler results = none := by simp [idleWait, stopping, hstop]
    rw [if_pos hstop]
    constructor
    · intro hheeds
      exact (hheeds.leaves hleave).2
    · intro hempty
      refine ⟨fun _ => ⟨?_, hempty⟩, by simp [hleave]⟩
      simp [stoppingTimeout, hstop, getNextTimer, hempty]
  · have hwait : m.idleWait scheduler results = some (waitTimeouts 0 results) := by
      simp [idleWait, stopping, hstop]
    rw [if_neg hstop, ← maxTimeout, ← hnext]
    constructor
    · intro hheeds
      have hmin := hheeds.waits _ hwait 5000 (mem_waitTimeouts hresults 0)
      simp only [maxTimeout] at hmin ⊢
      omega
    · intro hmax
      refine ⟨by simp [hwait], ?_⟩
      intro timeouts htimeouts timeout hmem
      rw [hwait, Option.some.injEq] at htimeouts
      rw [← htimeouts] at hmem
      rw [waitTimeouts_eq results 0 timeout hmem]
      simp only [maxTimeout] at hmax ⊢
      omega

/-- A manager with one timer, which is due after `ms` milliseconds. -/
def oneTimer (ms : ℕ) : IOManager Unit :=
  { (new 0 : IOManager Unit) with
    timers := (TimerManager.new 0).addTimer ms () false 0 1 }

theorem oneTimer_inv (ms : ℕ) :
  (oneTimer ms).timers.Inv []
  := ((TimerManager.new_inv 0).addTimer ms () false 0 (by simp [TimerManager.new])).1

theorem idle_heeds_late_timer :
  (oneTimer 6000).Heeds (Scheduler.start : Scheduler Unit Unit) 0 [.error EINTR, .ok []]
  := by
  apply (idle_heeds_iff (oneTimer_inv 6000) Scheduler.start 0 (by simp)).mpr
  decide

/-- A timer is due after 100 milliseconds, and `epoll_wait` may sleep for 5000; and when the scheduler
has nothing to do and was told to stop, the loop is left in spite of the timer. -/
theorem idle_oversleeps :
  ((oneTimer 100).timers.getNextTimer 0).1 = 100 ∧
    (oneTimer 100).idleWait (Scheduler.start : Scheduler Unit Unit) [.ok []] = some [5000] ∧
    ¬ (oneTimer 100).Heeds (Scheduler.start : Scheduler Unit Unit) 0 [.ok []] ∧
    (oneTimer 100).idleWait { (Scheduler.start : Scheduler Unit Unit) with stopping := true } [.ok []]
      = none ∧
    ¬ (oneTimer 100).Heeds { (Scheduler.start : Scheduler Unit Unit) with stopping := true } 0 [.ok []]
  := by
  refine ⟨by decide, by decide, ?_, by decide, ?_⟩
  · intro hheeds
    have hmin := hheeds.waits [5000] (by decide) 5000 (by simp)
    exact absurd hmin (by decide)
  · intro hheeds
    have hempty := (hheeds.leaves (by decide)).2
    exact absurd hempty (by decide)

end IOManager
