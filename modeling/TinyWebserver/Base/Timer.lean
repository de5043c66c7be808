import TinyWebserver.Lib.OrderedSet
import Mathlib.Logic.Function.Basic

/-!
# Timers

The classes `Timer` and `TimerManager` of `base/timer.cpp`. A timer is named by its handle, its
number in the order of creation, and has an address, by which the comparator breaks ties; the
manager keeps the timer objects of all handles and the ordered set of the pending ones. Times are
of type `uint64_t`: sums and differences are taken modulo `2 ^ 64`. The clock, the address of a
new timer and the address of the probe timer of `listExpiredCb` are arguments.
-/

universe u

/-- The number of values of type `uint64_t`. -/
def uint64Size : ℕ := 2 ^ 64

/-- The class `Timer`, for callbacks in `Cb`. The field `m_manager` is the one manager of the
model. -/
structure Timer (Cb : Type u) where
  addr : ℕ := 0
  recurring : Bool := false
  ms : ℕ := 0
  next : ℕ := 0
  cb : Option Cb := none

/-- `Timer::Comparator::operator()`, on pointers that may be null. -/
def Timer.comparator {Cb : Type u} : Option (Timer Cb) → Option (Timer Cb) → Bool
  | none, none => false
  | none, some _ => true
  | some _, none => false
  | some lhs, some rhs =>
      if lhs.next < rhs.next then true
      else if rhs.next < lhs.next then false
      else lhs.addr < rhs.addr

/-- The class `TimerManager`, with the timer objects of all handles below `count`, and with the
number of calls of the virtual function `onTimerInsertedAtFront` so far. -/
structure TimerManager (Cb : Type u) where
  timer : ℕ → Timer Cb
  count : ℕ
  timers : List ℕ
  tickled : Bool
  previouseTime : ℕ
  insertedAtFront : ℕ

namespace TimerManager

open OrderedSet

variable {Cb : Type u}

/-- The manager constructed at the time `now`. -/
def new (now : ℕ) : TimerManager Cb where
  timer _ := {}
  count := 0
  timers := []
  tickled := false
  previouseTime := now
  insertedAtFront := 0

/-- The comparator of `m_timers`, on handles. -/
def less (m : TimerManager Cb) (a b : ℕ) : Bool :=
  Timer.comparator (some (m.timer a)) (some (m.timer b))

/-- The manager after an assignment to the object of a handle. -/
def setTimer (m : TimerManager Cb) (h : ℕ) (t : Timer Cb) : TimerManager Cb :=
  { m with timer := Function.update m.timer h t }

@[simp]
theorem setTimer_timers (m : TimerManager Cb) (h : ℕ) (t : Timer Cb) :
  (m.setTimer h t).timers = m.timers
  := rfl

@[simp]
theorem setTimer_self (m : TimerManager Cb) (h : ℕ) (t : Timer Cb) :
  (m.setTimer h t).timer h = t
  := by
  simp [setTimer]

theorem setTimer_of_ne (m : TimerManager Cb) {h h' : ℕ} (t : Timer Cb) (hne : h' ≠ h) :
  (m.setTimer h t).timer h' = m.timer h'
  := by
  simp [setTimer, hne]

/-- `Timer::cancel`. Erasing the end iterator is an error. -/
def cancel (m : TimerManager Cb) (h : ℕ) : Option (Bool × TimerManager Cb) :=
  if (m.timer h).cb.isSome then
    let m := m.setTimer h { m.timer h with cb := none }
    match find m.less h m.timers with
    | none => none
    | some it => some (true, { m with timers := erase it })
  else
    some (false, m)

/-- `Timer::refresh`. -/
def refresh (m : TimerManager Cb) (h now : ℕ) : Bool × TimerManager Cb :=
  if (m.timer h).cb.isNone then
    (false, m)
  else
    match find m.less h m.timers with
    | none => (false, m)
    | some it =>
        let m := { m with timers := erase it }
        let m := m.setTimer h
          { m.timer h with next := (now + (m.timer h).ms) % uint64Size }
        (true, { m with timers := insert m.less h m.timers })

/-- `TimerManager::addTimer(Timer::ptr, WriteLock&)`. The iterator of the inserted timer is
`begin()` if no timer is less. -/
def addTimerLocked (m : TimerManager Cb) (h : ℕ) : TimerManager Cb :=
  let atFront := (lowerBound (m.less · h) m.timers).1.isEmpty && !m.tickled
  { m with
    timers := insert m.less h m.timers
    tickled := m.tickled || atFront
    insertedAtFront := m.insertedAtFront + atFront.toNat }

/-- `Timer::reset`. -/
def reset (m : TimerManager Cb) (h ms : ℕ) (fromNow : Bool) (now : ℕ) : Bool × TimerManager Cb :=
  if ms = (m.timer h).ms ∧ fromNow = false then
    (true, m)
  else if (m.timer h).cb.isNone then
    (false, m)
  else
    match find m.less h m.timers with
    | none => (false, m)
    | some it =>
        let m := { m with timers := erase it }
        let t := m.timer h
        let start := if fromNow then now else (t.next + (uint64Size - t.ms)) % uint64Size
        let m := m.setTimer h { t with ms := ms, next := (start + ms) % uint64Size }
        (true, m.addTimerLocked h)

/-- `TimerManager::addTimer`, for a callback that is not null: the handle of the new timer is the number of
timers so far. -/
def addTimer (m : TimerManager Cb) (ms : ℕ) (cb : Cb) (recurring : Bool) (now addr : ℕ) :
    TimerManager Cb :=
  let t : Timer Cb :=
    { addr := addr, recurring := recurring, ms := ms, next := (now + ms) % uint64Size,
      cb := some cb }
  let m' := { m.setTimer m.count t with count := m.count + 1 }
  m'.addTimerLocked m.count

/-- `TimerManager::addTimer`, for a callback that may be null. -/
def addTimerOf (m : TimerManager Cb) (ms : ℕ) (cb : Option Cb) (recurring : Bool) (now addr : ℕ) :
    TimerManager Cb :=
  let t : Timer Cb :=
    { addr := addr, recurring := recurring, ms := ms, next := (now + ms) % uint64Size, cb := cb }
  let m' := { m.setTimer m.count t with count := m.count + 1 }
  m'.addTimerLocked m.count

theorem addTimerOf_some (m : TimerManager Cb) (ms : ℕ) (cb : Cb) (recurring : Bool) (now addr : ℕ) :
  m.addTimerOf ms (some cb) recurring now addr = m.addTimer ms cb recurring now addr
  := rfl

/-- `TimerManager::getNextTimer`, with `~0ull` for an empty set. -/
def getNextTimer (m : TimerManager Cb) (now : ℕ) : ℕ × TimerManager Cb :=
  let m := { m with tickled := false }
  match m.timers with
  | [] => (uint64Size - 1, m)
  | h :: _ => (if (m.timer h).next ≤ now then 0 else (m.timer h).next - now, m)

/-- `TimerManager::detectClockRollover`. The difference with an hour is unsigned. -/
def detectClockRollover (m : TimerManager Cb) (now : ℕ) : Bool × TimerManager Cb :=
  let hourBefore := (m.previouseTime + (uint64Size - 60 * 60 * 1000)) % uint64Size
  (now < m.previouseTime && now < hourBefore, { m with previouseTime := now })

/-- One turn of the last loop of `listExpiredCb`: the callback of a timer taken out of the set is
returned, a recurring timer is put back with a new deadline, another one loses its callback. -/
def fire (now : ℕ) (m : TimerManager Cb) (h : ℕ) : TimerManager Cb :=
  let t := m.timer h
  if t.recurring then
    let m := m.setTimer h { t with next := (now + t.ms) % uint64Size }
    { m with timers := insert m.less h m.timers }
  else
    m.setTimer h { t with cb := none }

/-- The last loop of `listExpiredCb`, over the expired timers, with the callbacks returned, each
with the handle of its timer. -/
def fireAll (now : ℕ) : TimerManager Cb → List ℕ → List (ℕ × Option Cb) × TimerManager Cb
  | m, [] => ([], m)
  | m, h :: hs =>
      let rest := fireAll now (m.fire now h) hs
      ((h, (m.timer h).cb) :: rest.1, rest.2)

/-- The timers that `listExpiredCb` takes out of the set, and those it leaves: up to the lower
bound of a probe timer for `now`, and on over the timers for `now` itself; all of them after a
rollover. -/
def splitExpired (m : TimerManager Cb) (rollover : Bool) (now probe : ℕ) : List ℕ × List ℕ :=
  let nowTimer : Timer Cb := { addr := probe, next := now }
  let (before, it) :=
    if rollover then (m.timers, [])
    else lowerBound (fun a => Timer.comparator (some (m.timer a)) (some nowTimer)) m.timers
  (before ++ it.takeWhile (fun a => (m.timer a).next = now),
    it.dropWhile (fun a => (m.timer a).next = now))

/-- `TimerManager::listExpiredCb`. -/
def listExpiredCb (m : TimerManager Cb) (now probe : ℕ) :
    List (ℕ × Option Cb) × TimerManager Cb :=
  match m.timers with
  | [] => ([], m)
  | h :: _ =>
      let (rollover, m) := m.detectClockRollover now
      if !rollover && now < (m.timer h).next then
        ([], m)
      else
        let (expired, left) := m.splitExpired rollover now probe
        fireAll now { m with timers := left } expired

end TimerManager
