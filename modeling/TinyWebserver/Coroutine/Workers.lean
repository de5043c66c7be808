import TinyWebserver.Coroutine.Accounting
import TinyWebserver.Coroutine.IOManager

/-!
# The workers of an event loop

The threads of an `IOManager` in `Scheduler::run` and `IOManager::idle`, in steps as small as the
wake-ups and the shutdown need them. A worker without a task counts itself as idle some time after its
scan of the queue, `IOManager::stopping` reads `m_pendingEventCount` before it takes the lock, and
`IOManager::tickle` reads `m_idleThreadCount` before it writes to the pipe. The read end of the pipe is
registered edge triggered, and the bytes are never read, so a write makes one `epoll_wait` return, the
first one to come if none is under way.

The program outside the workers schedules tasks and adds events at any time, and the event of a
descriptor is triggered at any time, which enqueues its task before the counter is decremented.
-/

universe u v

namespace IOManager

namespace Workers

/-- Where a worker is between two calls of `tickle`: behind its scan of the queue, with the task it has
taken, if any; in `resume`, behind the check of the state; in a fiber; behind the fiber, before the
count of active threads is decremented; or in its idle fiber behind `epoll_wait`. -/
inductive Place (Cb : Type u) where
  | scanned (t : Option (Ticket Cb))
  | resuming (f : FiberId)
  | running (f : FiberId)
  | leaving
  | returned
deriving DecidableEq

/-- Where a worker is: at the head of the loop of `run`; at a place; in a call of `tickle` from there,
before the count of idle threads is read or before the byte is written; in its idle fiber, before the
count of pending events is read, before the lock of `Scheduler::stopping` or in `epoll_wait`; or behind
the loop of `run`. -/
inductive Phase (Cb : Type u) where
  | scanning
  | here (p : Place Cb)
  | checking (p : Place Cb)
  | writing (p : Place Cb)
  | idling
  | testing
  | waiting
  | exited
deriving DecidableEq

end Workers

/-- The scheduler of an `IOManager` with its workers: the members of the two classes, the states of the
fibers, the calls of `tickle` by threads outside, and the registered events by their tasks. The flag
`ready` is set if a byte was written since the last `epoll_wait` has returned, `written` is the number
of bytes written, and `pushedAt` what it was when a task was enqueued. -/
structure Workers (W : Type v) (Cb : Type u) where
  tasks : List (Ticket Cb)
  accepted : ℕ
  activeThreadCount : ℤ
  idleThreadCount : ℤ
  stopping : Bool
  pendingEventCount : ℤ
  fiber : FiberId → FiberState
  fibers : ℕ
  phase : W → Workers.Phase Cb
  idleTerm : W → Bool
  checking : ℕ
  writing : ℕ
  ready : Bool
  written : ℕ
  pushedAt : ℕ → ℕ
  events : List (ScheduleTask Cb)
  triggering : ℕ

namespace Workers

variable {W : Type v} {Cb : Type u}

/-- All workers are at the head of their loops, and there is nothing to do. -/
def start : Workers W Cb where
  tasks := []
  accepted := 0
  activeThreadCount := 0
  idleThreadCount := 0
  stopping := false
  pendingEventCount := 0
  fiber _ := .ready
  fibers := 0
  phase _ := .scanning
  idleTerm _ := false
  checking := 0
  writing := 0
  ready := false
  written := 0
  pushedAt _ := 0
  events := []
  triggering := 0

/-- `scheduleNoLock`, with the value it returns. -/
def scheduleNoLock (s : Workers W Cb) (task : ScheduleTask Cb) : Bool × Workers W Cb :=
  let needTickle := s.tasks.isEmpty
  if task.fiber.isSome ∨ task.cb.isSome then
    (needTickle,
      { s with
        tasks := s.tasks ++ [⟨s.accepted, task⟩]
        accepted := s.accepted + 1
        pushedAt := Function.update s.pushedAt s.accepted s.written })
  else (needTickle, s)

/-- `schedule` by a thread outside, up to the call of `tickle`. -/
def schedule (s : Workers W Cb) (task : ScheduleTask Cb) : Workers W Cb :=
  let (needTickle, s) := s.scheduleNoLock task
  if needTickle then { s with checking := s.checking + 1 } else s

/-- `addEvent`, for an event with the given task. -/
def addEvent (s : Workers W Cb) (task : ScheduleTask Cb) : Workers W Cb :=
  { s with events := s.events ++ [task], pendingEventCount := s.pendingEventCount + 1 }

/-- `Scheduler::stopping`. -/
def isStopping (s : Workers W Cb) : Bool :=
  s.stopping && s.tasks.isEmpty && s.activeThreadCount = 0

/-- The write of a byte to the pipe. -/
def writeByte (s : Workers W Cb) : Workers W Cb :=
  { s with ready := true, written := s.written + 1 }

/-- A worker at a place, in a call of `tickle` if there is one to make. -/
def Phase.tickle (tickleMe : Bool) (p : Place Cb) : Phase Cb :=
  if tickleMe then .checking p else .here p

/-- The place of a worker, in a call of `tickle` or not. -/
def Phase.place : Phase Cb → Option (Place Cb)
  | .here p => some p
  | .checking p => some p
  | .writing p => some p
  | _ => none

@[simp]
theorem Phase.place_scanning :
  (.scanning : Phase Cb).place = none
  := rfl

@[simp]
theorem Phase.place_idling :
  (.idling : Phase Cb).place = none
  := rfl

@[simp]
theorem Phase.place_testing :
  (.testing : Phase Cb).place = none
  := rfl

@[simp]
theorem Phase.place_waiting :
  (.waiting : Phase Cb).place = none
  := rfl

@[simp]
theorem Phase.place_exited :
  (.exited : Phase Cb).place = none
  := rfl

@[simp]
theorem Phase.place_here (p : Place Cb) :
  (Phase.here p).place = some p
  := rfl

@[simp]
theorem Phase.place_checking (p : Place Cb) :
  (Phase.checking p).place = some p
  := rfl

@[simp]
theorem Phase.place_writing (p : Place Cb) :
  (Phase.writing p).place = some p
  := rfl

@[simp]
theorem Phase.place_tickle (tickleMe : Bool) (p : Place Cb) :
  (Phase.tickle tickleMe p).place = some p
  := by
  cases tickleMe <;> rfl

/-- The place is one from which a worker calls `schedule`: a fiber, or the idle fiber with the callbacks
of timers, unless it has ended. -/
def Place.schedules (idleTerm : Bool) : Place Cb → Bool
  | .running _ => true
  | .returned => !idleTerm
  | _ => false

/-- A step. Of the program: it makes a fiber, stops the scheduler, and from threads outside it schedules
a task, adds an event, calls `tickle`, as `stop` and the insertion of a timer do, and goes on in a call
of it. Of the events: one is triggered, which enqueues its task, the count is decremented after that, or
one is taken back. Of a worker. -/
inductive Step (W : Type v) (Cb : Type u) where
  | newFiber
  | stop
  | schedule (task : ScheduleTask Cb)
  | addEvent (task : ScheduleTask Cb)
  | tickle
  | checkIdle
  | writePipe
  | trigger (i : ℕ)
  | decrement
  | delEvent (i : ℕ)
  | scan (w : W)
  | scheduleBy (w : W) (task : ScheduleTask Cb)
  | addEventBy (w : W) (task : ScheduleTask Cb)
  | tickleBy (w : W)
  | checkIdleBy (w : W)
  | writePipeBy (w : W)
  | resume (w : W)
  | setRunning (w : W)
  | yield (w : W) (term : Bool)
  | leave (w : W)
  | enterIdle (w : W)
  | readPending (w : W)
  | test (w : W)
  | wake (w : W)
  | leaveIdle (w : W)

variable [DecidableEq W]

/-- The workers after one has got to another phase. -/
def setPhase (s : Workers W Cb) (w : W) (p : Phase Cb) : Workers W Cb :=
  { s with phase := Function.update s.phase w p }

/-- The scan of the queue by a worker. -/
def stepScan (s : Workers W Cb) (tid : W → ℤ) (w : W) : Workers W Cb :=
  match Scheduler.scan (tid w) s.fiber s.tasks with
  | (some t, left, tickleMe) =>
      { s with
        tasks := left
        activeThreadCount := s.activeThreadCount + 1 }.setPhase w (.tickle tickleMe (.scanned (some t)))
  | (none, _, tickleMe) => s.setPhase w (.tickle tickleMe (.scanned none))

/-- One step, with `none` if it is not possible, or if it is the failure of an assertion. -/
def step (tid : W → ℤ) (s : Workers W Cb) : Step W Cb → Option (Workers W Cb)
  | .newFiber => some { s with fibers := s.fibers + 1 }
  | .stop => some { s with stopping := true }
  | .schedule task => if task.fiber.any (s.fibers ≤ ·) then none else some (s.schedule task)
  | .addEvent task => if task.fiber.any (s.fibers ≤ ·) then none else some (s.addEvent task)
  | .tickle => some { s with checking := s.checking + 1 }
  | .checkIdle =>
      if s.checking = 0 then none
      else if 0 < s.idleThreadCount then
        some { s with checking := s.checking - 1, writing := s.writing + 1 }
      else some { s with checking := s.checking - 1 }
  | .writePipe =>
      if s.writing = 0 then none else some { s with writing := s.writing - 1 }.writeByte
  | .trigger i =>
      s.events[i]?.map fun task =>
        { s with events := s.events.eraseIdx i, triggering := s.triggering + 1 }.schedule task
  | .decrement =>
      if s.triggering = 0 then none
      else
        some { s with
          triggering := s.triggering - 1, pendingEventCount := s.pendingEventCount - 1 }
  | .delEvent i =>
      s.events[i]?.map fun _ =>
        { s with events := s.events.eraseIdx i, pendingEventCount := s.pendingEventCount - 1 }
  | .scan w =>
      match s.phase w with
      | .scanning => some (s.stepScan tid w)
      | _ => none
  | .scheduleBy w task =>
      match s.phase w with
      | .here p =>
          if p.schedules (s.idleTerm w) ∧ ¬ task.fiber.any (s.fibers ≤ ·) then
            let (needTickle, s) := s.scheduleNoLock task
            some (s.setPhase w (.tickle needTickle p))
          else none
      | _ => none
  | .addEventBy w task =>
      match s.phase w with
      | .here (.running _) =>
          if task.fiber.any (s.fibers ≤ ·) then none else some (s.addEvent task)
      | _ => none
  | .tickleBy w =>
      match s.phase w with
      | .here (.running f) => some (s.setPhase w (.checking (.running f)))
      | _ => none
  | .checkIdleBy w =>
      match s.phase w with
      | .checking p => some (s.setPhase w (if 0 < s.idleThreadCount then .writing p else .here p))
      | _ => none
  | .writePipeBy w =>
      match s.phase w with
      | .writing p => some (s.writeByte.setPhase w (.here p))
      | _ => none
  | .resume w =>
      match s.phase w with
      | .here (.scanned (some t)) =>
          match t.task.fiber with
          | some f =>
              if s.fiber f = .ready then some (s.setPhase w (.here (.resuming f))) else none
          | none =>
              -- A callback gets a new fiber of its own.
              some ({ s with fibers := s.fibers + 1 }.setPhase w (.here (.resuming s.fibers)))
      | _ => none
  | .setRunning w =>
      match s.phase w with
      | .here (.resuming f) =>
          some ({ s with fiber := Function.update s.fiber f .running }.setPhase w (.here (.running f)))
      | _ => none
  | .yield w term =>
      match s.phase w with
      | .here (.running f) =>
          some ({ s with
            fiber := Function.update s.fiber f (if term then .term else .ready) }.setPhase w
              (.here .leaving))
      | _ => none
  | .leave w =>
      match s.phase w with
      | .here .leaving =>
          some ({ s with activeThreadCount := s.activeThreadCount - 1 }.setPhase w .scanning)
      | _ => none
  | .enterIdle w =>
      match s.phase w with
      | .here (.scanned none) =>
          if s.idleTerm w then some (s.setPhase w .exited)
          else some ({ s with idleThreadCount := s.idleThreadCount + 1 }.setPhase w .idling)
      | _ => none
  | .readPending w =>
      match s.phase w with
      | .idling => some (s.setPhase w (if s.pendingEventCount = 0 then .testing else .waiting))
      | _ => none
  | .test w =>
      match s.phase w with
      | .testing =>
          if s.isStopping then
            some ({ s with idleTerm := Function.update s.idleTerm w true }.setPhase w
              (.here .returned))
          else some (s.setPhase w .waiting)
      | _ => none
  | .wake w =>
      match s.phase w with
      | .waiting => some ({ s with ready := false }.setPhase w (.here .returned))
      | _ => none
  | .leaveIdle w =>
      match s.phase w with
      | .here .returned =>
          some ({ s with idleThreadCount := s.idleThreadCount - 1 }.setPhase w .scanning)
      | _ => none

/-! ### What `schedule` changes -/

omit [DecidableEq W] in
theorem scheduleNoLock_eq (s : Workers W Cb) (task : ScheduleTask Cb) :
  ∃ tasks accepted pushedAt, s.scheduleNoLock task
    = (s.tasks.isEmpty, { s with tasks := tasks, accepted := accepted, pushedAt := pushedAt })
  := by
  unfold scheduleNoLock
  dsimp only
  split
  · exact ⟨_, _, _, rfl⟩
  · exact ⟨s.tasks, s.accepted, s.pushedAt, rfl⟩

omit [DecidableEq W] in
/-- `schedule` by a thread outside changes the queue, and it calls `tickle` if that was empty. -/
theorem schedule_eq (s : Workers W Cb) (task : ScheduleTask Cb) :
  ∃ tasks accepted pushedAt, s.schedule task
    = { s with
      tasks := tasks
      accepted := accepted
      pushedAt := pushedAt
      checking := s.checking + if s.tasks = [] then 1 else 0 }
  := by
  obtain ⟨tasks, accepted, pushedAt, heq⟩ := s.scheduleNoLock_eq task
  refine ⟨tasks, accepted, pushedAt, ?_⟩
  simp only [schedule, heq, List.isEmpty_iff]
  split <;> rfl

/-! ### The steps, read backwards -/

variable {tid : W → ℤ} {s s' : Workers W Cb} {w : W}

theorem step_schedule {task : ScheduleTask Cb} (h : step tid s (.schedule task) = some s') :
  s' = s.schedule task
  := by
  rw [step] at h
  split at h
  · simp at h
  · exact (Option.some.inj h).symm

theorem step_addEvent {task : ScheduleTask Cb} (h : step tid s (.addEvent task) = some s') :
  s' = s.addEvent task
  := by
  rw [step] at h
  split at h
  · simp at h
  · exact (Option.some.inj h).symm

theorem step_checkIdle (h : step tid s .checkIdle = some s') :
  s.checking ≠ 0 ∧
    (0 < s.idleThreadCount ∧ s' = { s with checking := s.checking - 1, writing := s.writing + 1 } ∨
      ¬ 0 < s.idleThreadCount ∧ s' = { s with checking := s.checking - 1 })
  := by
  rw [step] at h
  split at h
  · simp at h
  · rename_i hchecking
    refine ⟨hchecking, ?_⟩
    split at h
    · rename_i hidle
      exact Or.inl ⟨hidle, (Option.some.inj h).symm⟩
    · rename_i hidle
      exact Or.inr ⟨hidle, (Option.some.inj h).symm⟩

theorem step_writePipe (h : step tid s .writePipe = some s') :
  s' = { s with writing := s.writing - 1 }.writeByte
  := by
  rw [step] at h
  split at h
  · simp at h
  · exact (Option.some.inj h).symm

theorem step_trigger {i : ℕ} (h : step tid s (.trigger i) = some s') :
  ∃ task, s.events[i]? = some task ∧
    s' = { s with events := s.events.eraseIdx i, triggering := s.triggering + 1 }.schedule task
  := by
  obtain ⟨task, htask, rfl⟩ := Option.map_eq_some_iff.mp h
  exact ⟨task, htask, rfl⟩

theorem step_decrement (h : step tid s .decrement = some s') :
  s.triggering ≠ 0 ∧ s' = { s with
    triggering := s.triggering - 1, pendingEventCount := s.pendingEventCount - 1 }
  := by
  rw [step] at h
  split at h
  · simp at h
  · rename_i htriggering
    exact ⟨htriggering, (Option.some.inj h).symm⟩

theorem step_delEvent {i : ℕ} (h : step tid s (.delEvent i) = some s') :
  i < s.events.length ∧ s' = { s with
    events := s.events.eraseIdx i, pendingEventCount := s.pendingEventCount - 1 }
  := by
  obtain ⟨task, htask, rfl⟩ := Option.map_eq_some_iff.mp h
  exact ⟨(List.getElem?_eq_some_iff.mp htask).1, rfl⟩

theorem step_scan (h : step tid s (.scan w) = some s') :
  s.phase w = .scanning ∧ s' = s.stepScan tid w
  := by
  rw [step] at h
  split at h
  · rename_i hw
    exact ⟨hw, (Option.some.inj h).symm⟩
  · simp at h

theorem step_scheduleBy {task : ScheduleTask Cb} (h : step tid s (.scheduleBy w task) = some s') :
  ∃ p, s.phase w = .here p ∧ p.schedules (s.idleTerm w) = true ∧
    s' = (s.scheduleNoLock task).2.setPhase w (.tickle (s.scheduleNoLock task).1 p)
  := by
  rw [step] at h
  split at h
  · rename_i p hw
    split at h
    · rename_i hp
      exact ⟨p, hw, hp.1, (Option.some.inj h).symm⟩
    · simp at h
  · simp at h

theorem step_addEventBy {task : ScheduleTask Cb} (h : step tid s (.addEventBy w task) = some s') :
  ∃ f, s.phase w = .here (.running f) ∧ s' = s.addEvent task
  := by
  rw [step] at h
  split at h
  · rename_i f hw
    split at h
    · simp at h
    · exact ⟨f, hw, (Option.some.inj h).symm⟩
  · simp at h

theorem step_tickleBy (h : step tid s (.tickleBy w) = some s') :
  ∃ f, s.phase w = .here (.running f) ∧ s' = s.setPhase w (.checking (.running f))
  := by
  rw [step] at h
  split at h
  · rename_i f hw
    exact ⟨f, hw, (Option.some.inj h).symm⟩
  · simp at h

theorem step_checkIdleBy (h : step tid s (.checkIdleBy w) = some s') :
  ∃ p, s.phase w = .checking p ∧
    s' = s.setPhase w (if 0 < s.idleThreadCount then .writing p else .here p)
  := by
  rw [step] at h
  split at h
  · rename_i p hw
    exact ⟨p, hw, (Option.some.inj h).symm⟩
  · simp at h

theorem step_writePipeBy (h : step tid s (.writePipeBy w) = some s') :
  ∃ p, s.phase w = .writing p ∧ s' = s.writeByte.setPhase w (.here p)
  := by
  rw [step] at h
  split at h
  · rename_i p hw
    exact ⟨p, hw, (Option.some.inj h).symm⟩
  · simp at h

theorem step_resume (h : step tid s (.resume w) = some s') :
  ∃ t f fibers, s.phase w = .here (.scanned (some t)) ∧
    s' = { s with fibers := fibers }.setPhase w (.here (.resuming f))
  := by
  rw [step] at h
  split at h
  · rename_i t hw
    split at h
    · rename_i f _
      split at h
      · exact ⟨t, f, s.fibers, hw, (Option.some.inj h).symm⟩
      · simp at h
    · exact ⟨t, s.fibers, s.fibers + 1, hw, (Option.some.inj h).symm⟩
  · simp at h

theorem step_setRunning (h : step tid s (.setRunning w) = some s') :
  ∃ f, s.phase w = .here (.resuming f) ∧
    s' = { s with fiber := Function.update s.fiber f .running }.setPhase w (.here (.running f))
  := by
  rw [step] at h
  split at h
  · rename_i f hw
    exact ⟨f, hw, (Option.some.inj h).symm⟩
  · simp at h

theorem step_yield {term : Bool} (h : step tid s (.yield w term) = some s') :
  ∃ f, s.phase w = .here (.running f) ∧
    s' = { s with
      fiber := Function.update s.fiber f (if term then .term else .ready) }.setPhase w
        (.here .leaving)
  := by
  rw [step] at h
  split at h
  · rename_i f hw
    exact ⟨f, hw, (Option.some.inj h).symm⟩
  · simp at h

theorem step_leave (h : step tid s (.leave w) = some s') :
  s.phase w = .here .leaving ∧
    s' = { s with activeThreadCount := s.activeThreadCount - 1 }.setPhase w .scanning
  := by
  rw [step] at h
  split at h
  · rename_i hw
    exact ⟨hw, (Option.some.inj h).symm⟩
  · simp at h

theorem step_enterIdle (h : step tid s (.enterIdle w) = some s') :
  s.phase w = .here (.scanned none) ∧
    (s.idleTerm w = true ∧ s' = s.setPhase w .exited ∨
      s.idleTerm w = false ∧
        s' = { s with idleThreadCount := s.idleThreadCount + 1 }.setPhase w .idling)
  := by
  rw [step] at h
  split at h
  · rename_i hw
    refine ⟨hw, ?_⟩
    split at h
    · rename_i hterm
      exact Or.inl ⟨hterm, (Option.some.inj h).symm⟩
    · rename_i hterm
      exact Or.inr ⟨by simpa using hterm, (Option.some.inj h).symm⟩
  · simp at h

theorem step_readPending (h : step tid s (.readPending w) = some s') :
  s.phase w = .idling ∧
    s' = s.setPhase w (if s.pendingEventCount = 0 then .testing else .waiting)
  := by
  rw [step] at h
  split at h
  · rename_i hw
    exact ⟨hw, (Option.some.inj h).symm⟩
  · simp at h

theorem step_test (h : step tid s (.test w) = some s') :
  s.phase w = .testing ∧
    (s.isStopping = true ∧
        s' = { s with idleTerm := Function.update s.idleTerm w true }.setPhase w (.here .returned) ∨
      s' = s.setPhase w .waiting)
  := by
  rw [step] at h
  split at h
  · rename_i hw
    refine ⟨hw, ?_⟩
    split at h
    · rename_i hstopping
      exact Or.inl ⟨hstopping, (Option.some.inj h).symm⟩
    · exact Or.inr (Option.some.inj h).symm
  · simp at h

theorem step_wake (h : step tid s (.wake w) = some s') :
  s.phase w = .waiting ∧ s' = { s with ready := false }.setPhase w (.here .returned)
  := by
  rw [step] at h
  split at h
  · rename_i hw
    exact ⟨hw, (Option.some.inj h).symm⟩
  · simp at h

theorem step_leaveIdle (h : step tid s (.leaveIdle w) = some s') :
  s.phase w = .here .returned ∧
    s' = { s with idleThreadCount := s.idleThreadCount - 1 }.setPhase w .scanning
  := by
  rw [step] at h
  split at h
  · rename_i hw
    exact ⟨hw, (Option.some.inj h).symm⟩
  · simp at h

end Workers

end IOManager
