import TinyWebserver.Coroutine.Fiber
import TinyWebserver.Lib.Counting
import TinyWebserver.Lib.Transition

/-!
# The scheduler

The class `Scheduler` of `coroutine/scheduler.cpp`, as a transition system: worker threads, each
somewhere in `Scheduler::run` or in a fiber it has resumed, take steps in any order. The scan of the
task queue is one step, under the mutex. `Fiber::resume` is three steps, its check of the state, its
assignment to the state and the switch to the context of the fiber, and `Fiber::yield` is two, the
assignment to the state and the switch back, with which `resume` returns. The decrement of
`m_activeThreadCount` behind `resume` is a step of its own, without the mutex.

For the proofs every accepted task has a number, and the state keeps a log of who took which task,
the numbers of the finished tasks, and a count of the switches to a context that was not saved.
-/

universe u v

/-- The structure `ScheduleTask`: a fiber or a callback, and the thread it is pinned to, or -1. -/
structure ScheduleTask (Cb : Type u) where
  fiber : Option FiberId := none
  cb : Option Cb := none
  thread : ℤ := -1
deriving DecidableEq

/-- A task with the number it has among the accepted ones. -/
structure Ticket (Cb : Type u) where
  id : ℕ
  task : ScheduleTask Cb
deriving DecidableEq

/-- Where a worker is: at the head of the loop of `run`, in its idle fiber, behind the loop, or with
a task: taken from the queue, in `resume` behind the check or behind the assignment, in the fiber,
and in `yield` behind the assignment, or with the state set to `TERM`; or behind `resume`, in front of
the decrement of `m_activeThreadCount`. -/
inductive Phase (Cb : Type u) where
  | scanning
  | idle
  | exited
  | taken (t : Ticket Cb)
  | resuming (id : ℕ) (f : FiberId)
  | entering (id : ℕ) (f : FiberId)
  | executing (id : ℕ) (f : FiberId)
  | yielding (id : ℕ) (f : FiberId)
  | leaving (id : ℕ) (f : FiberId)
  | resumed
deriving DecidableEq

namespace Phase

variable {Cb : Type u}

/-- The number of the task that a worker holds. -/
def held : Phase Cb → Option ℕ
  | .scanning => none
  | .idle => none
  | .exited => none
  | .taken t => some t.id
  | .resuming id _ => some id
  | .entering id _ => some id
  | .executing id _ => some id
  | .yielding id _ => some id
  | .leaving id _ => some id
  | .resumed => none

/-- The worker is behind `resume`, and has not counted itself out yet. -/
def isResumed : Phase Cb → Bool
  | .resumed => true
  | _ => false

@[simp]
theorem isResumed_iff (p : Phase Cb) :
  p.isResumed = true ↔ p = .resumed
  := by
  cases p <;> simp [isResumed]

@[simp]
theorem isResumed_resumed :
  (.resumed : Phase Cb).isResumed = true
  := rfl

@[simp]
theorem isResumed_scanning :
  (.scanning : Phase Cb).isResumed = false
  := rfl

/-- A worker that holds a task is not behind `resume`. -/
theorem isResumed_of_held {p : Phase Cb} {id : ℕ} (h : p.held = some id) :
  p.isResumed = false
  := by
  cases p <;> first | rfl | simp [held] at h

@[simp]
theorem held_scanning :
  (.scanning : Phase Cb).held = none
  := rfl

@[simp]
theorem held_taken (t : Ticket Cb) :
  (Phase.taken t).held = some t.id
  := rfl

@[simp]
theorem held_resumed :
  (.resumed : Phase Cb).held = none
  := rfl

end Phase

/-- The class `Scheduler`, with its workers and the fibers of the program. -/
structure Scheduler (W : Type v) (Cb : Type u) where
  tasks : List (Ticket Cb)
  activeThreadCount : ℤ
  idleThreadCount : ℤ
  stopping : Bool
  phase : W → Phase Cb
  idleTerm : W → Bool
  fiber : FiberId → Fiber
  fibers : ℕ
  accepted : ℕ
  log : List (Ticket Cb × W)
  finished : List ℕ
  unsavedEntries : ℕ

namespace Scheduler

variable {W : Type v} {Cb : Type u} [DecidableEq W]

/-- The scheduler after `start`, with all workers at the head of their loops. -/
def start : Scheduler W Cb where
  tasks := []
  activeThreadCount := 0
  idleThreadCount := 0
  stopping := false
  phase _ := .scanning
  idleTerm _ := false
  fiber _ := {}
  fibers := 0
  accepted := 0
  log := []
  finished := []
  unsavedEntries := 0

/-! ### The queue -/

/-- The loop of `run` over the queue, for the thread `tid` and by the states of the fibers: the task
that is taken, the tasks that are left, and `tickle_me`. -/
def scan (tid : ℤ) (state : FiberId → FiberState) :
    List (Ticket Cb) → Option (Ticket Cb) × List (Ticket Cb) × Bool
  | [] => (none, [], false)
  | t :: ts =>
      if t.task.thread ≠ -1 ∧ t.task.thread ≠ tid then
        let (taken, left, _) := scan tid state ts
        (taken, t :: left, true)
      else if t.task.fiber.any (state · = .running) then
        let (taken, left, tickleMe) := scan tid state ts
        (taken, t :: left, tickleMe)
      else
        (some t, ts, !ts.isEmpty)

/-- `scheduleNoLock`, with the value it returns. -/
def scheduleNoLock (s : Scheduler W Cb) (task : ScheduleTask Cb) : Bool × Scheduler W Cb :=
  let needTickle := s.tasks.isEmpty
  if task.fiber.isSome ∨ task.cb.isSome then
    (needTickle,
      { s with tasks := s.tasks ++ [⟨s.accepted, task⟩], accepted := s.accepted + 1 })
  else (needTickle, s)

/-! ### The steps -/

/-- The scheduler after a worker has got to `p`. -/
def setPhase (s : Scheduler W Cb) (w : W) (p : Phase Cb) : Scheduler W Cb :=
  { s with phase := Function.update s.phase w p }

/-- The scheduler after an assignment to a fiber. -/
def setFiber (s : Scheduler W Cb) (f : FiberId) (x : Fiber) : Scheduler W Cb :=
  { s with fiber := Function.update s.fiber f x }

/-- `Scheduler::stopping`. -/
def isStopping (s : Scheduler W Cb) : Bool :=
  s.stopping && s.tasks.isEmpty && s.activeThreadCount = 0

/-- A step: of the program, which makes fibers, schedules tasks and stops the scheduler, or of a
worker. -/
inductive Step (W : Type v) (Cb : Type u) where
  | newFiber
  | schedule (task : ScheduleTask Cb)
  | stop
  | scan (w : W)
  | checkReady (w : W)
  | setRunning (w : W)
  | enter (w : W)
  | yieldReady (w : W)
  | terminate (w : W)
  | swapOut (w : W)
  | release (w : W)
  | idleYield (w : W)
  | idleReturn (w : W)

/-- The scan of the queue by a worker: the worker gets a task, or goes to its idle fiber, or leaves
the loop if that one has ended. -/
def stepScan (s : Scheduler W Cb) (tid : W → ℤ) (w : W) : Scheduler W Cb :=
  match scan (tid w) (fun f => (s.fiber f).state) s.tasks with
  | (some t, left, _) =>
      { s with
        tasks := left
        activeThreadCount := s.activeThreadCount + 1
        log := s.log ++ [(t, w)] }.setPhase w (.taken t)
  | (none, _, _) =>
      if s.idleTerm w then s.setPhase w .exited
      else { s with idleThreadCount := s.idleThreadCount + 1 }.setPhase w .idle

/-- One step, with `none` if it is not possible, or if it is the failure of an assertion of
`resume` or `yield`. -/
def step (tid : W → ℤ) (s : Scheduler W Cb) : Step W Cb → Option (Scheduler W Cb)
  | .newFiber => some { s with fibers := s.fibers + 1 }
  | .schedule task =>
      if task.fiber.any (s.fibers ≤ ·) then none else some (s.scheduleNoLock task).2
  | .stop => some { s with stopping := true }
  | .scan w =>
      match s.phase w with
      | .scanning => some (s.stepScan tid w)
      | _ => none
  | .checkReady w =>
      match s.phase w with
      | .taken t =>
          match t.task.fiber with
          | some f =>
              if (s.fiber f).state = .ready then some (s.setPhase w (.resuming t.id f)) else none
          | none =>
              -- A callback gets a new fiber of its own.
              some ({ s with fibers := s.fibers + 1 }.setPhase w (.resuming t.id s.fibers))
      | _ => none
  | .setRunning w =>
      match s.phase w with
      | .resuming id f =>
          some ((s.setFiber f { s.fiber f with state := .running }).setPhase w (.entering id f))
      | _ => none
  | .enter w =>
      match s.phase w with
      | .entering id f =>
          some ({ s with
            unsavedEntries := s.unsavedEntries + if (s.fiber f).saved then 0 else 1 }.setFiber f
              { s.fiber f with saved := false } |>.setPhase w (.executing id f))
      | _ => none
  | .yieldReady w =>
      match s.phase w with
      | .executing id f =>
          match (s.fiber f).state with
          | .ready => none
          | .running =>
              some ((s.setFiber f { s.fiber f with state := .ready }).setPhase w (.yielding id f))
          | .term => some (s.setPhase w (.leaving id f))
      | _ => none
  | .terminate w =>
      match s.phase w with
      | .executing id f =>
          some ((s.setFiber f { s.fiber f with state := .term }).setPhase w (.leaving id f))
      | _ => none
  | .swapOut w =>
      match s.phase w with
      | .yielding id f | .leaving id f =>
          some ({ s with finished := s.finished ++ [id] }.setFiber f
              { s.fiber f with saved := true } |>.setPhase w .resumed)
      | _ => none
  | .release w =>
      match s.phase w with
      | .resumed =>
          some ({ s with activeThreadCount := s.activeThreadCount - 1 }.setPhase w .scanning)
      | _ => none
  | .idleYield w =>
      match s.phase w with
      | .idle =>
          some ({ s with idleThreadCount := s.idleThreadCount - 1 }.setPhase w .scanning)
      | _ => none
  | .idleReturn w =>
      match s.phase w with
      | .idle =>
          if s.isStopping then
            some ({ s with
              idleThreadCount := s.idleThreadCount - 1
              idleTerm := Function.update s.idleTerm w true }.setPhase w .scanning)
          else none
      | _ => none

/-! ### The steps, read backwards -/

variable {tid : W → ℤ} {s s' : Scheduler W Cb} {w : W}

theorem step_schedule {task : ScheduleTask Cb} (h : step tid s (.schedule task) = some s') :
  (∀ f, task.fiber = some f → f < s.fibers) ∧ s' = (s.scheduleNoLock task).2
  := by
  rw [step] at h
  split at h
  · simp at h
  · rename_i hfibers
    refine ⟨?_, (Option.some.inj h).symm⟩
    intro f hf
    simpa [hf] using hfibers

theorem step_scan (h : step tid s (.scan w) = some s') :
  s.phase w = .scanning ∧ s' = s.stepScan tid w
  := by
  rw [step] at h
  split at h
  · rename_i hw
    exact ⟨hw, (Option.some.inj h).symm⟩
  · simp at h

theorem step_checkReady (h : step tid s (.checkReady w) = some s') :
  ∃ t, s.phase w = .taken t ∧
    ((∃ f, t.task.fiber = some f ∧ (s.fiber f).state = .ready ∧
        s' = s.setPhase w (.resuming t.id f)) ∨
      (t.task.fiber = none ∧
        s' = { s with fibers := s.fibers + 1 }.setPhase w (.resuming t.id s.fibers)))
  := by
  rw [step] at h
  split at h
  · rename_i t hw
    refine ⟨t, hw, ?_⟩
    split at h
    · rename_i f hf
      split at h
      · rename_i hready
        exact Or.inl ⟨f, hf, hready, (Option.some.inj h).symm⟩
      · simp at h
    · rename_i hf
      exact Or.inr ⟨hf, (Option.some.inj h).symm⟩
  · simp at h

theorem step_setRunning (h : step tid s (.setRunning w) = some s') :
  ∃ id f, s.phase w = .resuming id f ∧
    s' = (s.setFiber f { s.fiber f with state := .running }).setPhase w (.entering id f)
  := by
  rw [step] at h
  split at h
  · rename_i id f hw
    exact ⟨id, f, hw, (Option.some.inj h).symm⟩
  · simp at h

theorem step_enter (h : step tid s (.enter w) = some s') :
  ∃ id f, s.phase w = .entering id f ∧
    s' = ({ s with
      unsavedEntries := s.unsavedEntries + if (s.fiber f).saved then 0 else 1 }.setFiber f
        { s.fiber f with saved := false }).setPhase w (.executing id f)
  := by
  rw [step] at h
  split at h
  · rename_i id f hw
    exact ⟨id, f, hw, (Option.some.inj h).symm⟩
  · simp at h

theorem step_yieldReady (h : step tid s (.yieldReady w) = some s') :
  ∃ id f, s.phase w = .executing id f ∧
    (((s.fiber f).state = .running ∧
        s' = (s.setFiber f { s.fiber f with state := .ready }).setPhase w (.yielding id f)) ∨
      ((s.fiber f).state = .term ∧ s' = s.setPhase w (.leaving id f)))
  := by
  rw [step] at h
  split at h
  · rename_i id f hw
    refine ⟨id, f, hw, ?_⟩
    split at h
    · simp at h
    · rename_i hstate
      exact Or.inl ⟨hstate, (Option.some.inj h).symm⟩
    · rename_i hstate
      exact Or.inr ⟨hstate, (Option.some.inj h).symm⟩
  · simp at h

theorem step_terminate (h : step tid s (.terminate w) = some s') :
  ∃ id f, s.phase w = .executing id f ∧
    s' = (s.setFiber f { s.fiber f with state := .term }).setPhase w (.leaving id f)
  := by
  rw [step] at h
  split at h
  · rename_i id f hw
    exact ⟨id, f, hw, (Option.some.inj h).symm⟩
  · simp at h

theorem step_swapOut (h : step tid s (.swapOut w) = some s') :
  ∃ id f, (s.phase w = .yielding id f ∨ s.phase w = .leaving id f) ∧
    s' = ({ s with finished := s.finished ++ [id] }.setFiber f
        { s.fiber f with saved := true }).setPhase w .resumed
  := by
  rw [step] at h
  split at h
  · rename_i id f hw
    exact ⟨id, f, Or.inl hw, (Option.some.inj h).symm⟩
  · rename_i id f hw
    exact ⟨id, f, Or.inr hw, (Option.some.inj h).symm⟩
  · simp at h

theorem step_release (h : step tid s (.release w) = some s') :
  s.phase w = .resumed ∧
    s' = { s with activeThreadCount := s.activeThreadCount - 1 }.setPhase w .scanning
  := by
  rw [step] at h
  split at h
  · rename_i hw
    exact ⟨hw, (Option.some.inj h).symm⟩
  · simp at h

theorem step_idleYield (h : step tid s (.idleYield w) = some s') :
  s.phase w = .idle ∧
    s' = { s with idleThreadCount := s.idleThreadCount - 1 }.setPhase w .scanning
  := by
  rw [step] at h
  split at h
  · rename_i hw
    exact ⟨hw, (Option.some.inj h).symm⟩
  · simp at h

theorem step_idleReturn (h : step tid s (.idleReturn w) = some s') :
  s.phase w = .idle ∧ s.isStopping ∧
    s' = { s with
      idleThreadCount := s.idleThreadCount - 1
      idleTerm := Function.update s.idleTerm w true }.setPhase w .scanning
  := by
  rw [step] at h
  split at h
  · rename_i hw
    split at h
    · rename_i hstopping
      exact ⟨hw, hstopping, (Option.some.inj h).symm⟩
    · simp at h
  · simp at h

end Scheduler
