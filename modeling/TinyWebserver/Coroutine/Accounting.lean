import TinyWebserver.Coroutine.Scheduler

/-!
# No task is lost

Every task that was accepted is at all times in the queue, with one worker or finished, and in one of
these places only once. `Effect` says what a step can do to the queue and to the workers, and
`run_accounted` follows from it for every order of steps.

The counter of active threads is not the number of workers with a task: it goes down behind `resume`,
when the task is already finished, `run_counted_late`. It is the number of workers with a task or
between the two.
-/

universe u v

namespace Scheduler

open Transition Counting

variable {W : Type v} {Cb : Type u}

/-! ### The scan -/

/-- A worker may take a task: it is not pinned to another thread, and its fiber does not run. -/
def Eligible (tid : ℤ) (state : FiberId → FiberState) (t : Ticket Cb) : Prop :=
  (t.task.thread = -1 ∨ t.task.thread = tid) ∧ ¬ t.task.fiber.any (state · = .running)

/-- A result of the scan is right: the first task that the worker may take is taken, if there is
one, and the others are left in their order. -/
def ScanResult (tid : ℤ) (state : FiberId → FiberState) (tasks : List (Ticket Cb)) :
    Option (Ticket Cb) × List (Ticket Cb) × Bool → Prop
  | (some t, left, _) =>
      Eligible tid state t ∧
        ∃ before after, tasks = before ++ t :: after ∧ left = before ++ after ∧
          ∀ x ∈ before, ¬ Eligible tid state x
  | (none, left, _) => left = tasks ∧ ∀ t ∈ tasks, ¬ Eligible tid state t

/-- A task that the worker may not take stays in front. -/
theorem ScanResult.skip {tid : ℤ} {state : FiberId → FiberState} {t : Ticket Cb}
    {ts : List (Ticket Cb)} (ht : ¬ Eligible tid state t)
    {res : Option (Ticket Cb) × List (Ticket Cb) × Bool} (h : ScanResult tid state ts res)
    (tickleMe : Bool) :
  ScanResult tid state (t :: ts) (res.1, t :: res.2.1, tickleMe)
  := by
  obtain ⟨taken, left, _⟩ := res
  cases taken with
  | some t' =>
      obtain ⟨heligible, before, after, hts, hleft, hbefore⟩ := h
      refine ⟨heligible, t :: before, after, by simp [hts], by simp [hleft], ?_⟩
      simpa [ht] using hbefore
  | none =>
      obtain ⟨hleft, hnone⟩ := h
      refine ⟨by simp [hleft], ?_⟩
      simpa [ht] using hnone

theorem scan_spec (tid : ℤ) (state : FiberId → FiberState) (tasks : List (Ticket Cb)) :
  ScanResult tid state tasks (scan tid state tasks)
  := by
  induction tasks with
  | nil => exact ⟨rfl, by simp⟩
  | cons t ts ih =>
      rw [scan]
      by_cases hpinned : t.task.thread ≠ -1 ∧ t.task.thread ≠ tid
      · rw [if_pos hpinned]
        apply ih.skip
        rintro ⟨hthread, -⟩
        tauto
      · rw [if_neg hpinned]
        by_cases hrunning : t.task.fiber.any (state · = .running)
        · rw [if_pos hrunning]
          apply ih.skip
          rintro ⟨-, hstill⟩
          apply hstill hrunning
        · rw [if_neg hrunning]
          exact ⟨⟨by tauto, hrunning⟩, [], ts, rfl, rfl, by simp⟩

/-! ### What a step can do -/

variable [DecidableEq W]

/-- Nothing happened to the tasks. -/
structure SameBooks (s s' : Scheduler W Cb) : Prop where
  tasks : s'.tasks = s.tasks
  active : s'.activeThreadCount = s.activeThreadCount
  accepted : s'.accepted = s.accepted
  log : s'.log = s.log
  finished : s'.finished = s.finished

/-- What a step can do to the tasks: nothing, apart from a worker that goes on with the task it has
or without one; or a task is accepted, or taken by a worker, or finished by one; or a worker counts
itself out. -/
inductive Effect (tid : W → ℤ) (s s' : Scheduler W Cb) : Prop where
  | still (hphase : s'.phase = s.phase) (hsame : SameBooks s s')
  | move (w : W) (p : Phase Cb) (hheld : p.held = (s.phase w).held)
      (hresumed : p.isResumed = (s.phase w).isResumed)
      (hphase : s'.phase = Function.update s.phase w p) (hsame : SameBooks s s')
  | accept (task : ScheduleTask Cb)
      (h : s' = { s with
        tasks := s.tasks ++ [⟨s.accepted, task⟩], accepted := s.accepted + 1 })
  | take (w : W) (t : Ticket Cb) (left : List (Ticket Cb)) (hidle : s.phase w = .scanning)
      (hscan : ScanResult (tid w) (fun f => (s.fiber f).state) s.tasks (some t, left, false))
      (h : s' = { s with
        tasks := left
        activeThreadCount := s.activeThreadCount + 1
        log := s.log ++ [(t, w)] }.setPhase w (.taken t))
  | finish (w : W) (id : ℕ) (hheld : (s.phase w).held = some id)
      (hphase : s'.phase = Function.update s.phase w .resumed)
      (hsame : SameBooks s { s' with finished := s.finished })
      (hfinished : s'.finished = s.finished ++ [id])
  | release (w : W) (hw : s.phase w = .resumed)
      (h : s' = { s with activeThreadCount := s.activeThreadCount - 1 }.setPhase w .scanning)

theorem stepScan_effect {s : Scheduler W Cb} (tid : W → ℤ) {w : W} (hw : s.phase w = .scanning) :
  Effect tid s (s.stepScan tid w)
  := by
  have hspec := scan_spec (tid w) (fun f => (s.fiber f).state) s.tasks
  have hidle : (s.phase w).held = none := by rw [hw]; rfl
  have hresumed : (s.phase w).isResumed = false := by rw [hw]; rfl
  unfold stepScan
  generalize scan (tid w) (fun f => (s.fiber f).state) s.tasks = res at hspec
  obtain ⟨taken, left, tickleMe⟩ := res
  cases taken with
  | some t => exact .take w t left hw hspec rfl
  | none =>
      dsimp only
      split
      · exact .move w .exited hidle.symm hresumed.symm rfl ⟨rfl, rfl, rfl, rfl, rfl⟩
      · exact .move w .idle hidle.symm hresumed.symm rfl ⟨rfl, rfl, rfl, rfl, rfl⟩

theorem step_effect {tid : W → ℤ} {s s' : Scheduler W Cb} {l : Step W Cb}
    (h : step tid s l = some s') :
  Effect tid s s'
  := by
  cases l with
  | newFiber =>
      obtain rfl := Option.some.inj h
      exact .still rfl ⟨rfl, rfl, rfl, rfl, rfl⟩
  | schedule task =>
      obtain ⟨-, rfl⟩ := step_schedule h
      rw [scheduleNoLock]
      split
      · exact .accept task rfl
      · exact .still rfl ⟨rfl, rfl, rfl, rfl, rfl⟩
  | stop =>
      obtain rfl := Option.some.inj h
      exact .still rfl ⟨rfl, rfl, rfl, rfl, rfl⟩
  | scan w =>
      obtain ⟨hw, rfl⟩ := step_scan h
      apply stepScan_effect tid hw
  | checkReady w =>
      obtain ⟨t, hw, ⟨f, -, -, rfl⟩ | ⟨-, rfl⟩⟩ := step_checkReady h
      · exact .move w (.resuming t.id f) (by rw [hw]; rfl) (by rw [hw]; rfl) rfl
          ⟨rfl, rfl, rfl, rfl, rfl⟩
      · exact .move w (.resuming t.id s.fibers) (by rw [hw]; rfl) (by rw [hw]; rfl) rfl
          ⟨rfl, rfl, rfl, rfl, rfl⟩
  | setRunning w =>
      obtain ⟨id, f, hw, rfl⟩ := step_setRunning h
      exact .move w (.entering id f) (by rw [hw]; rfl) (by rw [hw]; rfl) rfl
          ⟨rfl, rfl, rfl, rfl, rfl⟩
  | enter w =>
      obtain ⟨id, f, hw, rfl⟩ := step_enter h
      exact .move w (.executing id f) (by rw [hw]; rfl) (by rw [hw]; rfl) rfl
          ⟨rfl, rfl, rfl, rfl, rfl⟩
  | yieldReady w =>
      obtain ⟨id, f, hw, ⟨-, rfl⟩ | ⟨-, rfl⟩⟩ := step_yieldReady h
      · exact .move w (.yielding id f) (by rw [hw]; rfl) (by rw [hw]; rfl) rfl
          ⟨rfl, rfl, rfl, rfl, rfl⟩
      · exact .move w (.leaving id f) (by rw [hw]; rfl) (by rw [hw]; rfl) rfl
          ⟨rfl, rfl, rfl, rfl, rfl⟩
  | terminate w =>
      obtain ⟨id, f, hw, rfl⟩ := step_terminate h
      exact .move w (.leaving id f) (by rw [hw]; rfl) (by rw [hw]; rfl) rfl
          ⟨rfl, rfl, rfl, rfl, rfl⟩
  | swapOut w =>
      obtain ⟨id, f, hw, rfl⟩ := step_swapOut h
      refine .finish w id ?_ rfl ⟨rfl, rfl, rfl, rfl, rfl⟩ rfl
      cases hw with
      | inl hw => rw [hw]; rfl
      | inr hw => rw [hw]; rfl
  | release w =>
      obtain ⟨hw, rfl⟩ := step_release h
      exact .release w hw rfl
  | idleYield w =>
      obtain ⟨hw, rfl⟩ := step_idleYield h
      exact .move w .scanning (by rw [hw]; rfl) (by rw [hw]; rfl) rfl
          ⟨rfl, rfl, rfl, rfl, rfl⟩
  | idleReturn w =>
      obtain ⟨hw, -, rfl⟩ := step_idleReturn h
      exact .move w .scanning (by rw [hw]; rfl) (by rw [hw]; rfl) rfl
          ⟨rfl, rfl, rfl, rfl, rfl⟩

/-! ### Every task is accounted for -/

section Workers

variable [Fintype W] {tid : W → ℤ}

/-- How often a task is in the queue, with a worker and finished. -/
def places (s : Scheduler W Cb) (id : ℕ) : ℕ :=
  (s.tasks.map Ticket.id).count id + countWhere (fun p => p.held = some id) s.phase +
    s.finished.count id

/-- The number of workers that hold a task. -/
def busy (s : Scheduler W Cb) : ℕ := countWhere (fun p => p.held.isSome) s.phase

/-- The number of workers behind `resume` that have not counted themselves out yet. -/
def resumed (s : Scheduler W Cb) : ℕ := countWhere (fun p => p.isResumed) s.phase

/-- Every accepted task is in one place, pinned tasks were taken by their threads, and the counter is
the number of workers with a task or behind `resume`. -/
structure Accounted (tid : W → ℤ) (s : Scheduler W Cb) : Prop where
  places : ∀ id, s.places id = if id < s.accepted then 1 else 0
  pinned : ∀ p ∈ s.log, p.1.task.thread = -1 ∨ p.1.task.thread = tid p.2
  active : s.activeThreadCount = s.busy + s.resumed

omit [DecidableEq W] in
theorem start_accounted :
  Accounted tid (start : Scheduler W Cb)
  := by
  constructor
  · intro id
    simp [Scheduler.places, start, countWhere, Phase.held]
  · simp [start]
  · simp [busy, resumed, start, countWhere, Phase.held, Phase.isResumed]

omit [DecidableEq W] in
theorem SameBooks.accounted {s s' : Scheduler W Cb} (hsame : SameBooks s s')
    (hplaces : ∀ id, countWhere (fun p => p.held = some id) s'.phase
      = countWhere (fun p => p.held = some id) s.phase)
    (hbusy : s'.busy = s.busy) (hresumed : s'.resumed = s.resumed) (h : Accounted tid s) :
  Accounted tid s'
  := by
  constructor
  · intro id
    rw [Scheduler.places, hsame.tasks, hsame.finished, hsame.accepted, hplaces]
    apply h.places id
  · rw [hsame.log]
    apply h.pinned
  · rw [hsame.active, hbusy, hresumed]
    apply h.active

omit [DecidableEq W] in
/-- A task that is accepted is in the queue. -/
theorem Accounted.accept {s : Scheduler W Cb} (h : Accounted tid s) (task : ScheduleTask Cb) :
  Accounted tid
    { s with tasks := s.tasks ++ [⟨s.accepted, task⟩], accepted := s.accepted + 1 }
  := by
  constructor
  · intro id
    have hold := h.places id
    simp only [Scheduler.places, List.map_append, List.map_cons, List.map_nil, List.count_append,
      List.count_singleton, beq_iff_eq] at hold ⊢
    split_ifs at hold ⊢ <;> omega
  · apply h.pinned
  · apply h.active

/-- A task that is taken goes from the queue to the worker. -/
theorem Accounted.take {s : Scheduler W Cb} (h : Accounted tid s) {w : W} {t : Ticket Cb}
    {left : List (Ticket Cb)} (hidle : s.phase w = .scanning)
    (hscan : ScanResult (tid w) (fun f => (s.fiber f).state) s.tasks (some t, left, false)) :
  Accounted tid
    ({ s with
      tasks := left
      activeThreadCount := s.activeThreadCount + 1
      log := s.log ++ [(t, w)] }.setPhase w (.taken t))
  := by
  obtain ⟨⟨hthread, -⟩, before, after, htasks, hleft, -⟩ := hscan
  constructor
  · intro id
    have hold := h.places id
    have hcount := countWhere_update (fun p : Phase Cb => p.held = some id) s.phase w (.taken t)
    simp only [hidle, Phase.held_scanning, Phase.held_taken, Option.some.injEq, reduceCtorEq,
      if_false] at hcount
    simp only [Scheduler.places, htasks, List.map_append, List.map_cons, List.count_append,
      List.count_cons, beq_iff_eq] at hold
    simp only [Scheduler.places, setPhase, hleft, List.map_append, List.count_append]
    omega
  · intro p hp
    cases List.mem_append.mp hp with
    | inl hold => apply h.pinned p hold
    | inr hnew =>
        obtain rfl := List.mem_singleton.mp hnew
        apply hthread
  · have hcount := countWhere_update (fun p : Phase Cb => p.held.isSome) s.phase w (.taken t)
    have hresumed : countWhere (fun p : Phase Cb => p.isResumed)
        (Function.update s.phase w (.taken t)) = countWhere (fun p => p.isResumed) s.phase := by
      apply countWhere_update_of_iff
      simp [hidle]
    simp only [hidle, Phase.held_scanning, Phase.held_taken, Option.isSome_none, Option.isSome_some,
      if_true, Bool.false_eq_true, if_false] at hcount
    have hactive := h.active
    simp only [busy, resumed, setPhase, hresumed] at hactive ⊢
    omega

/-- A task that is finished leaves the worker, which is still counted. -/
theorem Accounted.finish {s s' : Scheduler W Cb} (h : Accounted tid s) {w : W} {id : ℕ}
    (hheld : (s.phase w).held = some id)
    (hphase : s'.phase = Function.update s.phase w .resumed)
    (hsame : SameBooks s { s' with finished := s.finished })
    (hfinished : s'.finished = s.finished ++ [id]) :
  Accounted tid s'
  := by
  have hactive := hsame.active
  have htasks := hsame.tasks
  have haccepted := hsame.accepted
  have hlog := hsame.log
  dsimp only at hactive htasks haccepted hlog
  constructor
  · intro id'
    have hold := h.places id'
    have hcount := countWhere_update (fun p : Phase Cb => p.held = some id') s.phase w .resumed
    simp only [hheld, Phase.held_resumed, Option.some.injEq, reduceCtorEq, if_false] at hcount
    rw [haccepted, ← hold]
    simp only [Scheduler.places, hphase, htasks, hfinished, List.count_append,
      List.count_singleton, beq_iff_eq]
    omega
  · rw [hlog]
    apply h.pinned
  · have hbusy := countWhere_update (fun p : Phase Cb => p.held.isSome) s.phase w .resumed
    have hresumed := countWhere_update (fun p : Phase Cb => p.isResumed) s.phase w .resumed
    simp only [hheld, Phase.held_resumed, Option.isSome_none, Option.isSome_some, if_true,
      Bool.false_eq_true, if_false] at hbusy
    simp only [Phase.isResumed_of_held hheld, Phase.isResumed_resumed, if_true, Bool.false_eq_true,
      if_false] at hresumed
    have hold := h.active
    rw [hactive]
    simp only [busy, resumed, hphase] at hold ⊢
    omega

/-- A worker counts itself out. -/
theorem Accounted.release {s : Scheduler W Cb} (h : Accounted tid s) {w : W}
    (hw : s.phase w = .resumed) :
  Accounted tid ({ s with activeThreadCount := s.activeThreadCount - 1 }.setPhase w .scanning)
  := by
  constructor
  · intro id
    have hheld : countWhere (fun p : Phase Cb => p.held = some id)
        (Function.update s.phase w .scanning) = countWhere (fun p => p.held = some id) s.phase := by
      apply countWhere_update_of_iff
      simp [hw]
    simp only [Scheduler.places, setPhase, hheld]
    apply h.places id
  · apply h.pinned
  · have hbusy : countWhere (fun p : Phase Cb => p.held.isSome)
        (Function.update s.phase w .scanning) = countWhere (fun p => p.held.isSome) s.phase := by
      apply countWhere_update_of_iff
      simp [hw]
    have hresumed := countWhere_update (fun p : Phase Cb => p.isResumed) s.phase w .scanning
    simp only [hw, Phase.isResumed_resumed, Phase.isResumed_scanning, if_true, Bool.false_eq_true,
      if_false] at hresumed
    have hold := h.active
    simp only [busy, resumed, setPhase, hbusy] at hold ⊢
    omega

theorem Effect.accounted {s s' : Scheduler W Cb} (heffect : Effect tid s s')
    (h : Accounted tid s) :
  Accounted tid s'
  := by
  cases heffect with
  | still hphase hsame =>
      apply hsame.accounted _ _ _ h
      · intro id
        rw [hphase]
      · rw [busy, busy, hphase]
      · rw [resumed, resumed, hphase]
  | move w p hheld hresumed hphase hsame =>
      apply hsame.accounted _ _ _ h
      · intro id
        rw [hphase]
        apply countWhere_update_of_iff
        rw [hheld]
      · rw [busy, busy, hphase]
        apply countWhere_update_of_iff
        rw [hheld]
      · rw [resumed, resumed, hphase]
        apply countWhere_update_of_iff
        rw [hresumed]
  | accept task hs' =>
      rw [hs']
      apply h.accept task
  | take w t left hidle hscan hs' =>
      rw [hs']
      apply h.take hidle hscan
  | finish w id hheld hphase hsame hfinished => apply h.finish hheld hphase hsame hfinished
  | release w hw hs' =>
      rw [hs']
      apply h.release hw

/-- The worker takes the first task it may take, if there is one, and leaves the others in order. -/
def TakesFirst (tid : W → ℤ) (s s' : Scheduler W Cb) (w : W) : Prop :=
  (∃ t before after, Eligible (tid w) (fun f => (s.fiber f).state) t ∧
      (∀ x ∈ before, ¬ Eligible (tid w) (fun f => (s.fiber f).state) x) ∧
      s.tasks = before ++ t :: after ∧ s'.tasks = before ++ after ∧ s'.phase w = .taken t) ∨
    ((∀ x ∈ s.tasks, ¬ Eligible (tid w) (fun f => (s.fiber f).state) x) ∧ s'.tasks = s.tasks ∧
      (s'.phase w).held = none)

omit [Fintype W] in
theorem stepScan_takesFirst (tid : W → ℤ) (s : Scheduler W Cb) (w : W) :
  TakesFirst tid s (s.stepScan tid w) w
  := by
  have hspec := scan_spec (tid w) (fun f => (s.fiber f).state) s.tasks
  unfold stepScan
  generalize scan (tid w) (fun f => (s.fiber f).state) s.tasks = res at hspec
  obtain ⟨taken, left, tickleMe⟩ := res
  cases taken with
  | some t =>
      obtain ⟨heligible, before, after, htasks, hleft, hbefore⟩ := hspec
      exact Or.inl ⟨t, before, after, heligible, hbefore, htasks, hleft, Function.update_self ..⟩
  | none =>
      obtain ⟨-, hnone⟩ := hspec
      refine Or.inr ⟨hnone, ?_⟩
      dsimp only
      split
      · exact ⟨rfl, by simp [setPhase, Phase.held]⟩
      · exact ⟨rfl, by simp [setPhase, Phase.held]⟩

/-- After every run every accepted task is in the queue once, with one worker or finished once, every
pinned task was taken by its thread only, and the counter of active threads is the number of workers
with a task or between the return of `resume` and the decrement; and every scan takes the first task
that the worker may take and leaves the others in order. -/
theorem run_accounted {ls : List (Step W Cb)} {s : Scheduler W Cb}
    (h : run (step tid) start ls = some s) :
  Accounted tid s ∧ ∀ w s', step tid s (.scan w) = some s' → TakesFirst tid s s' w
  := by
  refine ⟨?_, ?_⟩
  · apply run_invariant _ start_accounted h
    intro s l s' hs hstep
    exact (step_effect hstep).accounted hs
  · intro w s' hstep
    obtain ⟨-, rfl⟩ := step_scan hstep
    apply stepScan_takesFirst

/-- The first of two workers. -/
def first : Fin 2 := 0

/-- The second of two workers. -/
def second : Fin 2 := 1

/-- The ids of two threads. -/
def twoThreads (w : Fin 2) : ℤ := w + 1

/-- A callback pinned to the second thread, and a fiber that schedules itself and yields. -/
def sampleSteps : List (Step (Fin 2) Unit) :=
  [.schedule { cb := some (), thread := 2 }, .newFiber, .schedule { fiber := some 0 }, .scan first,
    .checkReady first, .setRunning first, .enter first, .schedule { fiber := some 0 },
    .scan second, .checkReady second, .yieldReady first, .swapOut first, .setRunning second,
    .enter second, .release first, .scan first]

theorem run_accounted_sampleSteps :
  ∃ s, run (step twoThreads) start sampleSteps = some s ∧ Accounted twoThreads s ∧
    ∀ w s', step twoThreads s (.scan w) = some s' → TakesFirst twoThreads s s' w
  := by
  have hrun : (run (step twoThreads) start sampleSteps).isSome = true := by decide
  obtain ⟨s, hs⟩ := Option.isSome_iff_exists.mp hrun
  exact ⟨s, hs, run_accounted hs⟩

/-- A fiber yields, and its worker has not counted itself out yet. -/
def yieldedSteps : List (Step (Fin 2) Unit) :=
  [.newFiber, .schedule { fiber := some 0 }, .scan first, .checkReady first, .setRunning first,
    .enter first, .yieldReady first, .swapOut first]

/-- The only task is finished and no worker holds one, and the counter of active threads is 1. -/
theorem run_counted_late :
  ∃ s, run (step twoThreads) start yieldedSteps = some s ∧ s.tasks = [] ∧ s.finished = [0] ∧
    s.activeThreadCount = 1 ∧ s.busy = 0
  := by
  have hrun : (run (step twoThreads) start yieldedSteps).map
      (fun s => (s.tasks, s.finished, s.activeThreadCount, s.busy)) = some ([], [0], 1, 0) := by
    decide
  obtain ⟨s, hs, hviews⟩ := Option.map_eq_some_iff.mp hrun
  simp only [Prod.mk.injEq] at hviews
  exact ⟨s, hs, hviews⟩

end Workers

end Scheduler
