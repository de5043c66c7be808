import TinyWebserver.Coroutine.Workers

/-!
# Shutdown

After `stop` a worker ends its idle fiber, and with it later its loop, if `IOManager::stopping` holds: it
reads `m_pendingEventCount` first, and takes the lock for the queue and the count of active threads after
that. In between another worker may run a task that adds an event. That is harmless as long as there is
a worker left that looks again, and a worker whose idle fiber has ended still takes a task if it finds
one. But the last one may be misled as well, by a worker whose own idle fiber has ended, and then all
workers are gone with an event pending, `pending_after_exit`. In every run in which the last worker to
pass the test under the lock passes it when no event is pending, all is done when the workers are gone,
`run_quiescent`.
-/

universe u v

namespace IOManager

namespace Workers

open Transition Counting

variable {W : Type v} {Cb : Type u}

/-- A worker at the place is counted as active. -/
def Place.busy : Place Cb → Bool
  | .scanned t => t.isSome
  | .resuming _ => true
  | .running _ => true
  | .leaving => true
  | .returned => false

/-- A worker in the phase is counted as active. -/
def Phase.Busy (p : Phase Cb) : Prop := p.place.any Place.busy = true

instance Phase.Busy.decidable : DecidablePred (Phase.Busy : Phase Cb → Prop) :=
  fun _ => inferInstanceAs (Decidable (_ = true))

/-- The idle fibers of all workers have ended. -/
def AllEnded (s : Workers W Cb) : Prop := ∀ w, s.idleTerm w = true

/-- There is nothing left to do. -/
def Quiescent (s : Workers W Cb) : Prop :=
  s.tasks = [] ∧ s.activeThreadCount = 0 ∧ s.pendingEventCount = 0

/-- No thread outside schedules a task or adds an event after `stop`. -/
def NoneAdded (s : Workers W Cb) : Step W Cb → Prop
  | .schedule _ => s.stopping = false
  | .addEvent _ => s.stopping = false
  | _ => True

/-- The last worker whose idle fiber has not ended passes the test under the lock only if no event is
pending at that time. -/
def LastLooksAgain (s : Workers W Cb) : Step W Cb → Prop
  | .test w => s.isStopping = true → (∀ u, u ≠ w → s.idleTerm u = true) → s.pendingEventCount = 0
  | _ => True

instance NoneAdded.decidable (s : Workers W Cb) : ∀ l : Step W Cb, Decidable (s.NoneAdded l)
  | .schedule _ => inferInstanceAs (Decidable (_ = false))
  | .addEvent _ => inferInstanceAs (Decidable (_ = false))
  | .newFiber | .stop | .tickle | .checkIdle | .writePipe | .trigger _ | .decrement | .delEvent _
  | .scan _ | .scheduleBy _ _ | .addEventBy _ _ | .tickleBy _ | .checkIdleBy _ | .writePipeBy _
  | .resume _ | .setRunning _ | .yield _ _ | .leave _ | .enterIdle _ | .readPending _ | .test _
  | .wake _ | .leaveIdle _ => inferInstanceAs (Decidable True)

instance LastLooksAgain.decidable [DecidableEq W] [Fintype W] (s : Workers W Cb) :
    ∀ l : Step W Cb, Decidable (s.LastLooksAgain l)
  | .test w => inferInstanceAs (Decidable (_ → (∀ u, u ≠ w → _) → _))
  | .newFiber | .stop | .schedule _ | .addEvent _ | .tickle | .checkIdle | .writePipe | .trigger _
  | .decrement | .delEvent _ | .scan _ | .scheduleBy _ _ | .addEventBy _ _ | .tickleBy _
  | .checkIdleBy _ | .writePipeBy _ | .resume _ | .setRunning _ | .yield _ _ | .leave _
  | .enterIdle _ | .readPending _ | .wake _ | .leaveIdle _ => inferInstanceAs (Decidable True)

variable [Fintype W]

/-- The counters count what they are to count, only stopped workers end, and when all have ended there is
nothing left to do. -/
structure Orderly (s : Workers W Cb) : Prop where
  active : s.activeThreadCount = countWhere Phase.Busy s.phase
  pending : s.pendingEventCount = s.events.length + s.triggering
  stopping : ∀ w, s.idleTerm w = true → s.stopping = true
  exited : ∀ w, s.phase w = .exited → s.idleTerm w = true
  quiescent : s.AllEnded → s.Quiescent

variable {tid : W → ℤ} {s s' : Workers W Cb} {w : W}

theorem start_orderly :
  (start : Workers W Cb).Orderly
  := by
  refine ⟨?_, rfl, ?_, ?_, fun _ => ⟨rfl, rfl, rfl⟩⟩
  · simp [start, countWhere, Phase.Busy]
  · intro w hw
    simp [start] at hw
  · intro w hw
    simp [start] at hw

/-- The state of the fibers, the calls of `tickle`, the pipe and the count of idle threads do not
matter. -/
theorem Orderly.frame (h : s.Orderly) {fiber : FiberId → FiberState} {fibers checking writing written : ℕ}
    {ready : Bool} {idle : ℤ} :
  Orderly { s with
    fiber := fiber
    fibers := fibers
    checking := checking
    writing := writing
    written := written
    ready := ready
    idleThreadCount := idle }
  := ⟨h.active, h.pending, h.stopping, h.exited, h.quiescent⟩

/-- While a worker is active, not all have ended. -/
theorem Orderly.not_allEnded_of_busy (h : s.Orderly) (hw : (s.phase w).Busy) :
  ¬ s.AllEnded
  := by
  intro hended
  have hcount := countWhere_pos Phase.Busy hw
  have hactive := h.active
  rw [(h.quiescent hended).2.1] at hactive
  omega

/-- While an event is pending, not all have ended. -/
theorem Orderly.not_allEnded_of_pending (h : s.Orderly) (hpending : 0 < s.events.length + s.triggering) :
  ¬ s.AllEnded
  := by
  intro hended
  have hcount := h.pending
  rw [(h.quiescent hended).2.2] at hcount
  omega

/-- Before `stop` no worker has ended. -/
theorem Orderly.not_allEnded_of_running [Nonempty W] (h : s.Orderly) (hstopping : s.stopping = false) :
  ¬ s.AllEnded
  := by
  intro hended
  obtain ⟨w⟩ := ‹Nonempty W›
  have := h.stopping w (hended w)
  simp [hstopping] at this

/-- A task is enqueued by a thread outside while not all workers have ended. -/
theorem Orderly.schedule (h : s.Orderly) (hended : ¬ s.AllEnded) (task : ScheduleTask Cb) :
  (s.schedule task).Orderly
  := by
  obtain ⟨tasks, accepted, pushedAt, heq⟩ := s.schedule_eq task
  rw [heq]
  exact ⟨h.active, h.pending, h.stopping, h.exited, fun hall => absurd hall hended⟩

/-- An event is added while not all workers have ended. -/
theorem Orderly.addEvent (h : s.Orderly) (hended : ¬ s.AllEnded) (task : ScheduleTask Cb) :
  (s.addEvent task).Orderly
  := by
  refine ⟨h.active, ?_, h.stopping, h.exited, fun hall => absurd hall hended⟩
  have hpending := h.pending
  simp only [Workers.addEvent, List.length_append, List.length_singleton]
  push_cast
  omega

variable [DecidableEq W]

/-- A worker gets on, with a change of the queue and of the count of active threads that is due to it. -/
theorem Orderly.count (h : s.Orderly) {p : Phase Cb} {tasks : List (Ticket Cb)} {active : ℤ}
    (hactive : active + (if (s.phase w).Busy then 1 else 0)
      = s.activeThreadCount + if p.Busy then 1 else 0)
    (hexit : p = .exited → s.idleTerm w = true)
    (hended : s.AllEnded → tasks = [] ∧ active = 0) :
  ({ s with tasks := tasks, activeThreadCount := active }.setPhase w p).Orderly
  := by
  refine ⟨?_, h.pending, h.stopping, ?_, ?_⟩
  · have hcount := countWhere_update Phase.Busy s.phase w p
    have hbefore := h.active
    simp only [Workers.setPhase]
    split_ifs at hactive hcount <;> omega
  · intro u hu
    by_cases huw : u = w
    · subst huw
      simp only [Workers.setPhase, Function.update_self] at hu
      apply hexit hu
    · simp only [Workers.setPhase, Function.update_of_ne huw] at hu
      apply h.exited u hu
  · intro hall
    obtain ⟨htasks, hzero⟩ := hended hall
    exact ⟨htasks, hzero, (h.quiescent hall).2.2⟩

/-- A worker gets on, and is counted as it was. -/
theorem Orderly.setPhase (h : s.Orderly) {p : Phase Cb} (hbusy : p.Busy ↔ (s.phase w).Busy)
    (hexit : p = .exited → s.idleTerm w = true) :
  (s.setPhase w p).Orderly
  := by
  refine h.count ?_ hexit fun hall => ⟨(h.quiescent hall).1, (h.quiescent hall).2.1⟩
  simp only [hbusy]

theorem Orderly.stepScan (h : s.Orderly) (hw : s.phase w = .scanning) :
  (s.stepScan tid w).Orderly
  := by
  have hspec := Scheduler.scan_spec (tid w) s.fiber s.tasks
  unfold Workers.stepScan
  split
  · rename_i t left tickleMe hscan
    rw [hscan] at hspec
    obtain ⟨-, before, after, htasks, -⟩ := hspec
    apply h.count
    · simp [hw, Phase.Busy, Place.busy]
    · cases tickleMe <;> simp [Phase.tickle]
    · intro hall
      have hempty := (h.quiescent hall).1
      simp [htasks] at hempty
  · rename_i left tickleMe _
    apply h.setPhase
    · simp [hw, Phase.Busy, Place.busy]
    · cases tickleMe <;> simp [Phase.tickle]

omit [DecidableEq W] in
/-- A worker at a place from which it schedules has not ended, or is active. -/
theorem Orderly.not_allEnded_of_schedules (h : s.Orderly) {p : Place Cb} (hw : s.phase w = .here p)
    (hp : p.schedules (s.idleTerm w) = true) :
  ¬ s.AllEnded
  := by
  cases p with
  | scanned t => simp [Place.schedules] at hp
  | resuming f => simp [Place.schedules] at hp
  | running f =>
      apply h.not_allEnded_of_busy (w := w)
      simp [hw, Phase.Busy, Place.busy]
  | leaving => simp [Place.schedules] at hp
  | returned =>
      intro hended
      simp [Place.schedules, hended w] at hp

/-- A worker passes the test under the lock. -/
theorem Orderly.end (h : s.Orderly) (hw : s.phase w = .testing) (hstopping : s.isStopping = true)
    (hlast : (∀ u, u ≠ w → s.idleTerm u = true) → s.pendingEventCount = 0) :
  ({ s with idleTerm := Function.update s.idleTerm w true }.setPhase w (.here .returned)).Orderly
  := by
  obtain ⟨⟨hstop, hempty⟩, hactive⟩ : (s.stopping = true ∧ s.tasks = []) ∧ s.activeThreadCount = 0 := by
    simpa [isStopping] using hstopping
  have hafter : Orderly { s with idleTerm := Function.update s.idleTerm w true } := by
    refine ⟨h.active, h.pending, fun _ _ => hstop, ?_, ?_⟩
    · intro u hu
      by_cases huw : u = w
      · subst huw
        simp
      · simpa only [Function.update_of_ne huw] using h.exited u hu
    · intro hended
      refine ⟨hempty, hactive, hlast ?_⟩
      intro u huw
      simpa only [Function.update_of_ne huw] using hended u
  apply hafter.setPhase
  · simp [hw, Phase.Busy, Place.busy]
  · simp

theorem Orderly.step [Nonempty W] (h : s.Orderly) {l : Step W Cb} (hnone : s.NoneAdded l)
    (hlast : s.LastLooksAgain l) (hstep : step tid s l = some s') :
  s'.Orderly
  := by
  cases l with
  | newFiber =>
      obtain rfl := Option.some.inj hstep
      apply h.frame
  | stop =>
      obtain rfl := Option.some.inj hstep
      exact ⟨h.active, h.pending, fun _ _ => rfl, h.exited, h.quiescent⟩
  | schedule task =>
      obtain rfl := step_schedule hstep
      apply h.schedule (h.not_allEnded_of_running hnone)
  | addEvent task =>
      obtain rfl := step_addEvent hstep
      apply h.addEvent (h.not_allEnded_of_running hnone)
  | tickle =>
      obtain rfl := Option.some.inj hstep
      apply h.frame
  | checkIdle =>
      obtain ⟨-, ⟨-, rfl⟩ | ⟨-, rfl⟩⟩ := step_checkIdle hstep
      · apply h.frame
      · apply h.frame
  | writePipe =>
      obtain rfl := step_writePipe hstep
      apply h.frame
  | trigger i =>
      obtain ⟨task, htask, rfl⟩ := step_trigger hstep
      have hi : i < s.events.length := (List.getElem?_eq_some_iff.mp htask).1
      have hended := h.not_allEnded_of_pending (by omega)
      have hafter : Orderly { s with
          events := s.events.eraseIdx i, triggering := s.triggering + 1 } := by
        refine ⟨h.active, ?_, h.stopping, h.exited, h.quiescent⟩
        have hpending := h.pending
        simp only [List.length_eraseIdx_of_lt hi]
        omega
      apply hafter.schedule hended
  | decrement =>
      obtain ⟨htriggering, rfl⟩ := step_decrement hstep
      have hended := h.not_allEnded_of_pending (by omega)
      refine ⟨h.active, ?_, h.stopping, h.exited, fun hall => absurd hall hended⟩
      have hpending := h.pending
      dsimp only
      omega
  | delEvent i =>
      obtain ⟨hi, rfl⟩ := step_delEvent hstep
      have hended := h.not_allEnded_of_pending (by omega)
      refine ⟨h.active, ?_, h.stopping, h.exited, fun hall => absurd hall hended⟩
      have hpending := h.pending
      simp only [List.length_eraseIdx_of_lt hi]
      omega
  | scan w =>
      obtain ⟨hw, rfl⟩ := step_scan hstep
      apply h.stepScan hw
  | scheduleBy w task =>
      obtain ⟨p, hw, hp, rfl⟩ := step_scheduleBy hstep
      have hended := h.not_allEnded_of_schedules hw hp
      obtain ⟨tasks, accepted, pushedAt, heq⟩ := s.scheduleNoLock_eq task
      rw [heq]
      have hafter : Orderly { s with tasks := tasks, accepted := accepted, pushedAt := pushedAt } :=
        ⟨h.active, h.pending, h.stopping, h.exited, fun hall => absurd hall hended⟩
      apply hafter.setPhase
      · simp [hw, Phase.Busy]
      · cases s.tasks.isEmpty <;> simp [Phase.tickle]
  | addEventBy w task =>
      obtain ⟨f, hw, rfl⟩ := step_addEventBy hstep
      apply h.addEvent (h.not_allEnded_of_schedules hw rfl)
  | tickleBy w =>
      obtain ⟨f, hw, rfl⟩ := step_tickleBy hstep
      apply h.setPhase <;> simp [hw, Phase.Busy]
  | checkIdleBy w =>
      obtain ⟨p, hw, rfl⟩ := step_checkIdleBy hstep
      split
      · apply h.setPhase <;> simp [hw, Phase.Busy]
      · apply h.setPhase <;> simp [hw, Phase.Busy]
  | writePipeBy w =>
      obtain ⟨p, hw, rfl⟩ := step_writePipeBy hstep
      have hafter : s.writeByte.Orderly := h.frame
      apply hafter.setPhase
      · simp [writeByte, hw, Phase.Busy]
      · simp
  | resume w =>
      obtain ⟨t, f, fibers, hw, rfl⟩ := step_resume hstep
      have hafter : Orderly { s with fibers := fibers } := h.frame
      apply hafter.setPhase
      · simp [hw, Phase.Busy, Place.busy]
      · simp
  | setRunning w =>
      obtain ⟨f, hw, rfl⟩ := step_setRunning hstep
      have hafter : Orderly { s with fiber := Function.update s.fiber f .running } := h.frame
      apply hafter.setPhase
      · simp [hw, Phase.Busy, Place.busy]
      · simp
  | yield w term =>
      obtain ⟨f, hw, rfl⟩ := step_yield hstep
      have hafter : Orderly { s with
          fiber := Function.update s.fiber f (if term then .term else .ready) } := h.frame
      apply hafter.setPhase
      · simp [hw, Phase.Busy, Place.busy]
      · simp
  | leave w =>
      obtain ⟨hw, rfl⟩ := step_leave hstep
      have hbusy : (s.phase w).Busy := by simp [hw, Phase.Busy, Place.busy]
      apply h.count
      · simp [hw, Phase.Busy, Place.busy]
      · simp
      · exact fun hall => absurd hall (h.not_allEnded_of_busy hbusy)
  | enterIdle w =>
      obtain ⟨hw, ⟨hterm, rfl⟩ | ⟨hterm, rfl⟩⟩ := step_enterIdle hstep
      · apply h.setPhase
        · simp [hw, Phase.Busy, Place.busy]
        · exact fun _ => hterm
      · have hafter : Orderly { s with idleThreadCount := s.idleThreadCount + 1 } := h.frame
        apply hafter.setPhase
        · simp [hw, Phase.Busy, Place.busy]
        · simp
  | readPending w =>
      obtain ⟨hw, rfl⟩ := step_readPending hstep
      split
      · apply h.setPhase <;> simp [hw, Phase.Busy]
      · apply h.setPhase <;> simp [hw, Phase.Busy]
  | test w =>
      obtain ⟨hw, ⟨hstopping, rfl⟩ | rfl⟩ := step_test hstep
      · apply h.end hw hstopping (hlast hstopping)
      · apply h.setPhase <;> simp [hw, Phase.Busy]
  | wake w =>
      obtain ⟨hw, rfl⟩ := step_wake hstep
      have hafter : Orderly { s with ready := false } := h.frame
      apply hafter.setPhase
      · simp [hw, Phase.Busy, Place.busy]
      · simp
  | leaveIdle w =>
      obtain ⟨hw, rfl⟩ := step_leaveIdle hstep
      have hafter : Orderly { s with idleThreadCount := s.idleThreadCount - 1 } := h.frame
      apply hafter.setPhase
      · simp [hw, Phase.Busy, Place.busy]
      · simp

/-- In every run in which no thread outside adds anything after `stop`, and in which the last worker to
pass the test under the lock passes it when no event is pending, there is nothing left to do when all
workers have left `run`. -/
theorem run_quiescent [Nonempty W] {ls : List (Step W Cb)}
    (hnone : Guarded (step tid) NoneAdded start ls)
    (hlast : Guarded (step tid) LastLooksAgain start ls) (h : run (step tid) start ls = some s)
    (hexited : ∀ w, s.phase w = .exited) :
  s.tasks = [] ∧ s.activeThreadCount = 0 ∧ s.pendingEventCount = 0
  := by
  have hOrderly : s.Orderly :=
    run_guarded_invariant (fun _ _ _ hs hl hstep => hs.step hl.1 hl.2 hstep) start_orderly
      (hnone.and hlast) h
  apply hOrderly.quiescent
  intro w
  apply hOrderly.exited w (hexited w)

/-- A worker runs a task that adds an event, the scheduler is stopped, the event is triggered, and the
worker runs its task and leaves. -/
def allDone : List (Step Unit Unit) :=
  [.schedule { cb := some () }, .checkIdle, .scan (), .resume (), .setRunning (),
    .addEventBy () { cb := some () }, .yield () true, .leave (), .stop, .trigger 0, .checkIdle,
    .decrement, .scan (), .resume (), .setRunning (), .yield () true, .leave (), .scan (),
    .enterIdle (), .readPending (), .test (), .leaveIdle (), .scan (), .enterIdle ()]

theorem run_quiescent_allDone :
  ∃ s, run (step fun _ => 7) start allDone = some s ∧ (∀ w, s.phase w = .exited) ∧ s.tasks = [] ∧
    s.activeThreadCount = 0 ∧ s.pendingEventCount = 0
  := by
  have hnone : Guarded (step fun _ => 7) NoneAdded start allDone := by decide
  have hlast : Guarded (step fun _ => 7) LastLooksAgain start allDone := by decide
  refine ⟨_, rfl, fun _ => rfl, ?_⟩
  apply run_quiescent hnone hlast rfl fun _ => rfl

/-- The first worker reads that no event is pending, the second one runs a task that adds an event, and
the idle fiber of the first one ends. The event is triggered and the first worker takes its task. The
second one reads that no event is pending, the task adds another event, and the idle fiber of the second
one ends, too. -/
def bothMisled : List (Step Bool Unit) :=
  [.schedule { cb := some () }, .checkIdle, .scan true, .resume true, .setRunning true, .stop,
    .scan false, .enterIdle false, .readPending false,
    .addEventBy true { cb := some () }, .yield true true, .leave true, .test false,
    .trigger 0, .checkIdle, .writePipe, .decrement, .leaveIdle false, .scan false, .resume false,
    .setRunning false,
    .scan true, .enterIdle true, .readPending true,
    .addEventBy false { cb := some () }, .yield false true, .leave false, .test true,
    .leaveIdle true, .scan true, .enterIdle true, .scan false, .enterIdle false]

/-- Both workers have left `run`, nothing was added from outside after `stop`, and an event is pending. -/
theorem pending_after_exit :
  ∃ s, run (step fun w => cond w 7 8) start bothMisled = some s ∧
    Guarded (step fun w => cond w 7 8) NoneAdded start bothMisled ∧
    (∀ w, s.phase w = .exited) ∧ s.pendingEventCount = 1
  := by
  have hnone : Guarded (step fun w => cond w 7 8) NoneAdded start bothMisled := by decide
  have hrun : ((run (step fun w => cond w 7 8) start bothMisled).map fun s =>
      (s.phase true, s.phase false, s.pendingEventCount)) = some (.exited, .exited, 1) := by
    decide
  obtain ⟨s, hs, hfields⟩ := Option.map_eq_some_iff.mp hrun
  obtain ⟨htrue, hrest⟩ := Prod.mk.inj hfields
  obtain ⟨hfalse, hpending⟩ := Prod.mk.inj hrest
  refine ⟨s, hs, hnone, ?_, hpending⟩
  intro w
  cases w with
  | true => apply htrue
  | false => apply hfalse

end Workers

end IOManager
