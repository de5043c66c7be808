import TinyWebserver.Coroutine.Workers

/-!
# Wake-ups

A thread that enqueues a task calls `tickle` if the queue was empty, and `tickle` writes to the pipe if
there is an idle thread. A worker that has found nothing in the queue is not yet one: it counts itself
some steps later. If the task is enqueued and `tickle` has looked in between, no byte is written, and the
worker goes to sleep with a task in the queue, `lost_wakeup`. In every run in which a `tickle` that finds
no idle thread is not the last hope for the tasks in the queue, no wake-up is lost, `run_notLost`.
-/

universe u v

namespace IOManager

namespace Workers

open Transition

variable {W : Type v} {Cb : Type u}

/-- The worker is on its way to `epoll_wait`, or in it, without another look at the queue: it has found no
task, and its idle fiber has not ended. -/
def Phase.Asleep (idleTerm : Bool) : Phase Cb → Prop
  | .here (.scanned none) => idleTerm = false
  | .idling => True
  | .testing => True
  | .waiting => True
  | _ => False

/-- A worker is on its way to `epoll_wait`, or in it. -/
def Asleep (s : Workers W Cb) (w : W) : Prop := (s.phase w).Asleep (s.idleTerm w)

/-- Somebody looks after the queue: a worker that is not on its way to `epoll_wait`, a byte that makes one
return, or a call of `tickle`. -/
def Attended (s : Workers W Cb) : Prop :=
  (∃ w, ¬ s.Asleep w) ∨ s.ready = true ∨ s.checking ≠ 0 ∨ s.writing ≠ 0

/-- A wake-up is lost: a callback for any thread is in the queue, all workers are in `epoll_wait` without
a byte that makes them return, and since the callback was enqueued no byte was written to the pipe, and
no call of `tickle` is under way. -/
structure Lost (s : Workers W Cb) : Prop where
  task : ∃ t ∈ s.tasks, t.task.thread = -1 ∧ t.task.fiber = none ∧ t.task.cb.isSome ∧
    s.pushedAt t.id = s.written
  blocked : s.ready = false ∧ ∀ w, s.phase w = .waiting
  quiet : s.checking = 0 ∧ s.writing = 0

variable [DecidableEq W]

/-- The workers without the call of `tickle` in which one is. -/
def endTickle (s : Workers W Cb) (w : W) : Workers W Cb :=
  match s.phase w with
  | .checking p => s.setPhase w (.here p)
  | _ => s

/-- A call of `tickle` that finds no idle thread, with tasks in the queue, is not the only one that looks
after them. -/
def Heard (s : Workers W Cb) : Step W Cb → Prop
  | .checkIdle =>
      s.tasks = [] ∨ 0 < s.idleThreadCount ∨ Attended { s with checking := s.checking - 1 }
  | .checkIdleBy w => s.tasks = [] ∨ 0 < s.idleThreadCount ∨ (s.endTickle w).Attended
  | _ => True

instance Phase.Asleep.decidable (idleTerm : Bool) :
    ∀ p : Phase Cb, Decidable (p.Asleep idleTerm)
  | .here (.scanned none) => inferInstanceAs (Decidable (idleTerm = false))
  | .idling | .testing | .waiting => inferInstanceAs (Decidable True)
  | .scanning | .checking _ | .writing _ | .exited | .here (.scanned (some _))
  | .here (.resuming _) | .here (.running _) | .here .leaving | .here .returned =>
      inferInstanceAs (Decidable False)

instance Attended.decidable [Fintype W] (s : Workers W Cb) : Decidable s.Attended :=
  haveI (w : W) : Decidable (s.Asleep w) := Phase.Asleep.decidable _ _
  inferInstanceAs (Decidable ((∃ w, ¬ s.Asleep w) ∨ _ ∨ _ ∨ _))

instance Heard.decidable [Fintype W] (s : Workers W Cb) : ∀ l : Step W Cb, Decidable (s.Heard l)
  | .checkIdle => inferInstanceAs (Decidable (_ ∨ _ ∨ _))
  | .checkIdleBy w => inferInstanceAs (Decidable (_ ∨ _ ∨ (s.endTickle w).Attended))
  | .newFiber | .stop | .schedule _ | .addEvent _ | .tickle | .writePipe | .trigger _ | .decrement
  | .delEvent _ | .scan _ | .scheduleBy _ _ | .addEventBy _ _ | .tickleBy _ | .writePipeBy _
  | .resume _ | .setRunning _ | .yield _ _ | .leave _ | .enterIdle _ | .readPending _ | .test _
  | .wake _ | .leaveIdle _ => inferInstanceAs (Decidable True)

/-! ### Who looks after the queue -/

variable {tid : W → ℤ} {s s' : Workers W Cb} {w : W}

omit [DecidableEq W] in
theorem attended_of_awake {p : Phase Cb} (hw : s.phase w = p) (hp : ¬ p.Asleep (s.idleTerm w)) :
  s.Attended
  := by
  left
  use w
  rwa [Asleep, hw]

/-- A worker that is not on its way to `epoll_wait` afterwards. -/
theorem attended_setPhase {p : Phase Cb} (hp : ¬ p.Asleep (s.idleTerm w)) :
  (s.setPhase w p).Attended
  := attended_of_awake (Function.update_self ..) hp

/-- A worker on its way to `epoll_wait` is not missed. -/
theorem Attended.setPhase (h : s.Attended) (hw : s.Asleep w) (p : Phase Cb) :
  (s.setPhase w p).Attended
  := by
  rcases h with ⟨u, hu⟩ | hrest
  · have hne : u ≠ w := by
      rintro rfl
      apply hu hw
    left
    use u
    simpa only [Asleep, Workers.setPhase, Function.update_of_ne hne] using hu
  · exact Or.inr hrest

omit [DecidableEq W] in
/-- A task enqueued by a thread outside is looked after, by the call of `tickle` if the queue was
empty. -/
theorem attended_schedule (h : s.tasks ≠ [] → s.Attended) (task : ScheduleTask Cb) :
  (s.schedule task).Attended
  := by
  obtain ⟨tasks, accepted, pushedAt, heq⟩ := s.schedule_eq task
  rw [heq]
  by_cases hempty : s.tasks = []
  · refine Or.inr (Or.inr (Or.inl ?_))
    simp [hempty]
  · simpa only [hempty, if_false, Nat.add_zero, Attended, Asleep] using h hempty

/-- The scan of the queue by a worker that gets no task and is not to call `tickle` has met a task of a
fiber that runs, if it has met any. -/
theorem exists_running_of_scan {n : ℤ} {state : FiberId → FiberState} {tasks left : List (Ticket Cb)}
    (h : Scheduler.scan n state tasks = (none, left, false)) (htasks : tasks ≠ []) :
  ∃ f, state f = .running
  := by
  cases tasks with
  | nil => simp at htasks
  | cons t ts =>
      rw [Scheduler.scan] at h
      split at h
      · simp at h
      · split at h
        · rename_i hrunning
          obtain ⟨f, -, hf⟩ := (Option.any_eq_true _ _).mp hrunning
          exact ⟨f, by simpa using hf⟩
        · simp at h

theorem Phase.not_asleep_of_running {p : Phase Cb} {f : FiberId}
    (h : p.place = some (.running f)) (idleTerm : Bool) :
  ¬ p.Asleep idleTerm
  := by
  cases p <;> simp_all [place, Asleep]

/-- A worker that calls `schedule` is not on its way to `epoll_wait`. -/
theorem Phase.not_asleep_of_schedules {p : Place Cb} {idleTerm : Bool}
    (h : p.schedules idleTerm = true) (tickleMe : Bool) :
  ¬ (Phase.tickle tickleMe p).Asleep idleTerm
  := by
  cases p with
  | scanned t => simp [Place.schedules] at h
  | resuming f => simp [Place.schedules] at h
  | running f => apply not_asleep_of_running (place_tickle tickleMe _)
  | leaving => simp [Place.schedules] at h
  | returned => cases tickleMe <;> exact id

/-- A fiber that runs is run by a worker, and somebody looks after a queue that is not empty. -/
structure Inv (s : Workers W Cb) : Prop where
  running : ∀ f, s.fiber f = .running → ∃ w, (s.phase w).place = some (.running f)
  attended : s.tasks ≠ [] → s.Attended

omit [DecidableEq W] in
theorem start_inv :
  (start : Workers W Cb).Inv
  := by
  constructor
  · intro f hf
    simp [start] at hf
  · intro htasks
    simp [start] at htasks

/-- A worker gets to another phase, in the same fiber if it was in one. -/
theorem Inv.running_setPhase (h : s.Inv) {p : Phase Cb}
    (hp : ∀ f, (s.phase w).place = some (.running f) → p.place = some (.running f)) :
  ∀ f, (s.setPhase w p).fiber f = .running →
    ∃ u, ((s.setPhase w p).phase u).place = some (.running f)
  := by
  intro f hf
  obtain ⟨u, hu⟩ := h.running f hf
  by_cases hne : u = w
  · subst hne
    use u
    simp only [Workers.setPhase, Function.update_self]
    apply hp f hu
  · use u
    simpa only [Workers.setPhase, Function.update_of_ne hne] using hu

/-- A worker gets on, and is not on its way to `epoll_wait` then. -/
theorem Inv.awake (h : s.Inv) {p : Phase Cb}
    (hp : ∀ f, (s.phase w).place = some (.running f) → p.place = some (.running f))
    (hawake : ¬ p.Asleep (s.idleTerm w)) :
  (s.setPhase w p).Inv
  := ⟨h.running_setPhase hp, fun _ => attended_setPhase hawake⟩

/-- A worker gets on that was on its way to `epoll_wait` before. -/
theorem Inv.move (h : s.Inv) {p : Phase Cb} (hw : s.Asleep w)
    (hp : ∀ f, (s.phase w).place = some (.running f) → p.place = some (.running f)) :
  (s.setPhase w p).Inv
  := ⟨h.running_setPhase hp, fun htasks => (h.attended htasks).setPhase hw p⟩

theorem Inv.stepScan (h : s.Inv) (hw : s.phase w = .scanning) :
  (s.stepScan tid w).Inv
  := by
  have hplace : ∀ {p : Phase Cb} f, (s.phase w).place = some (.running f) →
      p.place = some (.running f) := by
    intro p f hf
    simp [hw] at hf
  unfold Workers.stepScan
  split
  · rename_i t left tickleMe _
    have hafter : Inv { s with
        tasks := left, activeThreadCount := s.activeThreadCount + 1 } :=
      ⟨h.running, fun _ => attended_of_awake hw id⟩
    apply hafter.awake hplace
    cases tickleMe <;> exact id
  · rename_i left tickleMe hscan
    cases tickleMe with
    | true => apply h.awake hplace id
    | false =>
        refine ⟨h.running_setPhase hplace, ?_⟩
        intro htasks
        obtain ⟨f, hf⟩ := exists_running_of_scan hscan htasks
        obtain ⟨u, hu⟩ := h.running f hf
        have hne : u ≠ w := by
          rintro rfl
          simp [hw] at hu
        left
        use u
        simp only [Asleep, Workers.setPhase, Function.update_of_ne hne]
        apply Phase.not_asleep_of_running hu

omit [DecidableEq W] in
theorem Inv.schedule (h : s.Inv) (task : ScheduleTask Cb) :
  (s.schedule task).Inv
  := by
  refine ⟨?_, fun _ => attended_schedule h.attended task⟩
  obtain ⟨tasks, accepted, pushedAt, heq⟩ := s.schedule_eq task
  rw [heq]
  apply h.running

/-- A worker schedules a task from its fiber, or from its idle fiber. -/
theorem Inv.scheduleBy (h : s.Inv) {p : Place Cb} (hw : s.phase w = .here p)
    (hp : p.schedules (s.idleTerm w) = true) (task : ScheduleTask Cb) :
  ((s.scheduleNoLock task).2.setPhase w (.tickle (s.scheduleNoLock task).1 p)).Inv
  := by
  obtain ⟨tasks, accepted, pushedAt, heq⟩ := s.scheduleNoLock_eq task
  have hawake := Phase.not_asleep_of_schedules hp
  have hbefore : ¬ (s.phase w).Asleep (s.idleTerm w) := hw ▸ hawake false
  rw [heq]
  have hafter : Inv { s with tasks := tasks, accepted := accepted, pushedAt := pushedAt } :=
    ⟨h.running, fun _ => attended_of_awake rfl hbefore⟩
  apply hafter.awake _ (hawake _)
  intro f hf
  rw [Phase.place_tickle]
  simpa [hw] using hf

/-- A worker enters a fiber. -/
theorem Inv.setRunning (h : s.Inv) {f : FiberId} (hw : s.phase w = .here (.resuming f)) :
  ({ s with fiber := Function.update s.fiber f .running }.setPhase w (.here (.running f))).Inv
  := by
  refine ⟨?_, fun _ => attended_setPhase id⟩
  intro g hg
  by_cases hgf : g = f
  · use w
    simp [Workers.setPhase, hgf]
  · simp only [Workers.setPhase, Function.update_of_ne hgf] at hg
    apply h.running_setPhase (w := w) _ g hg
    intro f' hf'
    simp [hw] at hf'

/-- A worker comes back from a fiber, which does not run then. -/
theorem Inv.yield (h : s.Inv) {f : FiberId} {state : FiberState} (hstate : state ≠ .running)
    (hw : s.phase w = .here (.running f)) :
  ({ s with fiber := Function.update s.fiber f state }.setPhase w (.here .leaving)).Inv
  := by
  refine ⟨?_, fun _ => attended_setPhase id⟩
  intro g hg
  by_cases hgf : g = f
  · subst hgf
    simp only [Workers.setPhase, Function.update_self] at hg
    exact absurd hg hstate
  · simp only [Workers.setPhase, Function.update_of_ne hgf] at hg
    obtain ⟨u, hu⟩ := h.running g hg
    have hne : u ≠ w := by
      rintro rfl
      simp [hw, Ne.symm hgf] at hu
    use u
    simpa only [Workers.setPhase, Function.update_of_ne hne] using hu

theorem Inv.step (h : s.Inv) {l : Step W Cb} (hok : s.Heard l) (hstep : step tid s l = some s') :
  s'.Inv
  := by
  cases l with
  | newFiber =>
      obtain rfl := Option.some.inj hstep
      exact ⟨h.running, h.attended⟩
  | stop =>
      obtain rfl := Option.some.inj hstep
      exact ⟨h.running, h.attended⟩
  | schedule task =>
      obtain rfl := step_schedule hstep
      apply h.schedule
  | addEvent task =>
      obtain rfl := step_addEvent hstep
      exact ⟨h.running, h.attended⟩
  | tickle =>
      obtain rfl := Option.some.inj hstep
      refine ⟨h.running, ?_⟩
      intro _
      refine Or.inr (Or.inr (Or.inl ?_))
      simp
  | checkIdle =>
      obtain ⟨-, ⟨-, rfl⟩ | ⟨hidle, rfl⟩⟩ := step_checkIdle hstep
      · refine ⟨h.running, ?_⟩
        intro _
        refine Or.inr (Or.inr (Or.inr ?_))
        simp
      · refine ⟨h.running, ?_⟩
        intro htasks
        apply (hok.resolve_left htasks).resolve_left hidle
  | writePipe =>
      obtain rfl := step_writePipe hstep
      exact ⟨h.running, fun _ => Or.inr (Or.inl rfl)⟩
  | trigger i =>
      obtain ⟨task, -, rfl⟩ := step_trigger hstep
      apply Inv.schedule
      exact ⟨h.running, h.attended⟩
  | decrement =>
      obtain ⟨-, rfl⟩ := step_decrement hstep
      exact ⟨h.running, h.attended⟩
  | delEvent i =>
      obtain ⟨-, rfl⟩ := step_delEvent hstep
      exact ⟨h.running, h.attended⟩
  | scan w =>
      obtain ⟨hw, rfl⟩ := step_scan hstep
      apply h.stepScan hw
  | scheduleBy w task =>
      obtain ⟨p, hw, hp, rfl⟩ := step_scheduleBy hstep
      apply h.scheduleBy hw hp
  | addEventBy w task =>
      obtain ⟨f, -, rfl⟩ := step_addEventBy hstep
      exact ⟨h.running, h.attended⟩
  | tickleBy w =>
      obtain ⟨f, hw, rfl⟩ := step_tickleBy hstep
      apply h.awake _ id
      intro g hg
      simpa [hw] using hg
  | checkIdleBy w =>
      obtain ⟨p, hw, rfl⟩ := step_checkIdleBy hstep
      have hplace : ∀ f, (s.phase w).place = some (.running f) → some p = some (.running f) := by
        intro f hf
        simpa [hw] using hf
      by_cases hidle : 0 < s.idleThreadCount
      · rw [if_pos hidle]
        apply h.awake hplace id
      · rw [if_neg hidle]
        refine ⟨h.running_setPhase hplace, ?_⟩
        intro htasks
        simpa only [endTickle, hw] using (hok.resolve_left htasks).resolve_left hidle
  | writePipeBy w =>
      obtain ⟨p, hw, rfl⟩ := step_writePipeBy hstep
      have hafter : s.writeByte.Inv := ⟨h.running, fun _ => Or.inr (Or.inl rfl)⟩
      refine ⟨hafter.running_setPhase ?_, fun _ => Or.inr (Or.inl rfl)⟩
      intro f hf
      simpa [writeByte, hw] using hf
  | resume w =>
      obtain ⟨t, f, fibers, hw, rfl⟩ := step_resume hstep
      have hafter : Inv { s with fibers := fibers } := ⟨h.running, h.attended⟩
      apply hafter.awake _ id
      intro g hg
      simp [hw] at hg
  | setRunning w =>
      obtain ⟨f, hw, rfl⟩ := step_setRunning hstep
      apply h.setRunning hw
  | yield w term =>
      obtain ⟨f, hw, rfl⟩ := step_yield hstep
      apply h.yield _ hw
      cases term <;> simp
  | leave w =>
      obtain ⟨hw, rfl⟩ := step_leave hstep
      have hafter : Inv { s with activeThreadCount := s.activeThreadCount - 1 } :=
        ⟨h.running, h.attended⟩
      apply hafter.awake _ id
      intro g hg
      simp [hw] at hg
  | enterIdle w =>
      obtain ⟨hw, ⟨hterm, rfl⟩ | ⟨hterm, rfl⟩⟩ := step_enterIdle hstep
      · apply h.awake _ id
        intro f hf
        simp [hw] at hf
      · have hafter : Inv { s with idleThreadCount := s.idleThreadCount + 1 } :=
          ⟨h.running, h.attended⟩
        apply hafter.move
        · simpa [Asleep, hw, Phase.Asleep] using hterm
        · intro f hf
          simp [hw] at hf
  | readPending w =>
      obtain ⟨hw, rfl⟩ := step_readPending hstep
      apply h.move
      · simp [Asleep, hw, Phase.Asleep]
      · intro f hf
        simp [hw] at hf
  | test w =>
      obtain ⟨hw, ⟨-, rfl⟩ | rfl⟩ := step_test hstep
      · refine ⟨?_, fun _ => attended_setPhase id⟩
        apply h.running_setPhase
        intro f hf
        simp [hw] at hf
      · apply h.move
        · simp [Asleep, hw, Phase.Asleep]
        · intro f hf
          simp [hw] at hf
  | wake w =>
      obtain ⟨hw, rfl⟩ := step_wake hstep
      refine ⟨?_, fun _ => attended_setPhase id⟩
      apply h.running_setPhase
      intro f hf
      simp [hw] at hf
  | leaveIdle w =>
      obtain ⟨hw, rfl⟩ := step_leaveIdle hstep
      refine ⟨?_, fun _ => attended_setPhase id⟩
      apply h.running_setPhase
      intro f hf
      simp [hw] at hf

/-- In every run in which a call of `tickle` that finds no idle thread is never the only one that looks
after the tasks in the queue, no wake-up is lost. -/
theorem run_notLost {ls : List (Step W Cb)} (hok : Guarded (step tid) Heard start ls)
    (h : run (step tid) start ls = some s) :
  ¬ s.Lost
  := by
  have hInv : s.Inv :=
    run_guarded_invariant (fun _ _ _ hs hl hstep => hs.step hl hstep) start_inv hok h
  intro hlost
  obtain ⟨t, ht, -⟩ := hlost.task
  obtain ⟨hready, hwaiting⟩ := hlost.blocked
  obtain ⟨hchecking, hwriting⟩ := hlost.quiet
  rcases hInv.attended (List.ne_nil_of_mem ht) with ⟨w, hw⟩ | hbyte | hcheck | hwrite
  · apply hw
    simp [Asleep, hwaiting w, Phase.Asleep]
  · simp [hready] at hbyte
  · apply hcheck hchecking
  · apply hwrite hwriting

/-- A worker sleeps when a callback is scheduled, is woken up and takes it. -/
def wokenUp : List (Step Unit Unit) :=
  [.scan (), .enterIdle (), .readPending (), .test (), .schedule { cb := some () }, .checkIdle,
    .writePipe, .wake (), .leaveIdle (), .scan ()]

theorem run_notLost_wokenUp :
  ∃ s, run (step fun _ => 7) start wokenUp = some s ∧ s.activeThreadCount = 1 ∧ ¬ s.Lost
  := by
  have hok : Guarded (step fun _ => 7) Heard start wokenUp := by decide
  refine ⟨_, rfl, rfl, ?_⟩
  apply run_notLost hok rfl

/-- A callback is scheduled when the worker has found the queue empty and does not count as idle yet. -/
def overslept : List (Step Unit Unit) :=
  [.scan (), .schedule { cb := some () }, .checkIdle, .enterIdle (), .readPending (), .test ()]

/-- The worker sleeps with the callback in the queue, and nobody has written to the pipe. -/
theorem lost_wakeup :
  ∃ s, run (step fun _ => 7) start overslept = some s ∧ s.Lost
  := by
  refine ⟨_, rfl, ⟨⟨0, { cb := some () }⟩, ?_, rfl, rfl, rfl, rfl⟩, ⟨rfl, fun _ => rfl⟩, rfl, rfl⟩
  apply List.mem_singleton.mpr rfl

end Workers

end IOManager
