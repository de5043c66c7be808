import TinyWebserver.Coroutine.Accounting
import TinyWebserver.Lib.Progress

/-!
# Stopping the scheduler

`Scheduler::stop` of `coroutine/scheduler.cpp`, with the idle loop of the class itself. The thread that calls
it sets `m_stopping`, runs the scheduler in its root fiber if it is one of the workers (`use_caller`), and
joins the other threads. A worker leaves `run` when its idle fiber has ended, which needs one look at
`Scheduler::stopping` under the lock.

`stopping` stays true once it is true, unless a task is scheduled by a thread that runs no task, so all
tasks that were accepted are finished when `stop` returns, `run_drained`. And `stop` cannot get stuck:
where callbacks are scheduled, for any thread or for one of the pool, every state is left by steps of the
scheduler alone to one in which `stop` has returned, `run_stop_returns`.
-/

universe u v

/-- The worker has left `run`. -/
def Phase.isExited {Cb : Type u} : Phase Cb → Bool
  | .exited => true
  | _ => false

@[simp]
theorem Phase.isExited_iff {Cb : Type u} (p : Phase Cb) :
  p.isExited = true ↔ p = .exited
  := by
  cases p <;> simp [isExited]

/-- The worker executes a task. -/
def Phase.isExecuting {Cb : Type u} : Phase Cb → Bool
  | .executing _ _ => true
  | _ => false

namespace Scheduler

open Transition Counting

/-- Where the thread is that calls `stop`: in front of the call, behind the assignment to `m_stopping`, where
it resumes the root fiber, behind that, where it joins the threads, or behind the call. -/
inductive StopPlace where
  | outside
  | resuming
  | joining
  | returned
deriving DecidableEq

/-- A scheduler, and the thread that calls `stop`. -/
structure Lifecycle (W : Type v) (Cb : Type u) where
  scheduler : Scheduler W Cb
  place : StopPlace

/-- A step of the scheduler, or of the thread that calls `stop`: the call up to the root fiber, the return
from the root fiber, or the return from the last `join`. -/
inductive Act (W : Type v) (Cb : Type u) where
  | inner (l : Step W Cb)
  | stop
  | rootEnded
  | joined

/-- Nothing is scheduled. -/
def Act.Inward {W : Type v} {Cb : Type u} : Act W Cb → Prop
  | .inner (.schedule _) => False
  | _ => True

/-- The worker that takes a step. -/
def Step.worker {W : Type v} {Cb : Type u} : Step W Cb → Option W
  | .newFiber | .schedule _ | .stop => none
  | .scan w | .checkReady w | .setRunning w | .enter w | .yieldReady w | .terminate w | .swapOut w
  | .release w | .idleYield w | .idleReturn w => some w

variable {W : Type v} {Cb : Type u} [DecidableEq W]

namespace Lifecycle

/-- In front of the call, with the scheduler started. -/
def start : Lifecycle W Cb := ⟨Scheduler.start, .outside⟩

/-- The thread of the step is in `run`: the root worker is there only while its fiber is resumed. -/
def Runs (root : Option W) (s : Lifecycle W Cb) (l : Step W Cb) : Prop :=
  l.worker = none ∨ l.worker ≠ root ∨ s.place = .resuming

instance Runs.decidable (root : Option W) (s : Lifecycle W Cb) (l : Step W Cb) :
    Decidable (Runs root s l) := inferInstanceAs (Decidable (_ ∨ _ ∨ _))

/-- One step, with `none` if it is not possible or if an assertion fails. -/
def step (tid : W → ℤ) (root : Option W) [Fintype W] (s : Lifecycle W Cb) :
    Act W Cb → Option (Lifecycle W Cb)
  | .inner .stop => none
  | .inner l =>
      if Runs root s l then
        (s.scheduler.step tid l).map fun scheduler => { s with scheduler := scheduler }
      else none
  | .stop =>
      if s.place = .outside then
        if s.scheduler.isStopping then some { s with place := .returned }
        else some ⟨{ s.scheduler with stopping := true }, .resuming⟩
      else none
  | .rootEnded =>
      if s.place = .resuming ∧ ∀ w, root = some w → (s.scheduler.phase w).isExited = true then
        some { s with place := .joining }
      else none
  | .joined =>
      if s.place = .joining ∧ ∀ w, root ≠ some w → (s.scheduler.phase w).isExited = true then
        some { s with place := .returned }
      else none

end Lifecycle

/-! ### What a step can do to the workers -/

/-- What a step can do to the workers: nothing; or one gets on in `run`, perhaps with a task of the queue, or
leaves it, its idle fiber having ended; or the idle fiber of one ends, for which `stopping` holds. -/
inductive Control (s s' : Scheduler W Cb) : Prop where
  | still (hphase : s'.phase = s.phase) (hterm : s'.idleTerm = s.idleTerm)
      (hstopping : s'.stopping = s.stopping)
  | moved (w : W) (p : Phase Cb) (hw : s.phase w ≠ .exited) (hp : p ≠ .exited)
      (htaken : ∀ t, p = .taken t → t ∈ s.tasks) (hphase : s'.phase = Function.update s.phase w p)
      (hterm : s'.idleTerm = s.idleTerm) (hstopping : s'.stopping = s.stopping)
  | left (w : W) (hw : s.idleTerm w = true) (hphase : s'.phase = Function.update s.phase w .exited)
      (hterm : s'.idleTerm = s.idleTerm) (hstopping : s'.stopping = s.stopping)
  | ended (w : W) (hw : s.phase w = .idle) (hall : s.isStopping = true)
      (hphase : s'.phase = Function.update s.phase w .scanning)
      (hterm : s'.idleTerm = Function.update s.idleTerm w true) (hstopping : s'.stopping = s.stopping)

variable {tid : W → ℤ} {s s' : Scheduler W Cb}

theorem stepScan_control {w : W} (hw : s.phase w = .scanning) :
  Control s (s.stepScan tid w)
  := by
  have hscanning : s.phase w ≠ .exited := by simp [hw]
  have hspec := scan_spec (tid w) (fun f => (s.fiber f).state) s.tasks
  rw [stepScan]
  split
  · rename_i t left tickleMe hscan
    rw [hscan] at hspec
    obtain ⟨-, before, after, htasks, -⟩ := hspec
    refine .moved w _ hscanning (by simp) ?_ rfl rfl rfl
    intro t' ht'
    obtain rfl := Phase.taken.inj ht'
    simp [htasks]
  · split
    · rename_i hterm
      exact .left w hterm rfl rfl rfl
    · exact .moved w _ hscanning (by simp) (by simp) rfl rfl rfl

theorem step_control {l : Step W Cb} (hstop : l ≠ .stop) (h : step tid s l = some s') :
  Control s s'
  := by
  cases l with
  | newFiber =>
      obtain rfl := Option.some.inj h
      exact .still rfl rfl rfl
  | schedule task =>
      obtain ⟨-, rfl⟩ := step_schedule h
      rw [scheduleNoLock]
      split
      · exact .still rfl rfl rfl
      · exact .still rfl rfl rfl
  | stop => exact absurd rfl hstop
  | scan w =>
      obtain ⟨hw, rfl⟩ := step_scan h
      apply stepScan_control hw
  | checkReady w =>
      obtain ⟨t, hw, ⟨f, -, -, rfl⟩ | ⟨-, rfl⟩⟩ := step_checkReady h
      · exact .moved w _ (by simp [hw]) (by simp) (by simp) rfl rfl rfl
      · exact .moved w _ (by simp [hw]) (by simp) (by simp) rfl rfl rfl
  | setRunning w =>
      obtain ⟨id, f, hw, rfl⟩ := step_setRunning h
      exact .moved w _ (by simp [hw]) (by simp) (by simp) rfl rfl rfl
  | enter w =>
      obtain ⟨id, f, hw, rfl⟩ := step_enter h
      exact .moved w _ (by simp [hw]) (by simp) (by simp) rfl rfl rfl
  | yieldReady w =>
      obtain ⟨id, f, hw, ⟨-, rfl⟩ | ⟨-, rfl⟩⟩ := step_yieldReady h
      · exact .moved w _ (by simp [hw]) (by simp) (by simp) rfl rfl rfl
      · exact .moved w _ (by simp [hw]) (by simp) (by simp) rfl rfl rfl
  | terminate w =>
      obtain ⟨id, f, hw, rfl⟩ := step_terminate h
      exact .moved w _ (by simp [hw]) (by simp) (by simp) rfl rfl rfl
  | swapOut w =>
      obtain ⟨id, f, hw, rfl⟩ := step_swapOut h
      refine .moved w _ ?_ (by simp) (by simp) rfl rfl rfl
      cases hw with
      | inl hw => simp [hw]
      | inr hw => simp [hw]
  | release w =>
      obtain ⟨hw, rfl⟩ := step_release h
      exact .moved w _ (by simp [hw]) (by simp) (by simp) rfl rfl rfl
  | idleYield w =>
      obtain ⟨hw, rfl⟩ := step_idleYield h
      exact .moved w _ (by simp [hw]) (by simp) (by simp) rfl rfl rfl
  | idleReturn w =>
      obtain ⟨hw, hall, rfl⟩ := step_idleReturn h
      exact .ended w hw hall rfl rfl rfl

/-- `m_stopping` is set by `stop` only. -/
theorem Control.stopping (h : Control s s') :
  s'.stopping = s.stopping
  := by
  cases h with
  | still _ _ heq => apply heq
  | moved _ _ _ _ _ _ _ heq => apply heq
  | left _ _ _ _ heq => apply heq
  | ended _ _ _ _ _ heq => apply heq

/-- A worker that has left `run` stays outside. -/
theorem Control.exited (h : Control s s') {w : W} (hw : s.phase w = .exited) :
  s'.phase w = .exited
  := by
  cases h with
  | still hphase => rw [hphase, hw]
  | moved u p hu _ _ hphase =>
      have hne : w ≠ u := by
        rintro rfl
        apply hu hw
      rw [hphase, Function.update_of_ne hne, hw]
  | left u _ hphase =>
      rw [hphase]
      by_cases hne : w = u
      · rw [hne, Function.update_self]
      · rw [Function.update_of_ne hne, hw]
  | ended u hu _ hphase =>
      have hne : w ≠ u := by
        rintro rfl
        simp [hw] at hu
      rw [hphase, Function.update_of_ne hne, hw]

/-- A worker leaves `run` only behind the end of its idle fiber. -/
theorem Control.idleTerm (h : Control s s') (hexit : ∀ w, s.phase w = .exited → s.idleTerm w = true)
    (w : W) (hw : s'.phase w = .exited) :
  s'.idleTerm w = true
  := by
  cases h with
  | still hphase hterm =>
      rw [hterm]
      apply hexit
      rwa [← hphase]
  | moved u p _ hp _ hphase hterm =>
      have hne : w ≠ u := by
        rintro rfl
        rw [hphase, Function.update_self] at hw
        apply hp hw
      rw [hphase, Function.update_of_ne hne] at hw
      rw [hterm]
      apply hexit w hw
  | left u hu hphase hterm =>
      rw [hterm]
      by_cases hne : w = u
      · rw [hne, hu]
      · rw [hphase, Function.update_of_ne hne] at hw
        apply hexit w hw
  | ended u _ _ hphase hterm =>
      rw [hterm]
      by_cases hne : w = u
      · rw [hne, Function.update_self]
      · rw [hphase, Function.update_of_ne hne] at hw
        rw [Function.update_of_ne hne]
        apply hexit w hw

/-- An idle fiber ends only while `stopping` holds. -/
theorem Control.isStopping_of_idleTerm (h : Control s s')
    (hended : ∀ w, s.idleTerm w = true → s.isStopping = true) {w : W} (hw : s'.idleTerm w = true) :
  s.isStopping = true
  := by
  cases h with
  | still _ hterm =>
      rw [hterm] at hw
      apply hended w hw
  | moved _ _ _ _ _ _ hterm =>
      rw [hterm] at hw
      apply hended w hw
  | left _ _ _ hterm =>
      rw [hterm] at hw
      apply hended w hw
  | ended _ _ hall => apply hall

/-! ### `stopping` stays true -/

omit [DecidableEq W] in
theorem isStopping_iff (s : Scheduler W Cb) :
  s.isStopping = true ↔ s.stopping = true ∧ s.tasks = [] ∧ s.activeThreadCount = 0
  := by
  simp [isStopping, and_assoc]

/-- A task is scheduled before `stop`, or while a worker executes a task, which schedules it. -/
def Inside (s : Scheduler W Cb) : Step W Cb → Prop
  | .schedule _ => s.stopping = false ∨ ∃ w, (s.phase w).isExecuting = true
  | _ => True

instance Inside.decidable [Fintype W] (s : Scheduler W Cb) : ∀ l, Decidable (Inside s l)
  | .schedule _ => inferInstanceAs (Decidable (_ ∨ ∃ _ : W, _))
  | .newFiber | .stop | .scan _ | .checkReady _ | .setRunning _ | .enter _ | .yieldReady _ | .terminate _
  | .swapOut _ | .release _ | .idleYield _ | .idleReturn _ => inferInstanceAs (Decidable True)

/-- Tasks are accepted by `schedule` only. -/
theorem accepted_of_step {l : Step W Cb} (h : step tid s l = some s') (hl : ∀ task, l ≠ .schedule task) :
  s'.accepted = s.accepted
  := by
  cases l with
  | newFiber =>
      obtain rfl := Option.some.inj h
      rfl
  | schedule task => exact absurd rfl (hl task)
  | stop =>
      obtain rfl := Option.some.inj h
      rfl
  | scan w =>
      obtain ⟨-, rfl⟩ := step_scan h
      rw [stepScan]
      split
      · rfl
      · split
        · rfl
        · rfl
  | checkReady w =>
      obtain ⟨t, -, ⟨f, -, -, rfl⟩ | ⟨-, rfl⟩⟩ := step_checkReady h
      · rfl
      · rfl
  | setRunning w =>
      obtain ⟨id, f, -, rfl⟩ := step_setRunning h
      rfl
  | enter w =>
      obtain ⟨id, f, -, rfl⟩ := step_enter h
      rfl
  | yieldReady w =>
      obtain ⟨id, f, -, ⟨-, rfl⟩ | ⟨-, rfl⟩⟩ := step_yieldReady h
      · rfl
      · rfl
  | terminate w =>
      obtain ⟨id, f, -, rfl⟩ := step_terminate h
      rfl
  | swapOut w =>
      obtain ⟨id, f, -, rfl⟩ := step_swapOut h
      rfl
  | release w =>
      obtain ⟨-, rfl⟩ := step_release h
      rfl
  | idleYield w =>
      obtain ⟨-, rfl⟩ := step_idleYield h
      rfl
  | idleReturn w =>
      obtain ⟨-, -, rfl⟩ := step_idleReturn h
      rfl

/-- A step that schedules nothing leaves in the queue what was there before. -/
theorem mem_tasks_of_step {l : Step W Cb} (hl : ∀ task, l ≠ .schedule task)
    (h : step tid s l = some s') {x : Ticket Cb} (hx : x ∈ s'.tasks) :
  x ∈ s.tasks
  := by
  cases step_effect h with
  | still _ hsame => rwa [← hsame.tasks]
  | move _ _ _ _ _ hsame => rwa [← hsame.tasks]
  | accept task hs' =>
      have haccepted := accepted_of_step h hl
      rw [hs'] at haccepted
      simp at haccepted
  | take w t left _ hscan hs' =>
      obtain ⟨-, before, after, htasks, hleft, -⟩ := hscan
      rw [hs', setPhase, hleft] at hx
      rw [htasks]
      cases List.mem_append.mp hx with
      | inl hx => apply List.mem_append_left _ hx
      | inr hx => apply List.mem_append_right _ (List.mem_cons_of_mem _ hx)
  | finish _ _ _ _ hsame => rwa [← hsame.tasks]
  | release _ _ hs' => rwa [hs'] at hx

/-- A task that a worker has taken was with it or in the queue. -/
theorem Control.taken (h : Control s s') {w : W} {x : Ticket Cb} (hw : s'.phase w = .taken x) :
  s.phase w = .taken x ∨ x ∈ s.tasks
  := by
  cases h with
  | still hphase => exact Or.inl (hphase ▸ hw)
  | moved u p _ _ htaken hphase =>
      rw [hphase] at hw
      by_cases hne : w = u
      · rw [hne, Function.update_self] at hw
        exact Or.inr (htaken x hw)
      · rw [Function.update_of_ne hne] at hw
        exact Or.inl hw
  | left u _ hphase =>
      rw [hphase] at hw
      by_cases hne : w = u
      · rw [hne, Function.update_self] at hw
        cases hw
      · rw [Function.update_of_ne hne] at hw
        exact Or.inl hw
  | ended u _ _ hphase =>
      rw [hphase] at hw
      by_cases hne : w = u
      · rw [hne, Function.update_self] at hw
        cases hw
      · rw [Function.update_of_ne hne] at hw
        exact Or.inl hw

section Workers

variable [Fintype W]

omit [DecidableEq W] in
/-- A worker with a task is counted. -/
theorem Accounted.active_pos (h : Accounted tid s) {w : W} (hw : (s.phase w).held.isSome = true) :
  0 < s.activeThreadCount
  := by
  rw [h.active]
  have hpos := countWhere_pos (fun p : Phase Cb => p.held.isSome = true) (f := s.phase) hw
  simp only [busy]
  omega

omit [DecidableEq W] in
/-- A worker behind `resume` is counted. -/
theorem Accounted.active_pos_of_resumed (h : Accounted tid s) {w : W} (hw : s.phase w = .resumed) :
  0 < s.activeThreadCount
  := by
  rw [h.active]
  have hresumed : (s.phase w).isResumed = true := by simp [hw]
  have hpos := countWhere_pos (fun p : Phase Cb => p.isResumed = true) (f := s.phase) hresumed
  simp only [resumed]
  omega

/-- `stopping` stays true as long as only tasks schedule tasks. -/
theorem isStopping_of_step (haccounted : Accounted tid s) {l : Step W Cb} (hinside : Inside s l)
    (hstop : l ≠ .stop) (h : step tid s l = some s') (hs : s.isStopping = true) :
  s'.isStopping = true
  := by
  obtain ⟨hstopping, htasks, hactive⟩ := (isStopping_iff s).mp hs
  have hfree : ∀ w, (s.phase w).held.isSome = true → False := by
    intro w hw
    have := haccounted.active_pos hw
    omega
  rw [isStopping_iff]
  refine ⟨(step_control hstop h).stopping.trans hstopping, ?_⟩
  cases step_effect h with
  | still _ hsame => rw [hsame.tasks, hsame.active, htasks, hactive]; simp
  | move _ _ _ _ _ hsame => rw [hsame.tasks, hsame.active, htasks, hactive]; simp
  | accept task hs' =>
      exfalso
      by_cases hl : ∃ task, l = .schedule task
      · obtain ⟨task, rfl⟩ := hl
        rcases hinside with hrunning | ⟨w, hw⟩
        · simp [hstopping] at hrunning
        · apply hfree w
          cases hphase : s.phase w with
          | executing id f => rfl
          | _ => simp [hphase, Phase.isExecuting] at hw
      · have haccepted := accepted_of_step h fun task heq => hl ⟨task, heq⟩
        rw [hs'] at haccepted
        simp at haccepted
  | take w t left _ hscan =>
      obtain ⟨-, before, after, hbefore, -⟩ := hscan
      simp [htasks] at hbefore
  | finish w id hheld =>
      exfalso
      apply hfree w
      rw [hheld]
      rfl
  | release w hw =>
      have hpos := haccounted.active_pos_of_resumed hw
      omega

/-! ### Runs up to the return of `stop` -/

/-- How much of `run` is in front of a worker, once nothing is scheduled any more. -/
def phaseRank (idleTerm : Bool) : Phase Cb → ℕ
  | .taken _ => 10
  | .resuming _ _ => 9
  | .entering _ _ => 8
  | .executing _ _ => 7
  | .yielding _ _ => 6
  | .leaving _ _ => 6
  | .resumed => 5
  | .scanning => if idleTerm then 2 else 4
  | .idle => 3
  | .exited => 0

/-- How much of `stop` is in front of its thread. -/
def StopPlace.rank : StopPlace → ℕ
  | .outside => 3
  | .resuming => 2
  | .joining => 1
  | .returned => 0

namespace Lifecycle

variable {root : Option W} {t t' : Lifecycle W Cb}

theorem step_inner_eq {l : Step W Cb} (hl : l ≠ .stop) :
  t.step tid root (.inner l) = if Runs root t l then
      (t.scheduler.step tid l).map fun scheduler => { t with scheduler := scheduler } else none
  := by
  cases l with
  | stop => exact absurd rfl hl
  | _ => rfl

/-- The steps of the scheduler are those of `step`, without an assignment to `m_stopping`. -/
theorem step_inner {l : Step W Cb} (h : t.step tid root (.inner l) = some t') :
  l ≠ .stop ∧ Runs root t l ∧ ∃ s', t.scheduler.step tid l = some s' ∧ t' = { t with scheduler := s' }
  := by
  have hstop : l ≠ .stop := by
    rintro rfl
    cases h
  rw [step_inner_eq hstop] at h
  split at h
  · rename_i hruns
    obtain ⟨s', hs', rfl⟩ := Option.map_eq_some_iff.mp h
    exact ⟨hstop, hruns, s', hs', rfl⟩
  · cases h

/-- What a step of the thread that calls `stop` can be. -/
theorem step_cases {a : Act W Cb} (h : t.step tid root a = some t') :
  (∃ l, a = .inner l) ∨
    (a = .stop ∧ t.place = .outside ∧
      (t.scheduler.isStopping = true ∧ t' = { t with place := .returned } ∨
        t' = ⟨{ t.scheduler with stopping := true }, .resuming⟩)) ∨
    (a = .rootEnded ∧ t.place = .resuming ∧ (∀ w, root = some w → t.scheduler.phase w = .exited) ∧
      t' = { t with place := .joining }) ∨
    (a = .joined ∧ t.place = .joining ∧ (∀ w, root ≠ some w → t.scheduler.phase w = .exited) ∧
      t' = { t with place := .returned })
  := by
  cases a with
  | inner l => exact Or.inl ⟨l, rfl⟩
  | stop =>
      refine Or.inr (Or.inl ⟨rfl, ?_⟩)
      rw [step] at h
      split at h
      · rename_i hplace
        split at h
        · rename_i hall
          exact ⟨hplace, Or.inl ⟨hall, (Option.some.inj h).symm⟩⟩
        · exact ⟨hplace, Or.inr (Option.some.inj h).symm⟩
      · cases h
  | rootEnded =>
      refine Or.inr (Or.inr (Or.inl ⟨rfl, ?_⟩))
      rw [step] at h
      split at h
      · rename_i hroot
        simp only [Phase.isExited_iff] at hroot
        exact ⟨hroot.1, hroot.2, (Option.some.inj h).symm⟩
      · cases h
  | joined =>
      refine Or.inr (Or.inr (Or.inr ⟨rfl, ?_⟩))
      rw [step] at h
      split at h
      · rename_i hothers
        simp only [Phase.isExited_iff] at hothers
        exact ⟨hothers.1, hothers.2, (Option.some.inj h).symm⟩
      · cases h

/-- No thread outside schedules a task after `stop` has set `m_stopping`. -/
def OnlyInside (t : Lifecycle W Cb) : Act W Cb → Prop
  | .inner l => Inside t.scheduler l
  | _ => True

instance OnlyInside.decidable (t : Lifecycle W Cb) : ∀ a, Decidable (t.OnlyInside a)
  | .inner l => inferInstanceAs (Decidable (Inside t.scheduler l))
  | .stop | .rootEnded | .joined => inferInstanceAs (Decidable True)

/-- The tasks are accounted for, an idle fiber has ended only if `stopping` holds, a worker has left `run`
only if its idle fiber has ended, and the thread that calls `stop` is where the workers let it be. -/
structure Inv (tid : W → ℤ) (root : Option W) (t : Lifecycle W Cb) : Prop where
  accounted : Accounted tid t.scheduler
  stopping : t.scheduler.stopping = true ↔ t.place ≠ .outside
  ended : ∀ w, t.scheduler.idleTerm w = true → t.scheduler.isStopping = true
  exited : ∀ w, t.scheduler.phase w = .exited → t.scheduler.idleTerm w = true
  root : t.place = .joining → ∀ w, root = some w → t.scheduler.phase w = .exited
  returned : t.place = .returned → ∀ w, t.scheduler.phase w = .exited

omit [DecidableEq W] in
theorem start_inv (tid : W → ℤ) (root : Option W) :
  Inv tid root (start : Lifecycle W Cb)
  := by
  refine ⟨start_accounted, ?_, ?_, ?_, by simp [start], by simp [start]⟩
  · simp [start, Scheduler.start]
  · intro w hw
    simp [start, Scheduler.start] at hw
  · intro w hw
    simp [start, Scheduler.start] at hw

/-- A step of the scheduler. -/
theorem Inv.inner (h : Inv tid root t) {l : Step W Cb} (hinside : Inside t.scheduler l) {s' : Scheduler W Cb}
    (hstop : l ≠ .stop) (hstep : t.scheduler.step tid l = some s') :
  Inv tid root { t with scheduler := s' }
  := by
  have hcontrol := step_control hstop hstep
  constructor
  · apply (step_effect hstep).accounted h.accounted
  · rw [← h.stopping, hcontrol.stopping]
  · intro w hw
    have hall := hcontrol.isStopping_of_idleTerm h.ended hw
    apply isStopping_of_step h.accounted hinside hstop hstep hall
  · apply hcontrol.idleTerm h.exited
  · intro hplace w hw
    apply hcontrol.exited (h.root hplace w hw)
  · intro hplace w
    apply hcontrol.exited (h.returned hplace w)

theorem Inv.step [Nonempty W] (h : Inv tid root t) {a : Act W Cb} (hinside : t.OnlyInside a)
    (hstep : t.step tid root a = some t') :
  Inv tid root t'
  := by
  rcases step_cases hstep with ⟨l, rfl⟩ | ⟨rfl, hplace, hstop⟩ | ⟨rfl, hplace, hroot, rfl⟩ |
    ⟨rfl, hplace, hothers, rfl⟩
  · obtain ⟨hstop, -, s', hs', rfl⟩ := step_inner hstep
    apply h.inner hinside hstop hs'
  · have hrunning : t.scheduler.stopping = false := by
      rw [← Bool.not_eq_true, h.stopping, hplace]
      simp
    rcases hstop with ⟨hall, -⟩ | rfl
    · simp [isStopping, hrunning] at hall
    · have hnone : ∀ w, t.scheduler.idleTerm w ≠ true := by
        intro w hw
        have hall := h.ended w hw
        simp [isStopping, hrunning] at hall
      exact ⟨⟨h.accounted.places, h.accounted.pinned, h.accounted.active⟩, by simp,
        fun w hw => absurd hw (hnone w), h.exited, by simp, by simp⟩
  · refine ⟨h.accounted, ?_, h.ended, h.exited, fun _ => hroot, by simp⟩
    rw [h.stopping, hplace]
    simp
  · refine ⟨h.accounted, ?_, h.ended, h.exited, by simp, ?_⟩
    · rw [h.stopping, hplace]
      simp
    · intro _ w
      by_cases hw : root = some w
      · apply h.root hplace w hw
      · apply hothers w hw

omit [DecidableEq W] in
/-- When `stop` has returned, everything is done. -/
theorem Inv.drained [Nonempty W] (h : Inv tid root t) (hreturned : t.place = .returned) :
  t.scheduler.tasks = [] ∧ t.scheduler.activeThreadCount = 0 ∧
    ∀ id, t.scheduler.finished.count id = if id < t.scheduler.accepted then 1 else 0
  := by
  obtain ⟨w⟩ := ‹Nonempty W›
  have hexited := h.returned hreturned
  obtain ⟨-, htasks, hactive⟩ := (isStopping_iff _).mp (h.ended w (h.exited w (hexited w)))
  refine ⟨htasks, hactive, ?_⟩
  intro id
  rw [← h.accounted.places id]
  simp [places, htasks, countWhere, hexited, Phase.held]

/-- For any number of workers, with or without the thread that calls `stop` among them, and every order of
steps: if no thread outside schedules a task after `stop` has set `m_stopping`, then when `stop` returns the
queue is empty, no worker is active, and every task that was ever accepted is finished, once. -/
theorem run_drained [Nonempty W] (tid : W → ℤ) (root : Option W) {as : List (Act W Cb)}
    {t : Lifecycle W Cb} (hinside : Guarded (step tid root) OnlyInside start as)
    (h : run (step tid root) start as = some t) (hreturned : t.place = .returned) :
  t.scheduler.tasks = [] ∧ t.scheduler.activeThreadCount = 0 ∧
    ∀ id, t.scheduler.finished.count id = if id < t.scheduler.accepted then 1 else 0
  := by
  have hInv : Inv tid root t :=
    run_guarded_invariant (fun _ _ _ hs hok hstep => Inv.step hs hok hstep) (start_inv tid root) hinside h
  apply hInv.drained hreturned

/-- A callback for the second worker is scheduled, the first worker calls `stop` and serves in its root fiber,
and both leave `run`. -/
def stopSteps : List (Act (Fin 2) Unit) :=
  [.inner (.schedule { cb := some (), thread := 2 }), .stop, .inner (.scan first), .inner (.scan second),
    .inner (.checkReady second), .inner (.setRunning second), .inner (.enter second),
    .inner (.terminate second), .inner (.swapOut second), .inner (.release second), .inner (.idleReturn first),
    .inner (.scan first), .rootEnded, .inner (.scan second), .inner (.idleReturn second), .inner (.scan second), .joined]

theorem run_drained_stopSteps :
  ∃ t, run (step twoThreads (some first)) start stopSteps = some t ∧ t.scheduler.tasks = [] ∧
    t.scheduler.activeThreadCount = 0 ∧
    ∀ id, t.scheduler.finished.count id = if id < t.scheduler.accepted then 1 else 0
  := by
  have hinside : Guarded (step twoThreads (some first)) OnlyInside start stopSteps := by decide
  have hrun : (run (step twoThreads (some first)) start stopSteps).any (fun t => t.place = .returned)
      = true := by decide
  obtain ⟨t, ht, hreturned⟩ := (Option.any_eq_true _ _).mp hrun
  exact ⟨t, ht, run_drained twoThreads (some first) hinside ht (of_decide_eq_true hreturned)⟩

/-! ### `stop` returns -/

/-- A callback, for any thread or for one of the pool. -/
def Runnable (tid : W → ℤ) (task : ScheduleTask Cb) : Prop :=
  task.fiber = none ∧ (task.thread = -1 ∨ ∃ w, tid w = task.thread)

instance Runnable.decidable (tid : W → ℤ) (task : ScheduleTask Cb) : Decidable (Runnable tid task) :=
  inferInstanceAs (Decidable (_ ∧ (_ ∨ ∃ _ : W, _)))

/-- Only callbacks are scheduled, and no thread outside schedules one after `stop` has set `m_stopping`. -/
def OnlyRunnable (tid : W → ℤ) (t : Lifecycle W Cb) : Act W Cb → Prop
  | .inner (.schedule task) => Inside t.scheduler (.schedule task) ∧ Runnable tid task
  | _ => True

instance OnlyRunnable.decidable (tid : W → ℤ) (t : Lifecycle W Cb) : ∀ a, Decidable (OnlyRunnable tid t a)
  | .inner (.schedule task) => inferInstanceAs (Decidable (Inside t.scheduler (.schedule task) ∧ _))
  | .inner .newFiber | .inner .stop | .inner (.scan _) | .inner (.checkReady _) | .inner (.setRunning _)
  | .inner (.enter _) | .inner (.yieldReady _) | .inner (.terminate _) | .inner (.swapOut _)
  | .inner (.release _) | .inner (.idleYield _) | .inner (.idleReturn _) | .stop | .rootEnded | .joined =>
      inferInstanceAs (Decidable True)

/-- The tasks in the queue and those that workers have taken are callbacks. -/
structure Ready (tid : W → ℤ) (root : Option W) (t : Lifecycle W Cb) : Prop where
  inv : Inv tid root t
  queued : ∀ x ∈ t.scheduler.tasks, Runnable tid x.task
  taken : ∀ w x, t.scheduler.phase w = .taken x → x.task.fiber = none

/-- How much is to be done until `stop` returns. -/
def rank (t : Lifecycle W Cb) : ℕ :=
  11 * t.scheduler.tasks.length + ∑ w, phaseRank (t.scheduler.idleTerm w) (t.scheduler.phase w) +
    t.place.rank

omit [DecidableEq W] in
theorem start_ready (tid : W → ℤ) (root : Option W) :
  Ready tid root (start : Lifecycle W Cb)
  := by
  refine ⟨start_inv tid root, ?_, ?_⟩
  · simp [start, Scheduler.start]
  · intro w x hx
    simp [start, Scheduler.start] at hx

omit [DecidableEq W] [Fintype W] in
theorem OnlyRunnable.onlyInside {a : Act W Cb} (h : OnlyRunnable tid t a) :
  t.OnlyInside a
  := by
  cases a with
  | inner l =>
      cases l with
      | schedule task => apply h.1
      | _ => trivial
  | _ => trivial

theorem Ready.step [Nonempty W] (h : Ready tid root t) {a : Act W Cb} (hok : OnlyRunnable tid t a)
    (hstep : t.step tid root a = some t') :
  Ready tid root t'
  := by
  have hInv := h.inv.step hok.onlyInside hstep
  rcases step_cases hstep with ⟨l, rfl⟩ | ⟨-, -, ⟨-, rfl⟩ | rfl⟩ | ⟨-, -, -, rfl⟩ | ⟨-, -, -, rfl⟩
  · obtain ⟨hstop, -, s', hs', rfl⟩ := step_inner hstep
    refine ⟨hInv, ?_, ?_⟩
    · by_cases hl : ∃ task, l = .schedule task
      · obtain ⟨task, rfl⟩ := hl
        obtain ⟨-, rfl⟩ := step_schedule hs'
        rw [scheduleNoLock]
        split
        · intro x hx
          cases List.mem_append.mp hx with
          | inl hx => apply h.queued x hx
          | inr hx =>
              obtain rfl := List.mem_singleton.mp hx
              apply hok.2
        · apply h.queued
      · intro x hx
        apply h.queued x
        apply mem_tasks_of_step (fun task heq => hl ⟨task, heq⟩) hs' hx
    · intro w x hx
      cases (step_control hstop hs').taken hx with
      | inl hx => apply h.taken w x hx
      | inr hx => exact (h.queued x hx).1
  · exact ⟨hInv, h.queued, h.taken⟩
  · exact ⟨hInv, h.queued, h.taken⟩
  · exact ⟨hInv, h.queued, h.taken⟩
  · exact ⟨hInv, h.queued, h.taken⟩

/-- One worker gets on with less in front of it, and nothing else changes. -/
structure Advances (s s' : Scheduler W Cb) (w : W) : Prop where
  others : ∀ u, u ≠ w → phaseRank (s'.idleTerm u) (s'.phase u) = phaseRank (s.idleTerm u) (s.phase u)
  less : 11 * s'.tasks.length + phaseRank (s'.idleTerm w) (s'.phase w)
    < 11 * s.tasks.length + phaseRank (s.idleTerm w) (s.phase w)

theorem Advances.rank {w : W} (h : Advances t.scheduler s' w) :
  Lifecycle.rank { t with scheduler := s' } < t.rank
  := by
  have hsum := Progress.sum_change h.others
  have hless := h.less
  simp only [Lifecycle.rank]
  omega

omit [Fintype W] in
theorem advances_of_move {w : W} {p : Phase Cb} (htasks : s'.tasks = s.tasks)
    (hterm : s'.idleTerm = s.idleTerm) (hphase : s'.phase = Function.update s.phase w p)
    (hless : phaseRank (s.idleTerm w) p < phaseRank (s.idleTerm w) (s.phase w)) :
  Advances s s' w
  := by
  constructor
  · intro u hu
    rw [hterm, hphase, Function.update_of_ne hu]
  · rw [htasks, hterm, hphase, Function.update_self]
    omega

omit [Fintype W] in
/-- A worker with a task gets on with it. -/
theorem advances_of_held {w : W} {id : ℕ} (hheld : (s.phase w).held = some id)
    (htaken : ∀ x, s.phase w = .taken x → x.task.fiber = none) (tid : W → ℤ) :
  ∃ l s', l.worker = some w ∧ Scheduler.step tid s l = some s' ∧ Advances s s' w
  := by
  have hswapOut : ∀ f, s.phase w = .yielding id f ∨ s.phase w = .leaving id f →
      Scheduler.step tid s (.swapOut w) = some (({ s with finished := s.finished ++ [id] }.setFiber f
        { s.fiber f with saved := true }).setPhase w .resumed) := by
    rintro f (hw | hw)
    · simp only [Scheduler.step, hw]
    · simp only [Scheduler.step, hw]
  cases hw : s.phase w with
  | scanning => simp [hw, Phase.held] at hheld
  | idle => simp [hw, Phase.held] at hheld
  | exited => simp [hw, Phase.held] at hheld
  | resumed => simp [hw, Phase.held] at hheld
  | taken x =>
      have hstep : Scheduler.step tid s (.checkReady w)
          = some ({ s with fibers := s.fibers + 1 }.setPhase w (.resuming x.id s.fibers)) := by
        simp only [Scheduler.step, hw, htaken x hw]
      exact ⟨_, _, rfl, hstep, advances_of_move rfl rfl rfl (by simp [hw, phaseRank])⟩
  | resuming id f =>
      have hstep : Scheduler.step tid s (.setRunning w)
          = some ((s.setFiber f { s.fiber f with state := .running }).setPhase w (.entering id f)) := by
        simp only [Scheduler.step, hw]
      exact ⟨_, _, rfl, hstep, advances_of_move rfl rfl rfl (by simp [hw, phaseRank])⟩
  | entering id f =>
      have hstep : Scheduler.step tid s (.enter w)
          = some (({ s with
            unsavedEntries := s.unsavedEntries + if (s.fiber f).saved then 0 else 1 }.setFiber f
              { s.fiber f with saved := false }).setPhase w (.executing id f)) := by
        simp only [Scheduler.step, hw]
      exact ⟨_, _, rfl, hstep, advances_of_move rfl rfl rfl (by simp [hw, phaseRank])⟩
  | executing id f =>
      have hstep : Scheduler.step tid s (.terminate w)
          = some ((s.setFiber f { s.fiber f with state := .term }).setPhase w (.leaving id f)) := by
        simp only [Scheduler.step, hw]
      exact ⟨_, _, rfl, hstep, advances_of_move rfl rfl rfl (by simp [hw, phaseRank])⟩
  | yielding id' f =>
      obtain rfl : id' = id := by simpa [hw, Phase.held] using hheld
      exact ⟨_, _, rfl, hswapOut f (Or.inl hw), advances_of_move rfl rfl rfl (by simp [hw, phaseRank])⟩
  | leaving id' f =>
      obtain rfl : id' = id := by simpa [hw, Phase.held] using hheld
      exact ⟨_, _, rfl, hswapOut f (Or.inr hw), advances_of_move rfl rfl rfl (by simp [hw, phaseRank])⟩

omit [Fintype W] in
/-- A worker behind `resume` counts itself out. -/
theorem advances_of_resumed {w : W} (hw : s.phase w = .resumed) (tid : W → ℤ) :
  ∃ l s', l.worker = some w ∧ Scheduler.step tid s l = some s' ∧ Advances s s' w
  := by
  have hstep : Scheduler.step tid s (.release w)
      = some ({ s with activeThreadCount := s.activeThreadCount - 1 }.setPhase w .scanning) := by
    simp only [Scheduler.step, hw]
  refine ⟨_, _, rfl, hstep, advances_of_move rfl rfl rfl ?_⟩
  rw [hw]
  cases s.idleTerm w
  · simp [phaseRank]
  · simp [phaseRank]

omit [Fintype W] in
/-- A worker that may take the first task of the queue, and is in its idle fiber or at the head of the loop,
takes a task. -/
theorem takes_of_queued {w : W} {x : Ticket Cb} {rest : List (Ticket Cb)} (htasks : s.tasks = x :: rest)
    (hthread : x.task.thread = -1 ∨ x.task.thread = tid w) (hfiber : x.task.fiber = none)
    (hw : s.phase w = .scanning) :
  ∃ s', Scheduler.step tid s (.scan w) = some s' ∧ s'.idleTerm = s.idleTerm ∧
    s'.tasks.length + 1 = s.tasks.length ∧ ∃ t, s'.phase = Function.update s.phase w (.taken t)
  := by
  have hspec := scan_spec (tid w) (fun f => (s.fiber f).state) s.tasks
  have heligible : Eligible (tid w) (fun f => (s.fiber f).state) x := ⟨hthread, by simp [hfiber]⟩
  refine ⟨s.stepScan tid w, by simp only [Scheduler.step, hw], ?_⟩
  rw [stepScan]
  split
  · rename_i t left tickleMe hscan
    rw [hscan] at hspec
    obtain ⟨-, before, after, hbefore, hleft, -⟩ := hspec
    refine ⟨rfl, ?_, t, rfl⟩
    simp only [setPhase, hbefore, hleft, List.length_append, List.length_cons]
    omega
  · rename_i left tickleMe hscan
    rw [hscan] at hspec
    exact absurd heligible (hspec.2 x (by simp [htasks]))

omit [Fintype W] in
/-- With nothing to do a worker gets on to its end. -/
theorem advances_of_isStopping {w : W} (hall : s.isStopping = true) (hheld : (s.phase w).held = none)
    (hexited : s.phase w ≠ .exited) (hresumed : s.phase w ≠ .resumed) (tid : W → ℤ) :
  ∃ l s', l.worker = some w ∧ Scheduler.step tid s l = some s' ∧ Advances s s' w
  := by
  have htasks := ((isStopping_iff s).mp hall).2.1
  cases hw : s.phase w with
  | scanning =>
      have hstep : Scheduler.step tid s (.scan w) = some (s.stepScan tid w) := by
        simp only [Scheduler.step, hw]
      refine ⟨_, _, rfl, hstep, ?_⟩
      rw [stepScan, htasks, scan]
      dsimp only
      split
      · rename_i hterm
        constructor
        · intro u hu
          simp [setPhase, Function.update_of_ne hu]
        · simp [setPhase, hw, hterm, phaseRank]
      · rename_i hterm
        rw [Bool.not_eq_true] at hterm
        constructor
        · intro u hu
          simp [setPhase, Function.update_of_ne hu]
        · simp [setPhase, hw, hterm, phaseRank]
  | idle =>
      have hstep : Scheduler.step tid s (.idleReturn w)
          = some ({ s with
            idleThreadCount := s.idleThreadCount - 1
            idleTerm := Function.update s.idleTerm w true }.setPhase w .scanning) := by
        simp only [Scheduler.step, hw, hall, if_true]
      refine ⟨_, _, rfl, hstep, ?_⟩
      constructor
      · intro u hu
        simp [setPhase, Function.update_of_ne hu]
      · simp [setPhase, hw, phaseRank]
  | exited => exact absurd hw hexited
  | resumed => exact absurd hw hresumed
  | taken x => simp [hw, Phase.held] at hheld
  | resuming id f => simp [hw, Phase.held] at hheld
  | entering id f => simp [hw, Phase.held] at hheld
  | executing id f => simp [hw, Phase.held] at hheld
  | yielding id f => simp [hw, Phase.held] at hheld
  | leaving id f => simp [hw, Phase.held] at hheld

omit [DecidableEq W] [Fintype W] in
theorem onlyRunnable_of_inward {a : Act W Cb} (h : a.Inward) (tid : W → ℤ) (t : Lifecycle W Cb) :
  OnlyRunnable tid t a
  := by
  cases a with
  | inner l =>
      cases l with
      | schedule task => cases h
      | _ => trivial
  | _ => trivial

/-- A worker that has not left `run` can take its step, once `stop` has been called. -/
theorem step_of_worker (h : Inv tid root t) (hplace : t.place = .resuming ∨ t.place = .joining) {w : W}
    (hw : t.scheduler.phase w ≠ .exited) {l : Step W Cb} (hl : l.worker = some w)
    (hstep : Scheduler.step tid t.scheduler l = some s') :
  t.step tid root (.inner l) = some { t with scheduler := s' } ∧ (Act.inner l).Inward
  := by
  have hruns : Runs root t l := by
    rcases hplace with hresuming | hjoining
    · exact Or.inr (Or.inr hresuming)
    · refine Or.inr (Or.inl ?_)
      rw [hl]
      intro hroot
      apply hw
      apply h.root hjoining w hroot.symm
  have hstop : l ≠ .stop := by
    rintro rfl
    cases hl
  refine ⟨?_, ?_⟩
  · rw [step_inner_eq hstop, if_pos hruns, hstep, Option.map_some]
  · cases l with
    | schedule task => cases hl
    | _ => trivial

/-- Some steps that schedule nothing lead on to a state with less to be done. -/
def Leads (tid : W → ℤ) (root : Option W) (t : Lifecycle W Cb) : Prop :=
  ∃ as t', (∀ a ∈ as, a.Inward) ∧ run (step tid root) t as = some t' ∧ Ready tid root t' ∧ t'.rank < t.rank

theorem Ready.leads_of_step [Nonempty W] (h : Ready tid root t) {a : Act W Cb} (ha : a.Inward)
    (hstep : t.step tid root a = some t') (hrank : t'.rank < t.rank) :
  Leads tid root t
  := ⟨[a], t', by simpa using ha, by simp [hstep], h.step (onlyRunnable_of_inward ha tid t) hstep, hrank⟩

theorem Ready.leads_of_advances [Nonempty W] (h : Ready tid root t)
    (hplace : t.place = .resuming ∨ t.place = .joining) {w : W} (hw : t.scheduler.phase w ≠ .exited)
    {l : Step W Cb} (hl : l.worker = some w) (hstep : Scheduler.step tid t.scheduler l = some s')
    (hadvances : Advances t.scheduler s' w) :
  Leads tid root t
  := by
  obtain ⟨hinner, hinward⟩ := step_of_worker h.inv hplace hw hl hstep
  apply h.leads_of_step hinward hinner hadvances.rank

/-- With a task in the queue and all workers without one, a worker takes a task. -/
theorem Ready.leads_of_queued [Nonempty W] (h : Ready tid root t)
    (hplace : t.place = .resuming ∨ t.place = .joining) (hfree : ∀ w, (t.scheduler.phase w).held = none)
    (hresumed : ∀ w, t.scheduler.phase w ≠ .resumed)
    {x : Ticket Cb} {rest : List (Ticket Cb)} (htasks : t.scheduler.tasks = x :: rest) :
  Leads tid root t
  := by
  have hinside : ∀ w, t.scheduler.phase w ≠ .exited := by
    intro w hw
    have hall := h.inv.ended w (h.inv.exited w hw)
    simp [isStopping, htasks] at hall
  obtain ⟨hfiber, hthread⟩ := h.queued x (by simp [htasks])
  have hworker : ∃ w, x.task.thread = -1 ∨ x.task.thread = tid w := by
    rcases hthread with hany | ⟨w, hw⟩
    · exact ⟨Classical.arbitrary W, Or.inl hany⟩
    · exact ⟨w, Or.inr hw.symm⟩
  obtain ⟨w, hw⟩ := hworker
  cases hphase : t.scheduler.phase w with
  | scanning =>
      obtain ⟨s', hstep, hterm, hlength, y, hs'⟩ := takes_of_queued htasks hw hfiber hphase
      apply h.leads_of_advances hplace (hinside w) rfl hstep
      constructor
      · intro u hu
        rw [hterm, hs', Function.update_of_ne hu]
      · rw [hs', Function.update_self]
        simp only [phaseRank]
        omega
  | idle =>
      let s₁ := { t.scheduler with idleThreadCount := t.scheduler.idleThreadCount - 1 }.setPhase w .scanning
      have hyield : Scheduler.step tid t.scheduler (.idleYield w) = some s₁ := by
        simp only [Scheduler.step, hphase]
        rfl
      have hscanning : s₁.phase w = .scanning := Function.update_self ..
      obtain ⟨s', hscan, hterm, hlength, y, hs'⟩ := takes_of_queued (s := s₁) htasks hw hfiber hscanning
      obtain ⟨hfirst, hinward⟩ := step_of_worker h.inv hplace (hinside w) rfl hyield
      have h₁ := h.step (onlyRunnable_of_inward hinward tid t) hfirst
      obtain ⟨hsecond, hinward'⟩ := step_of_worker h₁.inv hplace (by simp [hscanning]) rfl hscan
      have hadvances : Advances t.scheduler s' w := by
        constructor
        · intro u hu
          rw [hterm, hs', Function.update_of_ne hu]
          simp only [s₁, setPhase, Function.update_of_ne hu]
        · have hsame : s₁.tasks.length = t.scheduler.tasks.length := rfl
          rw [hs', Function.update_self, hphase]
          simp only [phaseRank]
          omega
      refine ⟨[.inner (.idleYield w), .inner (.scan w)], { t with scheduler := s' }, ?_, ?_, ?_,
        hadvances.rank⟩
      · simp [hinward, hinward']
      · rw [run_cons, hfirst, Option.bind_some, run_cons, hsecond]
        rfl
      · apply h₁.step (onlyRunnable_of_inward hinward' tid _) hsecond
  | exited => exact absurd hphase (hinside w)
  | resumed => exact absurd hphase (hresumed w)
  | _ =>
      have hheld := hfree w
      simp [hphase, Phase.held] at hheld

/-- From every state short of the return of `stop`, one or two steps lead on. -/
theorem Ready.leads [Nonempty W] (h : Ready tid root t) (hreturned : t.place ≠ .returned) :
  Leads tid root t
  := by
  by_cases houtside : t.place = .outside
  · have hrunning : t.scheduler.stopping = false := by
      rw [← Bool.not_eq_true, h.inv.stopping, houtside]
      simp
    have hstep : t.step tid root .stop = some ⟨{ t.scheduler with stopping := true }, .resuming⟩ := by
      simp [Lifecycle.step, houtside, isStopping, hrunning]
    apply h.leads_of_step (a := .stop) trivial hstep
    simp [rank, houtside, StopPlace.rank]
  have hplace : t.place = .resuming ∨ t.place = .joining := by
    cases hp : t.place with
    | outside => exact absurd hp houtside
    | resuming => exact Or.inl rfl
    | joining => exact Or.inr rfl
    | returned => exact absurd hp hreturned
  by_cases hbusy : ∃ w id, (t.scheduler.phase w).held = some id
  · obtain ⟨w, id, hheld⟩ := hbusy
    obtain ⟨l, s', hl, hstep, hadvances⟩ := advances_of_held hheld (h.taken w) tid
    apply h.leads_of_advances hplace _ hl hstep hadvances
    intro hw
    simp [hw, Phase.held] at hheld
  · have hfree : ∀ w, (t.scheduler.phase w).held = none := by
      intro w
      rw [Option.eq_none_iff_forall_not_mem]
      intro id hid
      apply hbusy ⟨w, id, hid⟩
    by_cases hleft : ∃ w, t.scheduler.phase w = .resumed
    · obtain ⟨w, hw⟩ := hleft
      obtain ⟨l, s', hl, hstep, hadvances⟩ := advances_of_resumed hw tid
      apply h.leads_of_advances hplace _ hl hstep hadvances
      simp [hw]
    have hresumed : ∀ w, t.scheduler.phase w ≠ .resumed := not_exists.mp hleft
    have hactive : t.scheduler.activeThreadCount = 0 := by
      rw [h.inv.accounted.active]
      simp [busy, resumed, countWhere, hfree, hresumed]
    cases htasks : t.scheduler.tasks with
    | nil =>
        have hall : t.scheduler.isStopping = true :=
          (isStopping_iff _).mpr ⟨h.inv.stopping.mpr houtside, htasks, hactive⟩
        by_cases hexited : ∀ w, t.scheduler.phase w = .exited
        · rcases hplace with hresuming | hjoining
          · have hstep : t.step tid root .rootEnded = some { t with place := .joining } := by
              simp [Lifecycle.step, hresuming, hexited]
            apply h.leads_of_step (a := .rootEnded) trivial hstep
            simp [rank, hresuming, StopPlace.rank]
          · have hstep : t.step tid root .joined = some { t with place := .returned } := by
              simp [Lifecycle.step, hjoining, hexited]
            apply h.leads_of_step (a := .joined) trivial hstep
            simp [rank, hjoining, StopPlace.rank]
        · obtain ⟨w, hw⟩ := not_forall.mp hexited
          obtain ⟨l, s', hl, hstep, hadvances⟩ := advances_of_isStopping hall (hfree w) hw (hresumed w) tid
          apply h.leads_of_advances hplace hw hl hstep hadvances
    | cons x rest => apply h.leads_of_queued hplace hfree hresumed htasks

/-- `stop` cannot get stuck: if only callbacks were scheduled, for any thread or for one of the pool, and none
by a thread outside after `stop` has set `m_stopping`, then from every state that was reached, before `stop`
or in it, steps of the workers and of the thread that calls `stop` lead to the return of `stop`, without
any other task being scheduled. -/
theorem run_stop_returns [Nonempty W] (tid : W → ℤ) (root : Option W) {as : List (Act W Cb)}
    {t : Lifecycle W Cb} (hrunnable : Guarded (step tid root) (OnlyRunnable tid) start as)
    (h : run (step tid root) start as = some t) :
  ∃ as' t', (∀ a ∈ as', a.Inward) ∧ run (step tid root) t as' = some t' ∧ t'.place = .returned
  := by
  have hready : Ready tid root t :=
    run_guarded_invariant (fun _ _ _ hs hok hstep => Ready.step hs hok hstep) (start_ready tid root)
      hrunnable h
  obtain ⟨as', t', has', hrun, -, hreturned⟩ :=
    Progress.exists_run_to_goal rank (fun t ht hgoal => ht.leads hgoal) t hready
  exact ⟨as', t', has', hrun, hreturned⟩

theorem run_stop_returns_stopSteps :
  ∃ t, run (step twoThreads (some first)) start (stopSteps.take 5) = some t ∧
    ∃ as' t', (∀ a ∈ as', a.Inward) ∧ run (step twoThreads (some first)) t as' = some t' ∧
      t'.place = .returned
  := by
  have hrunnable : Guarded (step twoThreads (some first)) (OnlyRunnable twoThreads) start
      (stopSteps.take 5) := by decide
  have hrun : (run (step twoThreads (some first)) start (stopSteps.take 5)).isSome = true := by decide
  obtain ⟨t, ht⟩ := Option.isSome_iff_exists.mp hrun
  exact ⟨t, ht, run_stop_returns twoThreads (some first) hrunnable ht⟩

end Lifecycle

end Workers

end Scheduler
