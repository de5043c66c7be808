import TinyWebserver.Coroutine.Accounting
import TinyWebserver.Lib.Exclusive

/-!
# Handing a fiber from thread to thread

A fiber that is about to yield may already be in the queue, put there by itself or by the event it
waits for, and another worker may take it. `Scheduler::run` therefore passes over fibers that run.
But `yield` sets the state back to `READY` before it saves the context, and in between the fiber is
taken for one that waits: `double_execution` is a run where it is entered a second time while the
first thread is still on its stack. In every run where `resume` makes its check at no such moment, no
fiber is executed twice and only saved contexts are entered, `run_exclusive`.
-/

universe u v

/-! ### Who has to do with a fiber -/

namespace Phase

variable {Cb : Type u}

/-- The fiber that a worker is going to enter. -/
def claims : Phase Cb → Option FiberId
  | .taken t => t.task.fiber
  | .resuming _ f => some f
  | .entering _ f => some f
  | _ => none

/-- The fiber on whose stack a worker is. -/
def onStack : Phase Cb → Option FiberId
  | .executing _ f => some f
  | .yielding _ f => some f
  | .leaving _ f => some f
  | _ => none

/-- The fiber that a worker has found to be ready and is not done with. -/
def engaged : Phase Cb → Option FiberId
  | .resuming _ f => some f
  | .entering _ f => some f
  | .executing _ f => some f
  | .yielding _ f => some f
  | .leaving _ f => some f
  | _ => none

/-- The fiber that a worker is about to switch away from, with its state already set to `READY`. -/
def yields : Phase Cb → Option FiberId
  | .yielding _ f => some f
  | _ => none

/-- The state that the worker has last seen or set is the state of the fiber. -/
def StateFits (state : FiberId → FiberState) : Phase Cb → Prop
  | .taken t => ∀ f, t.task.fiber = some f → state f ≠ .running
  | .resuming _ f => state f = .ready
  | .entering _ f => state f = .running
  | .executing _ f => state f = .running
  | .yielding _ f => state f = .ready
  | .leaving _ f => state f = .term
  | _ => True

theorem engaged_of_onStack {p : Phase Cb} {f : FiberId} (h : p.onStack = some f) :
  p.engaged = some f
  := by
  cases p <;> first | exact h | simp [onStack] at h

theorem stateFits_of_none {state : FiberId → FiberState} {p : Phase Cb} (hclaims : p.claims = none)
    (hengaged : p.engaged = none) :
  p.StateFits state
  := by
  cases p <;> simp_all [claims, engaged, StateFits]

/-- An assignment to the state of a fiber does not disturb a worker that is not engaged with it, and
is not going to enter it if it is set to `RUNNING`. -/
theorem StateFits.assign {state state' : FiberId → FiberState} {p : Phase Cb} {f : FiberId}
    (h : p.StateFits state) (hsame : ∀ g, g ≠ f → state' g = state g)
    (hengaged : p.engaged ≠ some f) (hclaims : state' f = .running → p.claims ≠ some f) :
  p.StateFits state'
  := by
  have hother : ∀ g, p.engaged = some g → state' g = state g := by
    intro g hg
    apply hsame
    rintro rfl
    apply hengaged hg
  cases p with
  | taken t =>
      intro g hg hrunning
      by_cases heq : g = f
      · apply hclaims (heq ▸ hrunning) (heq ▸ hg)
      · apply h g hg (hsame g heq ▸ hrunning)
  | resuming _ g => exact (hother g rfl).trans h
  | entering _ g => exact (hother g rfl).trans h
  | executing _ g => exact (hother g rfl).trans h
  | yielding _ g => exact (hother g rfl).trans h
  | leaving _ g => exact (hother g rfl).trans h
  | scanning => trivial
  | idle => trivial
  | exited => trivial
  | resumed => trivial

end Phase

namespace Scheduler

open Transition

variable {W : Type v} {Cb : Type u}

/-- The fibers in the queue. -/
def queued (s : Scheduler W Cb) : List FiberId := s.tasks.filterMap fun t => t.task.fiber

/-- The fiber that each worker is going to enter. -/
def claims (s : Scheduler W Cb) (w : W) : Option FiberId := (s.phase w).claims

/-- The fiber on whose stack each worker is. -/
def onStack (s : Scheduler W Cb) (w : W) : Option FiberId := (s.phase w).onStack

/-- The fiber that each worker is engaged with. -/
def engaged (s : Scheduler W Cb) (w : W) : Option FiberId := (s.phase w).engaged

/-- A fiber is queued at most once for each time it is entered: while it is in the queue, or with a
worker that has not entered it, nobody schedules it again. -/
def Disciplined (s : Scheduler W Cb) : Step W Cb → Prop
  | .schedule task => ∀ f ∈ task.fiber, f ∉ s.queued ∧ ∀ w, s.claims w ≠ some f
  | _ => True

/-- The step is the check of `resume` on a fiber that another worker is in `yield` with, between the
assignment to the state and the switch. -/
def ChecksYielding (s : Scheduler W Cb) : Step W Cb → Prop
  | .checkReady w => ∃ w', (s.phase w').yields.isSome ∧ (s.phase w').yields = s.claims w
  | _ => False

/-- What a worker has to do with a fiber agrees with the queue and with the states of the fibers. -/
structure Fits (s : Scheduler W Cb) (p : Phase Cb) : Prop where
  queued : ∀ f, p.claims = some f → f ∉ s.queued
  claims_made : ∀ f, p.claims = some f → f < s.fibers
  engaged_made : ∀ f, p.engaged = some f → f < s.fibers
  state : p.StateFits fun f => (s.fiber f).state

/-- Fibers may leave the queue, and new ones may be made. -/
theorem Fits.mono {s s' : Scheduler W Cb} {p : Phase Cb} (h : s.Fits p)
    (hqueued : ∀ f, p.claims = some f → f ∈ s'.queued → f ∈ s.queued)
    (hfibers : s.fibers ≤ s'.fibers) (hstate : p.StateFits fun f => (s'.fiber f).state) :
  s'.Fits p
  := by
  constructor
  · exact fun f hf hf' => h.queued f hf (hqueued f hf hf')
  · exact fun f hf => Nat.lt_of_lt_of_le (h.claims_made f hf) hfibers
  · exact fun f hf => Nat.lt_of_lt_of_le (h.engaged_made f hf) hfibers
  · apply hstate

/-- The queue, the workers and the fibers agree. -/
structure Handover (s : Scheduler W Cb) : Prop where
  queue : s.queued.Nodup
  queue_made : ∀ f ∈ s.queued, f < s.fibers
  claims : Exclusive s.claims
  engaged : Exclusive s.engaged
  worker : ∀ w, s.Fits (s.phase w)
  saved : ∀ f, (∀ w, s.onStack w ≠ some f) → (s.fiber f).saved
  fresh : ∀ f, s.fibers ≤ f → (s.fiber f).state = .ready
  entries : s.unsavedEntries = 0

theorem start_handover :
  Handover (start : Scheduler W Cb)
  := by
  constructor
  · simp [queued, start]
  · simp [queued, start]
  · intro i j r hi
    simp [Scheduler.claims, start, Phase.claims] at hi
  · intro i j r hi
    simp [Scheduler.engaged, start, Phase.engaged] at hi
  · intro w
    constructor
    · simp [start, Phase.claims]
    · simp [start, Phase.claims]
    · simp [start, Phase.engaged]
    · trivial
  · intro f _
    rfl
  · intro f _
    rfl
  · rfl

/-! ### One step of a worker -/

section Moves

variable [DecidableEq W] {tid : W → ℤ} {s s' : Scheduler W Cb} {w : W} {f : FiberId}

/-- A view of the workers after one of them has got somewhere. -/
theorem comp_update {α : Type*} (view : Phase Cb → α) (phase : W → Phase Cb) (w : W)
    (p : Phase Cb) :
  (fun w' => view (Function.update phase w p w')) =
    Function.update (fun w' => view (phase w')) w (view p)
  := Function.comp_update view phase w p

namespace Handover

/-- A worker gets somewhere, where it fits, and leaves the other workers fitting. -/
theorem move (h : Handover s) {p : Phase Cb} (hphase : s'.phase = Function.update s.phase w p)
    (hqueue : s'.queued.Nodup) (hmade : ∀ g ∈ s'.queued, g < s'.fibers)
    (hclaims : ∀ g, p.claims = some g → ∀ w', w' ≠ w → s.claims w' ≠ some g)
    (hengaged : ∀ g, p.engaged = some g → ∀ w', w' ≠ w → s.engaged w' ≠ some g)
    (hself : s'.Fits p) (hothers : ∀ w', w' ≠ w → s'.Fits (s.phase w'))
    (hsaved : ∀ g, p.onStack ≠ some g → (∀ w', w' ≠ w → s.onStack w' ≠ some g) →
      (s'.fiber g).saved)
    (hfresh : ∀ g, s'.fibers ≤ g → (s'.fiber g).state = .ready)
    (hentries : s'.unsavedEntries = 0) :
  Handover s'
  := by
  constructor
  · apply hqueue
  · apply hmade
  · have hview : s'.claims = Function.update s.claims w p.claims := by
      unfold Scheduler.claims
      rw [hphase, comp_update]
    rw [hview]
    apply h.claims.update hclaims
  · have hview : s'.engaged = Function.update s.engaged w p.engaged := by
      unfold Scheduler.engaged
      rw [hphase, comp_update]
    rw [hview]
    apply h.engaged.update hengaged
  · rw [hphase]
    exact (Function.forall_update_iff s.phase fun _ q => s'.Fits q).mpr ⟨hself, hothers⟩
  · intro g hg
    unfold Scheduler.onStack at hg
    rw [hphase] at hg
    have hview := (Function.forall_update_iff s.phase fun _ q => q.onStack ≠ some g).mp hg
    apply hsaved g hview.1 hview.2
  · apply hfresh
  · apply hentries

omit [DecidableEq W] in
/-- A context is saved if no worker is on the stack, apart from one that is on none. -/
theorem saved_of_others (h : Handover s) (hstack : s.onStack w = none)
    (hothers : ∀ w', w' ≠ w → s.onStack w' ≠ some f) :
  (s.fiber f).saved
  := by
  apply h.saved
  intro w'
  by_cases heq : w' = w
  · simp [heq, hstack]
  · apply hothers w' heq

/-- A worker that is on no stack gets to where it has to do with no fiber. -/
theorem pass (h : Handover s) (hstack : s.onStack w = none) {p : Phase Cb} (hclaims : p.claims = none)
    (hengaged : p.engaged = none) (hphase : s'.phase = Function.update s.phase w p)
    (hfiber : s'.fiber = s.fiber) (htasks : s'.tasks = s.tasks) (hfibers : s'.fibers = s.fibers)
    (hentries : s'.unsavedEntries = s.unsavedEntries) :
  Handover s'
  := by
  have hqueued : s'.queued = s.queued := by rw [queued, queued, htasks]
  apply h.move hphase
  · rw [hqueued]
    apply h.queue
  · rw [hqueued, hfibers]
    apply h.queue_made
  · simp [hclaims]
  · simp [hengaged]
  · exact ⟨by simp [hclaims], by simp [hclaims], by simp [hengaged],
      Phase.stateFits_of_none hclaims hengaged⟩
  · intro w' _
    have hw' := h.worker w'
    apply hw'.mono (fun _ _ => hqueued ▸ id) hfibers.ge (hfiber ▸ hw'.state)
  · intro g _ hg
    rw [hfiber]
    apply h.saved_of_others hstack hg
  · rw [hfiber, hfibers]
    apply h.fresh
  · rw [hentries]
    apply h.entries

omit [DecidableEq W] in
/-- The one worker that is engaged with a fiber is not on its stack, so the context is saved. -/
theorem saved_of_engaged (h : Handover s) (hw : s.engaged w = some f) (hstack : s.onStack w = none) :
  (s.fiber f).saved
  := by
  apply h.saved
  intro w' hw'
  obtain rfl := h.engaged w w' f hw (Phase.engaged_of_onStack hw')
  rw [hstack] at hw'
  simp at hw'

omit [DecidableEq W] in
/-- The other workers are not disturbed by an assignment to the fiber that one is engaged with. -/
theorem fits_other (h : Handover s) (hw : s.engaged w = some f) {x : Fiber}
    (hfiber : s'.fiber = Function.update s.fiber f x) (hqueued : s'.queued = s.queued)
    (hfibers : s'.fibers = s.fibers) (hrunning : x.state = .running → s.claims w = some f) {w' : W}
    (hne : w' ≠ w) :
  s'.Fits (s.phase w')
  := by
  have hw' := h.worker w'
  apply hw'.mono (fun _ _ => hqueued ▸ id) hfibers.ge
  apply hw'.state.assign (f := f)
  · intro g hg
    rw [hfiber, Function.update_of_ne hg]
  · intro hf
    apply hne
    apply h.engaged w' w f hf hw
  · intro hstate hf
    rw [hfiber, Function.update_self] at hstate
    apply hne
    apply h.claims w' w f hf (hrunning hstate)

omit [DecidableEq W] in
/-- The contexts of the other fibers stay saved. -/
theorem saved_other (h : Handover s) (hw : s.engaged w = some f) {g : FiberId} (hg : g ≠ f)
    (hothers : ∀ w', w' ≠ w → s.onStack w' ≠ some g) :
  (s.fiber g).saved
  := by
  apply h.saved
  intro w' hw'
  by_cases heq : w' = w
  · have hengaged : s.engaged w = some g := by
      rw [← heq]
      apply Phase.engaged_of_onStack hw'
    apply hg
    apply Option.some.inj
    rw [← hengaged, hw]
  · apply hothers w' heq hw'

/-- A worker goes on with the fiber it is engaged with, and assigns to it. -/
theorem advance (h : Handover s) (hw : s.engaged w = some f) {p : Phase Cb} {x : Fiber}
    (hphase : s'.phase = Function.update s.phase w p)
    (hfiber : s'.fiber = Function.update s.fiber f x) (htasks : s'.tasks = s.tasks)
    (hfibers : s'.fibers = s.fibers) (hentries : s'.unsavedEntries = 0)
    (hclaims : p.claims = none ∨ p.claims = s.claims w)
    (hengaged : p.engaged = none ∨ p.engaged = some f)
    (hfits : p.StateFits fun g => (s'.fiber g).state) (hsaved : x.saved ∨ p.onStack = some f)
    (hrunning : x.state = .running → s.claims w = some f) :
  Handover s'
  := by
  have hqueued : s'.queued = s.queued := by rw [queued, queued, htasks]
  have hpclaims : ∀ g, p.claims = some g → s.claims w = some g := by
    intro g hg
    rcases hclaims with hnone | hsame
    · simp [hnone] at hg
    · rw [← hsame, hg]
  have hpengaged : ∀ g, p.engaged = some g → s.engaged w = some g := by
    intro g hg
    rcases hengaged with hnone | hsame
    · simp [hnone] at hg
    · rw [hw, ← hsame, hg]
  have hworker := h.worker w
  apply h.move hphase
  · rw [hqueued]
    apply h.queue
  · rw [hqueued, hfibers]
    apply h.queue_made
  · intro g hg w' hne hw'
    apply hne
    apply h.claims w' w g hw' (hpclaims g hg)
  · intro g hg w' hne hw'
    apply hne
    apply h.engaged w' w g hw' (hpengaged g hg)
  · constructor
    · intro g hg
      rw [hqueued]
      apply hworker.queued g (hpclaims g hg)
    · intro g hg
      rw [hfibers]
      apply hworker.claims_made g (hpclaims g hg)
    · intro g hg
      rw [hfibers]
      apply hworker.engaged_made g (hpengaged g hg)
    · apply hfits
  · intro w' hne
    apply h.fits_other hw hfiber hqueued hfibers hrunning hne
  · intro g hg hothers
    rw [hfiber]
    by_cases heq : g = f
    · rw [heq, Function.update_self]
      apply hsaved.resolve_right
      rw [← heq]
      apply hg
    · rw [Function.update_of_ne heq]
      apply h.saved_other hw heq hothers
  · intro g hg
    rw [hfibers] at hg
    have hne : g ≠ f := by
      rintro rfl
      apply Nat.not_lt.mpr hg
      apply hworker.engaged_made g hw
    rw [hfiber, Function.update_of_ne hne]
    apply h.fresh g hg
  · apply hentries

theorem setRunning (h : Handover s) (hstep : step tid s (.setRunning w) = some s') :
  Handover s'
  := by
  obtain ⟨id, f, hw, rfl⟩ := step_setRunning hstep
  have hengaged : s.engaged w = some f := by rw [Scheduler.engaged, hw]; rfl
  have hclaims : s.claims w = some f := by rw [Scheduler.claims, hw]; rfl
  have hstack : s.onStack w = none := by rw [Scheduler.onStack, hw]; rfl
  refine h.advance hengaged rfl rfl rfl rfl h.entries (Or.inr hclaims.symm) (Or.inr rfl) ?_
    (Or.inl (h.saved_of_engaged hengaged hstack)) (fun _ => hclaims)
  simp [Phase.StateFits, setPhase, setFiber]

theorem enter (h : Handover s) (hstep : step tid s (.enter w) = some s') :
  Handover s'
  := by
  obtain ⟨id, f, hw, rfl⟩ := step_enter hstep
  have hengaged : s.engaged w = some f := by rw [Scheduler.engaged, hw]; rfl
  have hclaims : s.claims w = some f := by rw [Scheduler.claims, hw]; rfl
  have hstack : s.onStack w = none := by rw [Scheduler.onStack, hw]; rfl
  have hsaved := h.saved_of_engaged hengaged hstack
  have hstate : (s.fiber f).state = .running := by
    simpa [hw, Phase.StateFits] using (h.worker w).state
  refine h.advance hengaged rfl rfl rfl rfl ?_ (Or.inl rfl) (Or.inr rfl) ?_ (Or.inr rfl)
    (fun _ => hclaims)
  · simp [setPhase, setFiber, hsaved, h.entries]
  · simpa [Phase.StateFits, setPhase, setFiber] using hstate

theorem yieldReady (h : Handover s) (hstep : step tid s (.yieldReady w) = some s') :
  Handover s'
  := by
  obtain ⟨id, f, hw, ⟨-, rfl⟩ | ⟨hterm, -⟩⟩ := step_yieldReady hstep
  · have hengaged : s.engaged w = some f := by rw [Scheduler.engaged, hw]; rfl
    refine h.advance hengaged rfl rfl rfl rfl h.entries (Or.inl rfl) (Or.inr rfl) ?_ (Or.inr rfl)
      nofun
    simp [Phase.StateFits, setPhase, setFiber]
  · have hstate : (s.fiber f).state = .running := by
      simpa [hw, Phase.StateFits] using (h.worker w).state
    simp [hterm] at hstate

theorem terminate (h : Handover s) (hstep : step tid s (.terminate w) = some s') :
  Handover s'
  := by
  obtain ⟨id, f, hw, rfl⟩ := step_terminate hstep
  have hengaged : s.engaged w = some f := by rw [Scheduler.engaged, hw]; rfl
  refine h.advance hengaged rfl rfl rfl rfl h.entries (Or.inl rfl) (Or.inr rfl) ?_ (Or.inr rfl)
    nofun
  simp [Phase.StateFits, setPhase, setFiber]

theorem swapOut (h : Handover s) (hstep : step tid s (.swapOut w) = some s') :
  Handover s'
  := by
  obtain ⟨id, f, hw, rfl⟩ := step_swapOut hstep
  have hengaged : s.engaged w = some f := by
    rw [Scheduler.engaged]
    rcases hw with hw | hw <;> rw [hw] <;> rfl
  have hstate : (s.fiber f).state ≠ .running := by
    have hfits := (h.worker w).state
    rcases hw with hw | hw <;> rw [hw] at hfits <;> simp_all [Phase.StateFits]
  exact h.advance hengaged rfl rfl rfl rfl h.entries (Or.inl rfl) (Or.inl rfl) trivial
    (Or.inl rfl) (fun hrunning => absurd hrunning hstate)

omit [DecidableEq W] in
/-- A fiber that a worker has taken and finds ready has no worker engaged with it, unless that one is
in `yield`. -/
theorem engaged_ne_of_ready (h : Handover s) {t : Ticket Cb} (hw : s.phase w = .taken t)
    (hf : t.task.fiber = some f) (hready : (s.fiber f).state = .ready) {w' : W}
    (hyields : (s.phase w').yields ≠ some f) :
  s.engaged w' ≠ some f
  := by
  intro hw'
  have hclaims : s.claims w = some f := by rw [Scheduler.claims, hw]; exact hf
  have hfits := (h.worker w').state
  have hsame : s.claims w' = some f → w' = w := fun h' => h.claims w' w f h' hclaims
  rw [Scheduler.engaged] at hw'
  rw [Scheduler.claims] at hsame
  cases hp : s.phase w' <;> rw [hp] at hw' hfits hyields hsame <;>
    simp_all [Phase.engaged, Phase.StateFits, Phase.yields, Phase.claims]

/-- A worker finds the fiber that it has taken to be ready. -/
theorem checkReady_fiber (h : Handover s) (hyields : ¬ ChecksYielding s (.checkReady w))
    {t : Ticket Cb} (hw : s.phase w = .taken t) (hf : t.task.fiber = some f)
    (hready : (s.fiber f).state = .ready) :
  Handover (s.setPhase w (.resuming t.id f))
  := by
  have hclaims : s.claims w = some f := by rw [Scheduler.claims, hw]; exact hf
  have hstack : s.onStack w = none := by rw [Scheduler.onStack, hw]; rfl
  have hworker := h.worker w
  have hmade := hworker.claims_made f hclaims
  refine h.move rfl h.queue h.queue_made ?_ ?_ ?_ ?_ ?_ h.fresh h.entries
  · intro g hg w' hne hw'
    apply hne
    apply h.claims w' w g hw' (hclaims.trans hg)
  · rintro g ⟨⟩ w' -
    apply h.engaged_ne_of_ready hw hf hready
    intro hyields'
    apply hyields
    exact ⟨w', by simp [hyields'], hyields'.trans hclaims.symm⟩
  · constructor
    · intro g hg
      apply hworker.queued g (hclaims.trans hg)
    · rintro g ⟨⟩
      apply hmade
    · rintro g ⟨⟩
      apply hmade
    · apply hready
  · intro w' _
    exact (h.worker w').mono (fun _ _ => id) (Nat.le_refl _) (h.worker w').state
  · intro g _ hg
    apply h.saved_of_others hstack hg

/-- A worker makes a fiber for a callback. -/
theorem checkReady_cb (h : Handover s) {t : Ticket Cb} (hw : s.phase w = .taken t) :
  Handover ({ s with fibers := s.fibers + 1 }.setPhase w (.resuming t.id s.fibers))
  := by
  have hstack : s.onStack w = none := by rw [Scheduler.onStack, hw]; rfl
  refine h.move rfl h.queue ?_ ?_ ?_ ?_ ?_ ?_ ?_ h.entries
  · intro g hg
    apply Nat.lt_succ_of_lt (h.queue_made g hg)
  · rintro g ⟨⟩ w' - hw'
    apply Nat.lt_irrefl _ ((h.worker w').claims_made _ hw')
  · rintro g ⟨⟩ w' - hw'
    apply Nat.lt_irrefl _ ((h.worker w').engaged_made _ hw')
  · constructor
    · rintro g ⟨⟩ hg
      apply Nat.lt_irrefl _ (h.queue_made _ hg)
    · rintro g ⟨⟩
      apply Nat.lt_succ_self
    · rintro g ⟨⟩
      apply Nat.lt_succ_self
    · apply h.fresh s.fibers (Nat.le_refl _)
  · intro w' _
    exact (h.worker w').mono (fun _ _ => id) (Nat.le_succ _) (h.worker w').state
  · intro g _ hg
    apply h.saved_of_others hstack hg
  · intro g hg
    apply h.fresh g (Nat.le_of_succ_le hg)

theorem checkReady (h : Handover s) (hyields : ¬ ChecksYielding s (.checkReady w))
    (hstep : step tid s (.checkReady w) = some s') :
  Handover s'
  := by
  obtain ⟨t, hw, ⟨f, hf, hready, rfl⟩ | ⟨-, rfl⟩⟩ := step_checkReady hstep
  · apply h.checkReady_fiber hyields hw hf hready
  · apply h.checkReady_cb hw

/-- The scan takes the fiber out of the queue, and it is not in `RUNNING`. -/
theorem take (h : Handover s) (hw : s.phase w = .scanning) {t : Ticket Cb}
    {left : List (Ticket Cb)}
    (hscan : ScanResult (tid w) (fun f => (s.fiber f).state) s.tasks (some t, left, false)) :
  Handover
    ({ s with
      tasks := left
      activeThreadCount := s.activeThreadCount + 1
      log := s.log ++ [(t, w)] }.setPhase w (.taken t))
  := by
  obtain ⟨⟨-, heligible⟩, before, after, htasks, rfl, -⟩ := hscan
  have hstack : s.onStack w = none := by rw [Scheduler.onStack, hw]; rfl
  have hqueued : s.queued.Perm (t.task.fiber.toList ++
      (before ++ after).filterMap fun t => t.task.fiber) := by
    rw [queued, htasks, List.filterMap_append, List.filterMap_append, List.filterMap_cons]
    cases t.task.fiber with
    | none => apply List.Perm.refl _
    | some g => apply List.perm_middle
  have hnodup := List.nodup_append'.mp (hqueued.nodup_iff.mp h.queue)
  have hself : ∀ g, t.task.fiber = some g → g ∈ s.queued := by
    intro g hg
    apply hqueued.mem_iff.mpr
    simp [hg]
  have hleft : ∀ g ∈ (before ++ after).filterMap (fun t => t.task.fiber), g ∈ s.queued :=
    fun g hg => hqueued.mem_iff.mpr (List.mem_append_right _ hg)
  refine h.move rfl hnodup.2.1 ?_ ?_ nofun ?_ ?_ ?_ h.fresh h.entries
  · exact fun g hg => h.queue_made g (hleft g hg)
  · exact fun g hg w' _ hw' => (h.worker w').queued g hw' (hself g hg)
  · constructor
    · exact fun g hg => hnodup.2.2 (Option.mem_toList.mpr hg)
    · exact fun g hg => h.queue_made g (hself g hg)
    · exact nofun
    · intro g hg hrunning
      rw [hg, Option.any_some, decide_eq_true_iff] at heligible
      apply heligible hrunning
  · intro w' _
    exact (h.worker w').mono (fun g _ => hleft g) (Nat.le_refl _) (h.worker w').state
  · exact fun g _ hg => h.saved_of_others hstack hg

theorem scan (h : Handover s) (hstep : step tid s (.scan w) = some s') :
  Handover s'
  := by
  obtain ⟨hw, rfl⟩ := step_scan hstep
  have hspec := scan_spec (tid w) (fun f => (s.fiber f).state) s.tasks
  have hstack : s.onStack w = none := by rw [Scheduler.onStack, hw]; rfl
  unfold stepScan
  generalize Scheduler.scan (tid w) (fun f => (s.fiber f).state) s.tasks = res at hspec
  obtain ⟨taken, left, tickleMe⟩ := res
  cases taken with
  | some t => apply h.take hw hspec
  | none =>
      dsimp only
      split
      · exact h.pass hstack (p := .exited) rfl rfl rfl rfl rfl rfl rfl
      · exact h.pass hstack (p := .idle) rfl rfl rfl rfl rfl rfl rfl

omit [DecidableEq W] in
/-- No worker gets anywhere: the program makes a fiber, or puts one into the queue that no worker is
going to enter. -/
theorem still (h : Handover s) (hphase : s'.phase = s.phase) (hfiber : s'.fiber = s.fiber)
    (hfibers : s.fibers ≤ s'.fibers) (hqueue : s'.queued.Nodup)
    (hmade : ∀ g ∈ s'.queued, g < s'.fibers)
    (hclaims : ∀ w g, s.claims w = some g → g ∈ s'.queued → g ∈ s.queued)
    (hentries : s'.unsavedEntries = s.unsavedEntries) :
  Handover s'
  := by
  constructor
  · apply hqueue
  · apply hmade
  · unfold Scheduler.claims
    rw [hphase]
    apply h.claims
  · unfold Scheduler.engaged
    rw [hphase]
    apply h.engaged
  · intro w
    rw [hphase]
    exact (h.worker w).mono (hclaims w) hfibers (hfiber ▸ (h.worker w).state)
  · unfold Scheduler.onStack
    rw [hphase, hfiber]
    apply h.saved
  · rw [hfiber]
    exact fun g hg => h.fresh g (Nat.le_trans hfibers hg)
  · rw [hentries]
    apply h.entries

omit [DecidableEq W] in
theorem schedule (h : Handover s) {task : ScheduleTask Cb} (hok : Disciplined s (.schedule task))
    (hmade : ∀ g, task.fiber = some g → g < s.fibers) :
  Handover (s.scheduleNoLock task).2
  := by
  rw [scheduleNoLock]
  split
  · have hqueued : queued { s with
        tasks := s.tasks ++ [⟨s.accepted, task⟩], accepted := s.accepted + 1 }
          = s.queued ++ task.fiber.toList := by
      rw [queued, queued, List.filterMap_append]
      cases hf : task.fiber <;> simp [hf]
    have hmem : ∀ g, g ∈ s.queued ++ task.fiber.toList → g ∈ s.queued ∨ task.fiber = some g :=
      fun g hg => (List.mem_append.mp hg).imp_right Option.mem_toList.mp
    refine h.still rfl rfl (Nat.le_refl _) ?_ ?_ ?_ rfl
    · rw [hqueued]
      apply h.queue.append
      · cases task.fiber <;> simp
      · exact fun g hold hnew => (hok g (Option.mem_toList.mp hnew)).1 hold
    · rw [hqueued]
      exact fun g hg => (hmem g hg).elim (h.queue_made g) (hmade g)
    · rw [hqueued]
      exact fun w g hw hg => (hmem g hg).resolve_right fun hnew => (hok g hnew).2 w hw
  · apply h

end Handover

theorem step_handover {l : Step W Cb} (h : Handover s) (hdisciplined : Disciplined s l)
    (hyields : ¬ ChecksYielding s l) (hstep : step tid s l = some s') :
  Handover s'
  := by
  cases l with
  | newFiber =>
      obtain rfl := Option.some.inj hstep
      exact h.still rfl rfl (Nat.le_succ _) h.queue
        (fun g hg => Nat.lt_succ_of_lt (h.queue_made g hg)) (fun _ _ _ hg => hg) rfl
  | schedule task =>
      obtain ⟨hmade, rfl⟩ := step_schedule hstep
      apply h.schedule hdisciplined hmade
  | stop =>
      obtain rfl := Option.some.inj hstep
      exact h.still rfl rfl (Nat.le_refl _) h.queue h.queue_made (fun _ _ _ hg => hg) rfl
  | scan w => apply h.scan hstep
  | checkReady w => apply h.checkReady hyields hstep
  | setRunning w => apply h.setRunning hstep
  | enter w => apply h.enter hstep
  | yieldReady w => apply h.yieldReady hstep
  | terminate w => apply h.terminate hstep
  | swapOut w => apply h.swapOut hstep
  | release w =>
      obtain ⟨hw, rfl⟩ := step_release hstep
      have hstack : s.onStack w = none := by rw [Scheduler.onStack, hw]; rfl
      exact h.pass hstack (p := .scanning) rfl rfl rfl rfl rfl rfl rfl
  | idleYield w =>
      obtain ⟨hw, rfl⟩ := step_idleYield hstep
      have hstack : s.onStack w = none := by rw [Scheduler.onStack, hw]; rfl
      exact h.pass hstack (p := .scanning) rfl rfl rfl rfl rfl rfl rfl
  | idleReturn w =>
      obtain ⟨hw, -, rfl⟩ := step_idleReturn hstep
      have hstack : s.onStack w = none := by rw [Scheduler.onStack, hw]; rfl
      exact h.pass hstack (p := .scanning) rfl rfl rfl rfl rfl rfl rfl

end Moves

/-! ### Every run -/

section Runs

variable [DecidableEq W] {tid : W → ℤ}

/-- In every run, of any number of workers, where each fiber is queued at most once for each time it
is entered and `resume` checks no fiber that is in the middle of `yield`, no fiber is executed by two
threads at once and only contexts that were saved are entered. -/
theorem run_exclusive {ls : List (Step W Cb)} {s : Scheduler W Cb}
    (hguard : Guarded (step tid) (fun s l => Disciplined s l ∧ ¬ ChecksYielding s l) start ls)
    (h : run (step tid) start ls = some s) :
  Exclusive s.onStack ∧ s.unsavedEntries = 0
  := by
  have hs : Handover s := by
    apply run_guarded_invariant _ start_handover hguard h
    intro s l s' hs hok hstep
    apply step_handover hs hok.1 hok.2 hstep
  refine ⟨?_, hs.entries⟩
  intro w w' f hw hw'
  apply hs.engaged w w' f (Phase.engaged_of_onStack hw) (Phase.engaged_of_onStack hw')

instance [Fintype W] (s : Scheduler W Cb) : DecidablePred (Disciplined s)
  | .schedule task =>
      inferInstanceAs (Decidable (∀ f ∈ task.fiber, f ∉ s.queued ∧ ∀ w, s.claims w ≠ some f))
  | .newFiber | .stop | .scan _ | .checkReady _ | .setRunning _ | .enter _ | .yieldReady _
  | .terminate _ | .swapOut _ | .release _ | .idleYield _ | .idleReturn _ => inferInstanceAs (Decidable True)

instance [Fintype W] (s : Scheduler W Cb) : DecidablePred (ChecksYielding s)
  | .checkReady w =>
      inferInstanceAs
        (Decidable (∃ w', (s.phase w').yields.isSome ∧ (s.phase w').yields = s.claims w))
  | .newFiber | .schedule _ | .stop | .scan _ | .setRunning _ | .enter _ | .yieldReady _
  | .terminate _ | .swapOut _ | .release _ | .idleYield _ | .idleReturn _ => inferInstanceAs (Decidable False)

/-- A fiber schedules itself, is switched away from by one thread and then resumed by another. -/
def handoverSteps : List (Step (Fin 2) Unit) :=
  [.newFiber, .schedule { fiber := some 0 }, .scan first, .checkReady first, .setRunning first,
    .enter first, .schedule { fiber := some 0 }, .yieldReady first, .scan second, .swapOut first,
    .checkReady second, .setRunning second, .enter second]

theorem run_exclusive_handoverSteps :
  ∃ s, run (step twoThreads) start handoverSteps = some s ∧ s.onStack second = some 0 ∧
    Exclusive s.onStack ∧ s.unsavedEntries = 0
  := by
  have hrun : ((run (step twoThreads) start handoverSteps).map fun s => s.onStack second)
      = some (some 0) := by
    decide
  have hguard : Guarded (step twoThreads) (fun s l => Disciplined s l ∧ ¬ ChecksYielding s l) start
      handoverSteps := by
    decide
  obtain ⟨s, hs, hstack⟩ := Option.map_eq_some_iff.mp hrun
  exact ⟨s, hs, hstack, run_exclusive hguard hs⟩

/-- A fiber schedules itself, and is resumed by another thread before the first one has switched away
from it. -/
def earlySteps : List (Step (Fin 2) Unit) :=
  [.newFiber, .schedule { fiber := some 0 }, .scan first, .checkReady first, .setRunning first,
    .enter first, .schedule { fiber := some 0 }, .yieldReady first, .scan second,
    .checkReady second, .setRunning second, .enter second]

/-- Two threads are on the stack of one fiber, and a context was entered that was not saved. -/
theorem double_execution :
  Guarded (step twoThreads) Disciplined start earlySteps ∧
    ∃ s, run (step twoThreads) start earlySteps = some s ∧
      s.onStack first = some 0 ∧ s.onStack second = some 0 ∧ s.unsavedEntries = 1
  := by
  have hrun : ((run (step twoThreads) start earlySteps).map fun s =>
      (s.onStack first, s.onStack second, s.unsavedEntries)) = some (some 0, some 0, 1) := by
    decide
  obtain ⟨s, hs, hviews⟩ := Option.map_eq_some_iff.mp hrun
  simp only [Prod.mk.injEq] at hviews
  exact ⟨by decide, s, hs, hviews⟩

end Runs

end Scheduler
