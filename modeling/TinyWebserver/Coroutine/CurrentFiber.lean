import TinyWebserver.Coroutine.Fiber
import TinyWebserver.Lib.Transition

/-!
# The current fiber

The thread-local pointers `t_fiber` and `t_thread_fiber` of `coroutine/fiber.cpp` and `t_scheduler_fiber`
of `coroutine/scheduler.cpp`. The methods `resume` and `yield` choose the context to switch to by
`m_runInScheduler`, but `yield` always sets `t_fiber` to the main fiber of the thread. On a worker thread
the two are the same. On the thread that has made the scheduler with `use_caller`, the method
`Scheduler::run` is executed by `m_rootFiber`, and it finds the main fiber in `t_fiber` once a task has
left. `truthful_guarded_iff` says that `t_fiber` is right after every step of a run exactly if no task
yields or ends on that thread.

The threads take their steps in any order, each call of a method as a whole.
-/

namespace CurrentFiber

open Transition

/-- A fiber: the main fiber of a thread, `m_rootFiber`, or a fiber that the scheduler runs. -/
inductive Name where
  | main (t : ℕ)
  | root
  | task (n : ℕ)
deriving DecidableEq, Repr

namespace Name

/-- The member `m_stack` is not null. -/
def hasStack : Name → Bool
  | main _ => false
  | root => true
  | task _ => true

/-- The member `m_runInScheduler`, which the constructor of a main fiber does not set. -/
def runInScheduler : Name → Option Bool
  | main _ => none
  | root => some false
  | task _ => some true

end Name

/-- What `m_ctx` stores: the stack of a fiber, at the entry of `MainFunc` or within it. -/
structure Context where
  stack : Name
  entry : Bool
deriving DecidableEq, Repr

/-- The variables `t_fiber`, `t_thread_fiber` and `t_scheduler_fiber` of a thread, and the fiber on whose
stack it executes. -/
structure Thread where
  fiber : Option Name
  threadFiber : Option Name
  schedulerFiber : Option Name
  executing : Name
deriving DecidableEq, Repr

/-- The fibers, with the variable `cur` of `MainFunc` on the stack of each, and the threads. -/
structure State where
  state : Name → FiberState
  ctx : Name → Context
  cur : Name → Option Name
  threads : ℕ → Thread

namespace State

/-- No thread has called `Fiber::GetThis`, and no fiber has been resumed. -/
def start : State where
  state := fun _ => .ready
  ctx := fun f => ⟨f, f.hasStack⟩
  cur := fun _ => none
  threads := fun t => ⟨none, none, none, .main t⟩

/-- The state after a change of a thread. -/
def setThread (s : State) (t : ℕ) (th : Thread) : State :=
  { s with threads := Function.update s.threads t th }

/-- The state after a change of `m_state`. -/
def setState (s : State) (f : Name) (state : FiberState) : State :=
  { s with state := Function.update s.state f state }

/-- `Fiber::GetThis`, with the constructor of a main fiber. -/
def getThis (s : State) (t : ℕ) : Name × State :=
  match (s.threads t).fiber with
  | some f => (f, s)
  | none =>
      (.main t,
        { s with
          state := Function.update s.state (.main t) .running
          ctx := Function.update s.ctx (.main t) ⟨(s.threads t).executing, false⟩
          threads := Function.update s.threads t
            { s.threads t with fiber := some (.main t), threadFiber := some (.main t) } })

/-- The fiber with which `resume` and `yield` swap the context of a fiber. -/
def partner (s : State) (t : ℕ) (f : Name) : Option Name :=
  match f.runInScheduler with
  | some true => (s.threads t).schedulerFiber
  | some false => (s.threads t).threadFiber
  | none => none

/-- `swapcontext(&a->m_ctx, &b->m_ctx)`, with the first line of `MainFunc` where it is entered. -/
def swapcontext (s : State) (t : ℕ) (a b : Name) : State :=
  let ctx := Function.update s.ctx a ⟨(s.threads t).executing, false⟩
  let s' := { s with ctx := ctx }.setThread t { s.threads t with executing := (ctx b).stack }
  if (ctx b).entry then
    let (f, s'') := s'.getThis t
    { s'' with cur := Function.update s''.cur (ctx b).stack (some f) }
  else s'

/-- `resume`. -/
def resume (s : State) (t : ℕ) (f : Name) : Option State :=
  if s.state f ≠ .ready then none
  else
    (s.partner t f).map fun g =>
      ((s.setState f .running).setThread t { s.threads t with fiber := some f }).swapcontext t g f

/-- `yield`. -/
def yield (s : State) (t : ℕ) (f : Name) : Option State :=
  if s.state f = .ready then none
  else
    (s.partner t f).map fun g =>
      ((if s.state f ≠ .term then s.setState f .ready else s).setThread t
        { s.threads t with fiber := (s.threads t).threadFiber }).swapcontext t f g

/-- `reset`. -/
def reset (s : State) (f : Name) : Option State :=
  if f.hasStack = false then none
  else if s.state f ≠ .term then none
  else
    some ({ s with ctx := Function.update s.ctx f ⟨f, true⟩ }.setState f .ready)

/-- The end of `MainFunc`. -/
def finish (s : State) (t : ℕ) : Option State :=
  (s.cur (s.threads t).executing).bind fun f =>
    ({ s with cur := Function.update s.cur (s.threads t).executing none }.setState f .term).yield t f

end State

/-- A task is resumed by the scheduler fiber, and `m_rootFiber` by the main fiber of the thread whose
scheduler fiber it is. -/
def Allowed (s : State) (t : ℕ) : Name → Prop
  | .main _ => False
  | .root => (s.threads t).schedulerFiber = some .root ∧ (s.threads t).executing = .main t
  | .task _ => (s.threads t).schedulerFiber = some (s.threads t).executing

instance Allowed.decidable (s : State) (t : ℕ) : (f : Name) → Decidable (Allowed s t f)
  | .main _ => inferInstanceAs (Decidable False)
  | .root => inferInstanceAs (Decidable (_ ∧ _))
  | .task _ => inferInstanceAs (Decidable (_ = _))

/-- A step of a thread: the constructor of the scheduler, or the first lines of `Scheduler::run` on
another thread; a call of `Fiber::GetThis`; a call of `resume`; a call `Fiber::GetThis()->yield()`; the
end of the function of a fiber; a call of `reset`. -/
inductive Step where
  | start (t : ℕ)
  | getThis (t : ℕ)
  | resume (t : ℕ) (f : Name)
  | yield (t : ℕ)
  | finish (t : ℕ)
  | reset (f : Name)
deriving DecidableEq, Repr

/-- One step, where `caller` is the thread that has made the scheduler with `use_caller`. -/
def step (caller : Option ℕ) (s : State) : Step → Option State
  | .start t =>
      if (s.threads t).schedulerFiber = none then
        let (f, s') := s.getThis t
        some (s'.setThread t
          { s'.threads t with schedulerFiber := some (if caller = some t then .root else f) })
      else none
  | .getThis t => some (s.getThis t).2
  | .resume t f => if Allowed s t f then s.resume t f else none
  | .yield t =>
      let (f, s') := s.getThis t
      s'.yield t f
  | .finish t => s.finish t
  | .reset f => s.reset f

/-- On every thread `Fiber::GetThis` returns the fiber whose context is executing. -/
def Truthful (s : State) : Prop := ∀ t, (s.getThis t).1 = (s.threads t).executing

/-- No task yields or ends on the thread that has made the scheduler. -/
def LeavesCallerAlone (caller : Option ℕ) (s : State) : Step → Prop
  | .yield t => ∀ n, (s.threads t).executing = .task n → caller ≠ some t
  | .finish t => ∀ n, (s.threads t).executing = .task n → caller ≠ some t
  | _ => True

/-- A step leaves `t_fiber` right on every thread. -/
def StaysTruthful (caller : Option ℕ) (s : State) (l : Step) : Prop :=
  ∀ s', step caller s l = some s' → Truthful s'

/-! ### Switching contexts -/

variable {caller : Option ℕ} {s s' : State} {t : ℕ} {a b f g : Name}

namespace State

theorem getThis_of_fiber (h : (s.threads t).fiber = some f) :
  s.getThis t = (f, s)
  := by
  rw [getThis, h]

theorem swapcontext_executing (s : State) (t : ℕ) (a b : Name) :
  ((s.swapcontext t a b).threads t).executing
    = (Function.update s.ctx a ⟨(s.threads t).executing, false⟩ b).stack
  := by
  simp only [swapcontext, setThread, getThis]
  split
  · split
    · simp
    · simp
  · simp

theorem swapcontext_fiber (h : (s.threads t).fiber = some f) (a b : Name) :
  ((s.swapcontext t a b).threads t).fiber = some f
  := by
  simp only [swapcontext, setThread, getThis]
  split
  · simp [h]
  · simp [h]

/-- A switch into a context that has been left before. -/
theorem swapcontext_back (hne : b ≠ a) (hstack : (s.ctx b).stack = b) (hentry : (s.ctx b).entry = false) :
  s.swapcontext t a b
    = { s with ctx := Function.update s.ctx a ⟨(s.threads t).executing, false⟩ }.setThread t
        { s.threads t with executing := b }
  := by
  simp [swapcontext, Function.update_of_ne hne, hstack, hentry]

/-- A switch into a context, where `t_fiber` is the fiber of the context. -/
theorem swapcontext_into (hne : b ≠ a) (hstack : (s.ctx b).stack = b)
    (hfiber : (s.threads t).fiber = some b) (hcur : (s.ctx b).entry = false → s.cur b = some b) :
  s.swapcontext t a b
    = { s with
        ctx := Function.update s.ctx a ⟨(s.threads t).executing, false⟩
        cur := Function.update s.cur b (some b) }.setThread t { s.threads t with executing := b }
  := by
  cases hentry : (s.ctx b).entry with
  | false =>
      have hsame : Function.update s.cur b (some b) = s.cur := by
        rw [Function.update_eq_self_iff, hcur hentry]
      rw [swapcontext_back hne hstack hentry, hsame]
  | true =>
      simp [swapcontext, Function.update_of_ne hne, hstack, hentry, setThread, getThis, hfiber]

end State

/-! ### What holds while `t_fiber` is right -/

/-- A thread executes its main fiber, or another fiber that is running and that is the variable `cur` on
its own stack, and `t_fiber` is that fiber. -/
structure Fine (caller : Option ℕ) (s : State) (t : ℕ) (th : Thread) : Prop where
  place : th.executing = .main t ∨ th.executing.hasStack = true ∧ th.schedulerFiber ≠ none
  running : th.executing.hasStack = true →
    s.state th.executing = .running ∧ s.cur th.executing = some th.executing
  fiber : th.fiber = some th.executing ∧ th.threadFiber = some (.main t) ∨
    th.fiber = none ∧ th.threadFiber = none ∧ th.schedulerFiber = none ∧ th.executing = .main t
  scheduler : ∀ f, th.schedulerFiber = some f → f = if caller = some t then .root else .main t
  root : th.executing = .root → caller = some t

/-- Every context is one of the fiber that has it, a fiber that can be resumed is at its entry or is the
variable `cur` on its own stack, no main fiber executes `MainFunc`, and no two threads execute the same
fiber. -/
structure Right (caller : Option ℕ) (s : State) : Prop where
  stack : ∀ f, (s.ctx f).stack = f
  main : ∀ t, (s.ctx (.main t)).entry = false ∧ s.cur (.main t) = none
  cur : ∀ f, s.state f = .ready → (s.ctx f).entry = false → f.hasStack = true → s.cur f = some f
  threads : ∀ t, Fine caller s t (s.threads t)
  apart : ∀ t t', (s.threads t).executing = (s.threads t').executing → t = t'

theorem start_right :
  Right caller .start
  := by
  refine ⟨fun _ => rfl, fun _ => ⟨rfl, rfl⟩, ?_, ?_, ?_⟩
  · intro f _ hentry hstack
    simp [State.start, hstack] at hentry
  · intro t
    refine ⟨Or.inl rfl, ?_, Or.inr ⟨rfl, rfl, rfl, rfl⟩, ?_, ?_⟩
    · simp [State.start, Name.hasStack]
    · simp [State.start]
    · simp [State.start]
  · intro t t' h
    simpa [State.start] using h

/-- A thread that executes a fiber other than its main fiber has a scheduler fiber. -/
theorem Fine.schedulerFiber_ne {th : Thread} (h : Fine caller s t th)
    (hhas : th.executing.hasStack = true) :
  th.schedulerFiber ≠ none
  := by
  rcases h.place with hmain | ⟨-, hscheduler⟩
  · rw [hmain] at hhas
    cases hhas
  · apply hscheduler

/-- A thread with a scheduler fiber has a main fiber, and `t_fiber` is not null. -/
theorem Fine.fibers_eq {th : Thread} (h : Fine caller s t th) (hscheduler : th.schedulerFiber ≠ none) :
  th.fiber = some th.executing ∧ th.threadFiber = some (.main t)
  := by
  rcases h.fiber with hfibers | ⟨-, -, hnone, -⟩
  · apply hfibers
  · exact absurd hnone hscheduler

theorem Right.truthful (h : Right caller s) :
  Truthful s
  := by
  intro t
  rcases (h.threads t).fiber with ⟨hfiber, -⟩ | ⟨hfiber, -, -, hmain⟩
  · rw [State.getThis_of_fiber hfiber]
  · rw [State.getThis, hfiber, hmain]

/-- One thread changes, with the fiber that it leaves and the one that it enters. -/
theorem Right.move (h : Right caller s) {th : Thread}
    (hthreads : s'.threads = Function.update s.threads t th)
    (hctx : s'.ctx = Function.update s.ctx (s.threads t).executing ⟨(s.threads t).executing, false⟩ ∨
      s'.ctx = s.ctx)
    (hsame : ∀ f, f.hasStack = true → f ≠ (s.threads t).executing → f ≠ th.executing →
      s'.state f = s.state f ∧ s'.cur f = s.cur f)
    (hleft : (s.threads t).executing.hasStack = true → s'.state (s.threads t).executing = .ready →
      s'.cur (s.threads t).executing = some (s.threads t).executing)
    (hmain : ∀ t', s'.cur (.main t') = s.cur (.main t'))
    (hfree : ∀ t' ≠ t, (s.threads t').executing ≠ th.executing)
    (hfine : Fine caller s' t th) :
  Right caller s'
  := by
  have hctx' : ∀ f, (s'.ctx f).stack = f ∧ ((s'.ctx f).entry = false ↔
      f = (s.threads t).executing ∧ (s'.ctx f).entry = false ∨ (s.ctx f).entry = false) := by
    intro f
    rcases hctx with hctx | hctx
    · by_cases hf : f = (s.threads t).executing
      · simp [hctx, hf]
      · simp [hctx, hf, h.stack]
    · rw [hctx]
      exact ⟨h.stack f, by tauto⟩
  refine ⟨fun f => (hctx' f).1, ?_, ?_, ?_, ?_⟩
  · intro t'
    rw [(hctx' (.main t')).2, hmain]
    exact ⟨Or.inr (h.main t').1, (h.main t').2⟩
  · intro f hready hentry hhas
    by_cases hold : f = (s.threads t).executing
    · rw [hold] at hready hhas ⊢
      apply hleft hhas hready
    · by_cases hnew : f = th.executing
      · have hrunning := (hfine.running (hnew ▸ hhas)).1
        rw [← hnew, hready] at hrunning
        cases hrunning
      · obtain ⟨hstate, hcur⟩ := hsame f hhas hold hnew
        rw [hcur]
        apply h.cur f (hstate ▸ hready) _ hhas
        rcases (hctx' f).2.mp hentry with ⟨hf, -⟩ | hbefore
        · exact absurd hf hold
        · apply hbefore
  · intro t'
    rw [hthreads]
    by_cases ht : t' = t
    · rw [ht, Function.update_self]
      apply hfine
    · rw [Function.update_of_ne ht]
      have hother := h.threads t'
      refine ⟨hother.place, ?_, hother.fiber, hother.scheduler, hother.root⟩
      intro hhas
      obtain ⟨hstate, hcur⟩ := hsame _ hhas (fun heq => ht (h.apart t' t heq)) (hfree t' ht)
      rw [hstate, hcur]
      apply hother.running hhas
  · intro t₁ t₂
    rw [hthreads]
    by_cases h₁ : t₁ = t
    · by_cases h₂ : t₂ = t
      · intro _
        rw [h₁, h₂]
      · rw [h₁, Function.update_self, Function.update_of_ne h₂]
        intro heq
        exact absurd heq.symm (hfree t₂ h₂)
    · by_cases h₂ : t₂ = t
      · rw [h₂, Function.update_self, Function.update_of_ne h₁]
        intro heq
        exact absurd heq (hfree t₁ h₁)
      · rw [Function.update_of_ne h₁, Function.update_of_ne h₂]
        apply h.apart

/-! ### Steps that keep it right -/

theorem Right.getThis (h : Right caller s) (t : ℕ) :
  Right caller (s.getThis t).2
  := by
  rcases (h.threads t).fiber with ⟨hfiber, -⟩ | ⟨hfiber, -, hscheduler, hmain⟩
  · rw [State.getThis_of_fiber hfiber]
    apply h
  · simp only [State.getThis, hfiber]
    apply h.move rfl
    · left
      simp only [hmain]
    · intro f hhas hf _
      rw [hmain] at hf
      exact ⟨Function.update_of_ne hf _ _, rfl⟩
    · simp [hmain]
    · exact fun _ => rfl
    · intro t' ht' heq
      apply ht' (h.apart t' t heq)
    · refine ⟨Or.inl hmain, ?_, Or.inl ⟨?_, rfl⟩, (h.threads t).scheduler, (h.threads t).root⟩
      · simp [hmain, Name.hasStack]
      · rw [hmain]

theorem getThis_fiber (s : State) (t : ℕ) :
  (((s.getThis t).2).threads t).fiber = some (s.getThis t).1
  := by
  cases hfiber : (s.threads t).fiber with
  | some f => simp [State.getThis, hfiber]
  | none => simp [State.getThis, hfiber]

/-- The scheduler fiber of a thread is set. -/
theorem Right.setScheduler (h : Right caller s) (hf : (s.threads t).fiber ≠ none)
    (hg : g = if caller = some t then .root else .main t) :
  Right caller (s.setThread t { s.threads t with schedulerFiber := some g })
  := by
  have hfine := h.threads t
  apply h.move rfl
  · exact Or.inr rfl
  · exact fun _ _ _ _ => ⟨rfl, rfl⟩
  · exact fun hhas _ => (hfine.running hhas).2
  · exact fun _ => rfl
  · intro t' ht' heq
    apply ht' (h.apart t' t heq)
  · refine ⟨?_, hfine.running, ?_, ?_, hfine.root⟩
    · rcases hfine.place with hmain | ⟨hhas, -⟩
      · exact Or.inl hmain
      · exact Or.inr ⟨hhas, by simp⟩
    · rcases hfine.fiber with hfiber | ⟨hnone, -⟩
      · exact Or.inl hfiber
      · exact absurd hnone hf
    · intro f hfg
      rw [← Option.some.inj hfg, hg]

/-- The fiber that calls `resume` is the one whose context is stored. -/
theorem Right.partner_of_allowed (h : Right caller s) (hallowed : Allowed s t f)
    (hpartner : s.partner t f = some g) :
  g = (s.threads t).executing ∧ f.hasStack = true ∧ (s.threads t).schedulerFiber ≠ none
  := by
  cases f with
  | main t' => exact absurd hallowed (by simp [Allowed])
  | root =>
      obtain ⟨hscheduler, hmain⟩ := hallowed
      have hne : (s.threads t).schedulerFiber ≠ none := by simp [hscheduler]
      have heq : some (.main t) = some g := ((h.threads t).fibers_eq hne).2.symm.trans hpartner
      refine ⟨?_, rfl, hne⟩
      rw [hmain, Option.some.inj heq]
  | task n =>
      have hscheduler : (s.threads t).schedulerFiber = some (s.threads t).executing := hallowed
      have heq : some (s.threads t).executing = some g := hscheduler.symm.trans hpartner
      exact ⟨(Option.some.inj heq).symm, rfl, by simp [hscheduler]⟩

/-- A fiber that is ready is not executed by any thread. -/
theorem Right.not_executing (h : Right caller s) (hready : s.state f = .ready) (hhas : f.hasStack = true)
    (t : ℕ) :
  (s.threads t).executing ≠ f
  := by
  rintro rfl
  have hrunning := ((h.threads t).running hhas).1
  rw [hready] at hrunning
  cases hrunning

/-- What `resume` does. -/
theorem Right.resume_eq (h : Right caller s) (hallowed : Allowed s t f)
    (hresume : s.resume t f = some s') :
  s.state f = .ready ∧ f.hasStack = true ∧ (s.threads t).schedulerFiber ≠ none ∧
    s' = { state := Function.update s.state f .running
           ctx := Function.update s.ctx (s.threads t).executing ⟨(s.threads t).executing, false⟩
           cur := Function.update s.cur f (some f)
           threads := Function.update s.threads t
             { s.threads t with fiber := some f, executing := f } }
  := by
  simp only [State.resume] at hresume
  split at hresume
  · cases hresume
  · rename_i hready
    rw [not_not] at hready
    obtain ⟨g, hpartner, rfl⟩ := Option.map_eq_some_iff.mp hresume
    obtain ⟨rfl, hhas, hscheduler⟩ := h.partner_of_allowed hallowed hpartner
    refine ⟨hready, hhas, hscheduler, ?_⟩
    rw [State.swapcontext_into (t := t)]
    · simp [State.setThread, State.setState]
    · apply Ne.symm (h.not_executing hready hhas t)
    · apply h.stack f
    · simp [State.setThread]
    · exact fun hentry => h.cur f hready hentry hhas

theorem Right.resume (h : Right caller s) (hallowed : Allowed s t f) (hresume : s.resume t f = some s') :
  Right caller s'
  := by
  obtain ⟨hready, hhas, hscheduler, rfl⟩ := h.resume_eq hallowed hresume
  have hfine := h.threads t
  apply h.move rfl
  · exact Or.inl rfl
  · intro g _ _ hg
    exact ⟨Function.update_of_ne hg _ _, Function.update_of_ne hg _ _⟩
  · intro hold hleft
    have hne := h.not_executing hready hhas t
    simp only [Function.update_of_ne hne] at hleft ⊢
    exact (hfine.running hold).2
  · intro t'
    apply Function.update_of_ne
    rintro rfl
    cases hhas
  · exact fun t' _ => h.not_executing hready hhas t'
  · refine ⟨Or.inr ⟨hhas, hscheduler⟩, fun _ => ⟨?_, ?_⟩, Or.inl ⟨rfl, ?_⟩, hfine.scheduler, ?_⟩
    · apply Function.update_self ..
    · apply Function.update_self ..
    · apply (hfine.fibers_eq hscheduler).2
    · rintro rfl
      by_contra hcaller
      have hroot := hfine.scheduler _ hallowed.1
      rw [if_neg hcaller] at hroot
      cases hroot

/-- A fiber other than a main fiber goes back to the main fiber, unless it is a task on the thread that
has made the scheduler. -/
theorem Right.partner_main (h : Right caller s) (hhas : (s.threads t).executing.hasStack = true)
    (hl : ∀ n, (s.threads t).executing = .task n → caller ≠ some t) :
  s.partner t (s.threads t).executing = some (.main t)
  := by
  have hfine := h.threads t
  have hscheduler := hfine.schedulerFiber_ne hhas
  cases hf : (s.threads t).executing with
  | main t' =>
      rw [hf] at hhas
      cases hhas
  | root => apply (hfine.fibers_eq hscheduler).2
  | task n =>
      obtain ⟨g, hg⟩ := Option.ne_none_iff_exists'.mp hscheduler
      have hmain := hfine.scheduler g hg
      rw [if_neg (hl n hf)] at hmain
      rw [State.partner]
      apply hg.trans (congrArg some hmain)

/-- What `yield` does where the fiber goes back to the main fiber. -/
theorem yield_eq (hexec : (s.threads t).executing = f) (hpartner : s.partner t f = some (.main t))
    (hthread : (s.threads t).threadFiber = some (.main t)) (hne : .main t ≠ f)
    (hstack : (s.ctx (.main t)).stack = .main t) (hentry : (s.ctx (.main t)).entry = false)
    (hyield : s.yield t f = some s') :
  s' = { s with
    state := if s.state f = .term then s.state else Function.update s.state f .ready
    ctx := Function.update s.ctx f ⟨f, false⟩
    threads := Function.update s.threads t
      { s.threads t with fiber := some (.main t), executing := .main t } }
  := by
  simp only [State.yield] at hyield
  split at hyield
  · cases hyield
  · rw [hpartner] at hyield
    obtain rfl := Option.some.inj hyield
    beta_reduce
    rw [State.swapcontext_back (t := t) hne]
    · by_cases hterm : s.state f = .term
      · simp [State.setThread, hexec, hthread, hterm]
      · simp [State.setThread, State.setState, hexec, hthread, hterm]
    · split
      · apply hstack
      · apply hstack
    · split
      · apply hentry
      · apply hentry

/-- A fiber is left for the main fiber, and is then ready or at its end. -/
theorem Right.leave (h : Right caller s) (hexec : (s.threads t).executing = f) (hhas : f.hasStack = true)
    (hthreads : s'.threads = Function.update s.threads t
      { s.threads t with fiber := some (.main t), executing := .main t })
    (hctx : s'.ctx = Function.update s.ctx f ⟨f, false⟩)
    (hsame : ∀ g ≠ f, s'.state g = s.state g ∧ s'.cur g = s.cur g)
    (hleft : s'.state f = .ready → s'.cur f = some f) :
  Right caller s'
  := by
  subst hexec
  have hfine := h.threads t
  apply h.move hthreads
  · exact Or.inl hctx
  · exact fun g _ hg _ => hsame g hg
  · exact fun _ => hleft
  · intro t'
    apply (hsame (.main t') _).2
    intro heq
    rw [← heq] at hhas
    cases hhas
  · intro t' ht' hmain
    rcases (h.threads t').place with hplace | ⟨hhas', -⟩
    · rw [hmain] at hplace
      apply ht' (Name.main.inj hplace).symm
    · rw [hmain] at hhas'
      cases hhas'
  · refine ⟨Or.inl rfl, ?_, Or.inl ⟨rfl, ?_⟩, hfine.scheduler, ?_⟩
    · simp [Name.hasStack]
    · apply (hfine.fibers_eq (hfine.schedulerFiber_ne hhas)).2
    · simp

/-- The fiber that a thread executes calls `yield`, perhaps at its end. -/
theorem Right.yield {s₁ : State} (h : Right caller s) (hexec : (s.threads t).executing = f)
    (hhas : f.hasStack = true) (hl : ∀ n, (s.threads t).executing = .task n → caller ≠ some t)
    (hyield : s₁.yield t f = some s') (hthreads : s₁.threads = s.threads) (hctx : s₁.ctx = s.ctx)
    (hsame : ∀ g ≠ f, s₁.state g = s.state g ∧ s₁.cur g = s.cur g)
    (hleft : s₁.state f = .term ∨ s₁.cur f = some f) :
  Right caller s'
  := by
  have hpartner : s₁.partner t f = some (.main t) := by
    have hbefore := h.partner_main (hexec ▸ hhas) hl
    rw [hexec] at hbefore
    simpa only [State.partner, hthreads] using hbefore
  have hthread : (s₁.threads t).threadFiber = some (.main t) := by
    have hfine := h.threads t
    rw [hthreads]
    apply (hfine.fibers_eq (hfine.schedulerFiber_ne (hexec ▸ hhas))).2
  have hne : .main t ≠ f := by
    rintro rfl
    cases hhas
  have heq := yield_eq (hthreads ▸ hexec) hpartner hthread hne (by rw [hctx, h.stack])
    (by rw [hctx, (h.main t).1]) hyield
  rw [heq]
  apply h.leave hexec hhas
  · rw [hthreads]
  · rw [hctx]
  · intro g hg
    dsimp only
    split
    · apply hsame g hg
    · rw [Function.update_of_ne hg]
      apply hsame g hg
  · dsimp only
    split
    · rename_i hterm
      intro hready
      rw [hterm] at hready
      cases hready
    · rename_i hterm
      exact fun _ => hleft.resolve_left hterm

/-- The variable `cur` of `MainFunc` is the fiber that executes it. -/
theorem Right.cur_eq (h : Right caller s) (hhas : (s.threads t).executing.hasStack = true) :
  s.cur (s.threads t).executing = some (s.threads t).executing
  := ((h.threads t).running hhas).2

theorem Right.finish (h : Right caller s) (hhas : (s.threads t).executing.hasStack = true)
    (hl : ∀ n, (s.threads t).executing = .task n → caller ≠ some t) (hfinish : s.finish t = some s') :
  Right caller s'
  := by
  rw [State.finish, h.cur_eq hhas, Option.bind_some] at hfinish
  apply h.yield rfl hhas hl hfinish rfl rfl
  · intro g hg
    exact ⟨Function.update_of_ne hg _ _, Function.update_of_ne hg _ _⟩
  · left
    simp [State.setState]

theorem Right.reset (h : Right caller s) (hreset : s.reset f = some s') :
  Right caller s'
  := by
  simp only [State.reset] at hreset
  split at hreset
  · cases hreset
  · rename_i hhas
    rw [Bool.not_eq_false] at hhas
    split at hreset
    · cases hreset
    · rename_i hterm
      rw [not_not] at hterm
      obtain rfl := Option.some.inj hreset
      refine ⟨?_, ?_, ?_, ?_, h.apart⟩
      · intro g
        by_cases hg : g = f
        · simp [State.setState, hg]
        · simp [State.setState, hg, h.stack]
      · intro t
        have hne : .main t ≠ f := by
          rintro rfl
          cases hhas
        simpa [State.setState, hne] using h.main t
      · intro g hready hentry hg
        by_cases heq : g = f
        · simp [State.setState, heq] at hentry
        · simp only [State.setState, Function.update_of_ne heq] at hready hentry
          apply h.cur g hready hentry hg
      · intro t
        have hfine := h.threads t
        refine ⟨hfine.place, ?_, hfine.fiber, hfine.scheduler, hfine.root⟩
        intro hexec
        obtain ⟨hrunning, hcur⟩ := hfine.running hexec
        have hne : (s.threads t).executing ≠ f := by
          rintro rfl
          rw [hterm] at hrunning
          cases hrunning
        exact ⟨(Function.update_of_ne hne _ _).trans hrunning, hcur⟩

/-- The main fiber of a thread does not yield. -/
theorem hasStack_of_yield (hyield : s.yield t f = some s') :
  f.hasStack = true
  := by
  cases f with
  | main t' => simp [State.yield, State.partner, Name.runInScheduler] at hyield
  | root => rfl
  | task n => rfl

theorem Right.start (h : Right caller s) (hstart : step caller s (.start t) = some s') :
  Right caller s'
  := by
  simp only [step] at hstart
  split at hstart
  · rename_i hnone
    obtain rfl := Option.some.inj hstart
    apply (h.getThis t).setScheduler
    · rw [getThis_fiber]
      simp
    · have hmain : (s.threads t).executing = .main t := by
        rcases (h.threads t).place with hmain | ⟨-, hscheduler⟩
        · apply hmain
        · exact absurd hnone hscheduler
      rw [h.truthful t, hmain]
  · cases hstart

/-- Every step keeps it right, unless a task leaves on the thread that has made the scheduler. -/
theorem Right.step (h : Right caller s) {l : Step} (hl : LeavesCallerAlone caller s l)
    (hstep : step caller s l = some s') :
  Right caller s'
  := by
  cases l with
  | start t => apply h.start hstep
  | getThis t =>
      obtain rfl := Option.some.inj hstep
      apply h.getThis
  | resume t f =>
      simp only [CurrentFiber.step] at hstep
      split at hstep
      · rename_i hallowed
        apply h.resume hallowed hstep
      · cases hstep
  | yield t =>
      have hyield : ((s.getThis t).2).yield t (s.threads t).executing = some s' := by
        rw [← h.truthful t]
        apply hstep
      have hhas : (s.threads t).executing.hasStack = true := by
        apply hasStack_of_yield hyield
      have hfine := h.threads t
      have hsame : (s.getThis t).2 = s := by
        rw [State.getThis_of_fiber (hfine.fibers_eq (hfine.schedulerFiber_ne hhas)).1]
      rw [hsame] at hyield
      apply h.yield rfl hhas hl hyield rfl rfl (fun _ _ => ⟨rfl, rfl⟩) (Or.inr (h.cur_eq hhas))
  | finish t =>
      have hhas : (s.threads t).executing.hasStack = true := by
        rcases (h.threads t).place with hmain | ⟨hhas, -⟩
        · simp [CurrentFiber.step, State.finish, hmain, (h.main t).2] at hstep
        · apply hhas
      apply h.finish hhas hl hstep
  | reset f => apply h.reset hstep

/-! ### Steps that do not -/

/-- A task that yields on the thread that has made the scheduler goes back to `m_rootFiber`, with the main
fiber in `t_fiber`. -/
theorem not_truthful_of_yield (hstack : (s.ctx .root).stack = .root)
    (hpartner : s.partner t f = some .root) (hne : .root ≠ f)
    (hthread : (s.threads t).threadFiber = some (.main t)) (hready : s.state f ≠ .ready) :
  ∃ s', s.yield t f = some s' ∧ ¬ Truthful s'
  := by
  rw [State.yield, if_neg hready, hpartner]
  refine ⟨_, rfl, ?_⟩
  generalize hs₁ : (if s.state f ≠ .term then s.setState f .ready else s).setThread t
    { s.threads t with fiber := (s.threads t).threadFiber } = s₁
  have hfiber : (s₁.threads t).fiber = some (.main t) := by
    rw [← hs₁, ← hthread]
    simp [State.setThread]
  have hroot : (s₁.ctx .root).stack = .root := by
    rw [← hs₁]
    dsimp only [State.setThread]
    split
    · apply hstack
    · apply hstack
  intro htruthful
  have heq := htruthful t
  rw [State.getThis_of_fiber (State.swapcontext_fiber hfiber _ _), State.swapcontext_executing,
    Function.update_of_ne hne, hroot] at heq
  cases heq

/-- The scheduler fiber is the partner of a task on the thread that has made the scheduler. -/
theorem Right.partner_root (h : Right caller s) {n : ℕ} (hexec : (s.threads t).executing = .task n)
    (hcaller : caller = some t) :
  s.partner t (.task n) = some .root ∧ (s.threads t).threadFiber = some (.main t)
  := by
  have hfine := h.threads t
  have hscheduler := hfine.schedulerFiber_ne (by rw [hexec]; rfl)
  obtain ⟨g, hg⟩ := Option.ne_none_iff_exists'.mp hscheduler
  have hroot := hfine.scheduler g hg
  rw [if_pos hcaller] at hroot
  rw [hroot] at hg
  exact ⟨hg, (hfine.fibers_eq hscheduler).2⟩

theorem Right.not_truthful (h : Right caller s) {l : Step} (hl : ¬ LeavesCallerAlone caller s l) :
  ∃ s', CurrentFiber.step caller s l = some s' ∧ ¬ Truthful s'
  := by
  cases l with
  | yield t =>
      simp only [LeavesCallerAlone, not_forall, not_not] at hl
      obtain ⟨n, hexec, hcaller⟩ := hl
      obtain ⟨hpartner, hthread⟩ := h.partner_root hexec hcaller
      have hfine := h.threads t
      have hhas : (s.threads t).executing.hasStack = true := by
        rw [hexec]
        rfl
      have hrunning := (hfine.running hhas).1
      have hfiber := (hfine.fibers_eq (hfine.schedulerFiber_ne hhas)).1
      rw [hexec] at hrunning hfiber
      simp only [CurrentFiber.step, State.getThis_of_fiber hfiber]
      apply not_truthful_of_yield (h.stack .root) hpartner (by simp) hthread
      simp [hrunning]
  | finish t =>
      simp only [LeavesCallerAlone, not_forall, not_not] at hl
      obtain ⟨n, hexec, hcaller⟩ := hl
      obtain ⟨hpartner, hthread⟩ := h.partner_root hexec hcaller
      have hcur := h.cur_eq (t := t) (by rw [hexec]; rfl)
      rw [hexec] at hcur
      simp only [CurrentFiber.step, State.finish, hexec, hcur, Option.bind_some]
      apply not_truthful_of_yield
      · apply h.stack .root
      · apply hpartner
      · simp
      · apply hthread
      · simp [State.setState]
  | start t => exact absurd trivial hl
  | getThis t => exact absurd trivial hl
  | resume t f => exact absurd trivial hl
  | reset f => exact absurd trivial hl

/-! ### Runs -/

/-- In a run of the threads `Fiber::GetThis` returns, after every step and on every thread, the fiber
whose context is executing exactly if no task yields or ends on the thread that has made the scheduler
with `use_caller`. -/
theorem truthful_guarded_iff (caller : Option ℕ) (ls : List Step) :
  Guarded (step caller) (StaysTruthful caller) .start ls ↔
    Guarded (step caller) (LeavesCallerAlone caller) .start ls
  := by
  apply guarded_congr (Right caller)
  · intro s l h
    constructor
    · intro hstays
      by_contra hl
      obtain ⟨s', hstep, hnot⟩ := h.not_truthful hl
      apply hnot (hstays s' hstep)
    · intro hl s' hstep
      exact (h.step hl hstep).truthful
  · intro s l s' h hl hstep
    apply h.step hl hstep
  · apply start_right

/-- The thread 0 has made the scheduler; its scheduler fiber runs one task, to its end. -/
def oneTask : List Step := [.start 0, .resume 0 .root, .resume 0 (.task 0), .finish 0]

/-- Then `Scheduler::run` is executed by `m_rootFiber`, and `Fiber::GetThis` returns the main fiber. -/
theorem getThis_wrong_after_task :
  ∃ s, run (step (some 0)) .start oneTask = some s ∧ (s.threads 0).executing = .root ∧
    (s.getThis 0).1 = .main 0
  := by
  have hrun : ((run (step (some 0)) .start oneTask).map fun s =>
      ((s.threads 0).executing, (s.getThis 0).1)) = some (.root, .main 0) := by
    decide
  obtain ⟨s, hs, hfields⟩ := Option.map_eq_some_iff.mp hrun
  obtain ⟨hexec, hthis⟩ := Prod.mk.inj hfields
  exact ⟨s, hs, hexec, hthis⟩

end CurrentFiber
