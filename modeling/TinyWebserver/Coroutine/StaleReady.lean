import TinyWebserver.Coroutine.IOManagerRuns

/-!
# Ready masks that are out of date

A ready mask says what was the case when `epoll_wait` returned, and by the time `idle` takes the lock of
the context other threads may have added events to it or taken some away. `Dispatches` says what the
body of the loop should do then: it triggers the events that are both ready and awaited, and leaves the
others. The code looks whether there is any such event, and then triggers all ready ones, so it meets
`Dispatches` exactly if every ready event is still awaited or no awaited event is ready,
`run_dispatches_iff`. Otherwise the assertion in `triggerEvent` fails, `deletedRead_fails`. At present the
body is never reached, as `idle` keeps the result of `epoll_wait` in a variable that the loop does not see,
so the defect is latent.
-/

universe u

variable {Cb : Type u}

/-- An event is in a mask. -/
def Event.In (event : Event) (mask : Mask) : Prop := mask &&& event.mask ≠ 0

instance Event.In.decidable (event : Event) (mask : Mask) : Decidable (event.In mask) :=
  inferInstanceAs (Decidable (_ ≠ _))

theorem Event.in_iff (event : Event) (mask : Mask) :
  event.In mask ↔ mask.getLsbD event.bit = true
  := by
  rw [In, Event.and_mask]
  cases event <;> cases mask.getLsbD _ <;> decide

theorem Event.not_in_of_in_and_not {event : Event} {mask mask' : Mask} (h : event.In (mask &&& ~~~mask')) :
  ¬ event.In mask'
  := by
  rw [in_iff] at h ⊢
  simp only [BitVec.getLsbD_and, BitVec.getLsbD_not, Bool.and_eq_true] at h
  simpa using h.2.2

/-- What is handed to which scheduler when an event is triggered. -/
def EventContext.handed (e : EventContext Cb) : List (SchedulerId × FiberOrCb Cb) :=
  (e.scheduler.map fun scheduler => (scheduler, e.task)).toList

/-- What is handed to which scheduler when the events of a mask are triggered, in their order. -/
def FdContext.tasks (c : FdContext Cb) (mask : Mask) : List (SchedulerId × FiberOrCb Cb) :=
  [Event.read, Event.write].flatMap fun event =>
    if event.In mask then (c.getEventContext event).handed else []

theorem FdContext.tasks_mask (c : FdContext Cb) (event : Event) :
  c.tasks event.mask = (c.getEventContext event).handed
  := by
  have hread : Event.read.In event.mask ↔ event = .read := by
    cases event <;> decide
  have hwrite : Event.write.In event.mask ↔ event = .write := by
    cases event <;> decide
  cases event <;> simp [tasks, hread, hwrite]

theorem FdContext.tasks_maskOf (c : FdContext Cb) :
  c.tasks (maskOf true true) = c.read.handed ++ c.write.handed
  := by
  have hin : ∀ event : Event, event.In (maskOf true true) := by decide
  simp [tasks, hin, getEventContext]

namespace IOManager

open Transition

/-- The events of a descriptor that are ready and awaited. -/
def hits (m : IOManager Cb) (fd : ℕ) (ready : Mask) : Mask :=
  (m.context fd).events &&& realEvents ready (m.context fd).events

/-- What a dispatch is for: the events that are ready and awaited are triggered, each of them once, the
counter goes down by their number, and all other events stay as they are. -/
structure Dispatched (m : IOManager Cb) (fd : ℕ) (ready : Mask) (m' : IOManager Cb) : Prop where
  triggered : m'.scheduled = m.scheduled ++ (m.context fd).tasks (m.hits fd ready)
  count : m'.pendingEventCount = m.pendingEventCount - bitCount (m.hits fd ready)
  events : (m'.context fd).events = (m.context fd).events &&& ~~~m.hits fd ready
  registered : m'.registered fd = interest ((m.context fd).events &&& ~~~m.hits fd ready)
  left : ∀ event : Event, event.In (m'.context fd).events →
    (m'.context fd).getEventContext event = (m.context fd).getEventContext event
  others : ∀ fd', fd' ≠ fd →
    m'.context fd' = m.context fd' ∧ m'.registered fd' = m.registered fd'

/-- The dispatch of a ready entry, with `epoll_ctl` succeeding, does not end in a failed assertion and
does what it is for. -/
def Dispatches (m : IOManager Cb) (fd : ℕ) (ready : Mask) : Prop :=
  ∃ m', m.dispatch fd ready true = some (decide (m.hits fd ready ≠ 0), m') ∧ m.Dispatched fd ready m'

/-- For a context that awaits `events`, every ready event is awaited, or no awaited event is ready. After
an error or a hangup every awaited event is ready. -/
def Settled (ready events : Mask) : Prop :=
  (∀ event : Event, event.In ready → event.In events) ∨
    ∀ event : Event, event.In events → ¬ event.In ready ∧ ready &&& (EPOLLERR ||| EPOLLHUP) = 0

instance Settled.decidable (ready events : Mask) : Decidable (Settled ready events) :=
  inferInstanceAs (Decidable ((∀ _, _ → _) ∨ ∀ _, _ → _ ∧ _))

/-! ### Masks -/

/-- The condition, in terms of the events that `idle` acts on. -/
theorem settled_iff (ready events : Mask) :
  Settled ready events
    ↔ (∀ event : Event, event.In (realEvents ready events) → event.In events) ∨
      ∀ event : Event, event.In events → ¬ event.In (realEvents ready events)
  := by
  simp only [Settled, Event.In, realEvents_and]
  apply or_congr
  · apply forall_congr'
    intro event
    tauto
  · apply forall_congr'
    intro event
    tauto

/-- Among masks of events, one that shares no event with another is disjoint from it. -/
theorem and_maskOf_eq_zero {events : Mask}
    (h : events &&& ~~~(Event.read.mask ||| Event.write.mask) = 0) (r w : Bool) :
  events &&& maskOf r w = 0 ↔ ∀ event : Event, event.In events → ¬ event.In (maskOf r w)
  := by
  obtain ⟨r', w', rfl⟩ := exists_maskOf h
  revert r w r' w'
  decide

/-- Among masks of events, one with all events of another contains it. -/
theorem and_maskOf_eq_self {events : Mask}
    (h : events &&& ~~~(Event.read.mask ||| Event.write.mask) = 0) (r w : Bool) :
  (∀ event : Event, event.In (maskOf r w) → event.In events) → events &&& maskOf r w = maskOf r w
  := by
  obtain ⟨r', w', rfl⟩ := exists_maskOf h
  revert r w r' w'
  decide

/-! ### Triggering -/

/-- An event that is not awaited cannot be triggered: the assertion fails. -/
theorem trigger_of_not_in {m : IOManager Cb} {fd : ℕ} {event : Event}
    (h : ¬ event.In (m.context fd).events) :
  m.trigger fd event = none
  := by
  rw [Event.In, not_not] at h
  rw [trigger]
  cases hget : m.fdContexts[fd]? with
  | none => rfl
  | some c =>
      obtain ⟨-, rfl⟩ := context_of_getElem? hget
      simp [FdContext.triggerEvent, h]

/-- The manager after the events of a mask, which are awaited, are triggered. -/
def triggered (m : IOManager Cb) (fd : ℕ) (mask : Mask) : IOManager Cb :=
  { m with
    pendingEventCount := m.pendingEventCount - bitCount mask
    scheduled := m.scheduled ++ (m.context fd).tasks mask
    }.setContext fd (((m.context fd).clearIf mask .read).clearIf mask .write)

theorem context_triggered {m : IOManager Cb} {fd : ℕ} (hfd : fd < m.fdContexts.length) (mask : Mask) :
  (m.triggered fd mask).context
    = Function.update m.context fd (((m.context fd).clearIf mask .read).clearIf mask .write)
  := context_set hfd _ rfl

/-- An awaited event is triggered. -/
theorem Booked.trigger_eq {m : IOManager Cb} (h : m.Booked) {fd : ℕ} {event : Event}
    (hin : event.In (m.context fd).events) :
  m.trigger fd event = some (m.triggered fd event.mask)
  := by
  have hfd := lt_of_and_ne_zero hin
  obtain ⟨scheduler, hs⟩ := Option.isSome_iff_exists.mp ((h.consistent fd).awaiting event hin).1
  have hsame : { m.context fd with
      events := (m.context fd).events &&& ~~~event.mask }.getEventContext event
        = (m.context fd).getEventContext event := by
    cases event <;> rfl
  have htasks : (m.context fd).tasks event.mask
      = [(scheduler, ((m.context fd).getEventContext event).task)] := by
    rw [FdContext.tasks_mask, EventContext.handed, hs]
    rfl
  have hclear : ((m.context fd).clearIf event.mask .read).clearIf event.mask .write
      = (m.context fd).clear event := by
    cases event <;> simp [FdContext.clearIf, Event.mask]
  have hcount : bitCount event.mask = 1 := by
    cases event <;> decide
  rw [IOManager.trigger, getElem?_of_lt hfd, triggered, htasks, hclear, hcount]
  simp only [Option.bind_eq_bind, Option.bind_some, FdContext.triggerEvent, if_neg hin, hsame, hs,
    Option.map_some]
  rfl

/-- A call of `triggerEvent` and the decrement: they succeed exactly if the event is awaited. -/
theorem Booked.trigger_eq_ite {m : IOManager Cb} (h : m.Booked) (fd : ℕ) (event : Event) :
  m.trigger fd event
    = if event.In (m.context fd).events then some (m.triggered fd event.mask) else none
  := by
  split
  · rename_i hin
    apply h.trigger_eq hin
  · rename_i hout
    apply trigger_of_not_in hout

theorem Booked.triggered {m : IOManager Cb} (h : m.Booked) {fd : ℕ} {event : Event}
    (hin : event.In (m.context fd).events) :
  (m.triggered fd event.mask).Booked
  := by
  obtain ⟨m', -, htrigger, hbooked, -⟩ := h.trigger hin
  obtain rfl : m.triggered fd event.mask = m' := by
    rw [h.trigger_eq hin] at htrigger
    apply Option.some.inj htrigger
  apply hbooked

/-- Triggering the first event does not change whether the second one is awaited. -/
theorem in_triggered_read {m : IOManager Cb} {fd : ℕ} (hfd : fd < m.fdContexts.length) :
  Event.write.In ((m.triggered fd Event.read.mask).context fd).events
    ↔ Event.write.In (m.context fd).events
  := by
  rw [context_triggered hfd, Function.update_self, FdContext.clearIf, if_neg (by decide), Event.In,
    FdContext.clearIf_read_and_write, Event.In]

/-- Both events are triggered at once or one after the other. -/
theorem triggered_triggered {m : IOManager Cb} {fd : ℕ} (hfd : fd < m.fdContexts.length) :
  (m.triggered fd Event.read.mask).triggered fd Event.write.mask = m.triggered fd (maskOf true true)
  := by
  have hcontext : (m.triggered fd Event.read.mask).context fd = (m.context fd).clear .read := by
    rw [context_triggered hfd, Function.update_self]
    rfl
  have htasks : (m.context fd).tasks Event.read.mask
      ++ ((m.context fd).clear .read).tasks Event.write.mask
        = (m.context fd).tasks (maskOf true true) := by
    rw [FdContext.tasks_mask, FdContext.tasks_mask, FdContext.tasks_maskOf]
    rfl
  have hcount : m.pendingEventCount - bitCount Event.read.mask - bitCount Event.write.mask
      = m.pendingEventCount - bitCount (maskOf true true) := by
    have hread : bitCount Event.read.mask = 1 := by decide
    have hwrite : bitCount Event.write.mask = 1 := by decide
    have hboth : bitCount (maskOf true true) = 2 := by decide
    omega
  rw [triggered, hcontext]
  simp only [triggered, setContext, List.append_assoc, List.set_set]
  rw [htasks, hcount]
  rfl

/-- The last two branches of the body of the loop, for a mask with an event. Each event in it has to be
awaited. -/
theorem Booked.triggerBoth {m : IOManager Cb} (h : m.Booked) {fd : ℕ} (hfd : fd < m.fdContexts.length)
    {r w : Bool} (hsome : maskOf r w ≠ 0) :
  ((m.triggerIf fd (maskOf r w) .read).bind fun m => m.triggerIf fd (maskOf r w) .write)
    = if ∀ event : Event, event.In (maskOf r w) → event.In (m.context fd).events then
        some (m.triggered fd (maskOf r w))
      else none
  := by
  have hall : (∀ event : Event, event.In (maskOf r w) → event.In (m.context fd).events)
      ↔ (r = true → Event.read.In (m.context fd).events) ∧
        (w = true → Event.write.In (m.context fd).events) := by
    rw [← maskOf_and_read r w, ← maskOf_and_write r w]
    constructor
    · intro hin
      exact ⟨hin .read, hin .write⟩
    · rintro ⟨hread, hwrite⟩ (_ | _)
      · apply hread
      · apply hwrite
  simp only [IOManager.triggerIf, maskOf_and_read, maskOf_and_write, hall]
  cases r <;> cases w
  · exact absurd rfl hsome
  · have hmask : maskOf false true = Event.write.mask := by decide
    simp [h.trigger_eq_ite fd .write, hmask]
  · have hmask : maskOf true false = Event.read.mask := by decide
    simp [h.trigger_eq_ite fd .read, hmask]
  · by_cases hread : Event.read.In (m.context fd).events
    · have hwrite := (h.triggered hread).trigger_eq_ite fd .write
      simp only [in_triggered_read hfd, triggered_triggered hfd] at hwrite
      simp [h.trigger_eq_ite fd .read, hread, hwrite]
    · simp [h.trigger_eq_ite fd .read, hread]

/-! ### One dispatch -/

/-- The manager after a call of `epoll_ctl` that leaves a descriptor registered for `events`. -/
def withInterest (m : IOManager Cb) (fd : ℕ) (events : Mask) : IOManager Cb :=
  { m with registered := Function.update m.registered fd (interest events) }

/-- The manager after a dispatch that triggers what is ready and awaited. -/
def dispatched (m : IOManager Cb) (fd : ℕ) (ready : Mask) : IOManager Cb :=
  (m.withInterest fd ((m.context fd).events &&& ~~~m.hits fd ready)).triggered fd (m.hits fd ready)

theorem Inv.hits_eq_zero {m : IOManager Cb} (h : m.Inv) {fd : ℕ} {ready : Mask} :
  m.hits fd ready = 0
    ↔ ∀ event : Event, event.In (m.context fd).events →
        ¬ event.In (realEvents ready (m.context fd).events)
  := by
  rw [hits, realEvents_eq]
  apply and_maskOf_eq_zero (h.consistent fd).bits

/-- The dispatch of a ready entry, with `epoll_ctl` succeeding. -/
theorem Inv.dispatch_eq {m : IOManager Cb} (h : m.Inv) {fd : ℕ} (hfd : fd < m.fdContexts.length)
    (ready : Mask) :
  m.dispatch fd ready true
    = if m.hits fd ready = 0 then some (false, m)
      else if ∀ event : Event, event.In (realEvents ready (m.context fd).events) →
          event.In (m.context fd).events then
        some (true, m.dispatched fd ready)
      else none
  := by
  obtain ⟨r, w, hmask⟩ : ∃ r w, realEvents ready (m.context fd).events = maskOf r w :=
    ⟨_, _, realEvents_eq _ _⟩
  rw [dispatched, hits, IOManager.dispatch, getElem?_of_lt hfd]
  simp only [Option.bind_eq_bind, Option.bind_some]
  rw [hmask]
  split
  · rfl
  · rename_i hsome
    have hmask' : maskOf r w ≠ 0 := by
      intro hzero
      simp [hzero] at hsome
    have hboth := (h.withRegistered (Function.update m.registered fd
      (interest ((m.context fd).events &&& ~~~maskOf r w)))).triggerBoth hfd hmask'
    rw [h.fd, epollCtl_clear (h.registered fd) (ne_zero_of_and_ne_zero hsome), if_pos rfl]
    dsimp only
    rw [← Option.bind_assoc, hboth]
    change Option.bind (if ∀ event : Event, event.In (maskOf r w) → event.In (m.context fd).events
      then _ else _) _ = _
    split
    · rename_i hin
      rw [and_maskOf_eq_self (h.consistent fd).bits r w hin]
      rfl
    · rfl

/-- A context keeps what it has for an event that is not cleared. -/
theorem getEventContext_clearIf {c : FdContext Cb} {mask : Mask} {event : Event} (h : ¬ event.In mask) :
  ((c.clearIf mask .read).clearIf mask .write).getEventContext event = c.getEventContext event
  := by
  rw [Event.In, not_not] at h
  cases event with
  | read =>
      rw [FdContext.clearIf, FdContext.clearIf, if_neg (not_not_intro h)]
      split <;> rfl
  | write =>
      rw [FdContext.clearIf, if_neg (not_not_intro h), FdContext.clearIf]
      split <;> rfl

/-- Triggering what is ready and awaited is what a dispatch is for. -/
theorem Inv.dispatched {m : IOManager Cb} (h : m.Inv) {fd : ℕ} (hfd : fd < m.fdContexts.length)
    (ready : Mask) :
  m.Dispatched fd ready (m.dispatched fd ready)
  := by
  have hcontext : (m.dispatched fd ready).context = Function.update m.context fd
      (((m.context fd).clearIf (m.hits fd ready) .read).clearIf (m.hits fd ready) .write) :=
    context_triggered hfd _
  obtain ⟨r, w, hmask⟩ : ∃ r w, m.hits fd ready = maskOf r w := by
    apply exists_maskOf
    rw [hits, BitVec.and_comm (m.context fd).events, BitVec.and_assoc, (h.consistent fd).bits]
    simp
  have hevents : ((m.dispatched fd ready).context fd).events
      = (m.context fd).events &&& ~~~m.hits fd ready := by
    rw [hcontext, Function.update_self, hmask, FdContext.events_clearIf]
  refine ⟨rfl, rfl, hevents, Function.update_self .., ?_, ?_⟩
  · intro event hin
    rw [hcontext, Function.update_self]
    rw [hevents] at hin
    apply getEventContext_clearIf (Event.not_in_of_in_and_not hin)
  · intro fd' hne
    rw [hcontext, Function.update_of_ne hne]
    exact ⟨rfl, Function.update_of_ne hne ..⟩

/-- A dispatch that finds nothing to trigger leaves everything as it is. -/
theorem Inv.dispatched_self {m : IOManager Cb} (h : m.Inv) {fd : ℕ} {ready : Mask}
    (hnone : m.hits fd ready = 0) :
  m.Dispatched fd ready m
  := by
  have htasks : (m.context fd).tasks 0 = [] := by
    have hout : ∀ event : Event, ¬ event.In 0#32 := by decide
    simp [FdContext.tasks, hout]
  have hcount : bitCount 0 = 0 := by decide
  have hevents : (m.context fd).events &&& ~~~m.hits fd ready = (m.context fd).events := by
    rw [hnone]
    apply BitVec.and_allOnes
  refine ⟨?_, ?_, hevents.symm, ?_, fun _ _ => rfl, fun _ _ => ⟨rfl, rfl⟩⟩
  · rw [hnone, htasks, List.append_nil]
  · rw [hnone, hcount]
    simp
  · rw [hevents, h.registered]

/-- One dispatch does what it is for exactly if the ready mask and the awaited events are settled. -/
theorem Inv.dispatches_iff {m : IOManager Cb} (h : m.Inv) {fd : ℕ} (hfd : fd < m.fdContexts.length)
    (ready : Mask) :
  m.Dispatches fd ready ↔ Settled ready (m.context fd).events
  := by
  rw [settled_iff, ← h.hits_eq_zero, Dispatches, h.dispatch_eq hfd]
  by_cases hnone : m.hits fd ready = 0
  · simp only [hnone, or_true, iff_true]
    exact ⟨m, rfl, h.dispatched_self hnone⟩
  · by_cases hin : ∀ event : Event, event.In (realEvents ready (m.context fd).events) →
        event.In (m.context fd).events
    · rw [if_neg hnone, if_pos hin, decide_eq_true hnone]
      apply iff_of_true ⟨_, rfl, h.dispatched hfd ready⟩ (Or.inl hin)
    · rw [if_neg hnone, if_neg hin]
      apply iff_of_false
      · rintro ⟨m', hfail, -⟩
        cases hfail
      · rintro (hin' | hnone')
        · apply hin hin'
        · apply hnone hnone'

/-! ### Runs -/

/-- What the callers promise of an operation, and that a ready mask and the awaited events are settled
when an entry is dispatched. -/
def Op.Fair (m : IOManager Cb) : Op Cb → Prop
  | .dispatch fd ready _ => fd < m.fdContexts.length ∧ Settled ready (m.context fd).events
  | op => op.Legal m

instance Op.Fair.decidable (m : IOManager Cb) : ∀ op : Op Cb, Decidable (op.Fair m)
  | .addEvent caller fd event cb ok => Op.Legal.decidable m (.addEvent caller fd event cb ok)
  | .delEvent _ _ _ => inferInstanceAs (Decidable True)
  | .cancelEvent _ _ _ => inferInstanceAs (Decidable True)
  | .cancelAll _ _ => inferInstanceAs (Decidable True)
  | .dispatch _ _ _ => inferInstanceAs (Decidable (_ ∧ _))

/-- A settled dispatch is sound, whatever the outcome of `epoll_ctl`. -/
theorem Inv.dispatch_settled {m : IOManager Cb} (h : m.Inv) {fd : ℕ} (hfd : fd < m.fdContexts.length)
    {ready : Mask} (hsettled : Settled ready (m.context fd).events) (ok : Bool) :
  m.Sound (m.dispatch fd ready ok)
  := by
  rcases (settled_iff ready _).mp hsettled with hin | hout
  · apply h.dispatch hfd ?_ ok
    intro event hready
    apply hin event
    rw [Event.In, realEvents_and]
    apply Or.inl hready
  · have hzero : (m.context fd).events &&& realEvents ready (m.context fd).events = 0 :=
      h.hits_eq_zero.mpr hout
    rw [IOManager.dispatch, getElem?_of_lt hfd]
    simp only [Option.bind_eq_bind, Option.bind_some, if_pos hzero]
    apply h.sound_false

theorem step_fair (m : IOManager Cb) (op : Op Cb) (h : m.Inv) (hop : op.Fair m) :
  ∃ m', step m op = some m' ∧ m'.Inv
  := by
  cases op with
  | dispatch fd ready ok =>
      obtain ⟨acted, m', hdispatch, hInv, -⟩ := h.dispatch_settled hop.1 hop.2 ok
      exact ⟨m', by simp [step, Op.exec, hdispatch], hInv⟩
  | addEvent | delEvent | cancelEvent | cancelAll =>
      apply step_inv m _ h
      apply hop

/-- After every run whose dispatches were all settled, whatever other threads have added, deleted and
cancelled since the mask was taken, the next dispatch does what it is for exactly if it is settled. -/
theorem run_dispatches_iff {now : ℕ} {ops : List (Op Cb)} {m : IOManager Cb}
    (hops : Guarded step (fun m op => op.Fair m) (new now) ops) (hrun : run step (new now) ops = some m)
    {fd : ℕ} (hfd : fd < m.fdContexts.length) (ready : Mask) :
  m.Dispatches fd ready ↔ Settled ready (m.context fd).events
  := by
  obtain ⟨m', hrun', hInv⟩ := run_total step_fair (new_inv now) hops
  obtain rfl : m' = m := Option.some.inj (hrun'.symm.trans hrun)
  apply hInv.dispatches_iff hfd

/-- Both events of a descriptor are awaited. -/
def bothOps : List (Op ℕ) :=
  [.addEvent ⟨some 1, 7, .running⟩ 5 .read none true,
    .addEvent ⟨some 1, 7, .running⟩ 5 .write (some 3) true]

/-- The peer hangs up while there is something to read, and a thread gives up writing before the lock is
taken. -/
theorem cancelledWrite_dispatches :
  ∃ m, run step (new 0) (bothOps ++ [.cancelEvent 5 .write true]) = some m ∧
    m.Dispatches 5 (EPOLLIN ||| EPOLLHUP)
  := by
  have hstate : (run step (new 0) (bothOps ++ [.cancelEvent 5 .write true])).map
      (fun m => (m.fdContexts.length, (m.context 5).events)) = some (32, EPOLLIN) := by
    decide
  obtain ⟨m, hrun, hm⟩ := Option.map_eq_some_iff.mp hstate
  obtain ⟨hlen, hevents⟩ := Prod.mk.inj hm
  refine ⟨m, hrun, (run_dispatches_iff (by decide) hrun ?_ _).mpr ?_⟩
  · rw [hlen]
    decide
  · rw [hevents]
    decide

/-- Both events are ready, and a thread deletes one of them before the lock is taken. -/
theorem deletedRead_fails :
  ∃ m₀ m : IOManager ℕ, run step (new 0) bothOps = some m₀ ∧
    m₀.registered 5 = some (EPOLLET ||| EPOLLIN ||| EPOLLOUT) ∧
    run step m₀ [.delEvent 5 .read true] = some m ∧
    m.dispatch 5 (EPOLLIN ||| EPOLLOUT) true = none ∧ ¬ m.Dispatches 5 (EPOLLIN ||| EPOLLOUT)
  := by
  have hbefore : (run step (new 0) bothOps).map (fun m => m.registered 5)
      = some (some (EPOLLET ||| EPOLLIN ||| EPOLLOUT)) := by
    decide
  have hafter : ((run step (new 0) bothOps).bind fun m => run step m [.delEvent 5 .read true]).map
      (fun m => (m.dispatch 5 (EPOLLIN ||| EPOLLOUT) true).isNone) = some true := by
    decide
  obtain ⟨m₀, hrun₀, hreg⟩ := Option.map_eq_some_iff.mp hbefore
  rw [hrun₀, Option.bind_some] at hafter
  obtain ⟨m, hrun, hnone⟩ := Option.map_eq_some_iff.mp hafter
  rw [Option.isNone_iff_eq_none] at hnone
  refine ⟨m₀, m, hrun₀, hreg, hrun, hnone, ?_⟩
  rintro ⟨m', hsome, -⟩
  rw [hnone] at hsome
  cases hsome

end IOManager
