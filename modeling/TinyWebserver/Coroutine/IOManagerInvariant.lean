import TinyWebserver.Coroutine.IOManager
import TinyWebserver.Lib.Transition

/-!
# The bookkeeping of events

Five functions change which events a descriptor awaits, and each of them has to change the mask, the
context of the event, the interest list of the kernel and the counter of pending events together.
`Inv` says that the four agree, and `run_bookkeeping` that they do after every run, whatever the
outcomes of `epoll_ctl`.
-/

universe u

variable {Cb : Type u}

/-- The number of bits that are set. -/
def bitCount (mask : Mask) : ℕ := (List.range 32).countP mask.getLsbD

/-- What an interest list has for a descriptor that awaits `events`. -/
def interest (events : Mask) : Option Mask := if events = 0 then none else some (EPOLLET ||| events)

/-- An event context of an awaited event: it has a scheduler, and either a fiber or a callback. -/
def EventContext.Awaiting (e : EventContext Cb) : Prop :=
  e.scheduler.isSome ∧ e.fiber.isSome ≠ e.cb.isSome

/-- The event contexts agree with the mask, which has no other bits. -/
structure FdContext.Consistent (c : FdContext Cb) : Prop where
  bits : c.events &&& ~~~(Event.read.mask ||| Event.write.mask) = 0
  awaiting : ∀ event, c.events &&& event.mask ≠ 0 → (c.getEventContext event).Awaiting
  empty : ∀ event, c.events &&& event.mask = 0 → (c.getEventContext event).isEmpty

/-! ### Masks -/

/-- The mask of the two events. -/
def maskOf (r w : Bool) : Mask :=
  (if r then Event.read.mask else 0) ||| (if w then Event.write.mask else 0)

/-- The position of the bit of an event. -/
def Event.bit : Event → ℕ
  | .read => 0
  | .write => 2

theorem Event.and_mask (mask : Mask) (event : Event) :
  mask &&& event.mask = if mask.getLsbD event.bit then event.mask else 0
  := by
  have hpow : event.mask = BitVec.twoPow 32 event.bit := by
    cases event <;> decide
  rw [hpow]
  apply BitVec.and_twoPow

/-- A mask without other bits is the mask of some events. -/
theorem exists_maskOf {mask : Mask}
    (h : mask &&& ~~~(Event.read.mask ||| Event.write.mask) = 0) :
  ∃ r w, mask = maskOf r w
  := by
  use mask.getLsbD 0, mask.getLsbD 2
  calc mask
    _ = mask &&& ((Event.read.mask ||| Event.write.mask) |||
          ~~~(Event.read.mask ||| Event.write.mask)) := by
        rw [BitVec.or_not_self, BitVec.and_allOnes]
    _ = (mask &&& Event.read.mask) ||| (mask &&& Event.write.mask) := by
        rw [BitVec.and_or_distrib_left, h, BitVec.and_or_distrib_left]
        apply BitVec.or_zero
    _ = maskOf (mask.getLsbD 0) (mask.getLsbD 2) := by
        rw [Event.and_mask, Event.and_mask]
        rfl

theorem maskOf_and_read (r w : Bool) :
  maskOf r w &&& Event.read.mask ≠ 0 ↔ r = true
  := by
  cases r <;> cases w <;> decide

theorem maskOf_and_write (r w : Bool) :
  maskOf r w &&& Event.write.mask ≠ 0 ↔ w = true
  := by
  cases r <;> cases w <;> decide

namespace Event

theorem mask_and_mask {event event' : Event} (h : event' ≠ event) :
  event.mask &&& event'.mask = 0
  := by
  cases event <;> cases event' <;> first | rfl | exact absurd rfl h

@[simp]
theorem and_not_and_self (event : Event) (mask : Mask) :
  mask &&& ~~~event.mask &&& event.mask = 0
  := by
  rw [BitVec.and_assoc, BitVec.and_comm (~~~event.mask)]
  simp

theorem and_not_and_of_ne {event event' : Event} (h : event' ≠ event) (mask : Mask) :
  mask &&& ~~~event.mask &&& event'.mask = mask &&& event'.mask
  := by
  have hsub : ~~~event.mask &&& event'.mask = event'.mask := by
    cases event <;> cases event' <;> first | rfl | exact absurd rfl h
  rw [BitVec.and_assoc, hsub]

theorem or_and_of_ne {event event' : Event} (h : event' ≠ event) (mask : Mask) :
  (mask ||| event.mask) &&& event'.mask = mask &&& event'.mask
  := by
  rw [BitVec.and_or_distrib_right, mask_and_mask h]
  simp

theorem or_and_self_ne_zero (event : Event) (mask : Mask) :
  (mask ||| event.mask) &&& event.mask ≠ 0
  := by
  have hself : event.mask ≠ 0 := by
    cases event <;> decide
  rw [BitVec.and_or_distrib_right, BitVec.and_self]
  intro hzero
  apply hself (BitVec.or_eq_zero_iff.mp hzero).2

end Event

/-! ### One context -/

namespace FdContext

@[simp]
theorem getEventContext_setEventContext (c : FdContext Cb) (event : Event) (e : EventContext Cb) :
  (c.setEventContext event e).getEventContext event = e
  := by
  cases event <;> rfl

theorem getEventContext_setEventContext_of_ne (c : FdContext Cb) {event event' : Event}
    (h : event' ≠ event) (e : EventContext Cb) :
  (c.setEventContext event e).getEventContext event' = c.getEventContext event'
  := by
  cases event <;> cases event' <;> first | rfl | exact absurd rfl h

@[simp]
theorem events_setEventContext (c : FdContext Cb) (event : Event) (e : EventContext Cb) :
  (c.setEventContext event e).events = c.events
  := by
  cases event <;> rfl

@[simp]
theorem fd_setEventContext (c : FdContext Cb) (event : Event) (e : EventContext Cb) :
  (c.setEventContext event e).fd = c.fd
  := by
  cases event <;> rfl

/-- The context that awaits one event more. -/
def await (c : FdContext Cb) (event : Event) (e : EventContext Cb) : FdContext Cb :=
  { c with events := c.events ||| event.mask }.setEventContext event e

/-- The context that awaits one event less. -/
def clear (c : FdContext Cb) (event : Event) : FdContext Cb :=
  { c with events := c.events &&& ~~~event.mask }.resetEventContext event

@[simp]
theorem events_await (c : FdContext Cb) (event : Event) (e : EventContext Cb) :
  (c.await event e).events = c.events ||| event.mask
  := by
  simp [await]

@[simp]
theorem events_clear (c : FdContext Cb) (event : Event) :
  (c.clear event).events = c.events &&& ~~~event.mask
  := by
  simp [clear, resetEventContext]

@[simp]
theorem fd_await (c : FdContext Cb) (event : Event) (e : EventContext Cb) :
  (c.await event e).fd = c.fd
  := by
  simp [await]

@[simp]
theorem fd_clear (c : FdContext Cb) (event : Event) :
  (c.clear event).fd = c.fd
  := by
  simp [clear, resetEventContext]

/-- The context without an event, if the event is in a mask. -/
def clearIf (c : FdContext Cb) (mask : Mask) (event : Event) : FdContext Cb :=
  if mask &&& event.mask ≠ 0 then c.clear event else c

/-- Clearing the events of a mask one after the other. -/
theorem events_clearIf (c : FdContext Cb) (r w : Bool) :
  ((c.clearIf (maskOf r w) .read).clearIf (maskOf r w) .write).events
    = c.events &&& ~~~maskOf r w
  := by
  simp only [clearIf, maskOf_and_read, maskOf_and_write]
  cases r <;> cases w
  · exact (BitVec.and_allOnes (x := c.events)).symm
  · simp [maskOf]
  · simp [maskOf]
  · simp [maskOf, BitVec.and_assoc, ← BitVec.not_or]

theorem clearIf_read_and_write (c : FdContext Cb) (mask : Mask) :
  (c.clearIf mask .read).events &&& Event.write.mask = c.events &&& Event.write.mask
  := by
  rw [clearIf]
  split
  · rw [events_clear, Event.and_not_and_of_ne (by decide)]
  · rfl

namespace Consistent

variable {c : FdContext Cb}

theorem new (fd : ℕ) :
  ({ fd := fd } : FdContext Cb).Consistent
  := by
  constructor
  · simp
  · intro event h
    simp at h
  · intro event _
    cases event <;> rfl

/-- One event more to await keeps a context consistent. -/
theorem await (h : c.Consistent) {event : Event} {e : EventContext Cb} (he : e.Awaiting) :
  (c.await event e).Consistent
  := by
  constructor
  · rw [events_await, BitVec.and_or_distrib_right, h.bits]
    cases event <;> rfl
  · intro event' hset
    by_cases hne : event' = event
    · subst hne
      simpa [FdContext.await] using he
    · rw [events_await, Event.or_and_of_ne hne] at hset
      rw [FdContext.await, getEventContext_setEventContext_of_ne _ hne]
      apply h.awaiting event' hset
  · intro event' hclear
    by_cases hne : event' = event
    · subst hne
      rw [events_await] at hclear
      exact absurd hclear (Event.or_and_self_ne_zero event' c.events)
    · rw [events_await, Event.or_and_of_ne hne] at hclear
      rw [FdContext.await, getEventContext_setEventContext_of_ne _ hne]
      apply h.empty event' hclear

/-- One event less to await keeps a context consistent. -/
theorem clear (h : c.Consistent) (event : Event) :
  (c.clear event).Consistent
  := by
  constructor
  · rw [events_clear, BitVec.and_assoc, BitVec.and_comm (~~~event.mask), ← BitVec.and_assoc,
      h.bits]
    simp
  · intro event' hset
    by_cases hne : event' = event
    · subst hne
      simp at hset
    · rw [events_clear, Event.and_not_and_of_ne hne] at hset
      rw [FdContext.clear, resetEventContext, getEventContext_setEventContext_of_ne _ hne]
      apply h.awaiting event' hset
  · intro event' hclear
    by_cases hne : event' = event
    · subst hne
      rw [FdContext.clear, resetEventContext, getEventContext_setEventContext]
      rfl
    · rw [events_clear, Event.and_not_and_of_ne hne] at hclear
      rw [FdContext.clear, resetEventContext, getEventContext_setEventContext_of_ne _ hne]
      apply h.empty event' hclear

theorem bitCount_await (h : c.Consistent) {event : Event} (hfree : c.events &&& event.mask = 0)
    (e : EventContext Cb) :
  bitCount (c.await event e).events = bitCount c.events + 1
  := by
  obtain ⟨r, w, hmask⟩ := exists_maskOf h.bits
  rw [events_await]
  rw [hmask] at hfree ⊢
  revert hfree
  cases event <;> cases r <;> cases w <;> decide

theorem bitCount_clear (h : c.Consistent) {event : Event} (hset : c.events &&& event.mask ≠ 0) :
  bitCount (c.clear event).events + 1 = bitCount c.events
  := by
  obtain ⟨r, w, hmask⟩ := exists_maskOf h.bits
  rw [events_clear]
  rw [hmask] at hset ⊢
  revert hset
  cases event <;> cases r <;> cases w <;> decide

/-- Clearing what is awaited, event by event, leaves nothing. -/
theorem events_clear_all (h : c.Consistent) :
  ((c.clearIf c.events .read).clearIf (c.clearIf c.events .read).events .write).events = 0
  := by
  have hwrite := c.clearIf_read_and_write c.events
  obtain ⟨r, w, hmask⟩ := exists_maskOf h.bits
  have hboth := events_clearIf c r w
  rw [← hmask] at hboth
  rw [clearIf, hwrite, ← clearIf, hboth]
  simp

/-- An awaited event can be triggered: somebody is scheduled and the event is cleared. -/
theorem triggerEvent (h : c.Consistent) {event : Event} (hset : c.events &&& event.mask ≠ 0) :
  ∃ scheduler, c.triggerEvent event
    = some (c.clear event, scheduler, (c.getEventContext event).task)
  := by
  obtain ⟨hscheduler, -⟩ := h.awaiting event hset
  obtain ⟨scheduler, hs⟩ := Option.isSome_iff_exists.mp hscheduler
  have hsame : { c with events := c.events &&& ~~~event.mask }.getEventContext event
      = c.getEventContext event := by
    cases event <;> rfl
  use scheduler
  rw [FdContext.triggerEvent, if_neg hset]
  dsimp only
  rw [hsame, hs, Option.map_some]
  rfl

end Consistent

end FdContext

/-! ### All contexts -/

namespace IOManager

open Transition

/-- The context of a descriptor. A descriptor that has no context yet is one that awaits nothing. -/
def context (m : IOManager Cb) (fd : ℕ) : FdContext Cb := m.fdContexts.getD fd { fd := fd }

/-- The contexts are consistent, and the counter is the number of awaited events. -/
structure Booked (m : IOManager Cb) : Prop where
  size : 32 ≤ m.fdContexts.length
  fd : ∀ fd, (m.context fd).fd = fd
  consistent : ∀ fd, (m.context fd).Consistent
  count : m.pendingEventCount = (m.fdContexts.map fun c => (bitCount c.events : ℤ)).sum

/-- The contexts, the counter and the interest list of the kernel agree. -/
structure Inv (m : IOManager Cb) : Prop extends m.Booked where
  registered : ∀ fd, m.registered fd = interest (m.context fd).events

variable {m : IOManager Cb} {fd : ℕ}

theorem getElem?_of_lt (h : fd < m.fdContexts.length) :
  m.fdContexts[fd]? = some (m.context fd)
  := by
  rw [context, List.getD_eq_getElem?_getD, List.getElem?_eq_getElem h, Option.getD_some]

theorem context_of_le (h : m.fdContexts.length ≤ fd) :
  m.context fd = { fd := fd }
  := by
  rw [context, List.getD_eq_getElem?_getD, List.getElem?_eq_none h, Option.getD_none]

/-- A descriptor that awaits something has a context. -/
theorem lt_of_events_ne_zero (h : (m.context fd).events ≠ 0) :
  fd < m.fdContexts.length
  := by
  by_contra hle
  rw [context_of_le (Nat.le_of_not_lt hle)] at h
  apply h rfl

theorem lt_of_and_ne_zero {event : Event} (h : (m.context fd).events &&& event.mask ≠ 0) :
  fd < m.fdContexts.length
  := by
  apply lt_of_events_ne_zero
  intro hzero
  simp [hzero] at h

theorem ne_zero_of_and_ne_zero {mask mask' : Mask} (h : mask &&& mask' ≠ 0) :
  mask ≠ 0
  := by
  intro hzero
  simp [hzero] at h

theorem context_of_getElem? {c : FdContext Cb} (h : m.fdContexts[fd]? = some c) :
  fd < m.fdContexts.length ∧ m.context fd = c
  := by
  refine ⟨(List.getElem?_eq_some_iff.mp h).1, ?_⟩
  rw [context, List.getD_eq_getElem?_getD, h, Option.getD_some]

theorem context_set (hfd : fd < m.fdContexts.length) (c : FdContext Cb) {m' : IOManager Cb}
    (h : m'.fdContexts = m.fdContexts.set fd c) :
  m'.context = Function.update m.context fd c
  := by
  funext fd'
  by_cases heq : fd' = fd
  · subst heq
    simp [context, h, hfd]
  · have hne : fd ≠ fd' := fun h => heq h.symm
    simp [context, h, hne, heq]

/-- A new context for a descriptor, with the counter changed by the difference in awaited events. -/
theorem Booked.set (h : m.Booked) (hfd : fd < m.fdContexts.length) {c : FdContext Cb}
    (hc : c.Consistent) (hcfd : c.fd = fd) {m' : IOManager Cb}
    (hcontexts : m'.fdContexts = m.fdContexts.set fd c)
    (hcount : m'.pendingEventCount
      = m.pendingEventCount - bitCount (m.context fd).events + bitCount c.events) :
  m'.Booked
  := by
  have hcontext := context_set hfd c hcontexts
  refine ⟨by simpa [hcontexts] using h.size, ?_, ?_, ?_⟩
  · intro fd'
    rw [hcontext]
    by_cases heq : fd' = fd
    · rw [heq, Function.update_self, hcfd]
    · rw [Function.update_of_ne heq, h.fd]
  · intro fd'
    rw [hcontext]
    by_cases heq : fd' = fd
    · rw [heq, Function.update_self]
      apply hc
    · rw [Function.update_of_ne heq]
      apply h.consistent fd'
  · have hget : m.fdContexts[fd] = m.context fd := by
      have := getElem?_of_lt hfd
      rwa [List.getElem?_eq_getElem hfd, Option.some.injEq] at this
    rw [hcount, hcontexts, List.map_set, List.sum_set', h.count, dif_pos (by simpa using hfd)]
    simp only [List.getElem_map, hget]
    ring

/-- The interest list is not part of `Booked`. -/
theorem Booked.withRegistered (h : m.Booked) (registered : Interest) :
  ({ m with registered := registered } : IOManager Cb).Booked
  := ⟨h.size, h.fd, h.consistent, h.count⟩

/-- The contexts and the interest list after a change of what one descriptor awaits. -/
theorem Inv.of_update (h : m.Inv) {m' : IOManager Cb} (hbooked : m'.Booked) {c : FdContext Cb}
    (hcontext : m'.context = Function.update m.context fd c)
    (hreg : m'.registered = Function.update m.registered fd (interest c.events)) :
  m'.Inv
  := by
  refine ⟨hbooked, ?_⟩
  intro fd'
  rw [hcontext, hreg]
  by_cases heq : fd' = fd
  · rw [heq, Function.update_self, Function.update_self]
  · rw [Function.update_of_ne heq, Function.update_of_ne heq, h.registered]

/-! ### The kernel -/

/-- Adding an event succeeds whenever the kernel likes. -/
theorem epollCtl_await {reg : Interest} {events new : Mask} (hreg : reg fd = interest events)
    (hnew : new ≠ 0) (ok : Bool) :
  epollCtl reg (if events ≠ 0 then .mod else .add) fd (EPOLLET ||| new) ok
    = if ok then some (Function.update reg fd (interest new)) else none
  := by
  have hinterest : interest new = some (EPOLLET ||| new) := if_neg hnew
  rw [hinterest]
  by_cases hzero : events = 0
  · have hnone : reg fd = none := by rw [hreg, interest, if_pos hzero]
    rw [if_neg (by simpa using hzero)]
    cases ok <;> simp [epollCtl, hnone]
  · have hsome : reg fd = some (EPOLLET ||| events) := by rw [hreg, interest, if_neg hzero]
    rw [if_pos hzero]
    cases ok <;> simp [epollCtl, hsome]

/-- Removing events succeeds whenever the kernel likes. -/
theorem epollCtl_clear {reg : Interest} {events new : Mask} (hreg : reg fd = interest events)
    (hevents : events ≠ 0) (ok : Bool) :
  epollCtl reg (if new ≠ 0 then .mod else .del) fd (EPOLLET ||| new) ok
    = if ok then some (Function.update reg fd (interest new)) else none
  := by
  have hsome : reg fd = some (EPOLLET ||| events) := by rw [hreg, interest, if_neg hevents]
  by_cases hzero : new = 0
  · rw [if_neg (by simpa using hzero), interest, if_pos hzero]
    cases ok <;> simp [epollCtl, hsome]
  · rw [if_pos hzero, interest, if_neg hzero]
    cases ok <;> simp [epollCtl, hsome]

/-! ### Triggering -/

/-- An awaited event is triggered: it is cleared, and its fiber or callback is scheduled. -/
theorem Booked.trigger (h : m.Booked) {event : Event}
    (hset : (m.context fd).events &&& event.mask ≠ 0) :
  ∃ m' scheduler, m.trigger fd event = some m' ∧ m'.Booked ∧ m'.registered = m.registered ∧
    m'.context = Function.update m.context fd ((m.context fd).clear event) ∧
    m'.fdContexts.length = m.fdContexts.length ∧
    m'.scheduled = m.scheduled ++ [(scheduler, ((m.context fd).getEventContext event).task)]
  := by
  have hfd := lt_of_and_ne_zero hset
  have hc := h.consistent fd
  obtain ⟨scheduler, htrigger⟩ := hc.triggerEvent hset
  have hbits := hc.bitCount_clear hset
  refine ⟨{ m with
      pendingEventCount := m.pendingEventCount - 1
      scheduled := m.scheduled ++ [(scheduler, ((m.context fd).getEventContext event).task)]
      }.setContext fd ((m.context fd).clear event), scheduler, ?_,
    h.set hfd (hc.clear event) ?_ rfl ?_, rfl, context_set hfd _ rfl, by simp [setContext], rfl⟩
  · rw [IOManager.trigger, getElem?_of_lt hfd]
    simp only [Option.bind_eq_bind, Option.bind_some, htrigger]
  · rw [FdContext.fd_clear, h.fd]
  · simp only [setContext]
    omega

/-- The awaited events of a mask are triggered. -/
theorem Booked.triggerIf (h : m.Booked) (fd : ℕ) (mask : Mask) (event : Event)
    (hset : mask &&& event.mask ≠ 0 → (m.context fd).events &&& event.mask ≠ 0) :
  ∃ m', m.triggerIf fd mask event = some m' ∧ m'.Booked ∧ m'.registered = m.registered ∧
    m'.context = Function.update m.context fd ((m.context fd).clearIf mask event) ∧
    m'.fdContexts.length = m.fdContexts.length
  := by
  rw [IOManager.triggerIf, FdContext.clearIf]
  split
  · rename_i hmask
    obtain ⟨m', -, htrigger, hbooked, hreg, hcontext, hlen, -⟩ := h.trigger (hset hmask)
    exact ⟨m', htrigger, hbooked, hreg, hcontext, hlen⟩
  · exact ⟨m, rfl, h, rfl, (Function.update_eq_self fd m.context).symm, rfl⟩

/-! ### The operations -/

/-- Nothing that the bookkeeping is about has changed. -/
structure Unchanged (m m' : IOManager Cb) : Prop where
  count : m'.pendingEventCount = m.pendingEventCount
  context : m'.context = m.context
  registered : m'.registered = m.registered

theorem Unchanged.refl (m : IOManager Cb) :
  m.Unchanged m
  := ⟨rfl, rfl, rfl⟩

/-- What an operation promises: it does not end in a failed assertion, it keeps the bookkeeping in
order, and it changes nothing if it fails. -/
def Sound (m : IOManager Cb) (res : Option (Bool × IOManager Cb)) : Prop :=
  ∃ ok m', res = some (ok, m') ∧ m'.Inv ∧ (ok = false → m.Unchanged m')

theorem Inv.sound_false (h : m.Inv) :
  m.Sound (some (false, m))
  := ⟨false, m, rfl, h, fun _ => .refl m⟩

theorem Inv.delEvent (h : m.Inv) (fd : ℕ) (event : Event) (ok : Bool) :
  m.Sound (some (m.delEvent fd event ok))
  := by
  rw [IOManager.delEvent]
  split
  · apply h.sound_false
  · rename_i c hget
    obtain ⟨hfd, rfl⟩ := context_of_getElem? hget
    split
    · apply h.sound_false
    · rename_i hset
      have hc := h.consistent fd
      have hbits := hc.bitCount_clear hset
      dsimp only
      rw [epollCtl_clear (h.registered fd) (ne_zero_of_and_ne_zero hset)]
      cases ok with
      | false => apply h.sound_false
      | true =>
          refine ⟨true, _, rfl, h.of_update (h.set hfd (hc.clear event) ?_ rfl ?_)
            (context_set hfd _ rfl) ?_, nofun⟩
          · rw [FdContext.fd_clear, h.fd]
          · simp only [setContext]
            omega
          · simp [setContext, FdContext.resetEventContext]

theorem Inv.cancelEvent (h : m.Inv) (fd : ℕ) (event : Event) (ok : Bool) :
  m.Sound (m.cancelEvent fd event ok)
  := by
  rw [IOManager.cancelEvent]
  split
  · apply h.sound_false
  · rename_i c hget
    obtain ⟨hfd, rfl⟩ := context_of_getElem? hget
    split
    · apply h.sound_false
    · rename_i hset
      dsimp only
      rw [epollCtl_clear (h.registered fd) (ne_zero_of_and_ne_zero hset)]
      cases ok with
      | false => apply h.sound_false
      | true =>
          obtain ⟨m', -, htrigger, hbooked, hreg, hcontext, -⟩ :=
            (h.withRegistered (Function.update m.registered fd
              (interest ((m.context fd).events &&& ~~~event.mask)))).trigger hset
          refine ⟨true, m', ?_, h.of_update hbooked hcontext ?_, nofun⟩
          · simp only [if_true, htrigger, Option.map_some]
          · rw [hreg, FdContext.events_clear]
            rfl

theorem Inv.cancelAll (h : m.Inv) (fd : ℕ) (ok : Bool) :
  m.Sound (m.cancelAll fd ok)
  := by
  rw [IOManager.cancelAll]
  split
  · apply h.sound_false
  · rename_i c hget
    obtain ⟨hfd, rfl⟩ := context_of_getElem? hget
    split
    · apply h.sound_false
    · rename_i hevents
      have hctl : epollCtl m.registered .del fd 0 ok
          = if ok then some (Function.update m.registered fd none) else none := by
        have hsome : m.registered fd = some (EPOLLET ||| (m.context fd).events) := by
          rw [h.registered, interest, if_neg hevents]
        cases ok <;> simp [epollCtl, hsome]
      rw [hctl]
      cases ok with
      | false => apply h.sound_false
      | true =>
          obtain ⟨m₁, hread, hbooked₁, hreg₁, hcontext₁, hlen₁⟩ :=
            (h.withRegistered (Function.update m.registered fd none)).triggerIf fd
              (m.context fd).events .read id
          obtain ⟨m₂, hwrite, hbooked₂, hreg₂, hcontext₂, hlen₂⟩ :=
            hbooked₁.triggerIf fd (m₁.context fd).events .write id
          have hc₁ : m₁.context fd = (m.context fd).clearIf (m.context fd).events .read := by
            rw [hcontext₁, Function.update_self]
            rfl
          have hcontext : m₂.context = Function.update m.context fd
              (((m.context fd).clearIf (m.context fd).events .read).clearIf
                ((m.context fd).clearIf (m.context fd).events .read).events .write) := by
            rw [hcontext₂, hc₁, hcontext₁, Function.update_idem]
            rfl
          have hclear := (h.consistent fd).events_clear_all
          have hevents₂ : (m₂.context fd).events = 0 := by
            rw [hcontext, Function.update_self, hclear]
          refine ⟨true, m₂, ?_, h.of_update hbooked₂ hcontext ?_, nofun⟩
          · have hfd₁ : fd < m₁.fdContexts.length := by rwa [hlen₁]
            have hfd₂ : fd < m₂.fdContexts.length := by rwa [hlen₂]
            simp only [if_true, hread, Option.bind_eq_bind, Option.bind_some,
              getElem?_of_lt hfd₁, hwrite, getElem?_of_lt hfd₂, hevents₂]
          · rw [hreg₂, hreg₁, hclear]
            rfl

theorem realEvents_eq (ready events : Mask) :
  realEvents ready events
    = (let ready' :=
        if ready &&& (EPOLLERR ||| EPOLLHUP) ≠ 0 then ready ||| ((EPOLLIN ||| EPOLLOUT) &&& events)
        else ready
      maskOf (ready' &&& Event.read.mask ≠ 0) (ready' &&& Event.write.mask ≠ 0))
  := by
  simp only [realEvents, maskOf, decide_eq_true_eq]
  rfl

/-- The events that `idle` acts on are the ready ones and, after an error or a hangup, the awaited
ones. -/
theorem realEvents_and (ready events : Mask) (event : Event) :
  realEvents ready events &&& event.mask ≠ 0
    ↔ ready &&& event.mask ≠ 0 ∨
      ready &&& (EPOLLERR ||| EPOLLHUP) ≠ 0 ∧ events &&& event.mask ≠ 0
  := by
  have hboth : (EPOLLIN ||| EPOLLOUT) &&& events &&& event.mask = events &&& event.mask := by
    rw [BitVec.and_comm (EPOLLIN ||| EPOLLOUT), BitVec.and_assoc]
    cases event <;> rfl
  have hready : (if ready &&& (EPOLLERR ||| EPOLLHUP) ≠ 0
        then ready ||| ((EPOLLIN ||| EPOLLOUT) &&& events) else ready) &&& event.mask ≠ 0
      ↔ ready &&& event.mask ≠ 0 ∨
        ready &&& (EPOLLERR ||| EPOLLHUP) ≠ 0 ∧ events &&& event.mask ≠ 0 := by
    split
    · rename_i herror
      have hor : ready &&& event.mask ||| events &&& event.mask = 0
          ↔ ready &&& event.mask = 0 ∧ events &&& event.mask = 0 := BitVec.or_eq_zero_iff
      rw [BitVec.and_or_distrib_right, hboth, ne_eq, hor]
      tauto
    · rename_i herror
      tauto
  rw [← hready, realEvents_eq]
  cases event with
  | read => rw [maskOf_and_read, decide_eq_true_iff]
  | write => rw [maskOf_and_write, decide_eq_true_iff]

/-- The events that `idle` acts on are ready and awaited, if the ready ones are. -/
theorem realEvents_contained {ready events : Mask}
    (h : ∀ event : Event, ready &&& event.mask ≠ 0 → events &&& event.mask ≠ 0) (event : Event) :
  realEvents ready events &&& event.mask ≠ 0 → events &&& event.mask ≠ 0
  := by
  rw [realEvents_and]
  rintro (hready | ⟨-, hawaited⟩)
  · apply h event hready
  · apply hawaited

theorem Inv.dispatch (h : m.Inv) (hfd : fd < m.fdContexts.length) {ready : Mask}
    (hready : ∀ event : Event, ready &&& event.mask ≠ 0 → (m.context fd).events &&& event.mask ≠ 0)
    (ok : Bool) :
  m.Sound (m.dispatch fd ready ok)
  := by
  have hreal := realEvents_contained hready
  obtain ⟨r, w, hmask⟩ : ∃ r w, realEvents ready (m.context fd).events = maskOf r w :=
    ⟨_, _, realEvents_eq _ _⟩
  rw [IOManager.dispatch, getElem?_of_lt hfd]
  simp only [Option.bind_eq_bind, Option.bind_some]
  rw [hmask] at hreal ⊢
  split
  · apply h.sound_false
  · rename_i hsome
    rw [h.fd, epollCtl_clear (h.registered fd) (ne_zero_of_and_ne_zero hsome)]
    cases ok with
    | false => apply h.sound_false
    | true =>
        obtain ⟨m₁, hread, hbooked₁, hreg₁, hcontext₁, -⟩ :=
          (h.withRegistered (Function.update m.registered fd
            (interest ((m.context fd).events &&& ~~~maskOf r w)))).triggerIf fd (maskOf r w) .read (hreal .read)
        have hc₁ : m₁.context fd = (m.context fd).clearIf (maskOf r w) .read := by
          rw [hcontext₁, Function.update_self]
          rfl
        have hleft : maskOf r w &&& Event.write.mask ≠ 0 →
            (m₁.context fd).events &&& Event.write.mask ≠ 0 := by
          rw [hc₁, FdContext.clearIf_read_and_write]
          apply hreal .write
        obtain ⟨m₂, hwrite, hbooked₂, hreg₂, hcontext₂, -⟩ := hbooked₁.triggerIf fd (maskOf r w) .write hleft
        have hcontext : m₂.context = Function.update m.context fd
            (((m.context fd).clearIf (maskOf r w) .read).clearIf (maskOf r w) .write) := by
          rw [hcontext₂, hc₁, hcontext₁, Function.update_idem]
          rfl
        refine ⟨true, m₂, ?_, h.of_update hbooked₂ hcontext ?_, nofun⟩
        · simp only [if_true, hread, Option.bind_some, hwrite]
        · rw [hreg₂, hreg₁, FdContext.events_clearIf]

/-! ### More contexts -/

/-- More contexts do not change which events are awaited. -/
theorem context_contextResize {size : ℕ} (h : m.fdContexts.length ≤ size) :
  (m.contextResize size).context = m.context
  := by
  funext fd
  simp only [context, contextResize, List.getD_eq_getElem?_getD, List.take_of_length_le h]
  by_cases hold : fd < m.fdContexts.length
  · rw [List.getElem?_append_left hold]
  · have hle : m.fdContexts.length ≤ fd := Nat.le_of_not_lt hold
    rw [List.getElem?_append_right hle, List.getElem?_eq_none hle, Option.getD_none,
      List.getElem?_map]
    by_cases hnew : fd - m.fdContexts.length < size - m.fdContexts.length
    · rw [List.getElem?_range' hnew]
      simp [Nat.add_sub_cancel' hle]
    · rw [List.getElem?_eq_none (by simpa using hnew)]
      rfl

theorem length_contextResize {size : ℕ} (h : m.fdContexts.length ≤ size) :
  (m.contextResize size).fdContexts.length = size
  := by
  simp only [contextResize, List.length_append, List.length_take, List.length_map,
    List.length_range']
  omega

theorem Inv.contextResize (h : m.Inv) {size : ℕ} (hsize : m.fdContexts.length ≤ size) :
  (m.contextResize size).Inv
  := by
  have hcontext := context_contextResize hsize
  have hlen := length_contextResize hsize
  refine ⟨⟨?_, ?_, ?_, ?_⟩, ?_⟩
  · rw [hlen]
    apply h.size.trans hsize
  · rw [hcontext]
    apply h.fd
  · rw [hcontext]
    apply h.consistent
  · have hzero : bitCount 0#32 = 0 := by decide
    simp [IOManager.contextResize, List.take_of_length_le hsize, h.count, Function.comp_def, hzero]
  · rw [hcontext]
    apply h.registered

theorem Inv.withContext (h : m.Inv) (fd : ℕ) :
  (m.withContext fd).Inv ∧ fd < (m.withContext fd).fdContexts.length ∧
    m.Unchanged (m.withContext fd)
  := by
  have hsize := h.size
  rw [IOManager.withContext]
  split
  · rename_i hfd
    exact ⟨h, hfd, .refl m⟩
  · have hgrow : m.fdContexts.length ≤ fd * 3 / 2 := by omega
    refine ⟨h.contextResize hgrow, ?_, ⟨rfl, context_contextResize hgrow, rfl⟩⟩
    rw [length_contextResize hgrow]
    omega

/-- The result of `addEvent`, as a truth value. -/
def added : ℤ × IOManager Cb → Bool × IOManager Cb
  | (rt, m) => (rt = 0, m)

theorem Inv.addEvent (h : m.Inv) {caller : Caller} (hscheduler : caller.scheduler.isSome)
    (hrunning : caller.state = .running) {event : Event}
    (hfree : (m.context fd).events &&& event.mask = 0) (cb : Option Cb) (ok : Bool) :
  m.Sound ((m.addEvent caller fd event cb ok).map added)
  := by
  obtain ⟨h', hfd, hsame⟩ := h.withContext fd
  unfold IOManager.addEvent
  generalize m.withContext fd = m' at h' hfd hsame
  dsimp only
  rw [← hsame.context] at hfree
  have hc := h'.consistent fd
  have hempty : ({ m'.context fd with
      events := (m'.context fd).events ||| event.mask }.getEventContext event).isEmpty := by
    cases event <;> exact hc.empty _ hfree
  have hawaiting : (caller.eventContext cb).Awaiting := by
    cases cb <;> simp [Caller.eventContext, EventContext.Awaiting, hscheduler]
  have hnew : (m'.context fd).events ||| event.mask ≠ 0 := by
    apply ne_zero_of_and_ne_zero (Event.or_and_self_ne_zero event _)
  rw [getElem?_of_lt hfd]
  simp only [hfree, ne_eq, not_true_eq_false, if_false, BitVec.or_assoc]
  rw [epollCtl_await (h'.registered fd) hnew]
  cases ok with
  | false => exact ⟨false, m', rfl, h', fun _ => hsame⟩
  | true =>
      have hbits := hc.bitCount_await hfree (caller.eventContext cb)
      refine ⟨true, { m' with
          registered := Function.update m'.registered fd
            (interest ((m'.context fd).events ||| event.mask))
          pendingEventCount := m'.pendingEventCount + 1
          }.setContext fd ((m'.context fd).await event (caller.eventContext cb)), ?_,
        h'.of_update (h'.set hfd (hc.await hawaiting) ?_ rfl ?_) (context_set hfd _ rfl) ?_, nofun⟩
      · simp [hempty, hrunning, added, FdContext.await]
      · rw [FdContext.fd_await, h'.fd]
      · simp only [setContext]
        omega
      · simp [setContext]

end IOManager
