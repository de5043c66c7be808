import TinyWebserver.Coroutine.IOManagerRuns
import TinyWebserver.Lib.Ledger

/-!
# What becomes of an event that is awaited

A ledger records which fiber or callback was to be scheduled for which event of which descriptor, and what
has become of it: it was scheduled, by a ready entry or a cancellation, or dropped by `delEvent`. In every
run in which no assertion fails the ledger is balanced with what the contexts hold, and what was handed to
schedulers is what the ledger says, in order, `run_settled`. So everybody who waits for an event is scheduled
for it at most once, in the order in which they came, and nobody is scheduled who did not wait.
-/

universe u

variable {Cb : Type u}

/-- A fiber or a callback, with the scheduler that it is to be handed to: that of the thread that has called
`addEvent`, if it is one of a scheduler. -/
abbrev Waiter (Cb : Type u) := Option SchedulerId × FiberOrCb Cb

/-- What becomes of a waiter: it is scheduled or dropped. -/
inductive Fate where
  | triggered
  | dropped
deriving DecidableEq, Repr

/-- An entry of the ledger, under a descriptor and an event. -/
abbrev WaiterEntry (Cb : Type u) := Ledger.Entry (ℕ × Event) (Waiter Cb) Fate

/-- The waiter that a context of an event holds. -/
def EventContext.waiter (e : EventContext Cb) : Waiter Cb := (e.scheduler, e.task)

namespace FdContext

/-- The waiter for an event, if the event is awaited. -/
def waiting (c : FdContext Cb) (event : Event) : List (Waiter Cb) :=
  if c.events &&& event.mask = 0 then [] else [(c.getEventContext event).waiter]

theorem waiting_congr {c c' : FdContext Cb} {event : Event}
    (hevents : c'.events &&& event.mask = c.events &&& event.mask)
    (hcontext : c'.getEventContext event = c.getEventContext event) :
  c'.waiting event = c.waiting event
  := by
  rw [waiting, waiting, hevents, hcontext]

/-- The other event keeps its waiter. -/
theorem waiting_clear (c : FdContext Cb) (event event' : Event) :
  (c.clear event).waiting event' = if event' = event then [] else c.waiting event'
  := by
  split
  · rename_i heq
    subst heq
    simp [waiting]
  · rename_i hne
    apply waiting_congr
    · rw [events_clear, Event.and_not_and_of_ne hne]
    · rw [clear, resetEventContext, getEventContext_setEventContext_of_ne _ hne]
      cases event' <;> rfl

theorem waiting_await (c : FdContext Cb) (event event' : Event) (e : EventContext Cb) :
  (c.await event e).waiting event' = if event' = event then [e.waiter] else c.waiting event'
  := by
  split
  · rename_i heq
    subst heq
    have hset : (c.await event' e).events &&& event'.mask ≠ 0 := by
      rw [events_await]
      apply Event.or_and_self_ne_zero
    rw [waiting, if_neg hset, await, getEventContext_setEventContext]
  · rename_i hne
    apply waiting_congr
    · rw [events_await, Event.or_and_of_ne hne]
    · rw [await, getEventContext_setEventContext_of_ne _ hne]
      cases event' <;> rfl

/-- There is at most one waiter. -/
theorem waiting_cases (c : FdContext Cb) (event : Event) :
  c.waiting event = [] ∨ ∃ w, c.waiting event = [w]
  := by
  rw [waiting]
  split
  · exact Or.inl rfl
  · exact Or.inr ⟨_, rfl⟩

theorem waiting_eq_nil_iff (c : FdContext Cb) (event : Event) :
  c.waiting event = [] ↔ c.events &&& event.mask = 0
  := by
  rw [waiting]
  split
  · rename_i hzero
    exact iff_of_true rfl hzero
  · rename_i hset
    exact iff_of_false (by simp) hset

/-- `triggerEvent` schedules the waiter and clears the event. -/
theorem triggerEvent_eq_some {c c' : FdContext Cb} {event : Event} {scheduler : SchedulerId}
    {task : FiberOrCb Cb} (h : c.triggerEvent event = some (c', scheduler, task)) :
  c' = c.clear event ∧ c.waiting event = [(some scheduler, task)]
  := by
  have hsame : { c with events := c.events &&& ~~~event.mask }.getEventContext event
      = c.getEventContext event := by
    cases event <;> rfl
  unfold triggerEvent at h
  split at h
  · cases h
  · rename_i hset
    dsimp only at h
    rw [hsame] at h
    obtain ⟨s, hs, heq⟩ := Option.map_eq_some_iff.mp h
    obtain ⟨rfl, hrest⟩ := Prod.mk.inj heq
    refine ⟨rfl, ?_⟩
    obtain ⟨rfl, rfl⟩ := Prod.mk.inj hrest
    rw [waiting, if_neg hset, EventContext.waiter, hs]

end FdContext

namespace IOManager

open Transition Ledger

/-- The waiters for the events of all descriptors. -/
def pending (m : IOManager Cb) (k : ℕ × Event) : List (Waiter Cb) := (m.context k.1).waiting k.2

/-- What was handed to schedulers. -/
def handed (m : IOManager Cb) : List (Waiter Cb) := m.scheduled.map fun x => (some x.1, x.2)

/-- An event, if it is in a mask. -/
def eventIf (mask : Mask) (event : Event) : List Event := if mask &&& event.mask ≠ 0 then [event] else []

/-- The events of a mask, in the order in which they are triggered. -/
def eventsOf (mask : Mask) : List Event := eventIf mask .read ++ eventIf mask .write

/-- The entries for the waiters of some events of a descriptor. -/
def settle (c : FdContext Cb) (fd : ℕ) (how : Fate) (events : List Event) : List (WaiterEntry Cb) :=
  events.flatMap fun event => (c.waiting event).map fun w => .closed (fd, event) w how

/-- The entries for a successful operation, from what it was called with and what was awaited. -/
def Op.entries (m : IOManager Cb) : Op Cb → List (WaiterEntry Cb)
  | .addEvent caller fd event cb _ => [.opened (fd, event) (caller.eventContext cb).waiter]
  | .delEvent fd event _ => settle (m.context fd) fd .dropped [event]
  | .cancelEvent fd event _ => settle (m.context fd) fd .triggered [event]
  | .cancelAll fd _ => settle (m.context fd) fd .triggered (eventsOf (m.context fd).events)
  | .dispatch fd ready _ =>
      settle (m.context fd) fd .triggered (eventsOf (realEvents ready (m.context fd).events))

/-- A manager and its ledger. -/
structure Recorded (Cb : Type u) where
  manager : IOManager Cb
  log : List (WaiterEntry Cb)

/-- A step of a run: an operation, with its entries if it succeeds. -/
def Recorded.step (s : Recorded Cb) (op : Op Cb) : Option (Recorded Cb) :=
  (op.exec s.manager).map fun (ok, m) => ⟨m, if ok then s.log ++ op.entries s.manager else s.log⟩

/-- The manager after its construction, with an empty ledger. -/
def Recorded.new (now : ℕ) : Recorded Cb := ⟨IOManager.new now, []⟩

variable {m m' : IOManager Cb} {fd : ℕ} {event : Event} {mask : Mask}

/-! ### What an operation does to the waiters -/

/-- The waiters for some events of a descriptor are gone. -/
def Cleared (m m' : IOManager Cb) (fd : ℕ) (events : List Event) : Prop :=
  ∀ k, m'.pending k = if k.1 = fd ∧ k.2 ∈ events then [] else m.pending k

/-- The waiters for some events of a descriptor are gone, and were handed to their schedulers. -/
structure Fired (m m' : IOManager Cb) (fd : ℕ) (events : List Event) : Prop where
  cleared : m.Cleared m' fd events
  handed : m'.handed = m.handed ++ events.flatMap (m.context fd).waiting

/-- Nobody is gone, come or scheduled. -/
structure Quiet (m m' : IOManager Cb) : Prop where
  pending : m'.pending = m.pending
  handed : m'.handed = m.handed

theorem Quiet.refl (m : IOManager Cb) :
  m.Quiet m
  := ⟨rfl, rfl⟩

theorem Fired.refl (m : IOManager Cb) (fd : ℕ) :
  m.Fired m fd []
  := ⟨fun _ => by simp, by simp⟩

/-- First the ones, then the others. -/
theorem Fired.trans {m₁ : IOManager Cb} {events events' : List Event} (h : m.Fired m₁ fd events)
    (h' : m₁.Fired m' fd events') (hdisjoint : ∀ event ∈ events', event ∉ events) :
  m.Fired m' fd (events ++ events')
  := by
  have hkeep : ∀ event ∈ events', (m₁.context fd).waiting event = (m.context fd).waiting event := by
    intro event hevent
    have hk := h.cleared (fd, event)
    rw [if_neg fun hboth => hdisjoint event hevent hboth.2] at hk
    apply hk
  constructor
  · intro k
    rw [h'.cleared, h.cleared]
    simp only [List.mem_append]
    split_ifs <;> first | rfl | (exfalso; tauto)
  · rw [h'.handed, h.handed, List.append_assoc, List.flatMap_append, List.flatMap_congr hkeep]

theorem cleared_of_context
    (hcontext : m'.context = Function.update m.context fd ((m.context fd).clear event)) :
  m.Cleared m' fd [event]
  := by
  intro k
  rw [pending, pending, hcontext]
  by_cases hk : k.1 = fd
  · rw [hk, Function.update_self, FdContext.waiting_clear]
    simp only [List.mem_singleton, true_and]
  · rw [Function.update_of_ne hk, if_neg fun h => hk h.1]

/-- `triggerEvent` in a context of the manager. -/
theorem trigger_fired (h : m.trigger fd event = some m') :
  m.Fired m' fd [event]
  := by
  obtain ⟨c, hget, h⟩ := Option.bind_eq_some_iff.mp h
  obtain ⟨⟨c', scheduler, task⟩, htrigger, h⟩ := Option.bind_eq_some_iff.mp h
  obtain ⟨hfd, rfl⟩ := context_of_getElem? hget
  obtain ⟨rfl, hwaiting⟩ := FdContext.triggerEvent_eq_some htrigger
  obtain rfl := Option.some.inj h
  refine ⟨cleared_of_context (context_set hfd _ rfl), ?_⟩
  rw [List.flatMap_singleton, hwaiting]
  exact List.map_append

theorem triggerIf_fired (h : m.triggerIf fd mask event = some m') :
  m.Fired m' fd (eventIf mask event)
  := by
  rw [eventIf]
  unfold triggerIf at h
  split at h
  · rename_i hmask
    rw [if_pos hmask]
    apply trigger_fired h
  · rename_i hmask
    obtain rfl := Option.some.inj h
    rw [if_neg hmask]
    apply Fired.refl

/-- What the context awaits of the write event is the same after the read event was triggered. -/
theorem triggerIf_read_and_write {m₁ : IOManager Cb} (h : m.triggerIf fd mask .read = some m₁) :
  (m₁.context fd).events &&& Event.write.mask = (m.context fd).events &&& Event.write.mask
  := by
  unfold triggerIf at h
  split at h
  · obtain ⟨c, hget, h⟩ := Option.bind_eq_some_iff.mp h
    obtain ⟨⟨c', scheduler, task⟩, htrigger, h⟩ := Option.bind_eq_some_iff.mp h
    obtain ⟨hfd, rfl⟩ := context_of_getElem? hget
    obtain ⟨rfl, -⟩ := FdContext.triggerEvent_eq_some htrigger
    obtain rfl := Option.some.inj h
    rw [context_set hfd _ rfl, Function.update_self, FdContext.events_clear,
      Event.and_not_and_of_ne (by decide)]
  · obtain rfl := Option.some.inj h
    rfl

theorem mem_eventIf {mask : Mask} {event event' : Event} (h : event' ∈ eventIf mask event) :
  event' = event
  := by
  unfold eventIf at h
  split at h
  · simpa using h
  · simp at h

/-- The events of a mask are triggered, the read event first. -/
theorem fired_of_triggerIf {m₁ : IOManager Cb} {mask' : Mask}
    (hmask : mask' &&& Event.write.mask = mask &&& Event.write.mask)
    (hread : m.triggerIf fd mask .read = some m₁) (hwrite : m₁.triggerIf fd mask' .write = some m') :
  m.Fired m' fd (eventsOf mask)
  := by
  have hsame : eventIf mask' .write = eventIf mask .write := by rw [eventIf, eventIf, hmask]
  have hsecond := triggerIf_fired hwrite
  rw [hsame] at hsecond
  apply (triggerIf_fired hread).trans hsecond
  intro event hw hr
  have := (mem_eventIf hw).symm.trans (mem_eventIf hr)
  cases this

/-! ### What the operations do to the waiters -/

/-- What an operation does: if it fails nobody is concerned, and if it succeeds the waiters for some events of
a descriptor are scheduled, or dropped, or one is added. -/
inductive Effect (m m' : IOManager Cb) : Op Cb → Bool → Prop where
  | failed (op : Op Cb) (hquiet : m.Quiet m') : Effect m m' op false
  | added (caller : Caller) (fd : ℕ) (event : Event) (cb : Option Cb) (result : Bool)
      (hfree : m.pending (fd, event) = [])
      (hpending : m'.pending = Function.update m.pending (fd, event) [(caller.eventContext cb).waiter])
      (hhanded : m'.handed = m.handed) :
      Effect m m' (.addEvent caller fd event cb result) true
  | dropped (fd : ℕ) (event : Event) (result : Bool) (hcleared : m.Cleared m' fd [event])
      (hhanded : m'.handed = m.handed) : Effect m m' (.delEvent fd event result) true
  | fired (op : Op Cb) (fd : ℕ) (events : List Event)
      (hentries : op.entries m = settle (m.context fd) fd .triggered events) (hevents : events.Nodup)
      (hfired : m.Fired m' fd events) : Effect m m' op true

theorem eventsOf_nodup (mask : Mask) :
  (eventsOf mask).Nodup
  := by
  unfold eventsOf eventIf
  split
  · split
    · decide
    · decide
  · split
    · decide
    · decide

theorem withContext_quiet (m : IOManager Cb) (fd : ℕ) :
  m.Quiet (m.withContext fd)
  := by
  unfold withContext
  split
  · apply Quiet.refl
  · rename_i hfd
    refine ⟨?_, rfl⟩
    funext k
    rw [pending, pending, context_contextResize (by omega)]

theorem pending_await (hfd : fd < m.fdContexts.length) {e : EventContext Cb}
    (hcontexts : m'.fdContexts = m.fdContexts.set fd ((m.context fd).await event e)) :
  m'.pending = Function.update m.pending (fd, event) [e.waiter]
  := by
  funext ⟨fd', event'⟩
  rw [pending, context_set hfd _ hcontexts]
  by_cases hk : fd' = fd
  · subst hk
    rw [Function.update_self, FdContext.waiting_await]
    by_cases hevent : event' = event
    · subst hevent
      rw [if_pos rfl, Function.update_self]
    · rw [if_neg hevent, Function.update_of_ne (by simp [hevent])]
      rfl
  · rw [Function.update_of_ne hk, Function.update_of_ne (by simp [hk])]
    rfl

theorem addEvent_effect {caller : Caller} {cb : Option Cb} {result ok : Bool}
    (h : (m.addEvent caller fd event cb result).map IOManager.added = some (ok, m')) :
  m.Effect m' (.addEvent caller fd event cb result) ok
  := by
  have hquiet := m.withContext_quiet fd
  obtain ⟨⟨rt, m''⟩, hadd, heq⟩ := Option.map_eq_some_iff.mp h
  obtain ⟨hok, rfl⟩ := Prod.mk.inj heq
  unfold addEvent at hadd
  generalize m.withContext fd = m₀ at hquiet hadd
  dsimp only at hadd
  split at hadd
  · cases hadd
  · rename_i c hget
    obtain ⟨hfd, rfl⟩ := context_of_getElem? hget
    split at hadd
    · cases hadd
    · rename_i hfree
      split at hadd
      · obtain ⟨rfl, rfl⟩ := Prod.mk.inj (Option.some.inj hadd)
        obtain rfl : false = ok := by simpa using hok
        exact .failed _ hquiet
      · split at hadd
        · cases hadd
        · split at hadd
          · cases hadd
          · obtain ⟨rfl, rfl⟩ := Prod.mk.inj (Option.some.inj hadd)
            obtain rfl : true = ok := by simpa using hok
            refine .added _ _ _ _ _ ?_ ?_ hquiet.handed
            · rw [← hquiet.pending, pending, FdContext.waiting, if_pos (not_not.mp hfree)]
            · rw [← hquiet.pending]
              apply pending_await hfd rfl

theorem delEvent_effect {result ok : Bool} (h : m.delEvent fd event result = (ok, m')) :
  m.Effect m' (.delEvent fd event result) ok
  := by
  have hfailed : (false, m) = (ok, m') → m.Effect m' (.delEvent fd event result) ok := by
    intro heq
    obtain ⟨rfl, rfl⟩ := Prod.mk.inj heq
    exact .failed _ (.refl m)
  unfold delEvent at h
  split at h
  · apply hfailed h
  · rename_i c hget
    obtain ⟨hfd, rfl⟩ := context_of_getElem? hget
    split at h
    · apply hfailed h
    · dsimp only at h
      split at h
      · apply hfailed h
      · obtain ⟨rfl, rfl⟩ := Prod.mk.inj h
        exact .dropped _ _ _ (cleared_of_context (context_set hfd _ rfl)) rfl

theorem cancelEvent_effect {result ok : Bool} (h : m.cancelEvent fd event result = some (ok, m')) :
  m.Effect m' (.cancelEvent fd event result) ok
  := by
  have hfailed : some (false, m) = some (ok, m') → m.Effect m' (.cancelEvent fd event result) ok := by
    intro heq
    obtain ⟨rfl, rfl⟩ := Prod.mk.inj (Option.some.inj heq)
    exact .failed _ (.refl m)
  unfold cancelEvent at h
  split at h
  · apply hfailed h
  · split at h
    · apply hfailed h
    · dsimp only at h
      split at h
      · apply hfailed h
      · obtain ⟨m'', htrigger, heq⟩ := Option.map_eq_some_iff.mp h
        obtain ⟨rfl, rfl⟩ := Prod.mk.inj heq
        have hfired := trigger_fired htrigger
        exact .fired _ fd [event] rfl (by simp) ⟨hfired.cleared, hfired.handed⟩

theorem cancelAll_effect {result ok : Bool} (h : m.cancelAll fd result = some (ok, m')) :
  m.Effect m' (.cancelAll fd result) ok
  := by
  have hfailed : some (false, m) = some (ok, m') → m.Effect m' (.cancelAll fd result) ok := by
    intro heq
    obtain ⟨rfl, rfl⟩ := Prod.mk.inj (Option.some.inj heq)
    exact .failed _ (.refl m)
  unfold cancelAll at h
  split at h
  · apply hfailed h
  · rename_i c hget
    obtain ⟨hfd, rfl⟩ := context_of_getElem? hget
    split at h
    · apply hfailed h
    · split at h
      · apply hfailed h
      · obtain ⟨m₁, hread, h₁⟩ := Option.bind_eq_some_iff.mp h
        obtain ⟨c₁, hget₁, h₂⟩ := Option.bind_eq_some_iff.mp h₁
        obtain ⟨m₂, hwrite, h₃⟩ := Option.bind_eq_some_iff.mp h₂
        obtain ⟨c₂, -, h₄⟩ := Option.bind_eq_some_iff.mp h₃
        obtain ⟨-, rfl⟩ := context_of_getElem? hget₁
        split at h₄
        · obtain ⟨rfl, rfl⟩ := Prod.mk.inj (Option.some.inj h₄)
          have hfired := fired_of_triggerIf (triggerIf_read_and_write hread) hread hwrite
          exact .fired _ fd _ rfl (eventsOf_nodup _) ⟨hfired.cleared, hfired.handed⟩
        · cases h₄

theorem dispatch_effect {ready : Mask} {result ok : Bool} (h : m.dispatch fd ready result = some (ok, m')) :
  m.Effect m' (.dispatch fd ready result) ok
  := by
  have hfailed : some (false, m) = some (ok, m') → m.Effect m' (.dispatch fd ready result) ok := by
    intro heq
    obtain ⟨rfl, rfl⟩ := Prod.mk.inj (Option.some.inj heq)
    exact .failed _ (.refl m)
  obtain ⟨c, hget, h⟩ := Option.bind_eq_some_iff.mp h
  obtain ⟨hfd, rfl⟩ := context_of_getElem? hget
  dsimp only at h
  split at h
  · apply hfailed h
  · split at h
    · apply hfailed h
    · obtain ⟨m₁, hread, h⟩ := Option.bind_eq_some_iff.mp h
      obtain ⟨m₂, hwrite, h⟩ := Option.bind_eq_some_iff.mp h
      obtain ⟨rfl, rfl⟩ := Prod.mk.inj (Option.some.inj h)
      have hfired := fired_of_triggerIf rfl hread hwrite
      exact .fired _ fd _ rfl (eventsOf_nodup _) ⟨hfired.cleared, hfired.handed⟩

theorem exec_effect {op : Op Cb} {ok : Bool} (h : op.exec m = some (ok, m')) :
  m.Effect m' op ok
  := by
  cases op with
  | addEvent caller fd event cb result => apply addEvent_effect h
  | delEvent fd event result => apply delEvent_effect (Option.some.inj h)
  | cancelEvent fd event result => apply cancelEvent_effect h
  | cancelAll fd result => apply cancelAll_effect h
  | dispatch fd ready result => apply dispatch_effect h

/-! ### The ledger -/

/-- The waiters for some events of a descriptor are settled. -/
theorem balanced_settle {log : List (WaiterEntry Cb)} {waiters : ℕ × Event → List (Waiter Cb)}
    (h : Balanced log waiters) (c : FdContext Cb) (how : Fate) {events : List Event} (hnodup : events.Nodup)
    (hwaiters : ∀ event ∈ events, waiters (fd, event) = c.waiting event) :
  Balanced (log ++ settle c fd how events)
    (fun k => if k.1 = fd ∧ k.2 ∈ events then [] else waiters k)
  := by
  induction events generalizing log waiters with
  | nil => simpa [settle] using h
  | cons event events ih =>
      obtain ⟨hnew, hrest⟩ := List.nodup_cons.mp hnodup
      have hfirst : Balanced (log ++ settle c fd how [event]) (Function.update waiters (fd, event) []) := by
        have hw := hwaiters event List.mem_cons_self
        rcases c.waiting_cases event with hnone | ⟨w, hone⟩
        · rw [hnone] at hw
          rw [← hw, Function.update_eq_self]
          simpa [settle, hnone] using h
        · rw [hone] at hw
          have hclosed := h.closed (fd, event) how hw rfl
          simpa [settle, hone] using hclosed
      have hafter := ih hfirst hrest fun event' hevent' => by
        have hne : event' ≠ event := by
          rintro rfl
          apply hnew hevent'
        rw [Function.update_of_ne (by simp [hne])]
        apply hwaiters event' (List.mem_cons_of_mem _ hevent')
      have hlog : log ++ settle c fd how (event :: events)
          = log ++ settle c fd how [event] ++ settle c fd how events := by
        simp [settle]
      have hpending : (fun k => if k.1 = fd ∧ k.2 ∈ event :: events then [] else waiters k)
          = fun k => if k.1 = fd ∧ k.2 ∈ events then []
            else Function.update waiters (fd, event) [] k := by
        funext ⟨fd', event'⟩
        by_cases hk : fd' = fd ∧ event' = event
        · obtain ⟨rfl, rfl⟩ := hk
          simp
        · have hne : ((fd', event') : ℕ × Event) ≠ (fd, event) := by simpa using hk
          rw [Function.update_of_ne hne]
          simp only [List.mem_cons]
          have hiff : fd' = fd ∧ (event' = event ∨ event' ∈ events) ↔ fd' = fd ∧ event' ∈ events := by
            tauto
          simp only [hiff]
      rw [hlog, hpending]
      apply hafter

theorem settled_settle (c : FdContext Cb) (fd : ℕ) (how how' : Fate) (events : List Event) :
  settled how' (settle c fd how events) = if how = how' then events.flatMap c.waiting else []
  := by
  induction events with
  | nil => simp [settle, settled]
  | cons event events ih =>
      have hsplit : settle c fd how (event :: events) = settle c fd how [event] ++ settle c fd how events := by
        simp [settle]
      rw [hsplit, settled_append, ih]
      rcases c.waiting_cases event with hnone | ⟨w, hone⟩
      · simp [settle, settled, hnone]
      · split
        · rename_i hsame
          simp [settle, settled, hone, Entry.closedAs, hsame]
        · rename_i hother
          simp [settle, settled, hone, Entry.closedAs, hother]

/-- The ledger is balanced with what the contexts hold, and tells what was scheduled. -/
structure Recorded.Settled (s : Recorded Cb) : Prop where
  balanced : Balanced s.log s.manager.pending
  handed : s.manager.handed = settled .triggered s.log

/-- Waiters that are gone, as a function. -/
theorem Cleared.pending_eq {events : List Event} (h : m.Cleared m' fd events) :
  m'.pending = fun k => if k.1 = fd ∧ k.2 ∈ events then [] else m.pending k
  := funext h

variable {s s' : Recorded Cb}

theorem Recorded.Settled.step (h : s.Settled) {op : Op Cb} (hstep : s.step op = some s') :
  s'.Settled
  := by
  obtain ⟨⟨ok, m'⟩, hexec, rfl⟩ := Option.map_eq_some_iff.mp hstep
  have hbalanced := h.balanced
  cases exec_effect hexec with
  | failed _ hquiet =>
      refine ⟨?_, ?_⟩
      · simpa [hquiet.pending] using hbalanced
      · simpa [hquiet.handed] using h.handed
  | added caller fd event cb result hfree hpending hhanded =>
      refine ⟨hbalanced.opened (fd, event) (caller.eventContext cb).waiter ?_, ?_⟩
      · rw [hpending, hfree, List.nil_append]
      · dsimp only
        rw [hhanded, h.handed, if_pos rfl, settled_append]
        simp [Op.entries, settled, Entry.closedAs]
  | dropped fd event result hcleared hhanded =>
      have hentries : (Op.delEvent fd event result).entries s.manager
          = settle (s.manager.context fd) fd .dropped [event] := rfl
      dsimp only
      rw [if_pos rfl, hentries]
      refine ⟨?_, ?_⟩
      · rw [hcleared.pending_eq]
        apply balanced_settle hbalanced _ _ (by simp)
        intro event' hevent'
        rfl
      · rw [hhanded, h.handed, settled_append, settled_settle]
        simp
  | fired _ fd events hentries hevents hfired =>
      dsimp only
      rw [if_pos rfl, hentries]
      refine ⟨?_, ?_⟩
      · rw [hfired.cleared.pending_eq]
        apply balanced_settle hbalanced _ _ hevents
        intro event' hevent'
        rfl
      · rw [hfired.handed, h.handed, settled_append, settled_settle, if_pos rfl]

theorem new_settled (now : ℕ) :
  (Recorded.new now : Recorded Cb).Settled
  := by
  have hnone : (IOManager.new now : IOManager Cb).pending = fun _ => [] := by
    funext ⟨fd, event⟩
    rw [pending, FdContext.waiting_eq_nil_iff, IOManager.new, context_contextResize (Nat.zero_le _)]
    simp [context]
  refine ⟨?_, rfl⟩
  rw [Recorded.new, hnone]
  exact balanced_nil

/-- Whatever is done with events, in any order, with any outcomes of `epoll_ctl`, as long as no assertion
fails and no null pointer is used: for each event of each descriptor the fibers and callbacks that were added
for it are those that were settled, in the same order, and then the one that is there exactly if the event is
awaited. The ones that were settled by a ready entry or a cancellation are those that were handed to a
scheduler, in order. -/
theorem run_settled (now : ℕ) {ops : List (Op Cb)} (h : run Recorded.step (.new now) ops = some s) :
  (∀ k, opens s.log k = closes s.log k ++ s.manager.pending k) ∧
    (∀ fd event, s.manager.pending (fd, event) = [] ↔ (s.manager.context fd).events &&& event.mask = 0) ∧
    s.manager.handed = settled .triggered s.log
  := by
  have hsettled : s.Settled := run_invariant (fun _ _ _ hs hstep => hs.step hstep) (new_settled now) h
  exact ⟨hsettled.balanced, fun fd event => FdContext.waiting_eq_nil_iff _ event, hsettled.handed⟩

theorem run_settled_sampleOps :
  ∃ s, run Recorded.step (.new 0) sampleOps = some s ∧
    (∀ k, opens s.log k = closes s.log k ++ s.manager.pending k) ∧
    (∀ fd event, s.manager.pending (fd, event) = [] ↔ (s.manager.context fd).events &&& event.mask = 0) ∧
    s.manager.handed = settled .triggered s.log
  := by
  have hrun : (run Recorded.step (.new 0) sampleOps).isSome = true := by decide
  obtain ⟨s, hs⟩ := Option.isSome_iff_exists.mp hrun
  exact ⟨s, hs, run_settled 0 hs⟩

end IOManager
